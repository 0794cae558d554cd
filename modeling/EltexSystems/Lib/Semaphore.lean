import EltexSystems.Lib.Lts
import Mathlib.Data.Set.Insert
import Mathlib.Order.BooleanAlgebra.Set
import Mathlib.Data.Set.Subsingleton

/-!
# A semaphore used as a lock

A semaphore is created at 0, set to 1 and may be removed; a thread that waits for it takes it, or
passes without it once it is removed.  While it exists at most one thread is inside (`Held.step`),
and the threads inside are always of one group exactly when none passes while one of another group
is inside (`one_group_iff`).
-/

namespace Semaphore

/-- The semaphore's value, if it exists, and the threads inside. -/
structure Lock (τ : Type*) where
  value : Option ℕ
  inside : Set τ

inductive Move (τ : Type*) where
  | create
  | set
  | remove
  | take (t : τ)
  | pass (t : τ)
  | leave (t : τ)
  | stay

variable {τ ι : Type*}

inductive Step : Lock τ → Move τ → Lock τ → Prop where
  | create {k : Lock τ} : k.value = none → k.inside = ∅ → Step k .create ⟨some 0, k.inside⟩
  | set {k : Lock τ} : k.value = some 0 → k.inside = ∅ → Step k .set ⟨some 1, k.inside⟩
  | remove {k : Lock τ} : Step k .remove ⟨none, k.inside⟩
  | take {k : Lock τ} {t : τ} {n : ℕ} : k.value = some (n + 1) →
      Step k (.take t) ⟨some n, insert t k.inside⟩
  | pass {k : Lock τ} {t : τ} : k.value = none → Step k (.pass t) ⟨none, insert t k.inside⟩
  | leave {k : Lock τ} {t : τ} : t ∈ k.inside →
      Step k (.leave t) ⟨k.value.map (· + 1), k.inside \ {t}⟩
  | stay {k : Lock τ} : Step k .stay k

def lockLts : Lts (Lock τ) (Move τ) where
  init k := k = ⟨none, ∅⟩
  step := Step

/-- Either the semaphore is free and nobody is inside, or it is taken by one thread at most. -/
def Held (k : Lock τ) : Prop :=
  ∀ n, k.value = some n → (n = 1 ∧ k.inside = ∅) ∨ (n = 0 ∧ k.inside.Subsingleton)

theorem Held.step {k k' : Lock τ} {m : Move τ} (h : Held k) (hst : Step k m k') : Held k' := by
  intro n hn
  cases hst with
  | create _ he =>
    cases hn
    exact .inr ⟨rfl, he ▸ Set.subsingleton_empty⟩
  | set _ he =>
    cases hn
    exact .inl ⟨rfl, he⟩
  | remove => cases hn
  | take hv =>
    cases hn
    rcases h _ hv with ⟨h1, he⟩ | ⟨h0, -⟩
    · refine .inr ⟨Nat.succ.inj h1, ?_⟩
      show (insert _ k.inside).Subsingleton
      rw [he, insert_empty_eq]
      exact Set.subsingleton_singleton
    · cases h0
  | pass => cases hn
  | leave ht =>
    obtain ⟨n₀, hn₀, rfl⟩ := Option.map_eq_some_iff.mp hn
    rcases h n₀ hn₀ with ⟨-, he⟩ | ⟨rfl, hs⟩
    · rw [he] at ht
      exact absurd ht (Set.notMem_empty _)
    · refine .inl ⟨rfl, ?_⟩
      show k.inside \ _ = ∅
      rw [hs.eq_singleton_of_mem ht, sdiff_self]
      rfl
  | stay => exact h n hn

/-- The threads inside are of one group. -/
def OneGroup (g : τ → ι) (k : Lock τ) : Prop := ∀ t ∈ k.inside, ∀ t' ∈ k.inside, g t = g t'

/-- A thread does not pass while one of another group is inside. -/
def Clear (g : τ → ι) (k : Lock τ) : Move τ → Prop
  | .pass t => ∀ t' ∈ k.inside, g t' = g t
  | _ => True

variable {g : τ → ι}

theorem OneGroup.step {k k' : Lock τ} {m : Move τ} (h : OneGroup g k) (hh : Held k)
    (hc : Clear g k m) (hst : Step k m k') : OneGroup g k' := by
  cases hst with
  | @take t n hv =>
    rcases hh _ hv with ⟨-, he⟩ | ⟨h0, -⟩
    · show OneGroup g ⟨_, insert t k.inside⟩
      rw [he, insert_empty_eq]
      rintro _ rfl _ rfl
      rfl
    · cases h0
  | pass =>
    rintro a (rfl | ha) b (rfl | hb)
    · rfl
    · exact (hc b hb).symm
    · exact hc a ha
    · exact h a ha b hb
  | leave => exact fun a ha b hb => h a ha.1 b hb.1
  | create => exact h
  | set => exact h
  | remove => exact h
  | stay => exact h

theorem one_group_iff {tr : List (Lock τ × Move τ)} {k : Lock τ} (h : lockLts.Run tr k) :
    (∀ v ∈ Lts.visited tr k, OneGroup g v) ↔ ∀ p ∈ tr, Clear g p.1 p.2 := by
  constructor
  · rintro hall ⟨v, m⟩ hp
    obtain ⟨u, hu, hst⟩ := h.after hp
    cases hst with
    | pass => exact fun t' ht' => hall _ hu t' (.inr ht') _ (.inl rfl)
    | _ => trivial
  · intro hclear v hv
    obtain ⟨tr₁, tr₂, rfl, hrun⟩ := h.visited hv
    refine (hrun.inv_when (I := fun k => OneGroup g k ∧ Held k) (C := Clear g) ?_ ?_
      fun p hp => hclear p (List.mem_append_left _ hp)).1
    · rintro k rfl
      exact ⟨fun t ht => absurd ht (Set.notMem_empty t), fun n hn => by cases hn⟩
    · exact fun k m k' hI hc hst => ⟨hI.1.step hI.2 hc hst, hI.2.step hst⟩

end Semaphore
