import EltexSystems.Lib.Lts
import Mathlib.Data.List.Count

/-!
# Latches

A flag that is raised and taken: raised again before it is taken, it is taken once; and it may go
down without being taken.  So along a path there are at most as many takings as raisings
(`taken_le`), and behind every raising a taking or a loss unless the flag is still up (`answered`).
-/

namespace Latch

inductive Event where
  | raise
  | take
  | lose
  | other
  deriving DecidableEq, Repr

inductive Step : Bool → Event → Bool → Prop where
  | raise (up : Bool) : Step up .raise true
  | take : Step true .take false
  | lose (up : Bool) : Step up .lose false
  | other (up : Bool) : Step up .other up

/-- The latch is down at first. -/
def latch : Lts Bool Event where
  init up := up = false
  step := Step

def count (e : Event) (tr : List (Bool × Event)) : ℕ := tr.countP fun p => p.2 = e

theorem count_cons (e : Event) (p : Bool × Event) (tr : List (Bool × Event)) :
    count e (p :: tr) = count e tr + if p.2 = e then 1 else 0 := by
  simp [count, List.countP_cons]

variable {tr : List (Bool × Event)} {up up' : Bool}

theorem taken_le (h : latch.Path up tr up') :
    count .take tr + up'.toNat ≤ count .raise tr + up.toNat := by
  induction h with
  | nil => exact Nat.le_refl _
  | cons hst _ ih =>
    rw [count_cons, count_cons]
    cases hst with
    | raise up =>
      simp only [reduceCtorEq, if_true, if_false, Bool.toNat_true] at ih ⊢
      omega
    | take =>
      simp only [reduceCtorEq, if_true, if_false, Bool.toNat_false, Bool.toNat_true] at ih ⊢
      omega
    | lose up =>
      simp only [reduceCtorEq, if_false, Bool.toNat_false] at ih ⊢
      omega
    | other up =>
      simp only [reduceCtorEq, if_false] at ih ⊢
      exact ih

/-- A latch that is up stays so until it is taken or lost. -/
theorem up_or_down (h : latch.Path true tr up) :
    up = true ∨ (∃ b, (b, .take) ∈ tr) ∨ ∃ b, (b, .lose) ∈ tr := by
  induction tr generalizing up with
  | nil =>
    cases h
    exact .inl rfl
  | cons p tr ih =>
    cases h with
    | cons hst hp =>
      cases hst with
      | take => exact .inr (.inl ⟨_, List.mem_cons_self⟩)
      | lose => exact .inr (.inr ⟨_, List.mem_cons_self⟩)
      | raise | other =>
        exact (ih hp).imp_right fun h => h.imp (fun ⟨b, hb⟩ => ⟨b, List.mem_cons_of_mem _ hb⟩)
          fun ⟨b, hb⟩ => ⟨b, List.mem_cons_of_mem _ hb⟩

theorem answered {tr₁ tr₂ : List (Bool × Event)} {b : Bool}
    (h : latch.Path up (tr₁ ++ (b, .raise) :: tr₂) up') :
    up' = true ∨ (∃ b, (b, .take) ∈ tr₂) ∨ ∃ b, (b, .lose) ∈ tr₂ := by
  obtain ⟨t, -, hst, hp⟩ := h.through
  cases hst
  exact up_or_down hp

end Latch
