import Mathlib.Algebra.Ring.Nat
import Mathlib.Data.List.Forall2
import Mathlib.Data.List.Induction

/-!
# Elements of a list by their positions

What lies where in a list with an element put behind it (`getElem?_concat_iff`,
`concat_eq_append_cons`), in two lists related place by place (`getElem?_of_forall₂`,
`forall₂_take`) and in a concatenation of one-element lists (`getElem?_flatMap`), which element of a
kind is the last (`exists_last`), and what replacing one does to a sum over all (`sum_map_set`).
-/

namespace Positions

variable {α β : Type*}

/-- A list with an element behind it has its own elements where it had them. -/
theorem getElem?_concat_iff {l : List α} {a b : α} {k : ℕ} :
    (l ++ [a])[k]? = some b ↔ l[k]? = some b ∨ k = l.length ∧ b = a := by
  by_cases hlt : k < l.length
  · rw [List.getElem?_append_left hlt]
    exact ⟨.inl, fun h => h.resolve_right fun hk => absurd hk.1 (Nat.ne_of_lt hlt)⟩
  · have hnone : l[k]? = none := List.getElem?_eq_none (by omega)
    rw [hnone, List.getElem?_append_right (by omega), List.getElem?_singleton]
    by_cases hk : k = l.length
    · rw [if_pos (by omega), Option.some.injEq]
      exact ⟨fun h => .inr ⟨hk, h.symm⟩, fun h => (h.resolve_left nofun).2.symm⟩
    · rw [if_neg (by omega)]
      exact ⟨nofun, fun h => absurd (h.resolve_left nofun).1 hk⟩

/-- An element of a list with one behind it is that one or is in the list. -/
theorem concat_eq_append_cons {l l₁ l₂ : List α} {a b : α} (h : l ++ [a] = l₁ ++ b :: l₂) :
    (l₂ = [] ∧ l = l₁ ∧ a = b) ∨ ∃ l₃, l₂ = l₃ ++ [a] ∧ l = l₁ ++ b :: l₃ := by
  rcases l₂.eq_nil_or_concat' with rfl | ⟨l₃, c, rfl⟩
  · obtain ⟨hl, hlast⟩ := List.append_inj' h rfl
    exact .inl ⟨rfl, hl, List.singleton_inj.mp hlast⟩
  · rw [← List.cons_append, ← List.append_assoc] at h
    obtain ⟨hl, hlast⟩ := List.append_inj' h rfl
    exact .inr ⟨l₃, by rw [List.singleton_inj.mp hlast], hl⟩

/-- What holds of each element and those before it. -/
theorem forall_concat {P : List α → α → Prop} {l : List α} {a : α}
    (h : ∀ (k : ℕ) b, l[k]? = some b → P (l.take k) b) (ha : P l a) (k : ℕ) (b : α)
    (hk : (l ++ [a])[k]? = some b) : P ((l ++ [a]).take k) b := by
  rcases getElem?_concat_iff.mp hk with hk | ⟨rfl, rfl⟩
  · have hlt := (List.getElem?_eq_some_iff.mp hk).1
    rw [List.take_append_of_le_length (Nat.le_of_lt hlt)]
    exact h k b hk
  · rw [List.take_left]
    exact ha

/-- Taking one element more from the front moves it from what is left to what is taken. -/
theorem take_succ_of_drop {l rest : List α} {n : ℕ} {a : α} (h : l.drop n = a :: rest) :
    l.take (n + 1) = l.take n ++ [a] ∧ l.drop (n + 1) = rest ∧ l[n]? = some a := by
  have hn : l[n]? = some a := by rw [← List.head?_drop, h, List.head?_cons]
  refine ⟨?_, ?_, hn⟩
  · rw [List.take_add_one, hn, Option.toList_some]
  · rw [← List.tail_drop, h, List.tail_cons]

theorem getElem?_of_forall₂ {R : α → β → Prop} {l : List α} {l' : List β}
    (h : List.Forall₂ R l l') :
    ∀ {k : ℕ} {b : β}, l'[k]? = some b → ∃ a, l[k]? = some a ∧ R a b := by
  induction h with
  | nil => intro k b hk; simp at hk
  | @cons a b' as bs hab _ ih =>
    intro k b hk
    cases k with
    | zero =>
      simp only [List.getElem?_cons_zero, Option.some.injEq] at hk
      exact ⟨a, rfl, hk ▸ hab⟩
    | succ k => exact ih (by simpa using hk)

theorem forall₂_take {R : α → β → Prop} {l : List α} {l' : List β} {n : ℕ}
    (hlen : l'.length = l.length)
    (h : ∀ (k : ℕ) (a : α) (b : β), k < n → l[k]? = some a → l'[k]? = some b → R a b) :
    List.Forall₂ R (l.take n) (l'.take n) := by
  rw [List.forall₂_iff_get]
  refine ⟨by simp [hlen], fun k h1 h2 => ?_⟩
  simp only [List.length_take] at h1 h2
  refine h k _ _ (by omega) ?_ ?_
  · simp only [List.get_eq_getElem, List.getElem_take]
    exact List.getElem?_eq_getElem (by omega)
  · simp only [List.get_eq_getElem, List.getElem_take]
    exact List.getElem?_eq_getElem (by omega)

/-- The `k`-th element of a concatenation of one-element lists is that of the `k`-th list. -/
theorem getElem?_flatMap {f : α → List β} :
    ∀ {l : List α}, (∀ a ∈ l, ∃ b, f a = [b]) → ∀ {k : ℕ} {b : β}, (l.flatMap f)[k]? = some b →
      ∃ a, l[k]? = some a ∧ f a = [b]
  | [], _, k, b, hk => by simp at hk
  | a :: l, h, k, b, hk => by
    obtain ⟨b', hb'⟩ := h a List.mem_cons_self
    rw [List.flatMap_cons, hb', List.singleton_append] at hk
    cases k with
    | zero =>
      simp only [List.getElem?_cons_zero, Option.some.injEq] at hk
      exact ⟨a, rfl, hk ▸ hb'⟩
    | succ k =>
      obtain ⟨a', ha', hf⟩ := getElem?_flatMap (fun a ha => h a (List.mem_cons_of_mem _ ha))
        (k := k) (by simpa using hk)
      exact ⟨a', by simpa using ha', hf⟩

/-- Of the elements with a property one is the last. -/
theorem exists_last {P : α → Prop} {l : List α} :
    (∃ a ∈ l, P a) → ∃ (k : ℕ) (a : α), l[k]? = some a ∧ P a ∧
      ∀ (j : ℕ) (b : α), k < j → l[j]? = some b → ¬ P b := by
  induction l using List.reverseRecOn with
  | nil => exact fun ⟨a, ha, _⟩ => absurd ha List.not_mem_nil
  | append_singleton l b ih =>
    rintro ⟨a, ha, hP⟩
    by_cases hb : P b
    · refine ⟨l.length, b, getElem?_concat_iff.mpr (.inr ⟨rfl, rfl⟩), hb, fun j c hj hc => ?_⟩
      have hlt := (List.getElem?_eq_some_iff.mp hc).1
      rw [List.length_append, List.length_singleton] at hlt
      omega
    · have hl : a ∈ l := (List.mem_append.mp ha).resolve_right fun h =>
        hb (List.mem_singleton.mp h ▸ hP)
      obtain ⟨k, c, hk, hc, hlast⟩ := ih ⟨a, hl, hP⟩
      refine ⟨k, c, getElem?_concat_iff.mpr (.inl hk), hc, fun j x hj hx => ?_⟩
      rcases getElem?_concat_iff.mp hx with hx | ⟨-, rfl⟩
      · exact hlast j x hj hx
      · exact hb

theorem getElem?_set_cases {l : List α} {i k : ℕ} {a b : α} (h : (l.set i a)[k]? = some b) :
    k = i ∧ b = a ∨ k ≠ i ∧ l[k]? = some b := by
  by_cases hk : k = i
  · subst hk
    have hlt := (List.getElem?_eq_some_iff.mp h).1
    rw [List.length_set] at hlt
    rw [List.getElem?_set_self hlt] at h
    exact .inl ⟨rfl, (Option.some.inj h).symm⟩
  · rw [List.getElem?_set_ne (Ne.symm hk)] at h
    exact .inr ⟨hk, h⟩

/-- What a sum over a list is where one element is replaced. -/
theorem sum_map_set {l : List α} (f : α → ℕ) {a b : α} :
    ∀ {k : ℕ}, l[k]? = some a → ((l.set k b).map f).sum + f a = (l.map f).sum + f b := by
  induction l with
  | nil => exact fun h => nomatch h
  | cons x l ih =>
    intro k hk
    cases k with
    | zero =>
      cases hk
      simp only [List.set_cons_zero, List.map_cons, List.sum_cons]
      omega
    | succ k =>
      have h := ih (k := k) (by simpa using hk)
      simp only [List.set_cons_succ, List.map_cons, List.sum_cons]
      omega

end Positions
