import Mathlib.Data.List.Basic

/-!
# Positions in a filtered list

An element of a list is found in the filtered list at the number of elements before it that pass the
filter (`getElem?_filter_iff`), and numbering only the elements that pass numbers each by its rank
(`mem_number_iff`).  Turning elements off moves an element's rank exactly when one before it is
turned off (`countP_le_and_eq_iff`).
-/

namespace Filtered

variable {α β : Type*} {p : α → Bool}

theorem getElem?_filter_iff : ∀ {l : List α} {r : ℕ} {a : α},
    (l.filter p)[r]? = some a ↔
      ∃ j, l[j]? = some a ∧ p a = true ∧ (l.take j).countP p = r
  | [], r, a => by simp
  | x :: l, r, a => by
    by_cases hx : p x = true
    · rw [List.filter_cons_of_pos hx]
      cases r with
      | zero =>
        simp only [List.getElem?_cons_zero, Option.some.injEq]
        constructor
        · rintro rfl
          exact ⟨0, rfl, hx, rfl⟩
        · rintro ⟨j, hj, -, hr⟩
          cases j with
          | zero => simpa using hj
          | succ j => simp [hx] at hr
      | succ r =>
        rw [List.getElem?_cons_succ, getElem?_filter_iff]
        constructor
        · rintro ⟨j, hj, ha, hr⟩
          exact ⟨j + 1, hj, ha, by rw [List.take_succ_cons, List.countP_cons_of_pos hx, hr]⟩
        · rintro ⟨j, hj, ha, hr⟩
          cases j with
          | zero => simp at hr
          | succ j =>
            rw [List.take_succ_cons, List.countP_cons_of_pos hx] at hr
            exact ⟨j, hj, ha, Nat.succ.inj hr⟩
    · rw [List.filter_cons_of_neg hx, getElem?_filter_iff]
      constructor
      · rintro ⟨j, hj, ha, hr⟩
        exact ⟨j + 1, hj, ha, by rw [List.take_succ_cons, List.countP_cons_of_neg hx, hr]⟩
      · rintro ⟨j, hj, ha, hr⟩
        cases j with
        | zero =>
          simp only [List.getElem?_cons_zero, Option.some.injEq] at hj
          exact absurd (hj ▸ ha) hx
        | succ j =>
          rw [List.take_succ_cons, List.countP_cons_of_neg hx] at hr
          exact ⟨j, hj, ha, hr⟩

/-- The elements that pass, each as its place in the list and its number from `n` on. -/
def number (p : α → Bool) : ℕ → ℕ → List α → List (ℕ × ℕ)
  | _, _, [] => []
  | i, n, a :: l => if p a then (i, n) :: number p (i + 1) (n + 1) l else number p (i + 1) n l

theorem mem_number_iff : ∀ {l : List α} {i n : ℕ} {q : ℕ × ℕ},
    q ∈ number p i n l ↔
      ∃ k a, l[k]? = some a ∧ p a = true ∧ q = (i + k, n + (l.take k).countP p)
  | [], i, n, q => by simp [number]
  | x :: l, i, n, q => by
    unfold number
    by_cases hx : p x = true
    · rw [if_pos hx, List.mem_cons, mem_number_iff]
      constructor
      · rintro (rfl | ⟨k, a, hk, ha, rfl⟩)
        · exact ⟨0, x, rfl, hx, rfl⟩
        · refine ⟨k + 1, a, hk, ha, ?_⟩
          rw [List.take_succ_cons, List.countP_cons_of_pos hx]
          simp only [Prod.mk.injEq]
          omega
      · rintro ⟨k, a, hk, ha, rfl⟩
        cases k with
        | zero => exact .inl rfl
        | succ k =>
          refine .inr ⟨k, a, hk, ha, ?_⟩
          rw [List.take_succ_cons, List.countP_cons_of_pos hx]
          simp only [Prod.mk.injEq]
          omega
    · rw [if_neg hx, mem_number_iff]
      constructor
      · rintro ⟨k, a, hk, ha, rfl⟩
        refine ⟨k + 1, a, hk, ha, ?_⟩
        rw [List.take_succ_cons, List.countP_cons_of_neg hx]
        exact Prod.ext (Nat.add_right_comm i 1 k) rfl
      · rintro ⟨k, a, hk, ha, rfl⟩
        cases k with
        | zero =>
          simp only [List.getElem?_cons_zero, Option.some.injEq] at hk
          exact absurd (hk ▸ ha) hx
        | succ k =>
          refine ⟨k, a, hk, ha, ?_⟩
          rw [List.take_succ_cons, List.countP_cons_of_neg hx]
          exact Prod.ext (Nat.add_right_comm i k 1) rfl

/-- Where elements are only turned off, no more pass, and as many pass exactly when none is. -/
theorem countP_le_and_eq_iff {l l' : List α}
    (h : List.Forall₂ (fun a b => p b = true → p a = true) l l') :
    l'.countP p ≤ l.countP p ∧ (l'.countP p = l.countP p ↔
      List.Forall₂ (fun a b => p a = true → p b = true) l l') := by
  induction h with
  | nil => simp
  | @cons a b l l' hab _ ih =>
    obtain ⟨hle, heq⟩ := ih
    simp only [List.forall₂_cons, ← heq, List.countP_cons]
    by_cases ha : p a = true
    · by_cases hb : p b = true
      · simp [ha, hb, hle]
      · simp only [ha, hb, if_true, if_false, forall_const, false_and, iff_false,
          Bool.false_eq_true]
        omega
    · have hb : ¬ p b = true := fun hb => ha (hab hb)
      simp [ha, hb, hle]

end Filtered
