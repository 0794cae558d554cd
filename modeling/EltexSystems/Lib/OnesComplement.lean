import Mathlib.Data.Nat.ModEq
import Mathlib.Tactic.Ring

/-!
# One's complement addition

Adding words below a base `B` with end-around carry is addition modulo `B - 1` in which a sum that
is not zero is never written as zero: `rep B x` is that representative, the iterated addition of
words is `rep B` of their plain sum (`eacSum_eq`), and folding the carries of a plain sum back in
reaches it too (`foldOnce` keeps it, and below `B` it is the number itself).  So a sum reads as
all ones exactly when it is a positive multiple of `B - 1` (`eacSum_eq_ones`).
-/

namespace OnesComplement

/-- Addition with end-around carry. -/
def eac (B a b : ℕ) : ℕ := if a + b < B then a + b else a + b + 1 - B

/-- The words added one by one, the carry brought around after each. -/
def eacSum (B : ℕ) (ws : List ℕ) : ℕ := ws.foldl (eac B) 0

/-- A plain sum's carries folded back in once. -/
def foldOnce (B x : ℕ) : ℕ := x % B + x / B

/-- The representative of `x` modulo `B - 1` that is zero only for zero. -/
def rep (B x : ℕ) : ℕ := if x = 0 then 0 else (x - 1) % (B - 1) + 1

variable {B : ℕ}

@[simp] theorem rep_zero : rep B 0 = 0 := by simp [rep]

theorem rep_lt (hB : 2 ≤ B) (x : ℕ) : rep B x < B := by
  unfold rep
  split_ifs
  · omega
  · have := Nat.mod_lt (x - 1) (show 0 < B - 1 by omega)
    omega

theorem rep_pos {x : ℕ} (hx : 0 < x) : 0 < rep B x := by
  simp only [rep, hx.ne', if_false]
  omega

theorem rep_of_lt {x : ℕ} (hx : x < B) : rep B x = x := by
  unfold rep
  split_ifs with h
  · exact h.symm
  · rw [Nat.mod_eq_of_lt (by omega)]
    omega

theorem rep_add_mul {x : ℕ} (hx : 0 < x) (k : ℕ) : rep B (x + (B - 1) * k) = rep B x := by
  have h1 : x + (B - 1) * k - 1 = x - 1 + (B - 1) * k := by omega
  rw [rep, rep, if_neg (by omega), if_neg hx.ne', h1, Nat.add_mul_mod_self_left]

/-- Past a positive sum, more leaves the representative as it is when it is a multiple of
`B - 1`. -/
theorem rep_add_eq_iff {x : ℕ} (hx : 0 < x) (y : ℕ) : rep B (x + y) = rep B x ↔ (B - 1) ∣ y := by
  have h1 : x + y - 1 = x - 1 + y := by omega
  rw [rep, rep, if_neg (by omega), if_neg hx.ne', h1, Nat.add_right_cancel_iff]
  exact Nat.add_modEq_left_iff

theorem exists_eq_rep_add (x : ℕ) : ∃ k, x = rep B x + (B - 1) * k := by
  unfold rep
  split_ifs with h
  · exact ⟨0, by simp [h]⟩
  · refine ⟨(x - 1) / (B - 1), ?_⟩
    have := Nat.mod_add_div (x - 1) (B - 1)
    omega

theorem rep_rep_add (x y : ℕ) : rep B (rep B x + y) = rep B (x + y) := by
  rcases Nat.eq_zero_or_pos x with rfl | hx
  · simp
  · obtain ⟨k, hk⟩ := exists_eq_rep_add (B := B) x
    have hpos : 0 < rep B x + y := Nat.add_pos_left (rep_pos hx) y
    conv_rhs => rw [hk, Nat.add_right_comm]
    rw [rep_add_mul hpos]

theorem eac_eq_rep (hB : 2 ≤ B) {a b : ℕ} (ha : a < B) (hb : b < B) :
    eac B a b = rep B (a + b) := by
  unfold eac
  split_ifs with h
  · exact (rep_of_lt h).symm
  · have hsplit : a + b = (a + b + 1 - B) + (B - 1) * 1 := by omega
    conv_rhs => rw [hsplit]
    rw [rep_add_mul (by omega), rep_of_lt (by omega)]

theorem foldl_eac (hB : 2 ≤ B) :
    ∀ (ws : List ℕ), (∀ w ∈ ws, w < B) → ∀ a, ws.foldl (eac B) (rep B a) = rep B (a + ws.sum)
  | [], _, a => by simp
  | w :: ws, h, a => by
    have hw := h w List.mem_cons_self
    rw [List.foldl_cons, eac_eq_rep hB (rep_lt hB a) hw, rep_rep_add,
      foldl_eac hB ws (fun v hv => h v (List.mem_cons_of_mem _ hv)), List.sum_cons, Nat.add_assoc]

/-- Bringing the carry around after each word gives the representative of the plain sum. -/
theorem eacSum_eq (hB : 2 ≤ B) {ws : List ℕ} (h : ∀ w ∈ ws, w < B) :
    eacSum B ws = rep B ws.sum := by
  have := foldl_eac hB ws h 0
  simpa [eacSum] using this

theorem rep_foldOnce (hB : 2 ≤ B) (x : ℕ) : rep B (foldOnce B x) = rep B x := by
  have hdm := Nat.mod_add_div x B
  rcases Nat.eq_zero_or_pos (x / B) with h0 | hq
  · simp only [foldOnce, h0, Nat.add_zero]
    rw [h0] at hdm
    rw [show x % B = x by omega]
  · have hx : x = foldOnce B x + (B - 1) * (x / B) := by
      have hmul : B * (x / B) = x / B + (B - 1) * (x / B) := by
        obtain ⟨m, rfl⟩ : ∃ m, B = m + 1 := ⟨B - 1, by omega⟩
        rw [Nat.add_sub_cancel, Nat.add_mul, Nat.one_mul, Nat.add_comm]
      simp only [foldOnce]
      omega
    conv_rhs => rw [hx]
    rw [rep_add_mul (by simp only [foldOnce]; omega)]

theorem foldOnce_lt {x : ℕ} (hB : 2 ≤ B) (h : B ≤ x) : foldOnce B x < x := by
  have hdm := Nat.mod_add_div x B
  have hq : 0 < x / B := Nat.div_pos h (by omega)
  have hlt : x / B < B * (x / B) := by
    calc x / B < 2 * (x / B) := by omega
      _ ≤ B * (x / B) := Nat.mul_le_mul_right _ hB
  simp only [foldOnce]
  omega

theorem rep_eq_ones (hB : 2 ≤ B) {x : ℕ} : rep B x = B - 1 ↔ 0 < x ∧ (B - 1) ∣ x := by
  constructor
  · intro h
    obtain ⟨k, hk⟩ := exists_eq_rep_add (B := B) x
    refine ⟨?_, ⟨1 + k, by rw [Nat.mul_add, Nat.mul_one]; omega⟩⟩
    rcases Nat.eq_zero_or_pos x with rfl | hx
    · simp only [rep_zero] at h
      omega
    · exact hx
  · rintro ⟨hx, k, rfl⟩
    obtain ⟨j, rfl⟩ : ∃ j, k = j + 1 := by
      rcases k with _ | j
      · simp at hx
      · exact ⟨j, rfl⟩
    rw [Nat.mul_add, Nat.mul_one, Nat.add_comm, rep_add_mul (by omega), rep_of_lt (by omega)]

theorem eacSum_eq_ones (hB : 2 ≤ B) {ws : List ℕ} (h : ∀ w ∈ ws, w < B) :
    eacSum B ws = B - 1 ↔ 0 < ws.sum ∧ (B - 1) ∣ ws.sum := by
  rw [eacSum_eq hB h, rep_eq_ones hB]

end OnesComplement
