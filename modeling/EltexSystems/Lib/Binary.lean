import Mathlib.Data.Nat.Bitwise
import Mathlib.Tactic.Ring

/-!
# Binary notation

Texts of binary digits and the numbers they denote (`Denotes`), the notation of a number in a given
width (`word`), and bits picked out of a machine word by a mask and an arithmetic shift: below the
sign bit the result is the bit (`masked_low`), at the sign bit it is the bit's negation
(`masked_sign`).
-/

namespace Binary

def digit (b : Bool) : UInt8 := if b then 49 else 48

/-- The number a row of binary digits denotes, the highest first. -/
def value (ds : List UInt8) : ℕ := ds.foldl (fun v d => 2 * v + (d.toNat - 48)) 0

/-- The notation of a number in a given width. -/
structure Denotes (width v : ℕ) (ds : List UInt8) : Prop where
  length : ds.length = width
  digits : ∀ d ∈ ds, d = 48 ∨ d = 49
  value : value ds = v

/-- The lowest digits of a number, the highest of them first. -/
def word : ℕ → ℕ → List UInt8
  | 0, _ => []
  | n + 1, v => digit (v.testBit n) :: word n v

section Words

variable {n v : ℕ} {b : Bool}

theorem digit_cases (b : Bool) : digit b = 48 ∨ digit b = 49 := by
  cases b
  · exact .inl rfl
  · exact .inr rfl

theorem toNat_digit (b : Bool) : (digit b).toNat - 48 = b.toNat := by
  cases b <;> rfl

@[simp] theorem length_word (n v : ℕ) : (word n v).length = n := by
  induction n with
  | zero => rfl
  | succ n ih => rw [word, List.length_cons, ih]

theorem value_cons (d : UInt8) (ds : List UInt8) :
    value (d :: ds) = (d.toNat - 48) * 2 ^ ds.length + value ds := by
  have hfold : ∀ (es : List UInt8) (v : ℕ), es.foldl (fun v d => 2 * v + (d.toNat - 48)) v
      = v * 2 ^ es.length + value es := by
    intro es
    induction es with
    | nil => exact fun v => by simp [value]
    | cons e es ih =>
      intro v
      rw [value, List.foldl_cons, ih, List.foldl_cons, ih (2 * 0 + _), List.length_cons,
        Nat.pow_succ]
      ring
  rw [value, List.foldl_cons, hfold, Nat.mul_zero, Nat.zero_add]

/-- A word denotes the number modulo its width's power of two. -/
theorem denotes_word (n v : ℕ) : Denotes n (v % 2 ^ n) (word n v) := by
  induction n with
  | zero => exact ⟨rfl, List.forall_mem_nil _, by rw [Nat.pow_zero, Nat.mod_one]; rfl⟩
  | succ n ih =>
    refine ⟨length_word _ _, List.forall_mem_cons.mpr ⟨digit_cases _, ih.digits⟩, ?_⟩
    rw [word, value_cons, ih.value, ih.length, toNat_digit, Nat.mod_pow_succ,
      Nat.toNat_testBit]
    ring

theorem denotes_of_lt (h : v < 2 ^ n) : Denotes n v (word n v) := by
  have hword := denotes_word n v
  rwa [Nat.mod_eq_of_lt h] at hword

end Words

section Masks

variable {w k : ℕ} {x : BitVec w}

/-- The bit that a mask and an arithmetic shift pick out of a word. -/
def masked (x : BitVec w) (k : ℕ) : BitVec w := (x &&& 1#w <<< k).sshiftRight k

theorem getLsbD_bit (k j : ℕ) (hj : j < w) : (1#w <<< k).getLsbD j = decide (j = k) := by
  rw [BitVec.getLsbD_shiftLeft, BitVec.getLsbD_one]
  by_cases hjk : j = k
  · subst hjk
    simp [hj]
    omega
  · have hsub : ¬ j - k = 0 ∨ j < k := by omega
    rcases hsub with h | h
    · simp [hjk, h]
    · simp [hjk, h]

theorem getLsbD_and_bit (x : BitVec w) (k j : ℕ) (hj : j < w) :
    (x &&& 1#w <<< k).getLsbD j = (decide (j = k) && x.getLsbD k) := by
  rw [BitVec.getLsbD_and, getLsbD_bit k j hj]
  by_cases hjk : j = k
  · rw [hjk, decide_eq_true rfl, Bool.and_true, Bool.true_and]
  · rw [decide_eq_false hjk, Bool.and_false, Bool.false_and]

theorem msb_and_bit (x : BitVec w) (hk : k < w) :
    (x &&& 1#w <<< k).msb = (decide (k + 1 = w) && x.getLsbD k) := by
  have hlast : w - 1 = k ↔ k + 1 = w := by omega
  rw [BitVec.msb_eq_getLsbD_last, getLsbD_and_bit _ _ _ (by omega), decide_eq_decide.mpr hlast]

/-- Setting a bit that is clear adds it. -/
theorem or_bit (h : x.getLsbD k = false) : x ||| 1#w <<< k = x + 1#w <<< k := by
  rw [BitVec.add_eq_or_of_and_eq_zero]
  apply BitVec.eq_of_getLsbD_eq
  intro j hj
  rw [getLsbD_and_bit _ _ _ hj, h, Bool.and_false, BitVec.getLsbD_zero]

/-- Clearing a bit that is set subtracts it. -/
theorem and_not_bit (h : x.getLsbD k = true) : (x &&& ~~~(1#w <<< k)) + 1#w <<< k = x := by
  have hand : (x &&& ~~~(1#w <<< k)) &&& 1#w <<< k = 0#w := by
    rw [BitVec.and_assoc, BitVec.and_comm _ (1#w <<< k), BitVec.and_not_self]
    exact BitVec.and_zero
  rw [BitVec.add_eq_or_of_and_eq_zero _ _ hand]
  apply BitVec.eq_of_getLsbD_eq
  intro j hj
  rw [BitVec.getLsbD_or, BitVec.getLsbD_and, BitVec.getLsbD_not, getLsbD_bit k j hj,
    decide_eq_true hj, Bool.true_and]
  by_cases hjk : j = k
  · rw [hjk, decide_eq_true rfl, h, Bool.or_true]
  · rw [decide_eq_false hjk, Bool.or_false, Bool.not_false, Bool.and_true]

theorem bit_succ (w k : ℕ) : 1#w <<< (k + 1) = 1#w <<< k + 1#w <<< k := by
  apply BitVec.eq_of_toNat_eq
  rw [BitVec.shiftLeft_add, BitVec.toNat_shiftLeft, BitVec.toNat_add, Nat.shiftLeft_eq, Nat.pow_one,
    Nat.mul_two]

theorem masked_low (hk : k + 1 < w) : masked x k = if x.getLsbD k then 1#w else 0#w := by
  have hmsb : (x &&& 1#w <<< k).msb = false := by
    rw [msb_and_bit _ (by omega), decide_eq_false (by omega), Bool.false_and]
  apply BitVec.eq_of_getLsbD_eq
  intro j hj
  rw [masked, BitVec.getLsbD_sshiftRight, hmsb]
  have hif : (if x.getLsbD k then 1#w else 0#w).getLsbD j = (decide (j = 0) && x.getLsbD k) := by
    split_ifs with hx
    · rw [BitVec.getLsbD_one, hx]
      simp
      omega
    · simp [Bool.not_eq_true _ ▸ hx]
  rw [hif]
  by_cases hkj : k + j < w
  · rw [if_pos hkj, getLsbD_and_bit _ _ _ hkj]
    simp [Nat.not_le.mpr hj]
  · have hne : ¬ j = 0 := by omega
    simp [hkj, hne]

theorem masked_sign (hk : k + 1 = w) : masked x k = if x.getLsbD k then -1#w else 0#w := by
  apply BitVec.eq_of_getLsbD_eq
  intro j hj
  have hmsb : (x &&& 1#w <<< k).msb = x.getLsbD k := by
    rw [msb_and_bit _ (by omega), decide_eq_true hk, Bool.true_and]
  rw [masked, BitVec.getLsbD_sshiftRight, hmsb]
  have hall : (-1#w).getLsbD j = true := by
    rw [BitVec.neg_one_eq_allOnes, BitVec.getLsbD_allOnes]
    exact decide_eq_true hj
  have hif : (if x.getLsbD k then -1#w else 0#w).getLsbD j = x.getLsbD k := by
    split_ifs with hx
    · rw [hall, hx]
    · rw [BitVec.getLsbD_zero, Bool.eq_false_iff.mpr hx]
  rw [hif]
  by_cases hkj : k + j < w
  · rw [if_pos hkj, getLsbD_and_bit _ _ _ hkj]
    have hj0 : j = 0 := by omega
    simp [hj0]
    omega
  · simp [hkj]
    omega

end Masks

end Binary
