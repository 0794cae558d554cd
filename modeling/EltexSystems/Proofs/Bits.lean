import EltexSystems.Bits

/-!
# Which numbers the bits are right for

The digits below the sign bit are always right (`straight_low`), and so is the first one where it is
not set; a sign bit that is set prints as `-1` (`straight_negative`) and keeps the loop that shifts
to the right from ending (`reversed_negative`).  The subtraction and the inversion take a negative
number to its absolute value, without a sign (`toDirect_neg`).
-/

namespace EltexSystems

open CStr Binary

variable {x : BitVec 32} {k n fuel : ℕ}

section Straight

theorem printInt_bit (b : Bool) : printInt (if b then 1#32 else 0#32) = [digit b] := by
  cases b <;> decide

theorem straight_low (x : BitVec 32) : ∀ n < 32, straight x n = word n x.toNat
  | 0, _ => rfl
  | n + 1, hn => by
    rw [straight, word, straight_low x n (by omega), masked_low (by omega), printInt_bit]
    rfl

theorem straight_nonneg (h : x.msb = false) : straight x 32 = word 32 x.toNat := by
  have hbit : x.getLsbD 31 = false := by rw [← h, BitVec.msb_eq_getLsbD_last]
  rw [straight, word, straight_low x 31 (by omega), masked_sign rfl, BitVec.testBit_toNat, hbit]
  rfl

/-- The sign bit of a negative number prints as two characters. -/
theorem straight_negative (h : x.msb = true) : straight x 32 = 45 :: 49 :: word 31 x.toNat := by
  have hbit : x.getLsbD 31 = true := by rw [← h, BitVec.msb_eq_getLsbD_last]
  have hprint : printInt (-1#32) = [45, 49] := by decide
  rw [straight, straight_low x 31 (by omega), masked_sign rfl, hbit, if_pos rfl, hprint]
  rfl

theorem msb_iff (x : BitVec 32) : x.msb = false ↔ 0 ≤ x.toInt := by
  rw [BitVec.msb_eq_toInt, decide_eq_false_iff_not, not_lt]

theorem denotes_straight_iff : Denotes 32 x.toNat (straight x 32) ↔ 0 ≤ x.toInt := by
  rw [← msb_iff]
  constructor
  · intro h
    by_contra hmsb
    have hlen := h.length
    rw [straight_negative (by simpa using hmsb)] at hlen
    simp at hlen
  · intro h
    rw [straight_nonneg h]
    exact denotes_of_lt x.isLt

end Straight

section Reversed

/-- A negative number stays negative under the shift, and the loop goes on. -/
theorem reversed_negative (h : x.msb = true) (fuel : ℕ) : reversed fuel x = none := by
  have hne : ∀ y : BitVec 32, y.msb = true → y ≠ 0 := by
    intro y hy h0
    rw [h0] at hy
    exact absurd hy (by decide)
  induction fuel generalizing x with
  | zero => exact if_neg (hne x h)
  | succ fuel ih =>
    rw [reversed, if_neg (hne x h), ih (by rw [BitVec.msb_sshiftRight, h])]
    rfl

theorem printInt_and_one (x : BitVec 32) :
    printInt (x &&& 1) = [digit (x.getLsbD 0)] := by
  have h := masked_low (x := x) (show 0 + 1 < 32 by omega)
  rw [masked, BitVec.sshiftRight_zero] at h
  rw [← printInt_bit, ← h]
  rfl

/-- Each round of a number that is not negative prints its lowest digit and halves it. -/
theorem reversed_nonneg : ∀ (fuel : ℕ) {x : BitVec 32}, x.msb = false → x.toNat < 2 ^ fuel →
    reversed fuel x = some ((Nat.digits 2 x.toNat).map fun d => UInt8.ofNat (48 + d))
  | 0, x, _, hlt => by
    have h0 : x = 0 := BitVec.eq_of_toNat_eq (by simpa using hlt)
    rw [reversed, if_pos h0, h0]
    rfl
  | fuel + 1, x, hmsb, hlt => by
    rw [reversed]
    split_ifs with h0
    · rw [h0]
      rfl
    have hhalf : (x.sshiftRight 1).toNat = x.toNat / 2 := by
      rw [BitVec.toNat_sshiftRight_of_msb_false hmsb, Nat.shiftRight_eq_div_pow, Nat.pow_one]
    have hpos : 0 < x.toNat := by
      rw [Nat.pos_iff_ne_zero]
      exact fun h => h0 (BitVec.eq_of_toNat_eq h)
    have hbit : digit (x.getLsbD 0) = UInt8.ofNat (48 + x.toNat % 2) := by
      rw [← BitVec.testBit_toNat, Nat.testBit_zero]
      rcases Nat.mod_two_eq_zero_or_one x.toNat with h | h <;> rw [h] <;> rfl
    rw [reversed_nonneg fuel (by rw [BitVec.msb_sshiftRight, hmsb]) (by omega), hhalf,
      printInt_and_one, hbit, Nat.digits_def' (by omega) hpos]
    rfl

end Reversed

section Direct

/-- The rounds past the lowest bits, all of them clear, turn into ones what is to be subtracted
from. -/
theorem toDirect_neg : ∀ (n shift : ℕ) {x p : BitVec 32}, shift + n = 31 →
    p + 1 = x + 1#32 <<< shift → (∀ j < 32, shift ≤ j → p.getLsbD j = x.getLsbD j) →
    (∃ j < 31, shift ≤ j ∧ x.getLsbD j = true) → toDirect n shift p = -x
  | 0, shift, x, p, hn, _, _, hset => by
    obtain ⟨j, hj, hle, -⟩ := hset
    omega
  | n + 1, shift, x, p, hn, hsum, hhigh, hset => by
    have hbit := hhigh shift (by omega) le_rfl
    rw [toDirect, masked_low (by omega)]
    cases hp : p.getLsbD shift
    · rw [hp] at hbit
      rw [if_neg Bool.false_ne_true, if_pos (show 0#32 = 0 from rfl)]
      refine toDirect_neg n (shift + 1) (by omega) ?_ (fun j hj hle => ?_) ?_
      · rw [or_bit hp, bit_succ, ← BitVec.add_assoc, ← hsum, BitVec.add_assoc, BitVec.add_assoc,
          BitVec.add_comm 1]
      · rw [BitVec.getLsbD_or, getLsbD_bit _ _ hj, decide_eq_false (by omega), Bool.or_false]
        exact hhigh j hj (by omega)
      · obtain ⟨j, hj, hle, hx⟩ := hset
        have hne : j ≠ shift := by
          rintro rfl
          rw [hx] at hbit
          cases hbit
        exact ⟨j, hj, by omega, hx⟩
    · rw [if_pos rfl, if_neg (by decide)]
      -- the lowest set bit: here one has been subtracted
      have hsub : p &&& ~~~(1#32 <<< shift) = x - 1 := by
        have hcancel : (p &&& ~~~(1#32 <<< shift)) + 1 + 1#32 <<< shift = x + 1#32 <<< shift := by
          rw [BitVec.add_assoc, BitVec.add_comm 1, ← BitVec.add_assoc, and_not_bit hp, hsum]
        have hsum' := BitVec.add_left_inj (1#32 <<< shift) |>.mp hcancel
        rw [← hsum']
        exact (BitVec.add_sub_cancel _ _).symm
      rw [hsub]
      exact BitVec.not_eq_comm.mpr (BitVec.not_neg x).symm

theorem toDirect_negative (hneg : x.toInt < 0) (hmin : x ≠ BitVec.intMin 32) :
    toDirect 31 0 x = -x := by
  refine toDirect_neg 31 0 rfl (by rw [BitVec.shiftLeft_zero]; rfl) (fun _ _ _ => rfl) ?_
  by_contra hnone
  push Not at hnone
  have hmsb : x.msb = true := by rwa [BitVec.msb_eq_toInt, decide_eq_true_eq]
  -- without a bit below the sign only the least number is negative
  refine hmin (BitVec.eq_of_getLsbD_eq fun j hj => ?_)
  rw [BitVec.getLsbD_intMin]
  by_cases hj31 : j < 31
  · rw [Bool.eq_false_iff.mpr (hnone j hj31 (Nat.zero_le j))]
    simp
    omega
  · have hj' : j = 31 := by omega
    rw [hj']
    exact (BitVec.msb_eq_getLsbD_last x).symm.trans hmsb

/-- The line under the heading: the absolute value, with the sign digit of a positive number. -/
theorem direct_line (hneg : x.toInt < 0) (hmin : x ≠ BitVec.intMin 32) :
    (negativeToBits x).direct = some (48 :: word 31 x.toInt.natAbs)
      ∧ x.toInt.natAbs < 2 ^ 31 := by
  have hint : (-x).toInt = -x.toInt := BitVec.toInt_neg_of_ne_intMin hmin
  have hmsb : (-x).msb = false := (msb_iff _).mpr (by omega)
  have hnat : (-x).toNat = x.toInt.natAbs := by
    have h := BitVec.toInt_eq_toNat_of_msb hmsb
    omega
  have hlt := BitVec.toNat_lt_of_msb_false hmsb
  have hbit : (-x).toNat.testBit 31 = false := Nat.testBit_lt_two_pow hlt
  have hline : straight (-x) 32 = 48 :: word 31 x.toInt.natAbs := by
    rw [straight_nonneg hmsb, word, hbit, hnat]
    rfl
  refine ⟨?_, by omega⟩
  rw [negativeToBits]
  simp only []
  rw [if_pos hneg, toDirect_negative hneg hmin, hline]

end Direct

section ThirdByte

variable {a input : BitVec 32}

theorem getLsbD_changeThirdByte (hk : k < 32) : (changeThirdByte a input).getLsbD k
    = if k < 16 then a.getLsbD k else
      (24 ≤ k && a.getLsbD k) || input.getLsbD (k - 16) := by
  have hmask : (0xFF#32 <<< 16).getLsbD k = (16 ≤ k && k < 24) := by
    revert k
    decide
  rw [changeThirdByte, BitVec.getLsbD_or, BitVec.getLsbD_and, BitVec.getLsbD_not, hmask,
    BitVec.getLsbD_shiftLeft]
  split_ifs with h16
  · simp [hk, h16]
  · by_cases h24 : 24 ≤ k
    · simp [hk, h16, h24, Nat.not_lt.mpr h24]
    · simp [hk, h16, h24, Nat.lt_of_not_le h24]

theorem getLsbD_byte (v s : UInt32) {j : ℕ} (hj : j < 8) :
    (v >>> s).toUInt8.toBitVec.getLsbD j = v.toBitVec.getLsbD (s.toNat % 32 + j) := by
  simp only [UInt32.toBitVec_toUInt8, UInt32.toBitVec_shiftRight, BitVec.getLsbD_setWidth, hj]
  simp

theorem getLsbD_host32 (b₀ b₁ b₂ b₃ : UInt8) (hk : k < 32) :
    (Mem.host32 b₀ b₁ b₂ b₃).toBitVec.getLsbD k
      = if k < 8 then b₀.toBitVec.getLsbD k
        else if k < 16 then b₁.toBitVec.getLsbD (k - 8)
        else if k < 24 then b₂.toBitVec.getLsbD (k - 16)
        else b₃.toBitVec.getLsbD (k - 24) := by
  have hpast : ∀ (b : UInt8) (j : ℕ), 8 ≤ j → b.toBitVec.getLsbD j = false :=
    fun b j hj => BitVec.getLsbD_of_ge _ _ hj
  simp only [Mem.host32, UInt32.toBitVec_or, UInt32.toBitVec_shiftLeft, UInt8.toBitVec_toUInt32,
    BitVec.getLsbD_or]
  simp [hk]
  split_ifs with h8 h16 h24
  · simp [h8, show k < 16 by omega, show k < 24 by omega]
  · simp [h8, h16, hpast b₀ k (by omega), show k < 24 by omega]
  · simp [h8, h16, h24, hpast b₀ k (by omega), hpast b₁ (k - 8) (by omega)]
  · simp [h8, h16, h24, hpast b₀ k (by omega), hpast b₁ (k - 8) (by omega),
      hpast b₂ (k - 16) (by omega)]

theorem getLsbD_pointersTask1 (hk : k < 32) : (pointersTask1 a input).getLsbD k
    = if 16 ≤ k ∧ k < 24 then input.getLsbD (k - 16) else a.getLsbD k := by
  have hload : pointersTask1 a input = (Mem.host32 (UInt32.ofBitVec a).toUInt8
      (UInt32.ofBitVec a >>> 8).toUInt8 (UInt8.ofNat input.toNat)
      (UInt32.ofBitVec a >>> 24).toUInt8).toBitVec := rfl
  rw [hload, getLsbD_host32 _ _ _ _ hk]
  by_cases h8 : k < 8
  · rw [if_pos h8, if_neg (by omega)]
    simp only [UInt32.toBitVec_toUInt8, BitVec.getLsbD_setWidth, h8, decide_true, Bool.true_and]
  by_cases h16 : k < 16
  · rw [if_neg h8, if_pos h16, if_neg (by omega), getLsbD_byte _ _ (by omega)]
    exact congrArg a.getLsbD (show 8 + (k - 8) = k by omega)
  by_cases h24 : k < 24
  · have hbyte : (UInt8.ofNat input.toNat).toBitVec = input.setWidth 8 :=
      BitVec.eq_of_toNat_eq (by rw [BitVec.toNat_setWidth]; rfl)
    rw [if_neg h8, if_neg h16, if_pos h24, if_pos (by omega), hbyte, BitVec.getLsbD_setWidth,
      decide_eq_true (by omega), Bool.true_and]
  · rw [if_neg h8, if_neg h16, if_neg h24, if_neg (by omega), getLsbD_byte _ _ (by omega)]
    exact congrArg a.getLsbD (show 24 + (k - 24) = k by omega)

end ThirdByte

/-- No negative number is printed in its direct code: the sign digit is always zero. -/
theorem direct_code_never (x : BitVec 32) (hneg : x.toInt < 0) (hmin : x ≠ BitVec.intMin 32) :
    ∃ digits, (negativeToBits x).direct = some (48 :: digits)
      ∧ Denotes 31 x.toInt.natAbs digits ∧ ¬ DirectCode x (48 :: digits) := by
  obtain ⟨hline, hlt⟩ := direct_line hneg hmin
  refine ⟨_, hline, denotes_of_lt hlt, ?_⟩
  rintro ⟨digits, hcode, -⟩
  exact absurd (List.cons.inj hcode).1 (by decide)

theorem direct_code_minus_five : ∃ digits, (negativeToBits (-5#32)).direct = some (48 :: digits)
    ∧ Denotes 31 5 digits ∧ ¬ DirectCode (-5#32) (48 :: digits) :=
  direct_code_never (-5#32) (by decide) (by decide)

theorem minus_five_not_direct : ¬ ∀ x : BitVec 32, x.toInt < 0 → x ≠ BitVec.intMin 32 →
    ∃ line, (negativeToBits x).direct = some line ∧ DirectCode x line := by
  intro h
  obtain ⟨line, hline, digits, hcode, -⟩ := h (-5#32) (by decide) (by decide)
  rw [(direct_line (x := -5#32) (by decide) (by decide)).1, hcode] at hline
  exact absurd (List.cons.inj (Option.some.inj hline)).1 (by decide)

/-- The bits of both functions are right exactly for the numbers that are not negative. -/
theorem straight_bits_iff (x : BitVec 32) :
    ((∃ fuel out, positiveToBits fuel x = some out ∧ Denotes 32 x.toNat out.straight)
        ↔ 0 ≤ x.toInt)
      ∧ (Denotes 32 x.toNat (negativeToBits x).complement ↔ 0 ≤ x.toInt) := by
  refine ⟨⟨?_, fun h => ?_⟩, denotes_straight_iff⟩
  · rintro ⟨fuel, out, hout, hdenotes⟩
    obtain ⟨digits, -, rfl⟩ := Option.map_eq_some_iff.mp hout
    exact denotes_straight_iff.mp hdenotes
  · have hrev := reversed_nonneg 32 ((msb_iff x).mpr h) x.isLt
    exact ⟨32, _, by rw [positiveToBits, hrev]; rfl, denotes_straight_iff.mpr h⟩

theorem minus_one_not_bits : ¬ ∀ x : BitVec 32,
    (∃ fuel out, positiveToBits fuel x = some out ∧ Denotes 32 x.toNat out.straight)
      ∧ Denotes 32 x.toNat (negativeToBits x).complement := by
  intro h
  exact absurd (denotes_straight_iff.mp (h (-1#32)).2) (by decide)

/-- The loop over the bits in reverse ends, with the digits from the lowest to the highest bit that
is set, exactly for the numbers that are not negative. -/
theorem reversed_bits_iff (x : BitVec 32) :
    (∃ fuel out, positiveToBits fuel x = some out
        ∧ out.reversed = (Nat.digits 2 x.toNat).map fun d => UInt8.ofNat (48 + d))
      ↔ 0 ≤ x.toInt := by
  rw [← msb_iff]
  constructor
  · rintro ⟨fuel, out, hout, -⟩
    by_contra hmsb
    rw [positiveToBits, reversed_negative (by simpa using hmsb)] at hout
    cases hout
  · intro h
    exact ⟨32, _, by rw [positiveToBits, reversed_nonneg 32 h x.isLt]; rfl, rfl⟩

theorem minus_one_not_reversed : ¬ ∀ x : BitVec 32, ∃ fuel out, positiveToBits fuel x = some out
    ∧ out.reversed = (Nat.digits 2 x.toNat).map fun d => UInt8.ofNat (48 + d) := by
  intro h
  obtain ⟨fuel, out, hout, -⟩ := h (-1#32)
  rw [positiveToBits, reversed_negative (by decide)] at hout
  cases hout

/-- The two ways to replace the byte agree, and leave the other bits alone, exactly where a value
too large for a byte sets no bit that was clear. -/
theorem third_byte_iff (a input : BitVec 32) :
    (changeThirdByte a input = pointersTask1 a input
        ∧ SameButThird (changeThirdByte a input) a)
      ↔ Covered a input := by
  constructor
  · rintro ⟨-, hsame⟩ k hk hset
    have hbit := hsame (24 + k) (by omega) (.inr (by omega))
    rw [getLsbD_changeThirdByte (by omega), if_neg (by omega), decide_eq_true (by omega),
      Bool.true_and, show 24 + k - 16 = 8 + k by omega, hset, Bool.or_true] at hbit
    exact hbit.symm
  · intro hcovered
    have hhigh : ∀ k < 32, 24 ≤ k → (changeThirdByte a input).getLsbD k = a.getLsbD k := by
      intro k hk hle
      have h := hcovered (k - 24) (by omega)
      rw [show 8 + (k - 24) = k - 16 by omega, show 24 + (k - 24) = k by omega] at h
      rw [getLsbD_changeThirdByte hk, if_neg (by omega), decide_eq_true hle, Bool.true_and]
      cases hset : input.getLsbD (k - 16)
      · rw [Bool.or_false]
      · rw [h hset, Bool.true_or]
    refine ⟨BitVec.eq_of_getLsbD_eq fun k hk => ?_, fun k hk hout => ?_⟩
    · rw [getLsbD_pointersTask1 hk]
      split_ifs with hthird
      · rw [getLsbD_changeThirdByte hk, if_neg (by omega), decide_eq_false (by omega),
          Bool.false_and, Bool.false_or]
      · by_cases h16 : k < 16
        · rw [getLsbD_changeThirdByte hk, if_pos h16]
        · exact hhigh k hk (by omega)
    · rcases hout with h16 | h24
      · rw [getLsbD_changeThirdByte hk, if_pos h16]
      · exact hhigh k hk h24

theorem byte_too_large : ¬ ∀ a input : BitVec 32, changeThirdByte a input = pointersTask1 a input
    ∧ SameButThird (changeThirdByte a input) a := by
  intro h
  exact absurd (h 0#32 256#32).1 (by decide)

end EltexSystems
