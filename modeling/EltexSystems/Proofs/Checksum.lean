import EltexSystems.Checksum

/-!
# What the checksum functions return

Below the length at which the 32-bit accumulator would wrap, the summing loop holds the plain sum
of the words and the folding loop ends at its one's complement representative, so
`rawudpChecksum16` is that representative's complement, and `rawudpUdpChecksum` is the same over
pseudo-header and segment, except that it never returns zero.
-/

namespace EltexSystems

open Mem OnesComplement

@[simp] theorem words_cons (a b : UInt8) (p : List UInt8) :
    words (a :: b :: p) = (256 * a.toNat + b.toNat) :: words p := rfl

@[simp] theorem wordSum_nil : wordSum [] = 0 := rfl

@[simp] theorem wordSum_cons (a b : UInt8) (p : List UInt8) :
    wordSum (a :: b :: p) = 256 * a.toNat + b.toNat + wordSum p := by
  simp [wordSum]

@[simp] theorem wordSum_singleton (a : UInt8) : wordSum [a] = 256 * a.toNat := by
  simp [wordSum, words]

theorem words_lt : ∀ (p : List UInt8), ∀ w ∈ words p, w < 65536
  | [], w, h => by simp [words] at h
  | [a], w, h => by
    have := a.toNat_lt
    simp only [words, List.mem_singleton] at h
    omega
  | a :: b :: p, w, h => by
    have ha := a.toNat_lt
    have hb := b.toNat_lt
    simp only [words_cons, List.mem_cons] at h
    rcases h with rfl | h
    · omega
    · exact words_lt p w h

theorem wordSum_le : ∀ p : List UInt8, wordSum p ≤ 65535 * ((p.length + 1) / 2)
  | [] => by simp
  | [a] => by
    have := a.toNat_lt
    simp only [wordSum_singleton, List.length_singleton]
    omega
  | a :: b :: p => by
    have ha := a.toNat_lt
    have hb := b.toNat_lt
    have ih := wordSum_le p
    simp only [wordSum_cons, List.length_cons]
    omega

theorem wordSum_append : ∀ {p : List UInt8}, p.length % 2 = 0 → ∀ q,
    wordSum (p ++ q) = wordSum p + wordSum q
  | [], _, q => by simp
  | [a], h, q => by simp at h
  | a :: b :: p, h, q => by
    have hp : p.length % 2 = 0 := by
      simp only [List.length_cons] at h
      omega
    simp only [List.cons_append, wordSum_cons, wordSum_append hp q]
    omega

theorem onesSum_eq_rep (p : List UInt8) : onesSum p = rep 65536 (wordSum p) :=
  eacSum_eq (by omega) (words_lt p)

theorem onesSum_lt (p : List UInt8) : onesSum p < 65536 := by
  rw [onesSum_eq_rep]
  exact rep_lt (by omega) _

theorem onesSum_eq_ones (p : List UInt8) :
    onesSum p = 0xFFFF ↔ 0 < wordSum p ∧ 65535 ∣ wordSum p :=
  eacSum_eq_ones (by omega) (words_lt p)

theorem toNat_sumLoop : ∀ (p : List UInt8) (sum : UInt32), sum.toNat + wordSum p < 2 ^ 32 →
    (sumLoop sum p).toNat = sum.toNat + wordSum p
  | [], sum, _ => by simp [sumLoop]
  | [a], sum, h => by
    have ha := a.toNat_lt
    have hw : (a.toUInt16 <<< 8).toNat = 256 * a.toNat := by
      simp [Nat.shiftLeft_eq]
      omega
    rw [wordSum_singleton] at h ⊢
    rw [sumLoop, UInt32.toNat_add, UInt16.toNat_toUInt32, hw, Nat.mod_eq_of_lt h]
  | a :: b :: p, sum, h => by
    rw [wordSum_cons] at h ⊢
    have hs : (sum + (be16 a b).toUInt32).toNat = sum.toNat + (256 * a.toNat + b.toNat) := by
      rw [UInt32.toNat_add, UInt16.toNat_toUInt32, toNat_be16, Nat.mod_eq_of_lt (by omega)]
    rw [sumLoop, toNat_sumLoop p _ (by rw [hs]; omega), hs, Nat.add_assoc]

/-- Up to 131074 bytes the accumulator holds the sum of the words it has seen. -/
theorem toNat_sumLoop_zero {p : List UInt8} (h : p.length ≤ 131074) :
    (sumLoop 0 p).toNat = wordSum p := by
  have hle := wordSum_le p
  rw [toNat_sumLoop p 0 (by simp; omega)]
  exact Nat.zero_add _

/-- The folding loop ends at the representative of the sum it starts from. -/
theorem toNat_foldLoop (sum : UInt32) : (foldLoop sum).toNat = rep 65536 sum.toNat := by
  induction sum using foldLoop.induct with
  | case1 sum h =>
    have hlt : sum.toNat < 65536 := by
      have := congrArg UInt32.toNat h
      rw [toNat_shiftRight_16] at this
      simp at this
      omega
    rw [foldLoop, if_pos h, rep_of_lt hlt]
  | case2 sum h ih =>
    rw [foldLoop, if_neg h, ih, toNat_foldBody, rep_foldOnce (by omega)]

theorem toNat_not_toUInt16 {sum : UInt32} (h : sum.toNat < 65536) :
    (~~~sum.toUInt16).toNat = 65535 - sum.toNat := by
  rw [UInt16.toNat_not, UInt32.toNat_toUInt16, Nat.mod_eq_of_lt h]
  rfl

theorem toNat_not_foldLoop (sum : UInt32) :
    (~~~(foldLoop sum).toUInt16).toNat = 65535 - rep 65536 sum.toNat := by
  rw [toNat_not_toUInt16, toNat_foldLoop]
  rw [toNat_foldLoop]
  exact rep_lt (by omega) _

theorem toNat_rawudpChecksum16 {p : List UInt8} (h : p.length ≤ 131074) :
    (rawudpChecksum16 p).toNat = 65535 - onesSum p := by
  rw [rawudpChecksum16, toNat_not_foldLoop, toNat_sumLoop_zero h, onesSum_eq_rep]

@[simp] theorem length_pseudo (src dst : UInt32) (n : ℕ) : (pseudo src dst n).length = 12 := rfl

/-- The UDP checksum is the complement of the sum over pseudo-header and segment, all ones standing
for zero. -/
theorem toNat_rawudpUdpChecksum (src dst : UInt32) {udp : List UInt8} (h : udp.length ≤ 65535) :
    (rawudpUdpChecksum src dst udp).toNat
      = if onesSum (pseudo src dst udp.length ++ udp) = 65535 then 65535
        else 65535 - onesSum (pseudo src dst udp.length ++ udp) := by
  set ph := pseudo src dst udp.length with hph
  have hlen : ph.length = 12 := length_pseudo _ _ _
  have hle := wordSum_le udp
  have hrep := rep_lt (B := 65536) (by omega) (wordSum ph)
  have hc1 : (~~~(rawudpChecksum16 ph)).toNat = rep 65536 (wordSum ph) := by
    rw [UInt16.toNat_not, toNat_rawudpChecksum16 (by omega), onesSum_eq_rep]
    have : UInt16.size = 65536 := rfl
    omega
  have hstart : (0 + (~~~(rawudpChecksum16 ph)).toUInt32).toNat = rep 65536 (wordSum ph) := by
    rw [UInt32.toNat_add, UInt16.toNat_toUInt32, hc1]
    simp
    omega
  have hones : onesSum (ph ++ udp) = rep 65536 (rep 65536 (wordSum ph) + wordSum udp) := by
    rw [onesSum_eq_rep, wordSum_append (by omega), rep_rep_add]
  have hres : (~~~(foldLoop (sumLoop (0 + (~~~(rawudpChecksum16 ph)).toUInt32) udp)).toUInt16).toNat
      = 65535 - onesSum (ph ++ udp) := by
    rw [toNat_not_foldLoop, toNat_sumLoop udp _ (by rw [hstart]; omega), hstart, hones]
  have hlt := onesSum_lt (ph ++ udp)
  rw [rawudpUdpChecksum]
  simp only [← hph]
  split_ifs with h0 h1 h1
  · rfl
  · have := congrArg UInt16.toNat h0
    rw [hres] at this
    simp at this
    omega
  · exfalso
    apply h0
    apply UInt16.toNat_inj.mp
    rw [hres, h1]
    rfl
  · exact hres

end EltexSystems
