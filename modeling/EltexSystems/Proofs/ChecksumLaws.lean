import EltexSystems.Proofs.Checksum

/-!
# The laws of the checksums

`rawudpChecksum16` is the complement of the RFC's sum for as long as its accumulator cannot wrap,
and its folding loop ends within two rounds (`checksum16_rfc`).  `rawudpUdpChecksum` is the plain
checksum of pseudo-header and segment, zero sent as all ones (`udpChecksum_eq`).  A checksum stored
where the bytes were zero makes the whole sum to all ones, and no change of one aligned word but
between the two zeros keeps it so (`checksum16_verifies`).
-/

namespace EltexSystems

open Mem OnesComplement

/-- The body of the folding loop. -/
def foldBody (sum : UInt32) : UInt32 := (sum &&& (0xFFFF : UInt32)) + (sum >>> 16)

theorem shiftRight_eq_zero_iff (sum : UInt32) : sum >>> 16 = 0 ↔ sum.toNat < 65536 := by
  rw [← UInt32.toNat_inj, toNat_shiftRight_16]
  show sum.toNat / 65536 = 0 ↔ _
  omega

theorem foldLoop_iterate (sum : UInt32) : ∃ k ≤ 2, (∀ j < k, (foldBody^[j] sum) >>> 16 ≠ 0) ∧
    (foldBody^[k] sum) >>> 16 = 0 ∧ foldLoop sum = foldBody^[k] sum := by
  have hnat : ∀ s : UInt32, (foldBody s).toNat = s.toNat % 65536 + s.toNat / 65536 :=
    toNat_foldBody
  have hstop : ∀ s : UInt32, s >>> 16 = 0 → foldLoop s = s := fun s hs => by
    rw [foldLoop, if_pos hs]
  have hgo : ∀ s : UInt32, s >>> 16 ≠ 0 → foldLoop s = foldLoop (foldBody s) := fun s hs => by
    rw [foldLoop, if_neg hs]
    rfl
  by_cases h0 : sum >>> 16 = 0
  · exact ⟨0, by omega, fun j hj => absurd hj (Nat.not_lt_zero j), h0, hstop sum h0⟩
  by_cases h1 : foldBody sum >>> 16 = 0
  · refine ⟨1, by omega, fun j hj => ?_, h1, (hgo sum h0).trans (hstop _ h1)⟩
    obtain rfl : j = 0 := by omega
    exact h0
  · have h2 : foldBody (foldBody sum) >>> 16 = 0 := by
      have hlt := sum.toNat_lt
      rw [shiftRight_eq_zero_iff, hnat] at h1 ⊢
      rw [hnat]
      omega
    refine ⟨2, le_rfl, fun j hj => ?_, h2, (hgo sum h0).trans ((hgo _ h1).trans (hstop _ h2))⟩
    rcases (by omega : j = 0 ∨ j = 1) with rfl | rfl
    · exact h0
    · exact h1

/-- What the summing loop does for the first pairs is where it goes on from. -/
theorem sumLoop_append : ∀ {q : List UInt8}, q.length % 2 = 0 → ∀ (r : List UInt8) (sum : UInt32),
    sumLoop sum (q ++ r) = sumLoop (sumLoop sum q) r
  | [], _, r, sum => rfl
  | [a], h, r, sum => by simp at h
  | a :: b :: q, h, r, sum => by
    have hq : q.length % 2 = 0 := by
      simp only [List.length_cons] at h
      omega
    rw [List.cons_append, List.cons_append, sumLoop, sumLoop_append hq, sumLoop]

/-- The checksum of at most 131074 bytes is the complement of the sum with end-around carry; the
accumulator holds the exact sum after every round, and the folding loop ends. -/
theorem checksum16_rfc {p : List UInt8} (h : p.length ≤ 131074) :
    onesSum p < 65536 ∧ rawudpChecksum16 p = ~~~UInt16.ofNat (onesSum p) ∧
      (∀ q r, p = q ++ r → q.length % 2 = 0 ∨ r = [] →
        sumLoop 0 p = sumLoop (sumLoop 0 q) r ∧ (sumLoop 0 q).toNat = wordSum q) ∧
      ∃ k ≤ 2, (∀ j < k, (foldBody^[j] (sumLoop 0 p)) >>> 16 ≠ 0) ∧
        (foldBody^[k] (sumLoop 0 p)) >>> 16 = 0 ∧
        foldLoop (sumLoop 0 p) = foldBody^[k] (sumLoop 0 p) := by
  have hlt := onesSum_lt p
  refine ⟨hlt, ?_, ?_, foldLoop_iterate _⟩
  · apply UInt16.toNat_inj.mp
    rw [toNat_rawudpChecksum16 h, UInt16.toNat_not, UInt16.toNat_ofNat', Nat.mod_eq_of_lt hlt]
    rfl
  · rintro q r rfl hq
    rw [List.length_append] at h
    refine ⟨?_, toNat_sumLoop_zero (by omega)⟩
    rcases hq with hq | rfl
    · exact sumLoop_append hq r 0
    · rw [List.append_nil]
      rfl

theorem checksum16_rfc_three : ∃ k ≤ 2, rawudpChecksum16 [0xFF, 0xFF, 1] = ~~~UInt16.ofNat 0x100 ∧
    foldLoop (sumLoop 0 [0xFF, 0xFF, 1]) = foldBody^[k] (sumLoop 0 [0xFF, 0xFF, 1]) := by
  have hlen : [(0xFF : UInt8), 0xFF, 1].length ≤ 131074 := by decide
  obtain ⟨-, hsum, -, k, hk, -, -, hfold⟩ := checksum16_rfc hlen
  exact ⟨k, hk, hsum, hfold⟩

/-- The UDP checksum is the plain one over the pseudo-header followed by the segment, except that
zero becomes all ones. -/
theorem udpChecksum_eq (src dst : UInt32) {udp : List UInt8} (h : udp.length ≤ 65535) :
    rawudpUdpChecksum src dst udp =
      if rawudpChecksum16 (pseudo src dst udp.length ++ udp) = 0 then 0xFFFF
      else rawudpChecksum16 (pseudo src dst udp.length ++ udp) := by
  have hlt := onesSum_lt (pseudo src dst udp.length ++ udp)
  have hplain := toNat_rawudpChecksum16 (p := pseudo src dst udp.length ++ udp)
    (by rw [List.length_append, length_pseudo]; omega)
  apply UInt16.toNat_inj.mp
  rw [toNat_rawudpUdpChecksum src dst h]
  by_cases h0 : onesSum (pseudo src dst udp.length ++ udp) = 65535
  · rw [if_pos h0, if_pos]
    · rfl
    · apply UInt16.toNat_inj.mp
      rw [hplain, h0]
      rfl
  · rw [if_neg h0, if_neg, hplain]
    intro hz
    rw [hz] at hplain
    have : (0 : UInt16).toNat = 0 := rfl
    omega

theorem udpChecksum_eq_empty : rawudpUdpChecksum 0 0 [] =
    if rawudpChecksum16 (pseudo 0 0 0 ++ []) = 0 then 0xFFFF
    else rawudpChecksum16 (pseudo 0 0 0 ++ []) :=
  udpChecksum_eq 0 0 (Nat.zero_le 65535)

section Verify

variable {m : List UInt8} {i : ℕ}

/-- The 16-bit word at an offset, big-endian, the byte behind the end read as zero. -/
def wordAt (m : List UInt8) (i : ℕ) : UInt16 := be16 (load8 m i) (load8 m (i + 1))

/-- A big-endian store of an aligned word changes the sum by the difference of the words. -/
theorem wordSum_store (hi : i % 2 = 0) (hin : i < m.length) {w : UInt16}
    (hw : i + 1 = m.length → w.toNat % 256 = 0) :
    wordSum (store16 m i (htons w)) + (wordAt m i).toNat = wordSum m + w.toNat := by
  have hwlt := w.toNat_lt
  have hlo : (htons w).toUInt8.toNat = w.toNat / 256 := by
    rw [toNat_lo, toNat_htons]
    omega
  have hhi : (htons w >>> 8).toUInt8.toNat = w.toNat % 256 := by
    rw [toNat_hi, toNat_htons]
    omega
  obtain ⟨q, l, rfl, hq⟩ : ∃ q l, m = q ++ l ∧ q.length = i :=
    ⟨m.take i, m.drop i, (List.take_append_drop i m).symm, List.length_take_of_le hin.le⟩
  rw [List.length_append] at hin hw
  have hword : wordAt (q ++ l) i = be16 (load8 l 0) (load8 l 1) := by
    unfold wordAt load8
    rw [List.getD_append_right _ _ _ _ hq.le, List.getD_append_right _ _ _ _ (by omega), hq]
    congr 2
    · omega
    · omega
  have hstore := store16_append hq l 0 (htons w)
  rw [Nat.add_zero] at hstore
  rw [hstore, hword, wordSum_append (hq ▸ hi), wordSum_append (hq ▸ hi), toNat_be16]
  rcases l with _ | ⟨a, _ | ⟨b, l⟩⟩
  · simp only [List.length_nil] at hin
    omega
  · have hw0 := hw (by simp only [List.length_singleton]; omega)
    show wordSum q + wordSum [(htons w).toUInt8] + (256 * a.toNat + 0) = _
    rw [wordSum_singleton, wordSum_singleton, hlo]
    omega
  · show wordSum q + wordSum ((htons w).toUInt8 :: (htons w >>> 8).toUInt8 :: l)
      + (256 * a.toNat + b.toNat) = _
    rw [wordSum_cons, wordSum_cons, hlo, hhi]
    omega

theorem checksum16_eq_zero_iff (h : m.length ≤ 131074) :
    rawudpChecksum16 m = 0 ↔ 0 < wordSum m ∧ 65535 ∣ wordSum m := by
  have hlt := onesSum_lt m
  rw [← UInt16.toNat_inj, toNat_rawudpChecksum16 h, ← onesSum_eq_ones]
  show 65535 - onesSum m = 0 ↔ _
  omega

theorem dvd_add_checksum16 (h : m.length ≤ 131074) :
    0 < wordSum m + (rawudpChecksum16 m).toNat ∧
      65535 ∣ wordSum m + (rawudpChecksum16 m).toNat := by
  obtain ⟨k, hk⟩ := exists_eq_rep_add (B := 65536) (wordSum m)
  have hlt := rep_lt (B := 65536) (by omega) (wordSum m)
  rw [toNat_rawudpChecksum16 h, onesSum_eq_rep]
  have hsum : wordSum m + (65535 - rep 65536 (wordSum m)) = 65535 * (k + 1) := by omega
  exact ⟨by omega, hsum ▸ Nat.dvd_mul_right _ _⟩

/-- Two 16-bit words with the same remainder modulo 65535 are equal or the two zeros. -/
theorem eq_or_zeros {w w' : UInt16} {s : ℕ} (h : 65535 ∣ s)
    (h' : ∃ s', s' + w.toNat = s + w'.toNat ∧ 65535 ∣ s') :
    w' = w ∨ (w = 0 ∧ w' = 0xFFFF) ∨ (w = 0xFFFF ∧ w' = 0) := by
  obtain ⟨s', hs, hd⟩ := h'
  have hw := w.toNat_lt
  have hw' := w'.toNat_lt
  have h0 : (0 : UInt16).toNat = 0 := rfl
  have h1 : (0xFFFF : UInt16).toNat = 65535 := rfl
  rw [← UInt16.toNat_inj, ← UInt16.toNat_inj, ← UInt16.toNat_inj, ← UInt16.toNat_inj,
    ← UInt16.toNat_inj, h0, h1]
  omega

end Verify

/-- A checksum stored where the two bytes were zero makes the checksum of the whole buffer zero, and
then no other word in place of an aligned one keeps it so, unless the two are the two zeros. -/
theorem checksum16_verifies {buf : List UInt8} {o : ℕ} (hlen : buf.length ≤ 65535)
    (ho : o % 2 = 0) (hin : o + 2 ≤ buf.length) (hz : load8 buf o = 0 ∧ load8 buf (o + 1) = 0) :
    rawudpChecksum16 (store16 buf o (htons (rawudpChecksum16 buf))) = 0 ∧
      ∀ j w', j % 2 = 0 → j < buf.length → (j + 1 = buf.length → w'.toNat % 256 = 0) →
        w' ≠ wordAt (store16 buf o (htons (rawudpChecksum16 buf))) j →
        ¬ (wordAt (store16 buf o (htons (rawudpChecksum16 buf))) j = 0 ∧ w' = 0xFFFF) →
        ¬ (wordAt (store16 buf o (htons (rawudpChecksum16 buf))) j = 0xFFFF ∧ w' = 0) →
        rawudpChecksum16 (store16 (store16 buf o (htons (rawudpChecksum16 buf))) j (htons w'))
          ≠ 0 := by
  have hzero : wordAt buf o = 0 := by
    rw [wordAt, hz.1, hz.2]
    rfl
  have hsum := wordSum_store ho (by omega) (w := rawudpChecksum16 buf) (m := buf)
    fun h => by omega
  rw [hzero] at hsum
  change _ + 0 = _ at hsum
  rw [Nat.add_zero] at hsum
  obtain ⟨hpos, hdvd⟩ := dvd_add_checksum16 (m := buf) (by omega)
  rw [← hsum] at hpos hdvd
  set stored := store16 buf o (htons (rawudpChecksum16 buf)) with hst
  have hslen : stored.length = buf.length := length_store16 _ _ _
  refine ⟨(checksum16_eq_zero_iff (by omega)).mpr ⟨hpos, hdvd⟩, ?_⟩
  intro j w' hj hjn htail hne h1 h2 h
  have hjsum := wordSum_store hj (hslen ▸ hjn) (w := w') fun h => htail (h.trans hslen)
  obtain ⟨-, hd⟩ := (checksum16_eq_zero_iff (by rw [length_store16]; omega)).mp h
  rcases eq_or_zeros hdvd ⟨_, hjsum, hd⟩ with h0 | h0 | h0
  · exact hne h0
  · exact h1 h0
  · exact h2 h0

theorem checksum16_verifies_four : rawudpChecksum16 (store16 [1, 2, 0, 0] 2
    (htons (rawudpChecksum16 [1, 2, 0, 0]))) = 0 :=
  (checksum16_verifies (by decide) (by decide) (by decide) (by decide)).1

end EltexSystems
