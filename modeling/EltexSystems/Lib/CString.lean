import Mathlib.Data.List.TakeWhile
import Mathlib.Data.Nat.Digits.Lemmas

/-!
# C strings

Bytes up to the first `NUL`, and the part of the C library that reads and writes them: `strncmp`
against a prefix, `isspace`, `strtol` in base ten with a 64-bit `long`, `snprintf`'s decimal
conversions and its truncation.  The decimal text of a number reads back as that number
(`digitsValue_decimal`) and holds no `NUL`.
-/

namespace CStr

/-- The bytes of an ASCII literal. -/
def ascii (s : String) : List UInt8 := s.toList.map fun c => UInt8.ofNat c.toNat

/-- The C string at the start of some memory. -/
def cstr (m : List UInt8) : List UInt8 := m.takeWhile (· ≠ 0)

/-- `strncmp(a, b, n) == 0`. -/
def strncmpEq (a b : List UInt8) (n : ℕ) : Bool := (cstr a).take n == (cstr b).take n

/-- `isspace` in the C locale. -/
def isspace (b : UInt8) : Bool := b == 32 || (9 ≤ b && b ≤ 13)

def isdigit (b : UInt8) : Bool := 48 ≤ b && b ≤ 57

/-- The number a row of digits denotes. -/
def digitsValue (ds : List UInt8) : ℕ := ds.foldl (fun v d => 10 * v + (d.toNat - 48)) 0

def LONG_MAX : ℤ := 2 ^ 63 - 1

def LONG_MIN : ℤ := -2 ^ 63

/-- `strtol(s, &end, 10)`: the value and how far `end` is past `s`, 0 when there is no digit. -/
def strtol (s : List UInt8) : ℤ × ℕ :=
  let ws := s.takeWhile isspace
  let s := s.dropWhile isspace
  let sign := s.take 1 = [45] ∨ s.take 1 = [43]
  let neg := s.take 1 = [45]
  let ds := (if sign then s.drop 1 else s).takeWhile isdigit
  if ds = [] then (0, 0)
  else
    (if neg then max LONG_MIN (-(digitsValue ds : ℤ)) else min LONG_MAX (digitsValue ds),
      ws.length + (if sign then 1 else 0) + ds.length)

/-- `%u`. -/
def decimal (n : ℕ) : List UInt8 :=
  if n = 0 then [48] else (Nat.digits 10 n).reverse.map fun d => UInt8.ofNat (48 + d)

/-- `%d`. -/
def decimalInt (z : ℤ) : List UInt8 :=
  if z < 0 then 45 :: decimal z.natAbs else decimal z.natAbs

/-- What `snprintf` leaves in a buffer of the given size, before the `NUL`. -/
def snprintf (size : ℕ) (text : List UInt8) : List UInt8 := text.take (size - 1)

/-- A `char` array of a given size that holds a C string. -/
structure CharArray (size : ℕ) where
  bytes : List UInt8
  size_eq : bytes.length = size
  terminated : 0 ∈ bytes
  deriving DecidableEq

namespace CharArray

variable {size : ℕ}

/-- The string it holds. -/
def text (a : CharArray size) : List UInt8 := cstr a.bytes

/-- A zeroed array a text is printed into. -/
def print (text : List UInt8) (h : 0 < size) : CharArray size where
  bytes := snprintf size text ++ List.replicate (size - (snprintf size text).length) 0
  size_eq := by
    have : (snprintf size text).length ≤ size := by simp only [snprintf, List.length_take]; omega
    simp only [List.length_append, List.length_replicate]
    omega
  terminated := by
    have : (snprintf size text).length < size := by simp only [snprintf, List.length_take]; omega
    exact List.mem_append_right _ (List.mem_replicate.mpr ⟨by omega, rfl⟩)

end CharArray

theorem ne_zero_of_all {p : List UInt8} (h : p.all (· != 0) = true) : ∀ b ∈ p, b ≠ 0 :=
  fun b hb => bne_iff_ne.mp (List.all_eq_true.mp h b hb)

theorem cstr_append {p : List UInt8} (hp : ∀ b ∈ p, b ≠ 0) (m : List UInt8) :
    cstr (p ++ m) = p ++ cstr m := by
  rw [cstr, List.takeWhile_append_of_pos (by simpa using hp), cstr]

/-- Bytes without `NUL` are a C string up to their end. -/
theorem cstr_of_ne_zero {p : List UInt8} (hp : ∀ b ∈ p, b ≠ 0) : cstr p = p := by
  have := cstr_append hp []
  simpa [cstr] using this

theorem cstr_append_nul (p m : List UInt8) : cstr (p ++ 0 :: m) = cstr p := by
  induction p with
  | nil => rfl
  | cons b p ih =>
    unfold cstr at *
    rw [List.cons_append, List.takeWhile_cons, List.takeWhile_cons, ih]

theorem cstr_cons (b : UInt8) (l : List UInt8) :
    cstr (b :: l) = if b = 0 then [] else b :: cstr l := by
  unfold cstr
  rw [List.takeWhile_cons]
  by_cases hb : b = 0 <;> simp [hb]

theorem cstr_drop : ∀ (l : List UInt8) {k : ℕ}, k ≤ (cstr l).length →
    cstr (l.drop k) = (cstr l).drop k
  | l, 0, _ => rfl
  | [], k + 1, h => absurd h (Nat.not_succ_le_zero k)
  | b :: l, k + 1, h => by
    rw [cstr_cons] at h ⊢
    split_ifs at h ⊢ with hb
    · exact absurd h (Nat.not_succ_le_zero k)
    · exact cstr_drop l (Nat.le_of_succ_le_succ h)

/-- A `NUL` stored in a string ends it there. -/
theorem cstr_set : ∀ (l : List UInt8) (k : ℕ), cstr (l.set k 0) = (cstr l).take k
  | [], k => by rw [List.set_nil]; exact List.take_nil.symm
  | b :: l, 0 => rfl
  | b :: l, k + 1 => by
    rw [List.set_cons_succ, cstr_cons, cstr_cons, cstr_set l k]
    split_ifs
    · rfl
    · rfl

/-- A string that ends before its memory does has its `NUL` behind it. -/
theorem cstr_concat_prefix : ∀ {m : List UInt8}, (0 : UInt8) ∈ m → cstr m ++ [0] <+: m
  | b :: m, h => by
    rw [cstr_cons]
    split_ifs with hb
    · rw [hb]
      exact ⟨m, rfl⟩
    · have hmem : (0 : UInt8) ∈ m := (List.mem_cons.mp h).resolve_left (Ne.symm hb)
      exact List.cons_prefix_cons.mpr ⟨rfl, cstr_concat_prefix hmem⟩

theorem length_cstr_le (m : List UInt8) : (cstr m).length ≤ m.length :=
  (List.takeWhile_prefix _).length_le

theorem ne_zero_of_mem_cstr {m : List UInt8} {b : UInt8} (h : b ∈ cstr m) : b ≠ 0 := by
  simpa using List.mem_takeWhile_imp h

/-- A comparison against a prefix of its length that holds no `NUL`. -/
theorem strncmpEq_append {p : List UInt8} (hp : ∀ b ∈ p, b ≠ 0) (m a : List UInt8) :
    strncmpEq (p ++ m) a p.length = (p == (cstr a).take p.length) := by
  rw [strncmpEq, cstr_append hp, List.take_left]

/-- A value other than 0 has been read off some digits. -/
theorem strtol_consumed {s : List UInt8} (h : (strtol s).1 ≠ 0) : (strtol s).2 ≠ 0 := by
  unfold strtol at *
  simp only [] at *
  generalize List.takeWhile isdigit _ = ds at *
  by_cases hds : ds = []
  · rw [if_pos hds] at h
    exact absurd rfl h
  · have hlen := List.length_pos_iff.mpr hds
    rw [if_neg hds]
    simp only []
    omega

theorem toNat_digit {d : ℕ} (hd : d < 10) : (UInt8.ofNat (48 + d)).toNat = 48 + d := by
  rw [UInt8.toNat_ofNat']
  omega

theorem digitsValue_decimal (n : ℕ) : digitsValue (decimal n) = n := by
  unfold decimal
  split_ifs with h
  · rw [h]
    rfl
  · rw [digitsValue, List.foldl_map, List.foldl_reverse]
    have hfold : ∀ l : List ℕ, (∀ d ∈ l, d < 10) →
        l.foldr (fun d v => 10 * v + ((UInt8.ofNat (48 + d)).toNat - 48)) 0
          = Nat.ofDigits 10 l := by
      intro l
      induction l with
      | nil => intro; rfl
      | cons d l ih =>
        intro hl
        rw [List.foldr_cons, ih fun e he => hl e (List.mem_cons_of_mem _ he), Nat.ofDigits_cons,
          toNat_digit (hl d List.mem_cons_self)]
        omega
    rw [hfold _ fun d hd => Nat.digits_lt_base (by omega) hd, Nat.ofDigits_digits]

theorem digitsValue_append (ds es : List UInt8) :
    digitsValue (ds ++ es) = digitsValue ds * 10 ^ es.length + digitsValue es := by
  have hfold : ∀ (es : List UInt8) (v : ℕ), es.foldl (fun v d => 10 * v + (d.toNat - 48)) v
      = v * 10 ^ es.length + es.foldl (fun v d => 10 * v + (d.toNat - 48)) 0 := by
    intro es
    induction es with
    | nil => exact fun v => by simp
    | cons e es ih =>
      intro v
      rw [List.foldl_cons, ih, List.foldl_cons, ih (10 * 0 + _), List.length_cons, Nat.pow_succ]
      ring
  rw [digitsValue, List.foldl_append, hfold]
  rfl

theorem isspace_of_isdigit {b : UInt8} (h : isdigit b = true) : isspace b = false := by
  simp only [isdigit, Bool.and_eq_true, decide_eq_true_eq, UInt8.le_iff_toNat_le] at h
  simp only [isspace, Bool.or_eq_false_iff, beq_eq_false_iff_ne, Bool.and_eq_false_iff,
    decide_eq_false_iff_not, UInt8.le_iff_toNat_le, ne_eq, ← UInt8.toNat_inj]
  simp only [UInt8.reduceToNat] at h ⊢
  omega

theorem ne_zero_of_isdigit {b : UInt8} (h : isdigit b = true) : b ≠ 0 := by
  rintro rfl
  exact absurd h (by decide)

/-- `strtol` of a row of digits. -/
theorem strtol_digits {ds : List UInt8} (h : ∀ b ∈ ds, isdigit b = true) :
    (strtol ds).1 = min LONG_MAX (digitsValue ds) := by
  rcases ds with _ | ⟨d, ds⟩
  · rfl
  · have hd := h d List.mem_cons_self
    have hspace : (d :: ds).dropWhile isspace = d :: ds := by
      rw [List.dropWhile_cons_of_neg (by rw [isspace_of_isdigit hd]; decide)]
    have hsign : ¬ ([d] = [45] ∨ [d] = [43]) := by
      rintro (hs | hs) <;> rw [(List.cons.inj hs).1] at hd <;> exact absurd hd (by decide)
    unfold strtol
    simp only [hspace, List.take_succ_cons, List.take_zero]
    rw [if_neg hsign, if_neg fun hs => hsign (.inl hs), List.takeWhile_eq_self_iff.mpr h,
      if_neg (List.cons_ne_nil d ds)]

theorem isdigit_of_mem_decimal {n : ℕ} {b : UInt8} (h : b ∈ decimal n) : isdigit b = true := by
  unfold decimal at h
  split_ifs at h with h0
  · simp only [List.mem_singleton] at h
    subst h
    rfl
  · simp only [List.mem_map, List.mem_reverse] at h
    obtain ⟨d, hd, rfl⟩ := h
    have hlt : d < 10 := Nat.digits_lt_base (by omega) hd
    simp only [isdigit, UInt8.le_iff_toNat_le, toNat_digit hlt, Bool.and_eq_true,
      decide_eq_true_eq]
    exact ⟨by simp, by simp; omega⟩

theorem length_decimal_le {n k : ℕ} (hk : 0 < k) (h : n < 10 ^ k) : (decimal n).length ≤ k := by
  unfold decimal
  split_ifs
  · exact hk
  · rw [List.length_map, List.length_reverse]
    exact (Nat.digits_length_le_iff (by omega) n).mpr h

theorem ne_zero_of_mem_decimal {n : ℕ} {b : UInt8} (h : b ∈ decimal n) : b ≠ 0 := by
  rintro rfl
  exact absurd (isdigit_of_mem_decimal h) (by decide)

theorem ne_zero_of_mem_decimalInt {z : ℤ} {b : UInt8} (h : b ∈ decimalInt z) : b ≠ 0 := by
  unfold decimalInt at h
  split_ifs at h
  · rcases List.mem_cons.mp h with rfl | h
    · decide
    · exact ne_zero_of_mem_decimal h
  · exact ne_zero_of_mem_decimal h

namespace CharArray

variable {size : ℕ}

theorem ne_zero_of_mem_text {a : CharArray size} {b : UInt8} (h : b ∈ a.text) : b ≠ 0 :=
  ne_zero_of_mem_cstr h

theorem length_text_lt (a : CharArray size) : a.text.length < size := by
  have hle := (List.takeWhile_prefix (fun b : UInt8 => b ≠ 0) (l := a.bytes)).length_le
  rw [a.size_eq] at hle
  refine lt_of_le_of_ne hle fun heq => ?_
  have hall : a.text = a.bytes :=
    (List.takeWhile_prefix _).eq_of_length (heq.trans a.size_eq.symm)
  exact ne_zero_of_mem_text (hall ▸ a.terminated) rfl

theorem text_print {text : List UInt8} (h : 0 < size) (hnul : ∀ b ∈ text, b ≠ 0)
    (hlen : text.length < size) : (print text h).text = text := by
  have hfull : snprintf size text = text := List.take_of_length_le (by omega)
  have hbytes : (print text h).bytes = snprintf size text
      ++ List.replicate (size - (snprintf size text).length) 0 := rfl
  unfold CharArray.text
  rw [hbytes, hfull, cstr_append hnul]
  have hz : cstr (List.replicate (size - text.length) 0) = [] := by
    obtain ⟨k, hk⟩ : ∃ k, size - text.length = k + 1 := ⟨size - text.length - 1, by omega⟩
    rw [hk, List.replicate_succ]
    rfl
  rw [hz, List.append_nil]

theorem text_print_text (a : CharArray size) (h : 0 < size) : (print a.text h).text = a.text :=
  text_print h (fun _ => ne_zero_of_mem_text) a.length_text_lt

end CharArray

end CStr
