import EltexSystems.Lib.CString

/-!
# `scanf` on a finite input

The conversions `%d` and `%s`: what is read, `none` where nothing is, and what is left of the input.
White space is skipped first, a sign is taken even where no digit follows it, and anything else that
does not match is left.  So a conversion of a number takes something exactly when the input goes on
with a digit or a sign (`length_scanInt_lt`, `scanInt_left`), and one of a word whenever something
follows the white space (`length_scanStr_lt`).
-/

namespace CStr

def skipSpace (s : List UInt8) : List UInt8 := s.dropWhile isspace

def issign (b : UInt8) : Bool := b == 43 || b == 45

/-- What follows the sign, if there is one. -/
def unsigned : List UInt8 → List UInt8
  | [] => []
  | b :: rest => if issign b then rest else b :: rest

/-- `scanf("%d", ...)`: the integer typed. -/
def scanInt (s : List UInt8) : Option ℤ × List UInt8 :=
  let s := skipSpace s
  let ds := (unsigned s).takeWhile isdigit
  (if ds = [] then none
    else some (if s.head? = some 45 then -(digitsValue ds : ℤ) else digitsValue ds),
    (unsigned s).dropWhile isdigit)

/-- The `int` stored for it: the value of `strtol`, narrowed. -/
def intOf (v : ℤ) : ℤ := (max LONG_MIN (min LONG_MAX v)).bmod (2 ^ 32)

/-- `scanf("%s", ...)`. -/
def scanStr (s : List UInt8) : Option (List UInt8) × List UInt8 :=
  let s := skipSpace s
  if s = [] then (none, [])
  else (some (s.takeWhile fun b => !isspace b), s.dropWhile fun b => !isspace b)

variable {s : List UInt8} {b : UInt8} {rest : List UInt8}

theorem intOf_of_lt {v : ℤ} (h0 : 0 ≤ v) (h : v < 2 ^ 31) : intOf v = v := by
  unfold intOf LONG_MIN LONG_MAX
  rw [min_eq_right (by omega), max_eq_right (by omega), Int.bmod_eq_of_le (by omega) (by omega)]

/-- White space is not followed by white space. -/
theorem isspace_head (h : skipSpace s = b :: rest) : isspace b = false := by
  have hhead := List.head?_dropWhile_not isspace s
  rw [← skipSpace, h] at hhead
  simpa using hhead

theorem skipSpace_idem (h : skipSpace s = b :: rest) : skipSpace (b :: rest) = b :: rest := by
  rw [skipSpace, List.dropWhile_cons, isspace_head h]
  rfl

theorem scanInt_nil (h : skipSpace s = []) : scanInt s = (none, []) := by
  unfold scanInt
  rw [h]
  rfl

/-- What starts neither with a digit nor with a sign is left. -/
theorem scanInt_left (h : skipSpace s = b :: rest) (hdigit : isdigit b = false)
    (hsign : issign b = false) : scanInt s = (none, b :: rest) := by
  unfold scanInt unsigned
  simp [h, hdigit, hsign]

theorem length_scanInt_le (s : List UInt8) : (scanInt s).2.length ≤ s.length := by
  have hunsigned : (unsigned (skipSpace s)).length ≤ (skipSpace s).length := by
    rcases skipSpace s with _ | ⟨b, rest⟩
    · exact le_rfl
    · rw [unsigned]
      split_ifs
      · exact Nat.le_succ _
      · exact le_rfl
  exact (List.length_dropWhile_le _ _).trans (hunsigned.trans (List.length_dropWhile_le _ _))

theorem length_scanInt_lt (h : skipSpace s = b :: rest) (hb : isdigit b = true ∨ issign b = true) :
    (scanInt s).2.length < s.length := by
  have hskip : rest.length + 1 ≤ s.length := by
    have := List.length_dropWhile_le isspace s
    rwa [← skipSpace, h, List.length_cons] at this
  have hrest : (scanInt s).2.length ≤ rest.length := by
    change ((unsigned (skipSpace s)).dropWhile isdigit).length ≤ rest.length
    rw [h, unsigned]
    split_ifs with hsign
    · exact List.length_dropWhile_le _ _
    · rw [List.dropWhile_cons, if_pos (hb.resolve_right hsign)]
      exact List.length_dropWhile_le _ _
  omega

theorem length_scanStr_le (s : List UInt8) : (scanStr s).2.length ≤ s.length := by
  unfold scanStr
  simp only []
  split_ifs
  · exact Nat.zero_le _
  · exact (List.length_dropWhile_le _ _).trans (List.length_dropWhile_le _ _)

theorem length_scanStr_lt (h : skipSpace s = b :: rest) : (scanStr s).2.length < s.length := by
  have hskip : rest.length + 1 ≤ s.length := by
    have := List.length_dropWhile_le isspace s
    rwa [← skipSpace, h, List.length_cons] at this
  have hrest : (scanStr s).2.length ≤ rest.length := by
    unfold scanStr
    simp only [h, List.cons_ne_nil, if_false, List.dropWhile_cons, isspace_head h, Bool.not_false,
      if_true]
    exact List.length_dropWhile_le _ _
  omega

end CStr
