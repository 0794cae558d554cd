import EltexSystems.Lib.CString

/-!
# Words of a shell command

The reader of a POSIX shell as far as it takes a text for one simple command whose words need no
expansion: blanks, the three ways to quote, line continuations and comments, and a `$` for itself
where no expansion begins with it.  A text has no reading where the shell would expand something,
run or redirect something else, or wait for more.  Each byte adds at most one to what has been read
(`weight_run`), and in double quotes a word stands for itself exactly when nothing in it is special
there (`read_quoted_iff`).
-/

namespace Shell

open CStr

/-- Where in the text the reader is; behind a `$`, inside double quotes or not, the next byte
decides what it is. -/
inductive Mode
  | plain
  | escape
  | single
  | double
  | doubleEscape
  | comment
  | dollar (quoted : Bool)
  | dollarEscape (quoted : Bool)
  deriving DecidableEq

/-- The bytes read that the words do not hold yet. -/
def Mode.kept : Mode → ℕ
  | .escape | .doubleEscape | .dollar _ => 1
  | .dollarEscape _ => 2
  | _ => 0

/-- The words read, the one begun, and whether a newline has ended the command. -/
structure State where
  mode : Mode
  words : List (List UInt8)
  current : Option (List UInt8)
  ended : Bool
  deriving DecidableEq

def start : State := ⟨.plain, [], none, false⟩

namespace State

/-- Bytes of a word, or none where a word begins with a quote. -/
def add (s : State) (mode : Mode) (bs : List UInt8) : Option State :=
  if s.ended then none else some { s with mode := mode, current := some (s.current.getD [] ++ bs) }

def goto (s : State) (mode : Mode) : State := { s with mode := mode }

def blank (s : State) : State :=
  { s with mode := .plain, words := s.words ++ s.current.toList, current := none }

def newline (s : State) : State := { s.blank with ended := !s.blank.words.isEmpty }

/-- The bytes of the words. -/
def size (s : State) : ℕ := s.words.flatten.length + (s.current.getD []).length

/-- What the bytes read amount to: those of the words, and those kept back. -/
def weight (s : State) : ℕ := s.size + s.mode.kept

end State

/-- Operators, command substitution and patterns: `|&;<>()*?[` and the backquote. -/
def special (b : UInt8) : Bool := (ascii "|&;<>()\x60*?[").contains b

/-- The bytes a backslash quotes inside double quotes: `$"\` and the backquote. -/
def escapable (b : UInt8) : Bool := (ascii "$\x60\"\\").contains b

/-- The bytes that begin an expansion behind a `$`: a name's or a positional parameter's first, the
special parameters, `{` and `(`. -/
def expands (b : UInt8) : Bool :=
  isdigit b || (65 ≤ b && b ≤ 90) || (97 ≤ b && b ≤ 122) || (ascii "_\x7b(@*#?-$!").contains b

/-- A byte that no `$` stands before. -/
def readByte (s : State) (b : UInt8) : Option State :=
  match s.mode with
  | .plain =>
    if b = 32 ∨ b = 9 then some s.blank
    else if b = 10 then some s.newline
    else if b = 35 ∧ s.current = none then some (s.goto .comment)
    else if special b ∨ b = 126 ∧ s.current = none then none
    else if b = 36 then some (s.goto (.dollar false))
    else if b = 92 then some (s.goto .escape)
    else if b = 39 then s.add .single []
    else if b = 34 then s.add .double []
    else s.add .plain [b]
  | .escape => if b = 10 then some (s.goto .plain) else s.add .plain [b]
  | .single => s.add (if b = 39 then .plain else .single) (if b = 39 then [] else [b])
  | .double =>
    if b = 34 then s.add .plain []
    else if b = 96 then none
    else if b = 36 then some (s.goto (.dollar true))
    else if b = 92 then some (s.goto .doubleEscape)
    else s.add .double [b]
  | .doubleEscape =>
    if b = 10 then some (s.goto .double)
    else s.add .double (if escapable b then [b] else [92, b])
  | .comment => some (if b = 10 then s.newline else s)
  | .dollar _ => none
  | .dollarEscape _ => none

/-- Outside quotes a `$` before a quote has no reading either. -/
def step (s : State) (b : UInt8) : Option State :=
  match s.mode with
  | .dollar quoted =>
    if expands b ∨ quoted = false ∧ (b = 34 ∨ b = 39) then none
    else if b = 92 then some (s.goto (.dollarEscape quoted))
    else (s.add (if quoted then .double else .plain) [36]).bind fun s => readByte s b
  | .dollarEscape quoted =>
    if b = 10 then some (s.goto (.dollar quoted))
    else (s.add (if quoted then .doubleEscape else .escape) [36]).bind fun s => readByte s b
  | _ => readByte s b

def reserved : List (List UInt8) :=
  ["!", "\x7b", "\x7d", "case", "do", "done", "elif", "else", "esac", "fi", "for", "if", "in",
    "then", "until", "while"].map ascii

/-- The words, where the first is not a reserved word and does not hold the `=` of an assignment. -/
def close (s : State) : Option (List (List UInt8)) :=
  let words := s.words ++ s.current.toList
  let command := words.head?.getD []
  if 61 ∉ command ∧ command ∉ reserved then some words else none

/-- The words at the end of the text. -/
def finish (s : State) : Option (List (List UInt8)) :=
  match s.mode with
  | .plain | .comment => close s
  | .dollar false => (s.add .plain [36]).bind close
  | _ => none

/-- The words of the simple command that a text is. -/
def read (text : List UInt8) : Option (List (List UInt8)) := (text.foldlM step start).bind finish

/-- A word that stands for itself between double quotes: no quote or backquote, no `$` before a byte
that begins an expansion, and a backslash only before a byte that is none of `\`, `$` and
newline. -/
structure Verbatim (p : List UInt8) : Prop where
  quote : 34 ∉ p
  backquote : 96 ∉ p
  dollar : ∀ (k : ℕ) (b : UInt8), p[k]? = some 36 → p[k + 1]? = some b → expands b = false
  backslash : ∀ k : ℕ, p[k]? = some 92 → ∃ b, p[k + 1]? = some b ∧ b ≠ 92 ∧ b ≠ 36 ∧ b ≠ 10

section Weight

variable {s s' : State} {b : UInt8} {mode : Mode} {bs l : List UInt8} {ws : List (List UInt8)}

@[simp] theorem size_goto (s : State) (mode : Mode) : (s.goto mode).size = s.size := rfl

@[simp] theorem mode_goto (s : State) (mode : Mode) : (s.goto mode).mode = mode := rfl

@[simp] theorem size_blank (s : State) : s.blank.size = s.size := by
  unfold State.size State.blank
  cases s.current <;> simp

@[simp] theorem size_newline (s : State) : s.newline.size = s.size := size_blank s

@[simp] theorem mode_blank (s : State) : s.blank.mode = .plain := rfl

@[simp] theorem mode_newline (s : State) : s.newline.mode = .plain := rfl

theorem add_eq_some (h : s.add mode bs = some s') :
    s'.mode = mode ∧ s'.size = s.size + bs.length := by
  unfold State.add at h
  split_ifs at h
  obtain rfl := Option.some.inj h
  refine ⟨rfl, ?_⟩
  simp only [State.size, Option.getD_some, List.length_append, Nat.add_assoc]

theorem weight_add (h : s.add mode bs = some s') : s'.weight = s.size + bs.length + mode.kept := by
  obtain ⟨hm, hs⟩ := add_eq_some h
  rw [State.weight, hm, hs]

theorem close_eq_some (h : close s = some ws) : s.words ++ s.current.toList = ws := by
  unfold close at h
  simp only [] at h
  split_ifs at h
  exact Option.some.inj h

theorem size_close (h : close s = some ws) : s.size = ws.flatten.length := by
  rw [State.size, ← close_eq_some h]
  cases s.current <;> simp

/-- What is left at the end has the bytes of its words. -/
theorem weight_finish (h : finish s = some ws) : s.weight = ws.flatten.length := by
  unfold finish at h
  split at h
  · rename_i hmode
    rw [State.weight, hmode, size_close h]
    rfl
  · rename_i hmode
    rw [State.weight, hmode, size_close h]
    rfl
  · rename_i hmode
    obtain ⟨t, ht, h⟩ := Option.bind_eq_some_iff.mp h
    rw [State.weight, hmode, ← size_close h, (add_eq_some ht).2]
    rfl
  · cases h

theorem weight_readByte (h : readByte s b = some s') : s'.weight ≤ s.weight + 1 := by
  unfold readByte at h
  unfold State.weight
  cases hmode : s.mode <;> rw [hmode] at h <;> simp only [] at h
  case single =>
    obtain ⟨hm, hs⟩ := add_eq_some h
    rw [hm, hs]
    split_ifs <;> simp [Mode.kept]
  case comment =>
    obtain rfl := Option.some.inj h
    split_ifs <;> simp_all [Mode.kept]
  case dollar => cases h
  case dollarEscape => cases h
  all_goals split_ifs at h
  all_goals first
    | obtain rfl := Option.some.inj h
      simp [Mode.kept] <;> omega
    | obtain ⟨hm, hs⟩ := add_eq_some h
      rw [hm, hs]
      simp [Mode.kept]

/-- A byte is read as by itself, behind a `$` too where that stands for itself, or it is kept
back. -/
theorem step_cases (h : step s b = some s') :
    (∃ t, t.weight = s.weight ∧ readByte t b = some s') ∨ b ≠ 34 ∧ s'.weight ≤ s.weight + 1 := by
  unfold step at h
  split at h
  · rename_i quoted hmode
    by_cases hexp : expands b ∨ quoted = false ∧ (b = 34 ∨ b = 39)
    · rw [if_pos hexp] at h
      cases h
    rw [if_neg hexp] at h
    by_cases h92 : b = 92
    · rw [if_pos h92] at h
      obtain rfl := Option.some.inj h
      refine .inr ⟨by rw [h92]; decide, ?_⟩
      simp [State.weight, hmode, Mode.kept]
    · rw [if_neg h92] at h
      obtain ⟨t, ht, h⟩ := Option.bind_eq_some_iff.mp h
      refine .inl ⟨t, ?_, h⟩
      rw [weight_add ht, State.weight, hmode]
      cases quoted <;> rfl
  · rename_i quoted hmode
    by_cases h10 : b = 10
    · rw [if_pos h10] at h
      obtain rfl := Option.some.inj h
      refine .inr ⟨by rw [h10]; decide, ?_⟩
      simp [State.weight, hmode, Mode.kept]
    · rw [if_neg h10] at h
      obtain ⟨t, ht, h⟩ := Option.bind_eq_some_iff.mp h
      refine .inl ⟨t, ?_, h⟩
      rw [weight_add ht, State.weight, hmode]
      cases quoted <;> rfl
  · exact .inl ⟨s, rfl, h⟩

/-- A byte adds at most itself. -/
theorem weight_step (h : step s b = some s') : s'.weight ≤ s.weight + 1 := by
  rcases step_cases h with ⟨t, ht, h⟩ | ⟨-, h⟩
  · exact ht ▸ weight_readByte h
  · exact h

theorem weight_run : ∀ {l : List UInt8} {s s' : State}, l.foldlM step s = some s' →
    s'.weight ≤ s.weight + l.length
  | [], s, s', h => by
    obtain rfl := Option.some.inj h
    exact Nat.le_refl _
  | b :: l, s, s', h => by
    rw [List.foldlM_cons] at h
    obtain ⟨t, ht, h⟩ := Option.bind_eq_some_iff.mp h
    have hstep := weight_step ht
    have hrun := weight_run h
    rw [List.length_cons]
    omega

theorem readByte_quote (s : State) : readByte s 34 = match s.mode with
    | .plain => s.add .double []
    | .escape => s.add .plain [34]
    | .single => s.add .single [34]
    | .double => s.add .plain []
    | .doubleEscape => s.add .double [34]
    | .comment => some s
    | .dollar _ => none
    | .dollarEscape _ => none := by
  unfold readByte
  cases s.mode <;> rfl

theorem mode_finish (h : finish s = some ws) :
    s.mode = .plain ∨ s.mode = .comment ∨ s.mode = .dollar false := by
  unfold finish at h
  split at h
  · rename_i hmode
    exact .inl hmode
  · rename_i hmode
    exact .inr (.inl hmode)
  · rename_i hmode
    exact .inr (.inr hmode)
  · cases h

/-- A quote at the end of the text adds nothing. -/
theorem weight_quote (h : step s 34 = some s') (hend : finish s' = some ws) :
    s'.weight ≤ s.weight := by
  have hclosed := mode_finish hend
  obtain ⟨t, ht, h⟩ := (step_cases h).resolve_right fun h => h.1 rfl
  rw [← ht]
  rw [readByte_quote] at h
  unfold State.weight
  cases hmode : t.mode <;> rw [hmode] at h <;> simp only [] at h
  case comment =>
    obtain rfl := Option.some.inj h
    rw [hmode]
  case dollar => cases h
  case dollarEscape => cases h
  all_goals
    obtain ⟨hm, hs⟩ := add_eq_some h
    rw [hm] at hclosed
    rw [hm, hs]
    simp [Mode.kept] at hclosed ⊢

theorem weight_run_quote (h : (l ++ [34]).foldlM step s = some s') (hend : finish s' = some ws) :
    s'.weight ≤ s.weight + l.length := by
  rw [List.foldlM_append] at h
  obtain ⟨t, ht, h⟩ := Option.bind_eq_some_iff.mp h
  rw [List.foldlM_cons] at h
  obtain ⟨r, hr, h⟩ := Option.bind_eq_some_iff.mp h
  obtain rfl := Option.some.inj h
  exact (weight_quote hr hend).trans (weight_run ht)

end Weight

section Quoted

variable {b : UInt8} {c p : List UInt8} {ws out : List (List UInt8)} {s : State}

theorem escapable_eq_false_iff :
    escapable b = false ↔ b ≠ 36 ∧ b ≠ 96 ∧ b ≠ 34 ∧ b ≠ 92 := by
  have hbytes : ascii "$\x60\"\\" = [36, 96, 34, 92] := by decide
  rw [escapable, hbytes]
  simp

/-- A word is open between double quotes. -/
def inside (ws : List (List UInt8)) (c : List UInt8) : State := ⟨.double, ws, some c, false⟩

theorem weight_inside (ws : List (List UInt8)) (c : List UInt8) :
    (inside ws c).weight = ws.flatten.length + c.length := rfl

/-- The word is closed. -/
def outside (ws : List (List UInt8)) (c : List UInt8) : State := ⟨.plain, ws, some c, false⟩

theorem run_cons {s t : State} (h : step s b = some t) (l : List UInt8) :
    (b :: l).foldlM step s = l.foldlM step t := by
  rw [List.foldlM_cons, h]
  rfl

theorem run_quote (ws : List (List UInt8)) (c : List UInt8) :
    [34].foldlM step (inside ws c) = some (outside ws c) := by
  have hclose : step (inside ws c) 34 = some ⟨.plain, ws, some (c ++ []), false⟩ := rfl
  rw [run_cons hclose, List.append_nil]
  rfl

/-- A backslash inside double quotes and the byte behind it. -/
theorem run_backslash (ws : List (List UInt8)) (c : List UInt8) (d : UInt8) (l : List UInt8) :
    (92 :: d :: l).foldlM step (inside ws c)
      = l.foldlM step (if d = 10 then inside ws c
          else inside ws (c ++ if escapable d then [d] else [92, d])) := by
  have hkept : step (inside ws c) 92 = some ((inside ws c).goto .doubleEscape) := rfl
  have hnext : step ((inside ws c).goto .doubleEscape) d = some (if d = 10 then inside ws c
      else inside ws (c ++ if escapable d then [d] else [92, d])) := by
    rw [step]
    simp only [mode_goto, readByte]
    split_ifs <;> rfl
  rw [run_cons hkept, run_cons hnext]

theorem run_inside (h34 : b ≠ 34) (h96 : b ≠ 96) (h36 : b ≠ 36) (h92 : b ≠ 92) (l : List UInt8) :
    (b :: l).foldlM step (inside ws c) = l.foldlM step (inside ws (c ++ [b])) := by
  have hstep : step (inside ws c) b = some (inside ws (c ++ [b])) := by
    unfold step inside
    simp only [readByte]
    rw [if_neg h34, if_neg h96, if_neg h36, if_neg h92]
    rfl
  exact run_cons hstep l

/-- A `$` inside double quotes before a byte that begins no expansion stands for itself. -/
theorem run_dollar {d : UInt8} (hexp : expands d = false) (h92 : d ≠ 92) (l : List UInt8) :
    (36 :: d :: l).foldlM step (inside ws c) = (d :: l).foldlM step (inside ws (c ++ [36])) := by
  have hkept : step (inside ws c) 36 = some ((inside ws c).goto (.dollar true)) := rfl
  have hnext : step ((inside ws c).goto (.dollar true)) d = step (inside ws (c ++ [36])) d := by
    rw [step]
    simp only [mode_goto]
    rw [if_neg (by rw [hexp]; simp), if_neg h92]
    rfl
  rw [run_cons hkept, List.foldlM_cons, hnext]
  rfl

/-- So it does before a backslash, unless that continues the line. -/
theorem run_dollar_backslash {d : UInt8} (h10 : d ≠ 10) (l : List UInt8) :
    (36 :: 92 :: d :: l).foldlM step (inside ws c)
      = (92 :: d :: l).foldlM step (inside ws (c ++ [36])) := by
  have hkept : step (inside ws c) 36 = some ((inside ws c).goto (.dollar true)) := rfl
  have hkept' : step ((inside ws c).goto (.dollar true)) 92
      = some ((inside ws c).goto (.dollarEscape true)) := rfl
  have hnext : step ((inside ws c).goto (.dollarEscape true)) d
      = step ((inside ws (c ++ [36])).goto .doubleEscape) d := by
    rw [step]
    simp only [mode_goto]
    rw [if_neg h10]
    rfl
  have hopen : step (inside ws (c ++ [36])) 92
      = some ((inside ws (c ++ [36])).goto .doubleEscape) := rfl
  rw [run_cons hkept, run_cons hkept', run_cons hopen, List.foldlM_cons, hnext]
  rfl

theorem run_expands {d : UInt8} (hexp : expands d = true) (l : List UInt8) :
    (36 :: d :: l).foldlM step (inside ws c) = none := by
  have hkept : step (inside ws c) 36 = some ((inside ws c).goto (.dollar true)) := rfl
  have hnext : step ((inside ws c).goto (.dollar true)) d = none := by
    rw [step]
    simp only [mode_goto]
    rw [if_pos (.inl hexp)]
  rw [run_cons hkept, List.foldlM_cons, hnext]
  rfl

/-- A `$` of a word stands for itself where it begins no expansion and no line is continued behind
it. -/
theorem run_dollar_word (hexp : ∀ d, p[0]? = some d → expands d = false)
    (hcont : p[0]? = some 92 → p[1]? ≠ some 10) :
    (36 :: (p ++ [34])).foldlM step (inside ws c)
      = (p ++ [34]).foldlM step (inside ws (c ++ [36])) := by
  rcases p with _ | ⟨d, p⟩
  · exact run_dollar (by decide) (by decide) []
  by_cases h92 : d = 92
  · subst h92
    rcases p with _ | ⟨e, p⟩
    · exact run_dollar_backslash (by decide) []
    · exact run_dollar_backslash (fun h10 => hcont rfl (congrArg some h10)) _
  · exact run_dollar (hexp d rfl) h92 _

/-- A backslash before a byte that it does not quote stands for itself. -/
theorem run_backslash_word {d : UInt8} (hd : p[0]? = some d) (hesc : escapable d = false)
    (h10 : d ≠ 10) : (92 :: (p ++ [34])).foldlM step (inside ws c)
      = (p ++ [34]).foldlM step (inside ws (c ++ [92])) := by
  rcases p with _ | ⟨d', p⟩
  · cases hd
  obtain rfl : d' = d := Option.some.inj hd
  obtain ⟨h36, h96, h34, h92⟩ := escapable_eq_false_iff.mp hesc
  rw [List.cons_append, run_backslash, if_neg h10, hesc, if_neg Bool.false_ne_true,
    run_inside h34 h96 h36 h92, List.append_assoc]
  rfl

/-- A byte that stands for itself between double quotes before the bytes behind it. -/
structure Stands (b : UInt8) (p : List UInt8) : Prop where
  quote : b ≠ 34
  backquote : b ≠ 96
  dollar : b = 36 → ∀ d, p[0]? = some d → expands d = false
  continued : b = 36 → p[0]? = some 92 → p[1]? ≠ some 10
  backslash : b = 92 → ∃ d, p[0]? = some d ∧ escapable d = false ∧ d ≠ 10

theorem verbatim_nil : Verbatim [] :=
  ⟨List.not_mem_nil, List.not_mem_nil, fun k _ hk => by simp at hk, fun k hk => by simp at hk⟩

theorem verbatim_tail (h : Verbatim (b :: p)) : Verbatim p where
  quote hm := h.quote (List.mem_cons_of_mem _ hm)
  backquote hm := h.backquote (List.mem_cons_of_mem _ hm)
  dollar k d hk := h.dollar (k + 1) d hk
  backslash k hk := h.backslash (k + 1) hk

theorem verbatim_cons (h : Stands b p) (hp : Verbatim p) : Verbatim (b :: p) where
  quote := List.not_mem_cons_of_ne_of_not_mem (Ne.symm h.quote) hp.quote
  backquote := List.not_mem_cons_of_ne_of_not_mem (Ne.symm h.backquote) hp.backquote
  dollar k d hk hd := by
    rcases k with _ | k
    · exact h.dollar (Option.some.inj hk) d hd
    · exact hp.dollar k d hk hd
  backslash k hk := by
    rcases k with _ | k
    · obtain ⟨d, hd, hesc, h10⟩ := h.backslash (Option.some.inj hk)
      obtain ⟨h36, -, -, h92⟩ := escapable_eq_false_iff.mp hesc
      exact ⟨d, hd, h92, h36, h10⟩
    · exact hp.backslash k hk

theorem stands_of_verbatim (h : Verbatim (b :: p)) : Stands b p where
  quote e := h.quote (e ▸ List.mem_cons_self)
  backquote e := h.backquote (e ▸ List.mem_cons_self)
  dollar e d hd := h.dollar 0 d (congrArg some e) hd
  continued _ h92 h10 := by
    obtain ⟨d, hd, -, -, hd10⟩ := h.backslash 1 h92
    exact hd10 (Option.some.inj (hd.symm.trans h10))
  backslash e := by
    obtain ⟨d, hd, h92, h36, h10⟩ := h.backslash 0 (congrArg some e)
    have hmem : d ∈ b :: p := List.mem_of_getElem? hd
    exact ⟨d, hd, escapable_eq_false_iff.mpr ⟨h36, fun e => h.backquote (e ▸ hmem),
      fun e => h.quote (e ▸ hmem), h92⟩, h10⟩

theorem run_stands (h : Stands b p) : (b :: (p ++ [34])).foldlM step (inside ws c)
    = (p ++ [34]).foldlM step (inside ws (c ++ [b])) := by
  by_cases h36 : b = 36
  · rw [h36]
    exact run_dollar_word (h.dollar h36) (h.continued h36)
  by_cases h92 : b = 92
  · obtain ⟨d, hd, hesc, h10⟩ := h.backslash h92
    rw [h92]
    exact run_backslash_word hd hesc h10
  exact run_inside h.quote h.backquote h36 h92 _

/-- Such a word is read as it stands, and the quote behind it closes it. -/
theorem run_verbatim : ∀ {p c : List UInt8}, Verbatim p →
    (p ++ [34]).foldlM step (inside ws c) = some (outside ws (c ++ p))
  | [], c, _ => by rw [List.append_nil, List.nil_append, run_quote]
  | b :: p, c, h => by
    rw [List.cons_append, run_stands (stands_of_verbatim h), run_verbatim (verbatim_tail h),
      List.append_assoc]
    rfl

theorem finish_inside (ws : List (List UInt8)) (c : List UInt8) :
    finish (inside ws c) = none := rfl

/-- A byte at the front of a text that loses no byte stands for itself. -/
theorem stands_of_run (h : (b :: (p ++ [34])).foldlM step (inside ws c) = some s)
    (hend : finish s = some out) (hweight : s.weight = (inside ws c).weight + (p.length + 1)) :
    Stands b p where
  quote := by
    -- the word is closed too early, and the last quote opens another
    rintro rfl
    obtain ⟨t, ht, h⟩ := Option.bind_eq_some_iff.mp (List.foldlM_cons.symm.trans h)
    obtain ⟨hmode, hsize⟩ := add_eq_some (show (inside ws c).add .plain [] = some t from ht)
    have hle := weight_run_quote h hend
    have ht' : t.weight = (inside ws c).weight := by
      rw [State.weight, hmode, hsize]
      rfl
    omega
  backquote := by
    rintro rfl
    have hnone : step (inside ws c) 96 = none := rfl
    rw [List.foldlM_cons, hnone] at h
    cases h
  dollar := by
    rintro rfl d hd
    rcases p with _ | ⟨d', p⟩
    · cases hd
    obtain rfl : d' = d := Option.some.inj hd
    by_contra hexp
    rw [List.cons_append, run_expands (Bool.eq_true_of_not_eq_false hexp)] at h
    cases h
  continued := by
    -- the line goes on behind the `$`, without the backslash and the newline
    rintro rfl h92 h10
    rcases p with _ | ⟨d, _ | ⟨e, p⟩⟩
    · cases h92
    · cases h10
    obtain rfl : d = 92 := Option.some.inj h92
    obtain rfl : e = 10 := Option.some.inj h10
    have hskip : (36 :: 92 :: 10 :: (p ++ [34])).foldlM step (inside ws c)
        = (p ++ [34]).foldlM step ((inside ws c).goto (.dollar true)) := rfl
    rw [List.cons_append, List.cons_append, hskip] at h
    have hle := weight_run_quote h hend
    have hkept : ((inside ws c).goto (.dollar true)).weight = (inside ws c).weight + 1 := rfl
    simp only [List.length_cons] at hweight
    omega
  backslash := by
    rintro rfl
    rcases p with _ | ⟨d, p⟩
    · rw [List.nil_append, run_backslash] at h
      obtain rfl := Option.some.inj h
      rw [if_neg (by decide), finish_inside] at hend
      cases hend
    rw [List.cons_append, run_backslash] at h
    rw [List.length_cons, weight_inside] at hweight
    by_cases h10 : d = 10
    · rw [if_pos h10] at h
      have hle := weight_run_quote h hend
      rw [weight_inside] at hle
      omega
    · refine ⟨d, rfl, ?_, h10⟩
      by_contra hesc
      rw [if_neg h10, Bool.eq_true_of_not_eq_false hesc, if_pos rfl] at h
      have hle := weight_run_quote h hend
      rw [weight_inside, List.length_append, List.length_singleton] at hle
      omega

/-- A text that loses no byte between its quotes stands for itself there. -/
theorem verbatim_of_run : ∀ {p c : List UInt8}, (p ++ [34]).foldlM step (inside ws c) = some s →
    finish s = some out → s.weight = (inside ws c).weight + p.length → Verbatim p
  | [], _, _, _, _ => verbatim_nil
  | b :: p, c, h, hend, hweight => by
    rw [List.cons_append] at h
    have hb := stands_of_run h hend hweight
    rw [run_stands hb] at h
    refine verbatim_cons hb (verbatim_of_run h hend ?_)
    rw [hweight, List.length_cons, weight_inside, weight_inside, List.length_append,
      List.length_singleton]
    omega

/-- Behind the words of a command a quoted word is read as it stands exactly when nothing in it is
special. -/
theorem read_quoted_iff {pre command : List UInt8} {args : List (List UInt8)}
    (hpre : pre.foldlM step start = some ⟨.plain, command :: args, none, false⟩)
    (h61 : 61 ∉ command) (hres : command ∉ reserved) :
    read (pre ++ 34 :: (p ++ [34])) = some (command :: args ++ [p]) ↔ Verbatim p := by
  have hopen : (pre ++ 34 :: (p ++ [34])).foldlM step start
      = (p ++ [34]).foldlM step (inside (command :: args) []) := by
    rw [List.foldlM_append, hpre]
    rfl
  rw [read, hopen]
  constructor
  · intro h
    obtain ⟨s, hrun, hend⟩ := Option.bind_eq_some_iff.mp h
    refine verbatim_of_run hrun hend ?_
    rw [weight_finish hend, weight_inside]
    simp [Nat.add_assoc]
  · intro h
    rw [run_verbatim h, List.nil_append, Option.bind_some]
    exact if_pos ⟨h61, hres⟩

end Quoted

end Shell
