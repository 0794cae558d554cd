import EltexSystems.Lib.CString
import EltexSystems.Lib.Runs

/-!
# Tokens of a C string

`strtok`, which ends the token it finds by a `NUL` in the string itself and remembers where it
stopped.  The tokens are what lies between the delimiters and is not empty: a call finds the first
of them and leaves the others (`strtok_cons`), and a token that has been found stays as it is
whatever is called after it (`Closed`).
-/

namespace Strtok

open CStr Runs

section Tokens

variable {α : Type*} {p : α → Bool} {a : α} {l t : List α}

/-- The parts of a list between some delimiters that are not empty. -/
def tokens (p : α → Bool) (l : List α) : List (List α) := (l.splitOnP p).filter (!·.isEmpty)

@[simp] theorem tokens_nil (p : α → Bool) : tokens p ([] : List α) = [] := rfl

theorem tokens_cons (ha : p a = true) : tokens p (a :: l) = tokens p l := by
  rw [tokens, List.splitOnP_cons_eq_if_modifyHead, if_pos ha]
  rfl

theorem tokens_of_forall (h : ∀ b ∈ t, p b = false) (hne : t ≠ []) : tokens p t = [t] := by
  rw [tokens, List.splitOnP_eq_singleton h]
  exact List.filter_cons_of_pos (by simpa using hne)

theorem tokens_append_cons (h : ∀ b ∈ t, p b = false) (hne : t ≠ []) (ha : p a = true)
    (l : List α) : tokens p (t ++ a :: l) = t :: tokens p l := by
  rw [tokens, List.splitOnP_append_cons_of_forall_mem h a ha]
  exact List.filter_cons_of_pos (by simpa using hne)

/-- Delimiters at the front do not count. -/
theorem tokens_dropWhile (p : α → Bool) : ∀ l : List α, tokens p (l.dropWhile p) = tokens p l
  | [] => rfl
  | a :: l => by
    by_cases ha : p a = true
    · rw [List.dropWhile_cons_of_pos ha, tokens_dropWhile p l, tokens_cons ha]
    · rw [List.dropWhile_cons_of_neg ha]

theorem tokens_eq_nil (h : l.dropWhile p = []) : tokens p l = [] := by
  rw [← tokens_dropWhile, h, tokens_nil]

/-- The first token, and what follows the delimiter behind it. -/
theorem tokens_eq_cons (h : l.dropWhile p ≠ []) :
    (l.dropWhile p).takeWhile (!p ·) ≠ []
      ∧ tokens p l = (l.dropWhile p).takeWhile (!p ·)
        :: tokens p (((l.dropWhile p).dropWhile (!p ·)).drop 1) := by
  have hne := takeWhile_not_ne_nil h
  have hall : ∀ b ∈ (l.dropWhile p).takeWhile (!p ·), p b = false := by
    intro b hb
    simpa using List.mem_takeWhile_imp hb
  refine ⟨hne, ?_⟩
  rw [← tokens_dropWhile]
  have hsplit := List.takeWhile_append_dropWhile (p := (!p ·)) (l := l.dropWhile p)
  rcases hrest : (l.dropWhile p).dropWhile (!p ·) with _ | ⟨b, rest⟩
  · rw [hrest, List.append_nil] at hsplit
    rw [hsplit] at hall ⊢
    exact tokens_of_forall hall h
  · have hb : p b = true := head_dropWhile_not p (l.dropWhile p) b (by rw [hrest]; rfl)
    rw [hrest] at hsplit
    rw [← hsplit, tokens_append_cons hall hne hb, hsplit]
    rfl

theorem tokens_eq_nil_iff : tokens p l = [] ↔ ∀ b ∈ l, p b = true := by
  rw [← List.dropWhile_eq_nil_iff]
  constructor
  · intro h
    by_contra hne
    rw [(tokens_eq_cons hne).2] at h
    cases h
  · exact tokens_eq_nil

end Tokens

/-- The memory of a string, and where the last call stopped. -/
structure Tokenizer where
  buf : List UInt8
  save : ℕ
  deriving DecidableEq

namespace Tokenizer

/-- The string at a pointer. -/
def string (m : Tokenizer) (s : ℕ) : List UInt8 := cstr (m.buf.drop s)

end Tokenizer

def strspn (s delim : List UInt8) : ℕ := (s.takeWhile (delim.contains ·)).length

def strcspn (s delim : List UInt8) : ℕ := (s.takeWhile (!delim.contains ·)).length

/-- `strtok(str, delim)`; `none` is `NULL`. -/
def strtok (delim : List UInt8) (str : Option ℕ) (m : Tokenizer) : Option ℕ × Tokenizer :=
  let s := str.getD m.save
  let tok := s + strspn (m.string s) delim
  if m.string tok = [] then (none, { m with save := tok })
  else
    let stop := tok + strcspn (m.string tok) delim
    if m.string stop = [] then (some tok, { m with save := stop })
    else (some tok, ⟨m.buf.set stop 0, stop + 1⟩)

section Memory

variable {m m' : Tokenizer} {q s : ℕ} {w : List UInt8}

theorem string_congr (h : m.buf = m'.buf) (q : ℕ) :
    m.string q = m'.string q := by
  rw [Tokenizer.string, h]
  rfl

theorem string_drop {k : ℕ} (h : k ≤ (m.string s).length) :
    m.string (s + k) = (m.string s).drop k := by
  unfold Tokenizer.string at *
  rw [← List.drop_drop]
  exact cstr_drop _ h

/-- A `NUL` stored behind the start of a string. -/
theorem string_set {stop : ℕ} (h : q ≤ stop) (save : ℕ) :
    (Tokenizer.mk (m.buf.set stop 0) save).string q = (m.string q).take (stop - q) := by
  unfold Tokenizer.string
  rw [List.drop_set, if_neg (Nat.not_lt.mpr h), cstr_set]

theorem string_set_before {stop : ℕ} (h : stop < q) (save : ℕ) :
    (Tokenizer.mk (m.buf.set stop 0) save).string q = m.string q := by
  unfold Tokenizer.string
  rw [List.drop_set, if_pos h]

theorem drop_takeWhile {α : Type*} (p : α → Bool) (l : List α) :
    l.drop (l.takeWhile p).length = l.dropWhile p := by
  have h : (l.takeWhile p ++ l.dropWhile p).drop (l.takeWhile p).length = l.dropWhile p :=
    List.drop_left
  rwa [List.takeWhile_append_dropWhile] at h

end Memory

section Calls

variable {m m' : Tokenizer} {delim w t : List UInt8} {ts : List (List UInt8)} {q : ℕ}

/-- The string at a pointer is whole: it has been passed, or nothing is left to pass. -/
structure Closed (m : Tokenizer) (q : ℕ) (w : List UInt8) : Prop where
  string : m.string q = w
  passed : q + w.length < m.save ∨ m.string m.save = []

theorem string_strspn (m : Tokenizer) (s : ℕ) (delim : List UInt8) :
    m.string (s + strspn (m.string s) delim) = (m.string s).dropWhile (delim.contains ·) := by
  rw [strspn, string_drop (List.takeWhile_prefix _).length_le, drop_takeWhile]

theorem string_strcspn (m : Tokenizer) (s : ℕ) (delim : List UInt8) :
    m.string (s + strcspn (m.string s) delim) = (m.string s).dropWhile (!delim.contains ·) := by
  rw [strcspn, string_drop (List.takeWhile_prefix _).length_le, drop_takeWhile]

theorem strspn_add (m : Tokenizer) (s : ℕ) (delim : List UInt8) : strspn (m.string s) delim
    + (m.string (s + strspn (m.string s) delim)).length = (m.string s).length := by
  rw [string_strspn, strspn, ← List.length_append, List.takeWhile_append_dropWhile]

theorem strcspn_add (m : Tokenizer) (s : ℕ) (delim : List UInt8) : strcspn (m.string s) delim
    + (m.string (s + strcspn (m.string s) delim)).length = (m.string s).length := by
  rw [string_strcspn, strcspn, ← List.length_append, List.takeWhile_append_dropWhile]

theorem strtok_none (delim : List UInt8) (str : Option ℕ) (m : Tokenizer) {tok : ℕ}
    (htok : str.getD m.save + strspn (m.string (str.getD m.save)) delim = tok)
    (hnil : m.string tok = []) : strtok delim str m = (none, { m with save := tok }) := by
  unfold strtok
  simp only [htok]
  exact if_pos hnil

/-- Without a token left the call returns `NULL`. -/
theorem strtok_nil (delim : List UInt8) (str : Option ℕ) (m : Tokenizer)
    (h : tokens (delim.contains ·) (m.string (str.getD m.save)) = []) :
    (strtok delim str m).1 = none ∧ (strtok delim str m).2.buf = m.buf
      ∧ m.string (strtok delim str m).2.save = [] := by
  have hnone := List.dropWhile_eq_nil_iff.mpr (tokens_eq_nil_iff.mp h)
  have hstop := string_strspn m (str.getD m.save) delim
  rw [hnone] at hstop
  rw [strtok_none delim str m rfl hstop]
  exact ⟨rfl, rfl, hstop⟩

/-- Nor does the call after it find one, and the text is as it was. -/
theorem strtok_nil_next (delim : List UInt8) (str : Option ℕ) (m : Tokenizer)
    (h : tokens (delim.contains ·) (m.string (str.getD m.save)) = []) :
    (strtok delim none (strtok delim str m).2).1 = none
      ∧ (strtok delim none (strtok delim str m).2).2.buf = m.buf := by
  obtain ⟨-, hbuf, hsave⟩ := strtok_nil delim str m h
  have hleft : (strtok delim str m).2.string (strtok delim str m).2.save = [] := by
    rw [string_congr hbuf, hsave]
  obtain ⟨hnull, hbuf', -⟩ := strtok_nil delim none (strtok delim str m).2
    (by rw [Option.getD_none, hleft, tokens_nil])
  exact ⟨hnull, hbuf'.trans hbuf⟩

/-- A token that is found is whole, and the call stops behind it and its delimiter. -/
theorem strtok_found (delim : List UInt8) (str : Option ℕ) (m : Tokenizer) {tok : ℕ}
    (htok : str.getD m.save + strspn (m.string (str.getD m.save)) delim = tok)
    (hne : m.string tok ≠ []) :
    (strtok delim str m).1 = some tok
      ∧ Closed (strtok delim str m).2 tok ((m.string tok).takeWhile (!delim.contains ·))
      ∧ (strtok delim str m).2.string (strtok delim str m).2.save
        = ((m.string tok).dropWhile (!delim.contains ·)).drop 1
      ∧ (strtok delim str m).2.save = tok + strcspn (m.string tok) delim
        + if (m.string tok).dropWhile (!delim.contains ·) = [] then 0 else 1 := by
  unfold strtok
  simp only [htok]
  rw [if_neg hne]
  have hstop := string_strcspn m tok delim
  have htake : (m.string tok).take (strcspn (m.string tok) delim)
      = (m.string tok).takeWhile (!delim.contains ·) :=
    (List.prefix_iff_eq_take.mp (List.takeWhile_prefix _)).symm
  rw [← hstop]
  split_ifs with hend
  · -- the token ends with the string
    have hwhole : m.string tok = (m.string tok).takeWhile (!delim.contains ·) := by
      rw [hstop] at hend
      have hsplit := List.takeWhile_append_dropWhile (p := (!delim.contains ·)) (l := m.string tok)
      rw [hend, List.append_nil] at hsplit
      exact hsplit.symm
    refine ⟨rfl, ⟨hwhole, .inr hend⟩, ?_, rfl⟩
    rw [hend]
    exact hend
  · refine ⟨rfl, ⟨?_, .inl (Nat.lt_succ_self _)⟩, ?_, rfl⟩
    · rw [string_set (Nat.le_add_right _ _), Nat.add_sub_cancel_left, htake]
    · rw [← string_drop (List.length_pos_iff.mpr hend)]
      exact string_set_before (Nat.lt_succ_self _) _

/-- The string the call starts at is left with its delimiters in front and its first token. -/
theorem strtok_front (delim : List UInt8) (str : Option ℕ) (m : Tokenizer)
    (hne : (m.string (str.getD m.save)).dropWhile (delim.contains ·) ≠ []) :
    Closed (strtok delim str m).2 (str.getD m.save)
      ((m.string (str.getD m.save)).takeWhile (delim.contains ·)
        ++ ((m.string (str.getD m.save)).dropWhile (delim.contains ·)).takeWhile
          (!delim.contains ·)) := by
  have htok := string_strspn m (str.getD m.save) delim
  unfold strtok
  generalize hs : str.getD m.save = s at *
  simp only []
  rw [← htok] at hne ⊢
  rw [if_neg hne]
  have hstop := string_strcspn m (s + strspn (m.string s) delim) delim
  have hsplit := List.takeWhile_append_dropWhile (p := (delim.contains ·)) (l := m.string s)
  have hsplit' := List.takeWhile_append_dropWhile (p := (!delim.contains ·))
    (l := m.string (s + strspn (m.string s) delim))
  rw [← htok] at hsplit
  split_ifs with hend
  · rw [← hstop, hend, List.append_nil] at hsplit'
    rw [hsplit', hsplit]
    exact ⟨rfl, .inr hend⟩
  · refine ⟨?_, .inl ?_⟩
    · rw [string_set (by omega), Nat.add_assoc, Nat.add_sub_cancel_left]
      have htake : ∀ a b c : List UInt8, (a ++ (b ++ c)).take (a.length + b.length) = a ++ b := by
        intro a b c
        rw [← List.append_assoc, ← List.length_append, List.take_left]
      have := htake ((m.string s).takeWhile (delim.contains ·))
        ((m.string (s + strspn (m.string s) delim)).takeWhile (!delim.contains ·))
        ((m.string (s + strspn (m.string s) delim)).dropWhile (!delim.contains ·))
      rwa [hsplit', hsplit] at this
    · rw [List.length_append]
      show s + _ < _ + 1
      unfold strspn strcspn
      omega

/-- With tokens left the call finds the first of them, and the others are left. -/
theorem strtok_cons (delim : List UInt8) (str : Option ℕ) (m : Tokenizer)
    (h : tokens (delim.contains ·) (m.string (str.getD m.save)) = t :: ts) :
    (strtok delim str m).1
        = some (str.getD m.save + strspn (m.string (str.getD m.save)) delim)
      ∧ Closed (strtok delim str m).2
        (str.getD m.save + strspn (m.string (str.getD m.save)) delim) t
      ∧ tokens (delim.contains ·)
        ((strtok delim str m).2.string (strtok delim str m).2.save) = ts := by
  have hne : (m.string (str.getD m.save)).dropWhile (delim.contains ·) ≠ [] := by
    intro hnil
    rw [tokens_eq_nil hnil] at h
    cases h
  have htok := string_strspn m (str.getD m.save) delim
  rw [(tokens_eq_cons hne).2, List.cons.injEq, ← htok] at h
  rw [← htok] at hne
  obtain ⟨hptr, hclosed, hrest, -⟩ := strtok_found delim str m rfl hne
  rw [h.1] at hclosed
  rw [hrest]
  exact ⟨hptr, hclosed, h.2⟩

/-- The call finds the first of the runs between delimiters, and the others are left. -/
theorem strtok_runs (delim : List UInt8) (str : Option ℕ) (m : Tokenizer)
    {rs : List (ℕ × List UInt8)}
    (h : runs (delim.contains ·) (str.getD m.save) (m.string (str.getD m.save)) = rs) :
    (strtok delim str m).1 = rs.head?.map Prod.fst
      ∧ runs (delim.contains ·) (strtok delim str m).2.save
        ((strtok delim str m).2.string (strtok delim str m).2.save) = rs.tail
      ∧ ∀ q ∈ rs.head?, Closed (strtok delim str m).2 q.1 q.2 := by
  have htok := string_strspn m (str.getD m.save) delim
  by_cases hnil : (m.string (str.getD m.save)).dropWhile (delim.contains ·) = []
  · rw [runs_eq_nil (List.dropWhile_eq_nil_iff.mp hnil)] at h
    rw [hnil] at htok
    rw [← h, strtok_none delim str m rfl htok]
    refine ⟨rfl, ?_, fun q hq => by cases hq⟩
    exact congrArg (runs _ _) htok
  · rw [runs_eq_cons hnil, ← htok] at h
    rw [← htok] at hnil
    obtain ⟨hptr, hclosed, hrest, hsave⟩ := strtok_found delim str m rfl hnil
    rw [← h, hptr, hrest]
    refine ⟨rfl, ?_, fun q hq => ?_⟩
    · rw [hsave, List.drop_one, List.tail_cons]
      split_ifs with hend
      · rw [hend]
        rfl
      · exact (runs_tail (head_dropWhile_not _ _) _).symm
    · obtain rfl := Option.some.inj hq
      exact hclosed

/-- The string that is left ends where the one before did. -/
theorem strtok_end (delim : List UInt8) (str : Option ℕ) (m : Tokenizer) :
    (strtok delim str m).2.save + ((strtok delim str m).2.string (strtok delim str m).2.save).length
      = str.getD m.save + (m.string (str.getD m.save)).length := by
  have hlen := strspn_add m (str.getD m.save) delim
  generalize htok : str.getD m.save + strspn (m.string (str.getD m.save)) delim = tok at hlen
  by_cases hnil : m.string tok = []
  · rw [hnil, List.length_nil] at hlen
    have hleft : (Tokenizer.mk m.buf tok).string tok = [] := hnil
    rw [strtok_none delim str m htok hnil]
    simp only [hleft, List.length_nil]
    omega
  · obtain ⟨-, -, hrest, hsave⟩ := strtok_found delim str m htok hnil
    have hcut := strcspn_add m tok delim
    rw [string_strcspn] at hcut
    rw [hrest, hsave, List.length_drop]
    split_ifs with hend
    · rw [hend, List.length_nil] at hcut ⊢
      omega
    · have hpos := List.length_pos_iff.mpr hend
      omega

theorem strtok_le (delim : List UInt8) (str : Option ℕ) (m : Tokenizer) :
    str.getD m.save ≤ (strtok delim str m).2.save := by
  unfold strtok
  simp only []
  split_ifs
  · exact Nat.le_add_right _ _
  · simp only [Nat.add_assoc]
    exact Nat.le_add_right _ _
  · simp only [Nat.add_assoc]
    exact Nat.le_add_right _ _

/-- No `NUL` is lost. -/
theorem strtok_nul (delim : List UInt8) (str : Option ℕ) {i : ℕ} (h : m.buf[i]? = some 0) :
    (strtok delim str m).2.buf[i]? = some 0 := by
  unfold strtok
  simp only []
  split_ifs
  · exact h
  · exact h
  · rw [List.getElem?_set]
    split_ifs with hi hlt
    · rfl
    · rw [hi, List.getElem?_eq_none (Nat.le_of_not_lt hlt)] at *
      cases h
    · exact h

/-- No later call touches a token. -/
theorem strtok_closed (delim : List UInt8) (h : Closed m q w) :
    Closed (strtok delim none m).2 q w := by
  obtain ⟨hstring, hpassed⟩ := h
  unfold strtok
  simp only [Option.getD_none]
  rcases hpassed with hlt | hnil
  · split_ifs with h1 h2
    · exact ⟨hstring, .inl (Nat.lt_of_lt_of_le hlt (Nat.le_add_right _ _))⟩
    · refine ⟨hstring, .inl ?_⟩
      simp only []
      omega
    · refine ⟨?_, .inl ?_⟩
      · rw [string_set (by omega), hstring]
        exact List.take_of_length_le (by omega)
      · simp only []
        omega
  · have hspn : strspn (m.string m.save) delim = 0 := by
      rw [hnil]
      rfl
    rw [hspn, Nat.add_zero, if_pos hnil]
    exact ⟨hstring, .inr hnil⟩

end Calls

end Strtok
