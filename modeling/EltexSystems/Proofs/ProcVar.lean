import EltexSystems.ProcVar

/-!
# What a piecewise read of the variable returns

As long as the variable keeps its value, what the reader has and what is still to come of the value
stay one text, however the reads divide it (`rest_read`), so a reader that nobody disturbs ends with
that text (`got_alone`).  In any run the bytes are the text of a value exactly when every read found
the variable at a value whose text agrees with it from the read's offset on, as far as the read goes
(`got_eq_iff`); a read that gets less than it asks for has come to the newline.
-/

namespace EltexSystems.ProcVar

open CStr

variable {L : KernelLib} {s t : VarState}

/-- The text of any value fits into `tmp`. -/
theorem procText_eq (v : Int32) : procText v = decimalInt v.toInt ++ [10] := by
  have hlo := v.le_toInt
  have hhi := v.toInt_lt
  have habs : v.toInt.natAbs < 10 ^ 10 := by omega
  have hdec := length_decimal_le (by omega) habs
  have hlen : (decimalInt v.toInt).length ≤ 11 := by
    unfold decimalInt
    split_ifs
    · rw [List.length_cons]
      omega
    · omega
  refine List.take_of_length_le ?_
  show (decimalInt v.toInt ++ [10]).length ≤ 31
  rw [List.length_append, List.length_singleton]
  omega

/-- The text of the current value from the reader's offset on. -/
def VarState.rest (s : VarState) : List UInt8 := (procText s.myvar).drop s.pos

theorem procRead_eq (s : VarState) (count : ℕ) : procRead L s count = s.rest.take count :=
  L.serves _ _ _

theorem rest_read (s : VarState) (count : ℕ) :
    (s.afterRead L count).got ++ (s.afterRead L count).rest = s.got ++ s.rest := by
  have hrest : (s.afterRead L count).rest = s.rest.drop (procRead L s count).length := by
    rw [VarState.rest, VarState.rest, List.drop_drop]
    rfl
  show s.got ++ procRead L s count ++ _ = _
  rw [hrest, List.append_assoc, procRead_eq]
  congr 1
  rw [List.length_take]
  rcases Nat.le_total count s.rest.length with h | h
  · rw [Nat.min_eq_left h, List.take_append_drop]
  · rw [Nat.min_eq_right h, List.take_of_length_le h, List.drop_length, List.append_nil]

theorem rest_done {count : ℕ} (hd : (s.afterRead L count).done = true) :
    (s.afterRead L count).rest = [] := by
  obtain ⟨hpos, hread⟩ := of_decide_eq_true hd
  have hrest : (s.afterRead L count).rest = s.rest := by
    show (procText s.myvar).drop (s.pos + (procRead L s count).length) = _
    rw [hread]
    rfl
  rw [procRead_eq] at hread
  rcases List.take_eq_nil_iff.mp hread with h | h
  · omega
  · rw [hrest, h]

theorem step_read {count : ℕ} (h : (varLts L).step s (.read count) t) :
    s.done = false ∧ t = s.afterRead L count := by
  have hst : step L s (.read count) = some t := h
  rw [step] at hst
  split_ifs at hst with hd
  exact ⟨Bool.eq_false_of_not_eq_true hd, (Option.some.inj hst).symm⟩

/-- Reads alone, up to the end of the file, end with what the reader had and what was to come. -/
theorem got_alone {tr : List (VarState × Label)} (h : (varLts L).Path s tr t)
    (hreads : ∀ p ∈ tr, ∃ count, p.2 = .read count) (hs : s.done = false) (ht : t.done = true) :
    t.got = s.got ++ s.rest := by
  induction h with
  | nil =>
    rw [hs] at ht
    cases ht
  | @cons s u t l tr hst hp ih =>
    obtain ⟨count, rfl⟩ := hreads _ List.mem_cons_self
    obtain ⟨-, rfl⟩ := step_read hst
    rcases hd : (s.afterRead L count).done with _ | _
    · exact (ih (fun p hm => hreads p (List.mem_cons_of_mem _ hm)) hd ht).trans (rest_read s count)
    · -- the end of the file: there is no further read
      obtain rfl : t = s.afterRead L count := by
        cases hp with
        | nil => rfl
        | cons hst' _ =>
          obtain ⟨count', rfl⟩ := hreads _ (List.mem_cons_of_mem _ List.mem_cons_self)
          have hnext := (step_read hst').1
          rw [hd] at hnext
          cases hnext
      have hgot := rest_read (L := L) s count
      rwa [rest_done hd, List.append_nil] at hgot

/-- A step that is no read keeps what the reader has. -/
theorem step_cases {l : Label} (h : (varLts L).step s l t) :
    (∃ count, l = .read count ∧ s.done = false ∧ t = s.afterRead L count) ∨
      (∀ count, l ≠ .read count) ∧ t.got = s.got ∧ t.pos = s.pos ∧ t.done = s.done := by
  have hset : ∀ val, (s.afterSet val).got = s.got ∧ (s.afterSet val).pos = s.pos ∧
      (s.afterSet val).done = s.done := by
    intro val
    rcases val with _ | v <;> exact ⟨rfl, rfl, rfl⟩
  cases l with
  | read count => exact .inl ⟨count, rfl, step_read h⟩
  | write buf fault =>
    obtain rfl := Option.some.inj h
    exact .inr ⟨nofun, hset _⟩
  | store buf =>
    obtain rfl := Option.some.inj h
    exact .inr ⟨nofun, hset _⟩

variable {w : Int32} {tr : List (VarState × Label)}

/-- What the reader has stays at the front of what it has later. -/
theorem got_prefix (h : (varLts L).Path s tr t) : s.got <+: t.got := by
  refine h.inv (I := fun u => s.got <+: u.got) (fun u l u' hI hst => ?_) List.prefix_rfl
  rcases step_cases hst with ⟨count, -, -, rfl⟩ | ⟨-, hgot, -, -⟩
  · exact hI.trans (List.prefix_append _ _)
  · rwa [hgot]

/-- Behind the end of the file nothing more is read. -/
theorem got_of_done (h : (varLts L).Path s tr t) (hs : s.done = true) : t.got = s.got := by
  have hkept : t.got = s.got ∧ t.done = true := by
    refine h.inv (I := fun u => u.got = s.got ∧ u.done = true) (fun u l u' hI hst => ?_) ⟨rfl, hs⟩
    rcases step_cases hst with ⟨count, -, hd, -⟩ | ⟨-, hgot, -, hdone⟩
    · exact nomatch hd.symm.trans hI.2
    · exact ⟨hgot.trans hI.1, hdone.trans hI.2⟩
  exact hkept.1

theorem pos_run (h : (varLts L).Run tr s) : s.pos = s.got.length := by
  refine h.inv (I := fun s => s.pos = s.got.length) ?_ fun u l u' hI hst => ?_
  · rintro s ⟨hpos, hgot, -, -⟩
    rw [hpos, hgot]
    rfl
  · rcases step_cases hst with ⟨count, -, -, rfl⟩ | ⟨-, hgot, hpos, -⟩
    · show u.pos + _ = (u.got ++ _).length
      rw [List.length_append, hI]
    · rw [hgot, hpos, hI]

theorem mem_decimalInt {z : ℤ} {b : UInt8} (h : b ∈ decimalInt z) : b = 45 ∨ isdigit b = true := by
  unfold decimalInt at h
  split_ifs at h
  · exact (List.mem_cons.mp h).imp_right isdigit_of_mem_decimal
  · exact .inr (isdigit_of_mem_decimal h)

/-- The text of a value ends where its newline is. -/
theorem newline_last {k : ℕ} (h : (procText w)[k]? = some 10) : (procText w).length = k + 1 := by
  rw [procText_eq] at h ⊢
  rw [List.length_append, List.length_singleton]
  have hlt := (List.getElem?_eq_some_iff.mp h).1
  rw [List.length_append, List.length_singleton] at hlt
  by_contra hne
  rw [List.getElem?_append_left (by omega)] at h
  exact absurd (mem_decimalInt (List.mem_of_getElem? h)) (by decide)

/-- A read that stops short of what it asks for, but not at the end of the file, has read up to the
newline. -/
theorem read_newline {count : ℕ} (hne : procRead L s count ≠ [])
    (hlt : (procRead L s count).length < count) :
    (procRead L s count)[(procRead L s count).length - 1]? = some 10 := by
  rw [procRead_eq] at hne hlt ⊢
  have hall : s.rest.take count = s.rest := by
    rw [List.length_take] at hlt
    exact List.take_of_length_le (by omega)
  rw [hall] at hne ⊢
  have hsuffix : s.rest <:+ procText s.myvar := List.drop_suffix _ _
  rw [← List.getLast?_eq_getElem?, List.getLast?_eq_some_getLast hne,
    hsuffix.getLast hne, List.getLast_congr _ (by simp) (procText_eq s.myvar)]
  simp

/-- What the reader has while its reads agree with the text of a value. -/
structure Taken (w : Int32) (s : VarState) : Prop where
  got : s.got = (procText w).take s.pos
  le : s.pos ≤ (procText w).length
  done : s.done = true → s.pos = (procText w).length

theorem Taken.read (h : Taken w s) {count : ℕ} (ha : Agree s.myvar w s.pos count) :
    Taken w (s.afterRead L count) := by
  have hread : procRead L s count = ((procText w).drop s.pos).take count :=
    (L.serves _ _ _).trans ha
  have hlen : (procRead L s count).length = min count ((procText w).length - s.pos) := by
    rw [hread, List.length_take, List.length_drop]
  have hle := h.le
  refine ⟨?_, ?_, fun hd => ?_⟩
  · show s.got ++ procRead L s count = (procText w).take (s.pos + (procRead L s count).length)
    rw [List.take_add, h.got, hread]
    congr 1
    rw [List.take_eq_take_iff, List.length_take, List.length_drop]
    omega
  · show s.pos + (procRead L s count).length ≤ (procText w).length
    omega
  · obtain ⟨hpos, hnil⟩ := of_decide_eq_true hd
    show s.pos + (procRead L s count).length = (procText w).length
    rw [hnil, List.length_nil] at hlen ⊢
    omega

/-- In a run to the end of the file the reader has the text of a value exactly when every read
agreed with it. -/
theorem got_eq_iff (h : (varLts L).Run tr s) (hd : s.done = true) :
    s.got = procText w ↔ ReadsAs w tr := by
  constructor
  · rintro hgot u count hm
    obtain ⟨tr₁, tr₂, u', -, hrun, hst, hpath⟩ := h.before hm
    obtain ⟨-, rfl⟩ := step_read hst
    have hpos := pos_run hrun
    -- what this read gets is where it belongs in the text
    have hslice : ((procText w).drop u.pos).take (procRead L u count).length
        = procRead L u count := by
      obtain ⟨more, hmore⟩ := got_prefix hpath
      rw [← hgot, ← hmore, hpos]
      show ((u.got ++ procRead L u count ++ more).drop u.got.length).take _ = _
      rw [List.append_assoc, List.drop_left, List.take_left]
    have hle : (procRead L u count).length ≤ count := by
      rw [procRead_eq, List.length_take]
      exact Nat.min_le_left _ _
    show ((procText u.myvar).drop u.pos).take count = _
    rw [← L.serves]
    refine Eq.trans hslice.symm ?_
    rcases hle.lt_or_eq with hlt | heq
    · rw [List.take_eq_take_iff, List.length_drop]
      suffices hend : (procText w).length ≤ u.pos + (procRead L u count).length by omega
      by_cases hnil : procRead L u count = []
      · -- the end of the file
        have hdone : (u.afterRead L count).done = true := decide_eq_true ⟨by omega, hnil⟩
        have hsame := got_of_done hpath hdone
        rw [hgot] at hsame
        rw [hsame, hpos, ← List.length_append]
        exact Nat.le_refl _
      · have hlast := read_newline hnil hlt
        have hlen := List.length_pos_iff.mpr hnil
        rw [← hslice, List.getElem?_take_of_lt, List.getElem?_drop] at hlast
        · have := newline_last hlast
          rw [hslice] at this
          omega
        · rw [hslice]
          omega
    · rw [heq]
  · intro hall
    have htaken : Taken w s := by
      refine h.induction (P := fun tr s => ReadsAs w tr → Taken w s) ?_ ?_ hall
      · rintro s ⟨hpos, hgot, -, hdone⟩ -
        refine ⟨by rw [hpos, hgot]; rfl, by omega, fun ht => nomatch hdone.symm.trans ht⟩
      · intro tr s l t _ ih hst hall
        have hs := ih fun u count hm => hall u count (List.mem_append_left _ hm)
        rcases step_cases hst with ⟨count, rfl, -, rfl⟩ | ⟨-, hgot, hpos, hdone⟩
        · exact hs.read (hall s count (List.mem_append_right _ (List.mem_singleton_self _)))
        · exact ⟨by rw [hgot, hpos]; exact hs.got, by rw [hpos]; exact hs.le,
            fun ht => by rw [hpos]; exact hs.done (hdone.symm.trans ht)⟩
    rw [htaken.got, htaken.done hd, List.take_length]

/-- In a run to the end of the file the reader ends with the decimal text and the line feed of one
value held between its first read and its last exactly when every read agreed with one of these. -/
theorem read_whole_iff (h : (varLts L).Run tr s) (hd : s.done = true) :
    (∃ w ∈ s.held, s.got = decimalInt w.toInt ++ [10]) ↔ ∃ w ∈ s.held, ReadsAs w tr := by
  refine exists_congr fun w => and_congr_right fun _ => ?_
  rw [← procText_eq]
  exact got_eq_iff h hd

section Runs

/-- A sign and digits, within an `int`. -/
def parseInt (s : List UInt8) : Option Int32 :=
  let ds := if s.head? = some 45 ∨ s.head? = some 43 then s.tail else s
  let v : ℤ := if s.head? = some 45 then -(digitsValue ds : ℤ) else digitsValue ds
  if ds = [] ∨ ds.any (fun b => !isdigit b) ∨ v < -2 ^ 31 ∨ 2 ^ 31 ≤ v then none
  else some (Int32.ofInt v)

def readFrom (count pos : ℕ) (from_ : List UInt8) : List UInt8 := (from_.drop pos).take count

theorem readFrom_eq (count pos : ℕ) (from_ : List UInt8) :
    readFrom count pos from_ = (from_.drop pos).take count := rfl

/-- The kernel's functions on plain numbers between blanks. -/
def kernel : KernelLib where
  strim s := ((s.dropWhile isspace).reverse.dropWhile isspace).reverse
  kstrtoint := parseInt
  simpleReadFromBuffer := readFrom
  serves := readFrom_eq

/-- The variable is 10 and the file has just been opened. -/
def opened : VarState := ⟨10, 0, [], [], false⟩

/-- A byte is read, a value written, and the rest read. -/
def readAround (text : List UInt8) : List Label :=
  [.read 1, .write text false, .read 100, .read 100]

theorem run_opened {ls : List Label} {t : VarState}
    (h : Lts.exec (step kernel) opened ls = some t) :
    (varLts kernel).Run (Lts.trace (step kernel) opened ls) t :=
  ⟨opened, ⟨rfl, rfl, rfl, rfl⟩, Lts.exec_path (fun _ _ _ => id) h⟩

/-- Writing 11 when a 1 has been read goes with it. -/
theorem read_whole_eleven : ∃ tr t, (varLts kernel).Run tr t ∧ t.held = [10, 11] ∧
    ∃ w ∈ t.held, ReadsAs w tr := by
  have hexec : Lts.exec (step kernel) opened (readAround (ascii "11\n")) =
      some ⟨11, 3, ascii "11\n", [10, 11], true⟩ := by
    decide
  exact ⟨_, _, run_opened hexec, rfl,
    (read_whole_iff (run_opened hexec) rfl).mp ⟨11, by decide, by decide⟩⟩

/-- 25 is written when a 1 has been read of 10: the reader has 15, which was never held. -/
theorem read_torn : ∃ tr t, (varLts kernel).Run tr t ∧ t.done = true ∧ t.held = [10, 25] ∧
    t.got = ascii "15\n" ∧ ∀ w ∈ t.held, t.got ≠ decimalInt w.toInt ++ [10] := by
  have hexec : Lts.exec (step kernel) opened (readAround (ascii "25\n")) =
      some ⟨25, 3, ascii "15\n", [10, 25], true⟩ := by
    decide
  refine ⟨_, _, run_opened hexec, rfl, rfl, rfl, fun w hw => ?_⟩
  rcases List.mem_cons.mp hw with rfl | hw
  · decide
  · rw [List.mem_singleton.mp hw]
    decide

end Runs

end EltexSystems.ProcVar
