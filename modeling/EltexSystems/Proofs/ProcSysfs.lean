import EltexSystems.ProcSysfs

/-!
# What the two interfaces have in common

A trimmed text has no newline left for `kstrtoint` to pass over, so both parse the same `int`
(`parsed_eq`), and the text of an `int` parses as that `int` (`intText_text`).  The last value
accepted is the one that the variable has (`myvar_path`).
-/

namespace EltexSystems.ProcVar

open CStr

variable {L : KernelLib} {s t : VarState}

section Texts

theorem withoutNewline_trim (s : List UInt8) : withoutNewline (trim s) = trim s := by
  refine if_neg fun hlast => ?_
  rw [trim, List.getLast?_reverse] at hlast
  have hhead := List.head?_dropWhile_not isspaceK (s.dropWhile isspaceK).reverse
  rw [hlast] at hhead
  exact absurd hhead (by decide)

theorem parsed_eq (hL : Documented L) (buf : List UInt8) :
    L.kstrtoint (L.strim (cstr buf)) = intText buf := by
  rw [hL.strim, hL.kstrtoint, withoutNewline_trim]
  rfl

theorem dropWhile_eq_self {p : UInt8 → Bool} {ds : List UInt8} (h : ∀ b ∈ ds, p b = false) :
    ds.dropWhile p = ds := by
  rcases ds with _ | ⟨b, ds⟩
  · rfl
  · exact List.dropWhile_cons_of_neg (by rw [h b List.mem_cons_self]; exact Bool.false_ne_true)

/-- The newline behind a text without white space is trimmed off. -/
theorem trim_newline {ds : List UInt8} (h : ∀ b ∈ ds, isspaceK b = false) (hne : ds ≠ []) :
    trim (ds ++ [10]) = ds := by
  obtain ⟨b, ds, rfl⟩ := List.exists_cons_of_ne_nil hne
  have hfront : (b :: ds ++ [10]).dropWhile isspaceK = b :: ds ++ [10] := by
    rw [List.cons_append]
    exact List.dropWhile_cons_of_neg (by rw [h b List.mem_cons_self]; exact Bool.false_ne_true)
  rw [trim, hfront, List.reverse_append, List.reverse_singleton, List.singleton_append,
    List.dropWhile_cons_of_pos (by decide),
    dropWhile_eq_self fun c hc => h c (List.mem_reverse.mp hc), List.reverse_reverse]

theorem isspaceK_of_isdigit {b : UInt8} (h : isdigit b = true) : isspaceK b = false := by
  have hne : b ≠ 160 := by
    rintro rfl
    exact absurd h (by decide)
  rw [isspaceK, isspace_of_isdigit h, Bool.false_or]
  exact beq_eq_false_iff_ne.mpr hne

theorem isspaceK_of_mem_decimalInt {z : ℤ} {b : UInt8} (h : b ∈ decimalInt z) :
    isspaceK b = false := by
  rcases mem_decimalInt h with rfl | h
  · decide
  · exact isspaceK_of_isdigit h

theorem decimal_ne_nil (n : ℕ) : decimal n ≠ [] := by
  intro h
  have hval := digitsValue_decimal n
  rw [h] at hval
  have h0 : n = 0 := hval.symm
  rw [h0] at h
  cases h

/-- The digits of a number stand for an `int` that is within its bounds. -/
theorem digits_accepted (v : Int32) (n : ℕ) : ¬ (decimal n = [] ∨
    ((decimal n).any fun b => !isdigit b) = true ∨ v.toInt < -2 ^ 31 ∨ 2 ^ 31 ≤ v.toInt) := by
  have hlo := v.le_toInt
  have hhi := v.toInt_lt
  rintro (h | h | h | h)
  · exact decimal_ne_nil n h
  · obtain ⟨b, hb, hnot⟩ := List.any_eq_true.mp h
    rw [isdigit_of_mem_decimal hb] at hnot
    cases hnot
  · omega
  · omega

/-- The decimal text of an `int` parses as that `int`. -/
theorem parseInt_decimalInt (v : Int32) : parseInt (decimalInt v.toInt) = some v := by
  by_cases hneg : v.toInt < 0
  · have htext : decimalInt v.toInt = 45 :: decimal v.toInt.natAbs := if_pos hneg
    have hval : -((v.toInt.natAbs : ℕ) : ℤ) = v.toInt := by omega
    rw [htext, parseInt]
    simp only [List.head?_cons, List.tail_cons, true_or, if_true, digitsValue_decimal]
    rw [hval, if_neg (digits_accepted v _), Int32.ofInt_toInt]
  · have htext : decimalInt v.toInt = decimal v.toInt.natAbs := if_neg hneg
    have hhead : ∀ b, isdigit b = false → (decimal v.toInt.natAbs).head? ≠ some b := by
      intro b hb hhead
      have hmem := isdigit_of_mem_decimal (List.mem_of_mem_head? hhead)
      rw [hb] at hmem
      cases hmem
    have h45 := hhead 45 (by decide)
    have h43 := hhead 43 (by decide)
    have hval : ((v.toInt.natAbs : ℕ) : ℤ) = v.toInt := by omega
    rw [htext, parseInt]
    simp only [h45, h43, or_self, if_false, digitsValue_decimal]
    rw [hval, if_neg (digits_accepted v _), Int32.ofInt_toInt]

theorem sysfsShow_eq (v : Int32) : sysfsShow v = decimalInt v.toInt ++ [10] := by
  have hproc := congrArg List.length (procText_eq v)
  have hshort : (procText v).length ≤ tmpSize - 1 := List.length_take_le _ _
  rw [hproc] at hshort
  exact List.take_of_length_le (hshort.trans (by decide))

/-- What either interface shows is the text of the value for both. -/
theorem intText_show (v : Int32) : intText (sysfsShow v) = some v := by
  have hbytes : ∀ b ∈ decimalInt v.toInt ++ [10], b ≠ 0 := by
    intro b hb
    rcases List.mem_append.mp hb with hb | hb
    · exact ne_zero_of_mem_decimalInt hb
    · rw [List.mem_singleton.mp hb]
      decide
  have hne : decimalInt v.toInt ≠ [] := by
    unfold decimalInt
    split_ifs
    · exact List.cons_ne_nil _ _
    · exact decimal_ne_nil _
  rw [intText, sysfsShow_eq, cstr_of_ne_zero hbytes,
    trim_newline (fun b => isspaceK_of_mem_decimalInt) hne, parseInt_decimalInt]

end Texts

section Writes

theorem sysfsStore_eq (hL : Documented L) (buf : List UInt8) : sysfsStore L buf
    = (intText buf, if (intText buf).isSome then (buf.length : ℤ) else -EINVAL) := by
  rw [sysfsStore, parsed_eq hL]
  cases intText buf <;> rfl

theorem procWrite_short {buf : List UInt8} (h : buf.length < tmpSize) :
    procWrite L buf false = sysfsStore L buf := by
  rw [procWrite, if_neg (Nat.not_le.mpr h), if_neg Bool.false_ne_true]
  rfl

/-- A step sets the value that its text is, and `/proc` takes texts shorter than its array only. -/
theorem written_eq (hL : Documented L) (l : Label) : written L l = accepted l := by
  cases l with
  | read count => rfl
  | store buf => rw [written, sysfsStore_eq hL, accepted]
  | write buf fault =>
    rw [written, accepted]
    by_cases hlen : buf.length < tmpSize
    · cases fault
      · rw [procWrite_short hlen, sysfsStore_eq hL]
        exact (if_pos ⟨hlen, rfl⟩).symm
      · rw [procWrite, if_neg (Nat.not_le.mpr hlen), if_pos rfl,
          if_neg fun h => Bool.noConfusion h.2]
    · rw [procWrite, if_pos (Nat.le_of_not_lt hlen), if_neg fun h => hlen h.1]

theorem myvar_step (hL : Documented L) {l : Label} (h : (varLts L).step s l t) :
    t.myvar = (accepted l).getD s.myvar := by
  have hset : ∀ val, (s.afterSet val).myvar = val.getD s.myvar := by
    intro val
    cases val <;> rfl
  cases l with
  | read count =>
    rw [(step_read h).2]
    rfl
  | write buf fault =>
    obtain rfl := Option.some.inj h
    rw [hset, written_eq hL]
  | store buf =>
    obtain rfl := Option.some.inj h
    rw [hset, written_eq hL]

/-- The variable has the last value accepted. -/
theorem myvar_path (hL : Documented L) {tr : List (VarState × Label)}
    (h : (varLts L).Path s tr t) :
    t.myvar = ((tr.filterMap fun p => accepted p.2).getLast?).getD s.myvar := by
  induction h with
  | nil => rfl
  | @cons s u t l tr hst hp ih =>
    rw [ih, myvar_step hL hst, List.filterMap_cons]
    cases accepted l with
    | none => rfl
    | some val => rw [List.getLast?_cons, Option.getD_some, Option.getD_some]

end Writes

/-- Reads alone from the start of the file, up to its end, give the text of the value. -/
theorem read_reopened {tr : List (VarState × Label)} {u : VarState}
    (h : (varLts L).Path t.reopened tr u) (hreads : ∀ p ∈ tr, ∃ count, p.2 = .read count)
    (hu : u.done = true) : u.got = sysfsShow t.myvar := by
  rw [got_alone h hreads rfl hu, sysfsShow_eq]
  exact procText_eq t.myvar

/-- After any steps, of either interface in any order, texts of up to 31 bytes do the same through
both, longer ones are refused by `/proc`, and what a whole read of either returns is the text of the
last value accepted, which either takes back. -/
theorem interfaces_interchangeable (hL : Documented L) {tr : List (VarState × Label)}
    (h : (varLts L).Path s tr t) : Interchangeable L s tr t where
  stores := sysfsStore_eq hL
  writes _ := procWrite_short
  refuses _ _ hlen := if_pos hlen
  last := myvar_path hL h
  shows := sysfsShow_eq _
  reads _ _ := read_reopened
  restores := by
    have hshort : (sysfsShow t.myvar).length < tmpSize := by
      rw [sysfsShow_eq, ← procText_eq]
      exact Nat.lt_of_le_of_lt (List.length_take_le _ _) (by decide)
    rw [procWrite_short hshort, sysfsStore_eq hL, intText_show]
    exact ⟨rfl, rfl⟩

section Runs

/-- The kernel's functions as documented. -/
def kernelDoc : KernelLib where
  strim := trim
  kstrtoint s := parseInt (withoutNewline s)
  simpleReadFromBuffer := readFrom
  serves := readFrom_eq

theorem kernelDoc_documented : Documented kernelDoc := ⟨fun _ => rfl, fun _ => rfl⟩

theorem interchangeable_write : ∃ tr t, Interchangeable kernelDoc opened tr t ∧ t.myvar = 25 := by
  have hexec : Lts.exec (step kernelDoc) opened [.write (ascii " 25 \n") false]
      = some ⟨25, 0, [], [], false⟩ := by
    decide
  exact ⟨_, _, interfaces_interchangeable kernelDoc_documented
    (Lts.exec_path (fun _ _ _ => id) hexec), rfl⟩

/-- A seven behind 31 zeros is taken by one interface only. -/
theorem long_text_refused : ¬ ∀ L, Documented L → ∀ buf : List UInt8, buf.length ≤ PAGE_SIZE - 1 →
    ((procWrite L buf false).1.isSome ↔ (sysfsStore L buf).1.isSome) := by
  intro h
  have hiff := h kernelDoc kernelDoc_documented (List.replicate 31 48 ++ [55]) (by decide)
  exact absurd (hiff.mpr (by decide)) (by decide)

end Runs

end EltexSystems.ProcVar
