import EltexSystems.RawBook
import EltexSystems.Proofs.PhoneBooks

/-!
# What is typed and what is stored

A word never reaches back behind its field, so the records in a book keep their bytes, and the first
`MAX_LEN` bytes of a field stay those of the word typed for it (`mem_addAll`).  What they are read
as is that word exactly when it fits (`stored_iff`).
-/

namespace EltexSystems

open CStr FlatMem

namespace RawBook

variable {b : RawBook} {mem : ℕ → UInt8}

theorem scanField_of_lt {a i : ℕ} {f : AbonentField} (h : a < fieldAddr i f)
    (w : Option (List UInt8)) : scanField mem i f w a = mem a := by
  cases w with
  | none => rfl
  | some w => exact write_of_lt h

theorem addAbonent_of_lt (h : b.abonent_count < MAX_ABONENTS)
    (name second_name tel : Option (List UInt8)) : b.addAbonent name second_name tel =
      ⟨scanField (scanField (scanField b.mem b.abonent_count .name name) b.abonent_count
        .second_name second_name) b.abonent_count .tel tel, b.abonent_count + 1, h⟩ := dif_pos h

theorem addAbonent_full (h : ¬ b.abonent_count < MAX_ABONENTS)
    (name second_name tel : Option (List UInt8)) : b.addAbonent name second_name tel = b :=
  dif_neg h

theorem count_addAbonent (h : b.abonent_count < MAX_ABONENTS)
    (name second_name tel : Option (List UInt8)) :
    (b.addAbonent name second_name tel).abonent_count = b.abonent_count + 1 := by
  rw [addAbonent_of_lt h]

theorem length_entries (b : RawBook) : b.entries.length = b.abonent_count := by
  rw [entries, List.length_map, List.length_range]

/-- What lies below the record written is kept. -/
theorem mem_addAbonent_of_lt {a : ℕ} (h : a < b.abonent_count * abonentSize)
    (name second_name tel : Option (List UInt8)) :
    (b.addAbonent name second_name tel).mem a = b.mem a := by
  by_cases hroom : b.abonent_count < MAX_ABONENTS
  · rw [addAbonent_of_lt hroom]
    have hlt : ∀ f, a < fieldAddr b.abonent_count f := fun f => Nat.lt_add_right _ h
    simp only [scanField_of_lt (hlt _)]
  · rw [addAbonent_full hroom]

/-- The first bytes of a field are those of the word scanned into it. -/
theorem mem_addAbonent (hroom : b.abonent_count < MAX_ABONENTS) (t : Typed) (f : AbonentField)
    {k : ℕ} {c : UInt8} (hk : k < MAX_LEN) (h : (t.word f ++ [0])[k]? = some c) :
    (b.addAbonent (some t.name) (some t.second_name) (some t.tel)).mem
      (fieldAddr b.abonent_count f + k) = c := by
  have hmax : MAX_LEN = 10 := rfl
  rw [addAbonent_of_lt hroom]
  cases f with
  | name =>
    dsimp only
    rw [scanField_of_lt (by simp only [fieldAddr, AbonentField.offset]; omega),
      scanField_of_lt (by simp only [fieldAddr, AbonentField.offset]; omega)]
    exact write_at h
  | second_name =>
    dsimp only
    rw [scanField_of_lt (by simp only [fieldAddr, AbonentField.offset]; omega)]
    exact write_at h
  | tel => exact write_at h

theorem record_congr {mem' : ℕ → UInt8} {i : ℕ}
    (h : ∀ a < (i + 1) * abonentSize, mem' a = mem a) : record mem' i = record mem i := by
  have hblock : ∀ f : AbonentField,
      block mem' (fieldAddr i f) MAX_LEN = block mem (fieldAddr i f) MAX_LEN := by
    refine fun f => block_congr fun k hk => h _ ?_
    have hsize : f.offset + MAX_LEN ≤ abonentSize := by cases f <;> decide
    rw [fieldAddr, Nat.succ_mul]
    omega
  rw [record, hblock, hblock, hblock, record]

theorem entries_add (h : b.abonent_count < MAX_ABONENTS)
    (name second_name tel : Option (List UInt8)) : ∃ r,
      (b.addAbonent name second_name tel).entries = b.entries ++ [r] := by
  unfold entries
  rw [count_addAbonent h, List.range_succ, List.map_append, List.map_singleton]
  refine ⟨_, congrArg (· ++ _) (List.map_congr_left fun i hi => record_congr fun a ha => ?_)⟩
  refine mem_addAbonent_of_lt (ha.trans_le (Nat.mul_le_mul_right _ ?_)) _ _ _
  exact List.mem_range.mp hi

theorem addAll_cons (b : RawBook) (t : Typed) (ts : List Typed) : b.addAll (t :: ts) =
    (b.addAbonent (some t.name) (some t.second_name) (some t.tel)).addAll ts := rfl

theorem addAll_append (b : RawBook) (ts₁ ts₂ : List Typed) :
    b.addAll (ts₁ ++ ts₂) = (b.addAll ts₁).addAll ts₂ := List.foldl_append

theorem entries_prefix_addAll (ts : List Typed) : ∀ b : RawBook,
    b.entries <+: (b.addAll ts).entries := by
  induction ts with
  | nil => exact fun b => List.prefix_rfl
  | cons t ts ih =>
    intro b
    rw [addAll_cons]
    refine List.IsPrefix.trans ?_ (ih _)
    by_cases hroom : b.abonent_count < MAX_ABONENTS
    · obtain ⟨r, hr⟩ := entries_add hroom (some t.name) (some t.second_name) (some t.tel)
      exact hr ▸ List.prefix_append _ _
    · rw [addAbonent_full hroom]

theorem mem_addAll_of_lt (ts : List Typed) : ∀ {b : RawBook} {a : ℕ},
    a < b.abonent_count * abonentSize → (b.addAll ts).mem a = b.mem a := by
  induction ts with
  | nil => exact fun _ => rfl
  | cons t ts ih =>
    intro b a ha
    rw [addAll_cons, ih, mem_addAbonent_of_lt ha]
    refine ha.trans_le (Nat.mul_le_mul_right _ ?_)
    by_cases hroom : b.abonent_count < MAX_ABONENTS
    · rw [count_addAbonent hroom]
      exact Nat.le_succ _
    · rw [addAbonent_full hroom]

/-- The first bytes of a field stay those of the word scanned into it. -/
theorem mem_addAll {ts : List Typed} {t : Typed} {f : AbonentField} {k : ℕ} {c : UInt8}
    (hk : k < MAX_LEN) (hc : (t.word f ++ [0])[k]? = some c) : ∀ {b : RawBook} {i : ℕ},
    ts[i]? = some t → b.abonent_count + i < MAX_ABONENTS →
      (b.addAll ts).mem (fieldAddr (b.abonent_count + i) f + k) = c := by
  induction ts with
  | nil => exact fun hi => nomatch hi
  | cons u ts ih =>
    intro b i hi hroom
    have hcount := count_addAbonent (b := b) (by omega) (some u.name) (some u.second_name)
      (some u.tel)
    rw [addAll_cons]
    cases i with
    | zero =>
      obtain rfl := Option.some.inj hi
      rw [Nat.add_zero] at hroom ⊢
      rw [mem_addAll_of_lt, mem_addAbonent hroom u f hk hc]
      have hsize : f.offset + MAX_LEN ≤ abonentSize := by cases f <;> decide
      rw [hcount, fieldAddr, Nat.succ_mul]
      omega
    | succ i =>
      have hat := ih (b := b.addAbonent (some u.name) (some u.second_name) (some u.tel)) hi
        (by omega)
      rwa [hcount, Nat.add_right_comm] at hat

theorem record_copy (mem : ℕ → UInt8) (i : ℕ) :
    record (copy mem (i * abonentSize) ((i + 1) * abonentSize) abonentSize) =
      Function.update (record mem) i (record mem (i + 1)) := by
  funext j
  by_cases hj : j = i
  · subst hj
    rw [Function.update_self]
    have hblock : ∀ f : AbonentField, block (copy mem (j * abonentSize) ((j + 1) * abonentSize)
        abonentSize) (fieldAddr j f) MAX_LEN = block mem (fieldAddr (j + 1) f) MAX_LEN :=
      fun f => block_copy mem _ _ _ (by cases f <;> decide)
    rw [record, hblock, hblock, hblock, record]
  · rw [Function.update_of_ne hj]
    have hblock : ∀ f : AbonentField, block (copy mem (i * abonentSize) ((i + 1) * abonentSize)
        abonentSize) (fieldAddr j f) MAX_LEN = block mem (fieldAddr j f) MAX_LEN := by
      refine fun f => block_copy_of_disjoint mem _ ?_
      have hsize : f.offset + MAX_LEN ≤ abonentSize := by cases f <;> decide
      rw [fieldAddr]
      rcases Nat.lt_or_gt_of_ne hj with hlt | hgt
      · have := Nat.mul_le_mul_right abonentSize (Nat.succ_le_of_lt hlt)
        rw [Nat.succ_mul] at this
        omega
      · have := Nat.mul_le_mul_right abonentSize (Nat.succ_le_of_lt hgt)
        rw [Nat.succ_mul] at this
        omega
    rw [record, hblock, hblock, hblock, record]

/-- The bytes are shifted as the records of the array are. -/
theorem view_removeAbonent (b : RawBook) (number : ℤ) :
    (b.removeAbonent number).view = b.view.removeAbonent number := by
  have hshift : ∀ (is : List ℕ) (mem : ℕ → UInt8),
      record (shift mem is) = ArrayBook.shift (record mem) is := by
    intro is
    induction is with
    | nil => exact fun mem => rfl
    | cons i is ih =>
      intro mem
      change record (shift (copy mem _ _ _) is) = ArrayBook.shift (Function.update _ _ _) is
      rw [ih, record_copy]
  unfold removeAbonent ArrayBook.removeAbonent
  by_cases hcancel : number < 0 ∨ number ≥ b.abonent_count
  · rw [if_pos hcancel]
    exact (if_pos hcancel).symm
  · rw [if_neg hcancel, view, hshift]
    exact (if_neg hcancel).symm

theorem removeAbonent_none {number : ℤ} (h : ¬ (0 ≤ number ∧ number < b.abonent_count)) :
    b.removeAbonent number = b := if_pos (by omega)

theorem count_removeAbonent {i : ℕ} (h : i < b.abonent_count) :
    (b.removeAbonent i).abonent_count = b.abonent_count - 1 := by
  unfold removeAbonent
  rw [if_neg (by omega)]

/-- A removal takes one record out. -/
theorem entries_remove (b : RawBook) {i : ℕ} (h : i < b.abonent_count) :
    (b.removeAbonent i).entries = b.entries.eraseIdx i := by
  have hview := view_removeAbonent b i
  have hremove : b.view.removeAbonent i = ⟨ArrayBook.shift (record b.mem)
      (List.range' i (b.abonent_count - 1 - i)), b.abonent_count - 1⟩ :=
    if_neg (show ¬ ((i : ℤ) < 0 ∨ (i : ℤ) ≥ b.abonent_count) by omega)
  rw [hremove] at hview
  have hrecord : record (b.removeAbonent i).mem = _ := congrArg ArrayBook.abonent_book hview
  have hcount : (b.removeAbonent i).abonent_count = _ := congrArg ArrayBook.abonent_count hview
  rw [entries, hrecord, hcount]
  exact ArrayBook.map_shift id (record b.mem) h

/-- Records are stored as typed exactly when every word typed into a book with room fits. -/
theorem stored_iff (b : RawBook) (ts : List Typed) : b.Stored ts ↔
    ∀ (i : ℕ) (t : Typed), ts[i]? = some t → b.abonent_count + i < MAX_ABONENTS →
      ∀ f, Fits (t.word f) := by
  have hread : ∀ {i : ℕ} {t : Typed}, ts[i]? = some t → b.abonent_count + i < MAX_ABONENTS → ∀ f,
      IsStr (b.addAll ts).mem (fieldAddr (b.abonent_count + i) f) ((t.word f).take (MAX_LEN - 1)) ↔
        Fits (t.word f) := fun hi hroom f =>
    isStr_take_iff fun k c hk hc => mem_addAll (Nat.lt_of_le_pred (by decide) hk) hc hi hroom
  constructor
  · exact fun h i t hi hroom f => (hread hi hroom f).mp (h.typed i t hi hroom f)
  · refine fun h => ⟨fun i t hi hroom f => (hread hi hroom f).mpr (h i t hi hroom f), ?_⟩
    rintro ts₁ ts₂ rfl
    rw [addAll_append]
    exact entries_prefix_addAll ts₂ _

/-- A name of ten characters runs into the second name. -/
theorem long_name_not_stored :
    ¬ start.Stored [⟨ascii "abcdefghij", ascii "x", ascii "1"⟩] ∧
      IsStr (start.addAll [⟨ascii "abcdefghij", ascii "x", ascii "1"⟩]).mem (fieldAddr 0 .name)
        (ascii "abcdefghijx") := by
  refine ⟨fun h => ?_, ?_⟩
  · have hnul := (h.typed 0 _ rfl (by decide) .name).nul
    exact absurd hnul (by decide)
  · refine ⟨fun i c hi => ?_, by decide⟩
    have hlt : i < 11 := (List.getElem?_eq_some_iff.mp hi).1
    interval_cases i <;> cases hi <;> decide

end RawBook

end EltexSystems
