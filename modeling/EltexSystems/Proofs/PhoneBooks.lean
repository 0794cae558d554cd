import EltexSystems.PhoneBooks
import EltexSystems.Proofs.DynMem

/-!
# When the two phone books agree

The shift of the array takes out one record (`records_remove`), so the array's book refines a
bounded list (`refines_after`).  Unlinking a node of the other book's list does the same, so the
books hold the same records as long as both take out the same one.  The array's book
takes a negative number for a cancelled removal and the list's takes out its head
(`books_agree_iff`).
-/

namespace EltexSystems

open CStr Mem DoublyLinked

section Array

/-- What is scanned shows the words, whatever was there. -/
theorem cstr_scanWord (w : Word) (m : List UInt8) : cstr (scanWord w m) = cstr w.bytes := by
  unfold scanWord memcpy
  rw [List.take_zero, List.nil_append, Nat.zero_add, List.take_of_length_le (by simp),
    List.append_assoc]
  exact cstr_append_nul _ _

theorem shown_scanAbonent (name second_name tel : Word) (a : Abonent) :
    (scanAbonent name second_name tel a).shown = ArrayBook.typed name second_name tel := by
  unfold scanAbonent Abonent.shown ArrayBook.typed
  simp only [cstr_scanWord]

namespace ArrayBook

theorem shift_range' (n m : ℕ) (book : ℕ → Abonent) (j : ℕ) :
    shift book (List.range' n m) j = if n ≤ j ∧ j < n + m then book (j + 1) else book j := by
  induction m generalizing n book with
  | zero =>
    rw [if_neg (by omega)]
    rfl
  | succ m ih =>
    rw [List.range'_succ]
    show shift (Function.update book n (book (n + 1))) (List.range' (n + 1) m) j = _
    rw [ih]
    by_cases hj : j = n
    · rw [if_neg (by omega), if_pos (by omega), hj, Function.update_self]
    · by_cases hr : n + 1 ≤ j ∧ j < n + 1 + m
      · rw [if_pos hr, if_pos (by omega), Function.update_of_ne (by omega)]
      · rw [if_neg hr, if_neg (by omega), Function.update_of_ne hj]

theorem length_records (b : ArrayBook) : b.records.length = b.abonent_count := by
  simp [records]

theorem addAbonent_full {b : ArrayBook} (h : b.abonent_count = MAX_ABONENTS)
    (name second_name tel : Word) : b.addAbonent name second_name tel = b := by
  unfold addAbonent
  rw [if_pos h.ge]

theorem records_add {b : ArrayBook} (h : b.abonent_count < MAX_ABONENTS)
    (name second_name tel : Word) : (b.addAbonent name second_name tel).records = b.records ++
      [typed name second_name tel] := by
  unfold addAbonent
  rw [if_neg (by omega)]
  unfold records
  simp only [List.range_succ, List.map_append, List.map_singleton, Function.update_self,
    shown_scanAbonent]
  congr 1
  refine List.map_congr_left fun i hi => ?_
  rw [Function.update_of_ne (Nat.ne_of_lt (List.mem_range.mp hi))]

/-- The array's book cancels the removal of a negative number. -/
theorem removeAbonent_neg (b : ArrayBook) {number : ℤ} (h : number < 0) :
    b.removeAbonent number = b := by
  unfold removeAbonent
  rw [if_pos (.inl h)]

/-- What the records up to the last are after the shift is what they were before, but for one. -/
theorem map_shift {α : Type*} (f : Abonent → α) (book : ℕ → Abonent) {n count : ℕ}
    (h : n < count) :
    (List.range (count - 1)).map (fun i => f (shift book (List.range' n (count - 1 - n)) i)) =
      ((List.range count).map fun i => f (book i)).eraseIdx n := by
  refine List.ext_getElem? fun i => ?_
  rw [List.getElem?_eraseIdx, List.getElem?_map, List.getElem?_map, List.getElem?_map]
  simp only [shift_range']
  by_cases hi : i < n
  · rw [if_pos hi, List.getElem?_range (by omega), List.getElem?_range (by omega), Option.map_some,
      if_neg (show ¬ (n ≤ i ∧ _) by omega), Option.map_some]
  · rw [if_neg hi]
    by_cases hc : i + 1 < count
    · rw [List.getElem?_range (by omega), List.getElem?_range hc, Option.map_some,
        if_pos (by omega), Option.map_some]
    · rw [List.getElem?_eq_none (l := List.range (count - 1)) (by simp; omega),
        List.getElem?_eq_none (l := List.range count) (by simp; omega), Option.map_none,
        Option.map_none]

/-- Removing the record of a number that is not negative takes it out, if there is one. -/
theorem records_remove (b : ArrayBook) {number : ℤ} (h : 0 ≤ number) :
    (b.removeAbonent number).records = b.records.eraseIdx number.toNat := by
  unfold removeAbonent
  by_cases hge : number ≥ b.abonent_count
  · rw [if_pos (.inr hge), List.eraseIdx_of_length_le (by rw [length_records]; omega)]
  · rw [if_neg (by omega)]
    exact map_shift Abonent.shown b.abonent_book (by omega)

theorem removeAbonent_none {b : ArrayBook} {number : ℤ}
    (h : ¬ (0 ≤ number ∧ number < b.abonent_count)) : b.removeAbonent number = b := by
  unfold removeAbonent
  rw [if_pos (by omega)]

theorem refines_of_records {b : ArrayBook} {l : BoundedList Record MAX_ABONENTS}
    (h : b.records = l.entries) : b.Refines l where
  records := h
  count := by rw [← h, length_records]
  bounded := by
    rw [← length_records, h]
    exact l.fits
  add_full hfull := addAbonent_full hfull
  add hroom name second_name tel := by
    refine records_add (lt_of_le_of_ne ?_ hroom) name second_name tel
    rw [← length_records, h]
    exact l.fits
  remove number hpos _ := by rw [records_remove b hpos, List.eraseIdx_eq_take_drop_succ]
  remove_none number hnone := removeAbonent_none hnone

theorem Refines.call {b : ArrayBook} {l : BoundedList Record MAX_ABONENTS} (h : b.Refines l)
    (c : Call) : (b.call c).Refines (onBounded l c) := by
  refine refines_of_records ?_
  cases c with
  | add name second_name tel =>
    change (b.addAbonent name second_name tel).records =
      (l.push (typed name second_name tel)).entries
    by_cases hfull : b.abonent_count = MAX_ABONENTS
    · rw [h.add_full hfull, BoundedList.push_full (h.count.symm.trans hfull), h.records]
    · have hroom : l.entries.length < MAX_ABONENTS :=
        lt_of_le_of_ne l.fits fun heq => hfull (h.count.trans heq)
      rw [h.add hfull, BoundedList.entries_push hroom, h.records]
  | remove number =>
    change (b.removeAbonent number).records = (l.remove number).entries
    rcases lt_or_ge number 0 with hneg | hpos
    · rw [removeAbonent_neg b hneg, BoundedList.remove_neg hneg, h.records]
    · rw [records_remove b hpos, BoundedList.entries_remove hpos, h.records]

/-- After every sequence of calls the book is the bounded list after them. -/
theorem refines_after (calls : List Call) :
    (after calls).Refines (calls.foldl onBounded BoundedList.empty) := by
  induction calls using List.reverseRecOn with
  | nil => exact refines_of_records rfl
  | append_singleton calls c ih =>
    unfold after at *
    rw [List.foldl_concat, List.foldl_concat]
    exact ih.call c

end ArrayBook

/-- The lines of the records kept, numbered from some number on. -/
def linesOf (keep : Record → Bool) : ℕ → List Record → List Line
  | _, [] => []
  | i, r :: rs => if keep r then ⟨i, r⟩ :: linesOf keep (i + 1) rs else linesOf keep (i + 1) rs

theorem lines_range' (keep : Record → Bool) (f : ℕ → Record) :
    ∀ m n : ℕ, ((List.range' n m).filterMap fun i => if keep (f i) then some ⟨i, f i⟩ else none)
      = linesOf keep n ((List.range' n m).map f)
  | 0, _ => rfl
  | m + 1, n => by
    rw [List.range'_succ, List.filterMap_cons, List.map_cons, linesOf, ← lines_range' keep f m]
    split_ifs <;> rfl

theorem ArrayBook.lines_eq (keep : Record → Bool) (b : ArrayBook) :
    b.lines keep = linesOf keep 0 b.records := by
  unfold lines records
  rw [List.range_eq_range']
  exact lines_range' keep (fun i => (b.abonent_book i).shown) _ _

/-- The loop over the list prints the lines of its records, and the fuel lasts. -/
theorem linesFrom_walk {h : Heap AbonentNode} {a : Option ℕ} {l : List ℕ}
    (hwalk : Walk h.read AbonentNode.next a l) (keep : Record → Bool) :
    ∀ {fuel i : ℕ} {rs : List Record}, l.length ≤ fuel → recordsAt h l = rs.map some →
      DynBook.linesFrom keep h fuel a i = some (linesOf keep i rs) := by
  induction hwalk with
  | null =>
    intro fuel i rs _ hrs
    obtain rfl : rs = [] := List.map_eq_nil_iff.mp hrs.symm
    unfold DynBook.linesFrom
    rfl
  | @node p v l hv _ ih =>
    intro fuel i rs hlen hrs
    obtain ⟨fuel, rfl⟩ : ∃ n, fuel = n + 1 := ⟨fuel - 1, by rw [List.length_cons] at hlen; omega⟩
    obtain ⟨r, rs, rfl⟩ : ∃ r rs', rs = r :: rs' := by
      rcases rs with _ | ⟨r, rs⟩
      · cases hrs
      · exact ⟨r, rs, rfl⟩
    unfold recordsAt at hrs
    rw [List.map_cons, List.map_cons, hv, Option.map_some] at hrs
    injection hrs with hr hrs
    cases hr
    unfold DynBook.linesFrom
    rw [hv, Option.bind_some, ih (Nat.le_of_succ_le_succ hlen) hrs, Option.map_some, linesOf]

end Array

section Agreement

variable {s s' : TwoBooks} {l : List ℕ} {op : BookOp}

/-- The nodes of the list, and where the books agree the records they hold. -/
structure BooksInv (s : TwoBooks) (l : List ℕ) : Prop where
  list : DynInv s.list l
  same : recordsAt s.list.heap l = s.array.records.map some

theorem BooksInv.agree (h : BooksInv s l) : s.Agree := by
  have hlen := h.list.heap.length_le h.list.linked.nodup fun p hp => (h.list.live p).mpr hp
  have hwalk := h.list.linked.forward
  rw [← h.list.head] at hwalk
  refine ⟨⟨l, h.list.nodes, h.same⟩, ?_, fun name => ?_⟩
  · unfold DynBook.printBook ArrayBook.printBook
    rw [linesFrom_walk hwalk _ hlen h.same, ArrayBook.lines_eq]
  · unfold DynBook.searchAbonent ArrayBook.searchAbonent
    rw [linesFrom_walk hwalk _ hlen h.same, ArrayBook.lines_eq]

theorem TwoBooks.Agree.inv (h : s.Agree) (hl : DynInv s.list l) : BooksInv s l := by
  obtain ⟨l', hn, hrs⟩ := h.records
  obtain rfl := hn.forward.unique hl.nodes.forward
  exact ⟨hl, hrs⟩

theorem dynInv_book_step (hl : DynInv s.list l) (hst : bookLts.step s op s') :
    ∃ l', DynInv s'.list l' := by
  obtain ⟨-, -, hst⟩ := hst
  rcases hop : op.onList with _ | dop <;> rw [hop] at hst
  · exact ⟨l, hst ▸ hl⟩
  · obtain ⟨b', l', hb, hl'⟩ := hl.run hst.1
    cases hst.2.symm.trans hb
    exact ⟨l', hl'⟩

theorem BooksInv.records_nil (h : BooksInv s l) (hhead : s.list.head = none) :
    s.array.records = [] := by
  have hle := List.getElem?_eq_none_iff.mp (h.list.head.symm.trans hhead)
  obtain rfl : l = [] := List.length_eq_zero_iff.mp (by omega)
  exact List.map_eq_nil_iff.mp h.same.symm

/-- A careful operation keeps the books alike. -/
theorem BooksInv.step (h : BooksInv s l) (hc : s.Careful op) (hst : bookLts.step s op s') :
    ∃ l', BooksInv s' l' := by
  obtain ⟨hroom, harray, hlist⟩ := hst
  cases op with
  | add new name second_name tel =>
    obtain ⟨⟨p, junk⟩, rfl⟩ := Option.ne_none_iff_exists'.mp hc
    obtain ⟨b', hb, hl', hrs⟩ := h.list.add (hlist.1 p junk rfl) junk name second_name tel
    obtain rfl : s'.list = b' := Option.some.inj (hlist.2.symm.trans hb)
    refine ⟨_, hl', ?_⟩
    rw [hrs, harray, h.same]
    unfold ArrayBook.run
    rw [ArrayBook.records_add hroom, List.map_append, List.map_singleton, shown_scanAbonent]
  | remove number =>
    obtain ⟨b', hb, hl', hrs⟩ := h.list.remove number
    obtain rfl : s'.list = b' := Option.some.inj (hlist.2.symm.trans hb)
    refine ⟨_, hl', ?_⟩
    rw [hrs, harray, h.same, List.eraseIdx_map]
    congr 1
    show _ = (s.array.removeAbonent number).records
    by_cases hn : 0 ≤ number
    · exact (ArrayBook.records_remove _ hn).symm
    · have hnil := h.records_nil (hc.resolve_left hn)
      rw [ArrayBook.removeAbonent_neg _ (by omega), hnil]
      rfl
  | search name => exact ⟨l, hlist ▸ h.list, by rw [hlist, harray]; exact h.same⟩
  | print => exact ⟨l, hlist ▸ h.list, by rw [hlist, harray]; exact h.same⟩

theorem BooksInv.length (h : BooksInv s l) : l.length = s.array.abonent_count := by
  have hlen := congrArg List.length h.same
  rwa [recordsAt, List.length_map, List.length_map, ArrayBook.length_records] at hlen

/-- An operation that leaves the books alike was careful. -/
theorem BooksInv.careful {l' : List ℕ} (h : BooksInv s l) (h' : BooksInv s' l')
    (hst : bookLts.step s op s') : s.Careful op := by
  obtain ⟨hroom, harray, hlist⟩ := hst
  have hlen := h'.length
  cases op with
  | add new name second_name tel =>
    rintro rfl
    have hsame : s'.list = s.list := (Option.some.inj hlist.2).symm
    have hl := h.list
    rw [← hsame] at hl
    have hcount := congrArg List.length (ArrayBook.records_add hroom name second_name tel)
    rw [ArrayBook.length_records, List.length_append, ArrayBook.length_records] at hcount
    rw [h'.list.unique hl, h.length, harray] at hlen
    exact absurd (hlen.trans hcount) (by simp)
  | remove number =>
    rw [TwoBooks.Careful]
    by_contra hc
    rw [not_or] at hc
    obtain ⟨b', hb, hl, -⟩ := h.list.remove number
    obtain rfl : s'.list = b' := Option.some.inj (hlist.2.symm.trans hb)
    have hpos : 0 < l.length := by
      by_contra hz
      refine hc.2 (h.list.head.trans (List.getElem?_eq_none (by omega)))
    have hkept : s'.array = s.array := harray.trans (s.array.removeAbonent_neg (by omega))
    rw [h'.list.unique hl, show number.toNat = 0 by omega, List.length_eraseIdx_of_lt hpos, hkept,
      ← h.length] at hlen
    omega
  | search name => trivial
  | print => trivial

theorem dynInv_book_run {tr : List (TwoBooks × BookOp)} (h : bookLts.Run tr s) :
    ∃ l, DynInv s.list l := by
  refine h.inv (I := fun s => ∃ l, DynInv s.list l) ?_ fun s op s' hI hst => ?_
  · rintro s rfl
    exact ⟨[], .start⟩
  · obtain ⟨l, hl⟩ := hI
    exact dynInv_book_step hl hst

theorem booksInv_run {tr : List (TwoBooks × BookOp)} (h : bookLts.Run tr s)
    (hcare : ∀ p ∈ tr, p.1.Careful p.2) : ∃ l, BooksInv s l := by
  refine h.inv_when (I := fun s => ∃ l, BooksInv s l) (C := TwoBooks.Careful) ?_
    (fun s op s' hI hc hst => ?_) hcare
  · rintro s rfl
    exact ⟨[], .start, rfl⟩
  · obtain ⟨l, hl⟩ := hI
    exact hl.step hc hst

/-- In a run of both books they agree in every state exactly when every operation was careful. -/
theorem books_agree_iff {tr : List (TwoBooks × BookOp)} (h : bookLts.Run tr s) :
    (∀ v ∈ Lts.visited tr s, v.Agree) ↔ ∀ p ∈ tr, p.1.Careful p.2 := by
  constructor
  · rintro hall ⟨v, op⟩ hp
    obtain ⟨u, hu, hst⟩ := h.after hp
    obtain ⟨tr₁, tr₂, w, rfl, hrun, -, -⟩ := h.before hp
    obtain ⟨l, hl⟩ := dynInv_book_run hrun
    obtain ⟨l', hl'⟩ := dynInv_book_step hl hst
    have hv : v ∈ Lts.visited (tr₁ ++ (v, op) :: tr₂) s := by simp [Lts.visited]
    exact ((hall v hv).inv hl).careful ((hall u hu).inv hl') hst
  · intro hcare v hv
    obtain ⟨tr₁, tr₂, rfl, hrun⟩ := h.visited hv
    obtain ⟨l, hl⟩ := booksInv_run hrun fun p hp => hcare p (List.mem_append_left _ hp)
    exact hl.agree

def annWord : Word := ⟨ascii "ann", by decide⟩

/-- What lies at an address before it is written. -/
def junkNode : AbonentNode := ⟨⟨[], [], []⟩, some 3, some 3⟩

def addAt (p : ℕ) : DynOp := .add (some (p, junkNode)) annWord annWord annWord

theorem fresh_addAt {p : ℕ} (hp : b.heap.cell p = none) : (addAt p).Fresh b := by
  rintro q junk hq
  cases hq
  exact not_not.mpr hp

def DynBook.after (b : DynBook) (op : DynOp) : DynBook := (b.run op).getD b

def emptyBooks : TwoBooks := ⟨.start, .start⟩

/-- A record typed into both books, its node at address 7. -/
def addAnn : BookOp := .add (some (7, junkNode)) annWord annWord annWord

def annBooks : TwoBooks := ⟨ArrayBook.start.run addAnn, DynBook.start.after (addAt 7)⟩

theorem step_annBooks : bookLts.step emptyBooks addAnn annBooks :=
  ⟨(by decide : 0 < MAX_ABONENTS), rfl, fresh_addAt rfl, rfl⟩

/-- A record is added and removed again under its number. -/
theorem books_agree_iff_ann : ∃ (tr : _) (s : TwoBooks), bookLts.Run tr s ∧ s.array.records = [] ∧
    ∀ v ∈ Lts.visited tr s, v.Agree := by
  have h2 : bookLts.step annBooks (.remove 0)
      ⟨annBooks.array.run (.remove 0), annBooks.list.after (.remove 0)⟩ :=
    ⟨trivial, rfl, trivial, rfl⟩
  have h : bookLts.Run _ _ := ⟨emptyBooks, rfl, .cons step_annBooks (.single h2)⟩
  refine ⟨_, _, h, rfl, (books_agree_iff h).mpr fun p hp => ?_⟩
  rcases List.mem_cons.mp hp with rfl | hp
  · exact Option.some_ne_none _
  · cases List.mem_singleton.mp hp
    exact .inl (le_refl 0)

/-- A record is added and -1 is typed to cancel a removal: the array's book keeps the record, the
list's is empty. -/
theorem books_disagree : ∃ (tr : _) (s : TwoBooks), bookLts.Run tr s ∧
    s.array.records = [⟨ascii "ann", ascii "ann", ascii "ann"⟩] ∧ s.list.head = none ∧
    ¬ s.Agree := by
  have h2 : bookLts.step annBooks (.remove (-1))
      ⟨annBooks.array.run (.remove (-1)), annBooks.list.after (.remove (-1))⟩ :=
    ⟨trivial, rfl, trivial, rfl⟩
  have h : bookLts.Run _ _ := ⟨emptyBooks, rfl, .cons step_annBooks (.single h2)⟩
  exact ⟨_, _, h, by decide, rfl, fun hagree => absurd hagree.listing (by decide)⟩

end Agreement

end EltexSystems
