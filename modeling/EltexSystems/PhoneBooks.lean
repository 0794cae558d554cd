import EltexSystems.DynMem
import EltexSystems.Lib.BoundedList

/-!
# The two phone books

The book of `functions/functions.c`, an array that is shifted when a record is removed, next to the
bounded list it stands for, and the same operations on it and on the list of `dynmem/dynmem.c` side
by side.
-/

namespace EltexSystems

open CStr

def MAX_ABONENTS : ℕ := 100

/-- The global variables of `functions/functions.c`. -/
structure ArrayBook where
  abonent_book : ℕ → Abonent
  abonent_count : ℕ

namespace ArrayBook

/-- Global variables start zeroed. -/
def start : ArrayBook where
  abonent_book _ :=
    ⟨List.replicate MAX_LEN 0, List.replicate MAX_LEN 0, List.replicate MAX_LEN 0⟩
  abonent_count := 0

def addAbonent (b : ArrayBook) (name second_name tel : Word) : ArrayBook :=
  if b.abonent_count ≥ MAX_ABONENTS then b
  else
    { abonent_book := Function.update b.abonent_book b.abonent_count
        (scanAbonent name second_name tel (b.abonent_book b.abonent_count))
      abonent_count := b.abonent_count + 1 }

/-- The loop of `remove_abonent`, over the indices listed. -/
def shift (book : ℕ → Abonent) (is : List ℕ) : ℕ → Abonent :=
  is.foldl (fun book i => Function.update book i (book (i + 1))) book

def removeAbonent (b : ArrayBook) (number : ℤ) : ArrayBook :=
  if number < 0 ∨ number ≥ b.abonent_count then b
  else
    { abonent_book := shift b.abonent_book
        (List.range' number.toNat (b.abonent_count - 1 - number.toNat))
      abonent_count := b.abonent_count - 1 }

/-- The loop of `print_book` and `search_abonent`, which print the records kept. -/
def lines (keep : Record → Bool) (b : ArrayBook) : List Line :=
  (List.range b.abonent_count).filterMap fun i =>
    if keep (b.abonent_book i).shown then some ⟨i, (b.abonent_book i).shown⟩ else none

def printBook (b : ArrayBook) : List Line := b.lines fun _ => true

def searchAbonent (b : ArrayBook) (name : Word) : List Line := b.lines (named name)

/-- The records it holds, in order. -/
def records (b : ArrayBook) : List Record :=
  (List.range b.abonent_count).map fun i => (b.abonent_book i).shown

/-- A call that changes the book. -/
inductive Call where
  | add (name second_name tel : Word)
  | remove (number : ℤ)

def call (b : ArrayBook) : Call → ArrayBook
  | .add name second_name tel => b.addAbonent name second_name tel
  | .remove number => b.removeAbonent number

/-- The book after some calls, from its start. -/
def after (calls : List Call) : ArrayBook := calls.foldl call start

/-- What the words typed for a record are as C strings. -/
def typed (name second_name tel : Word) : Record :=
  ⟨cstr name.bytes, cstr second_name.bytes, cstr tel.bytes⟩

/-- The call on a list of at most `MAX_ABONENTS` records. -/
def onBounded (l : BoundedList Record MAX_ABONENTS) : Call → BoundedList Record MAX_ABONENTS
  | .add name second_name tel => l.push (typed name second_name tel)
  | .remove number => l.remove number

/-- The book holds the records of the list, and every call changes the two alike. -/
structure Refines (b : ArrayBook) (l : BoundedList Record MAX_ABONENTS) : Prop where
  records : b.records = l.entries
  count : b.abonent_count = l.entries.length
  bounded : b.abonent_count ≤ MAX_ABONENTS
  add_full : b.abonent_count = MAX_ABONENTS → ∀ name second_name tel,
    b.addAbonent name second_name tel = b
  add : b.abonent_count ≠ MAX_ABONENTS → ∀ name second_name tel,
    (b.addAbonent name second_name tel).records = b.records ++ [typed name second_name tel]
  remove : ∀ number : ℤ, 0 ≤ number → number < b.abonent_count →
    (b.removeAbonent number).records =
      b.records.take number.toNat ++ b.records.drop (number.toNat + 1)
  remove_none : ∀ number : ℤ, ¬ (0 ≤ number ∧ number < b.abonent_count) →
    b.removeAbonent number = b

end ArrayBook

/-- An operation on both books; `new` is what `malloc` returns to the list. -/
inductive BookOp where
  | add (new : Option (ℕ × AbonentNode)) (name second_name tel : Word)
  | remove (number : ℤ)
  | search (name : Word)
  | print

structure TwoBooks where
  array : ArrayBook
  list : DynBook

def ArrayBook.run (b : ArrayBook) : BookOp → ArrayBook
  | .add _ name second_name tel => b.addAbonent name second_name tel
  | .remove number => b.removeAbonent number
  | .search _ => b
  | .print => b

/-- What the operation is to the list. -/
def BookOp.onList : BookOp → Option DynOp
  | .add new name second_name tel => some (.add new name second_name tel)
  | .remove number => some (.remove number)
  | .search _ => none
  | .print => none

/-- The array has room for what is added. -/
def BookOp.Room (b : ArrayBook) : BookOp → Prop
  | .add _ _ _ _ => b.abonent_count < MAX_ABONENTS
  | _ => True

/-- Both books start empty and never need more than `MAX_ABONENTS` entries. -/
def bookLts : Lts TwoBooks BookOp where
  init s := s = ⟨.start, .start⟩
  step s op s' := op.Room s.array ∧ s'.array = s.array.run op ∧
    match op.onList with
    | none => s'.list = s.list
    | some op => dynLts.step s.list op s'.list

/-- The books hold the same records and report the same for a listing and every search. -/
structure TwoBooks.Agree (s : TwoBooks) : Prop where
  records : s.list.Holds s.array.records
  listing : s.list.printBook = some s.array.printBook
  search : ∀ name, s.list.searchAbonent name = some (s.array.searchAbonent name)

/-- `malloc` succeeds, and no number below 0 is typed for a book that is not empty. -/
def TwoBooks.Careful (s : TwoBooks) : BookOp → Prop
  | .add new _ _ _ => new ≠ none
  | .remove number => 0 ≤ number ∨ s.list.head = none
  | _ => True

end EltexSystems
