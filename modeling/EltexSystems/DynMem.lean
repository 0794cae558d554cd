import EltexSystems.Lib.Bytes
import EltexSystems.Lib.CString
import EltexSystems.Lib.DoublyLinked
import EltexSystems.Lib.Heap
import EltexSystems.Lib.Lts

/-!
# The phone book of `dynmem/dynmem.c`

A doubly linked list of nodes from `malloc`, over the heap's faults: an operation that dereferences
`NULL`, touches a cell that is not live or frees one twice has no result.  A pointer is the address
it holds, `none` for `NULL`.  The words `scanf` reads are at most as long as the prompts ask for,
and the fixed texts of the prompts and answers are left out.
-/

namespace EltexSystems

open CStr Mem

def MAX_LEN : ℕ := 10

/-- A word typed at a prompt, of at most `MAX_LEN - 1` characters. -/
structure Word where
  bytes : List UInt8
  fits : bytes.length < MAX_LEN
  deriving DecidableEq

/-- `struct abonent` of `functions/functions.c`, each field the bytes of its array. -/
structure Abonent where
  name : List UInt8
  second_name : List UInt8
  tel : List UInt8
  deriving DecidableEq

/-- `struct abonent` of `dynmem/dynmem.c`. -/
structure AbonentNode extends Abonent where
  next : Option ℕ
  prev : Option ℕ
  deriving DecidableEq

/-- `scanf("%s", m)`. -/
def scanWord (w : Word) (m : List UInt8) : List UInt8 :=
  memcpy m 0 (w.bytes ++ [0]) (w.bytes.length + 1)

/-- The three words of a new record. -/
def scanAbonent (name second_name tel : Word) (a : Abonent) : Abonent where
  name := scanWord name a.name
  second_name := scanWord second_name a.second_name
  tel := scanWord tel a.tel

/-- What is printed of a record. -/
structure Record where
  name : List UInt8
  second_name : List UInt8
  tel : List UInt8
  deriving DecidableEq

def Abonent.shown (a : Abonent) : Record := ⟨cstr a.name, cstr a.second_name, cstr a.tel⟩

/-- The global variables and the memory. -/
structure DynBook where
  heap : Heap AbonentNode
  head : Option ℕ
  tail : Option ℕ

/-- A line of a listing or a search: a number and a record. -/
structure Line where
  index : ℕ
  record : Record
  deriving DecidableEq

/-- The records a search for a name finds. -/
def named (name : Word) (r : Record) : Bool := r.name == cstr (scanWord name [])

namespace DynBook

def start : DynBook := ⟨.empty, none, none⟩

/-- A node is put behind the last. -/
def putLast (b : DynBook) (p : ℕ) : Option DynBook :=
  match b.tail with
  | some t =>
    (b.heap.modify t fun n => { n with next := some p }).map fun h =>
      { b with heap := h, tail := some p }
  | none => some { b with head := some p, tail := some p }

/-- A node that is written behind its allocation and put behind the last. -/
def link (b : DynBook) (p : ℕ) (junk : AbonentNode) (fill : AbonentNode → AbonentNode) :
    Option DynBook :=
  ((b.heap.malloc p junk).modify p fill).bind fun h => { b with heap := h }.putLast p

/-- `malloc` returns an address and what lies there, or `NULL`. -/
def addAbonent (b : DynBook) (new : Option (ℕ × AbonentNode)) (name second_name tel : Word) :
    Option DynBook :=
  match new with
  | none => some b
  | some (p, junk) =>
    b.link p junk fun n =>
      { scanAbonent name second_name tel n.toAbonent with next := none, prev := b.tail }

/-- The loop of `remove_abonent`, with `number - index` steps to go. -/
def seek (h : Heap AbonentNode) : ℕ → Option ℕ → Option (Option ℕ)
  | 0, current => some current
  | _ + 1, none => some none
  | n + 1, some p => (h.read p).bind fun v => seek h n v.next

/-- What leads to `current` from the front is led behind it. -/
def unlinkNext (b : DynBook) (current : ℕ) : Option DynBook :=
  (b.heap.read current).bind fun c =>
    match c.prev with
    | some q =>
      (b.heap.modify q fun n => { n with next := c.next }).map fun h => { b with heap := h }
    | none => some { b with head := c.next }

/-- What leads to `current` from the back is led before it. -/
def unlinkPrev (b : DynBook) (current : ℕ) : Option DynBook :=
  (b.heap.read current).bind fun c =>
    match c.next with
    | some q =>
      (b.heap.modify q fun n => { n with prev := c.prev }).map fun h => { b with heap := h }
    | none => some { b with tail := c.prev }

def removeAbonent (b : DynBook) (number : ℤ) : Option DynBook :=
  match b.head with
  | none => some b
  | some _ =>
    (seek b.heap number.toNat b.head).bind fun current =>
      match current with
      | none => some b
      | some current =>
        (b.unlinkNext current).bind fun b =>
          (b.unlinkPrev current).bind fun b =>
            (b.heap.free current).map fun h => { b with heap := h }

/-- The loop of `free_all`; it has no result where it goes on behind its fuel. -/
def freeFrom : ℕ → Heap AbonentNode → Option ℕ → Option (Heap AbonentNode)
  | _, h, none => some h
  | 0, _, some _ => none
  | fuel + 1, h, some p =>
    (h.read p).bind fun v => (h.free p).bind fun h => freeFrom fuel h v.next

def freeAll (b : DynBook) : Option DynBook :=
  (freeFrom b.heap.allocs b.heap b.head).map fun h => ⟨h, none, none⟩

/-- The loop of `print_book` and `search_abonent`, which print the records kept; it has no result
where it goes on behind its fuel. -/
def linesFrom (keep : Record → Bool) (h : Heap AbonentNode) : ℕ → Option ℕ → ℕ → Option (List Line)
  | _, none, _ => some []
  | 0, some _, _ => none
  | fuel + 1, some p, index =>
    (h.read p).bind fun v => (linesFrom keep h fuel v.next (index + 1)).map fun rest =>
      if keep v.shown then ⟨index, v.shown⟩ :: rest else rest

def printBook (b : DynBook) : Option (List Line) :=
  linesFrom (fun _ => true) b.heap b.heap.allocs b.head 0

def searchAbonent (b : DynBook) (name : Word) : Option (List Line) :=
  linesFrom (named name) b.heap b.heap.allocs b.head 0

end DynBook

inductive DynOp where
  | add (new : Option (ℕ × AbonentNode)) (name second_name tel : Word)
  | remove (number : ℤ)
  | freeAll

def DynBook.run (b : DynBook) : DynOp → Option DynBook
  | .add new name second_name tel => b.addAbonent new name second_name tel
  | .remove number => b.removeAbonent number
  | .freeAll => b.freeAll

/-- `malloc` hands out no cell that is live. -/
def DynOp.Fresh (b : DynBook) : DynOp → Prop
  | .add new _ _ _ => ∀ p junk, new = some (p, junk) → ¬ b.heap.Live p
  | .remove _ => True
  | .freeAll => True

def dynLts : Lts DynBook DynOp where
  init b := b = .start
  step b op b' := op.Fresh b ∧ b.run op = some b'

/-- The nodes of the list, in order: what the walks along `next` and along `prev` meet, all that is
live and nothing that was freed. -/
structure DynBook.Nodes (b : DynBook) (l : List ℕ) : Prop where
  forward : DoublyLinked.Walk b.heap.read AbonentNode.next b.head l
  last : b.tail = l.getLast?
  backward : DoublyLinked.Walk b.heap.read AbonentNode.prev b.tail l.reverse
  distinct : l.Nodup
  live : ∀ p ∈ l, ∃ n v, b.heap.cell p = some (n, v) ∧ n < b.heap.allocs ∧ n ∉ b.heap.freed
  all : ∀ n < b.heap.allocs, n ∉ b.heap.freed → ∃ p ∈ l, ∃ v, b.heap.cell p = some (n, v)

/-- The records of some nodes. -/
def recordsAt (h : Heap AbonentNode) (l : List ℕ) : List (Option Record) :=
  l.map fun p => (h.read p).map fun v => v.shown

/-- The list is intact: both ends or none, the nodes as above, and none freed twice. -/
structure DynBook.Intact (b : DynBook) : Prop where
  ends : b.head = none ↔ b.tail = none
  nodes : ∃ l, b.Nodes l
  freed_once : b.heap.freed.Nodup

/-- The nodes hold these records, in order. -/
def DynBook.Holds (b : DynBook) (rs : List Record) : Prop :=
  ∃ l, b.Nodes l ∧ recordsAt b.heap l = rs.map some

end EltexSystems
