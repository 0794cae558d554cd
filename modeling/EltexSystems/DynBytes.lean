import EltexSystems.RawBook

/-!
# The phone book of `dynmem/dynmem.c` in memory

The nodes of the list as the bytes they lie in, on a machine whose pointers have 64 bits, and words
of any length scanned into them: a word is written from the start of its array on, over whatever
follows.  Where `malloc` puts a node and what lies there is open, but no two live nodes overlap;
what `malloc` itself keeps in memory is left out.
-/

namespace EltexSystems

open FlatMem

/-- `sizeof(struct abonent)` of `dynmem/dynmem.c`. -/
def nodeSize : ℕ := 48

/-- Where the pointers of a node lie, behind its arrays and two unused bytes. -/
def nextOffset : ℕ := 32

def prevOffset : ℕ := 40

/-- The global variables, the memory, and the addresses that hold a node. -/
structure ByteBook where
  mem : ℕ → UInt8
  heap : Heap Unit
  head : Option ℕ
  tail : Option ℕ

namespace ByteBook

/-- The node at an address. -/
def node (mem : ℕ → UInt8) (p : ℕ) : AbonentNode where
  name := block mem (p + AbonentField.name.offset) MAX_LEN
  second_name := block mem (p + AbonentField.second_name.offset) MAX_LEN
  tel := block mem (p + AbonentField.tel.offset) MAX_LEN
  next := loadPtr mem (p + nextOffset)
  prev := loadPtr mem (p + prevOffset)

/-- The nodes, as their bytes are read. -/
def nodes (b : ByteBook) : Heap AbonentNode where
  cell p := (b.heap.cell p).map fun c => (c.1, node b.mem p)
  allocs := b.heap.allocs
  freed := b.heap.freed

/-- The book as nodes. -/
def view (b : ByteBook) : DynBook := ⟨b.nodes, b.head, b.tail⟩

/-- A pointer stored in a node. -/
def store (b : ByteBook) (p offset : ℕ) (v : Option ℕ) : Option ByteBook :=
  (b.heap.read p).map fun _ => { b with mem := write b.mem (p + offset) (ptrBytes v) }

/-- `scanf("%s", ...)` into an array of a node; at the end of the input nothing is written. -/
def scanField (p : ℕ) (word : AbonentField → Option (List UInt8)) (mem : ℕ → UInt8)
    (f : AbonentField) : ℕ → UInt8 :=
  match word f with
  | none => mem
  | some w => write mem (p + f.offset) (w ++ [0])

/-- The memory behind the three `scanf`s. -/
def scanned (p : ℕ) (word : AbonentField → Option (List UInt8)) (mem : ℕ → UInt8) : ℕ → UInt8 :=
  [AbonentField.name, .second_name, .tel].foldl (scanField p word) mem

/-- A node is put behind the last. -/
def putLast (b : ByteBook) (p : ℕ) : Option ByteBook :=
  match b.tail with
  | some t => (b.store t nextOffset (some p)).map fun b => { b with tail := some p }
  | none => some { b with head := some p, tail := some p }

/-- `malloc` returns an address and the bytes there, or `NULL`. -/
def addAbonent (b : ByteBook) (new : Option (ℕ × List UInt8))
    (word : AbonentField → Option (List UInt8)) : Option ByteBook :=
  match new with
  | none => some b
  | some (p, junk) =>
    let b' : ByteBook :=
      { b with mem := scanned p word (write b.mem p junk), heap := b.heap.malloc p () }
    (b'.store p nextOffset none).bind fun b' =>
      (b'.store p prevOffset b.tail).bind fun b' => b'.putLast p

/-- What leads to `current` from the front is led behind it. -/
def unlinkNext (b : ByteBook) (current : ℕ) : Option ByteBook :=
  (b.nodes.read current).bind fun c =>
    match c.prev with
    | some q => b.store q nextOffset c.next
    | none => some { b with head := c.next }

/-- What leads to `current` from the back is led before it. -/
def unlinkPrev (b : ByteBook) (current : ℕ) : Option ByteBook :=
  (b.nodes.read current).bind fun c =>
    match c.next with
    | some q => b.store q prevOffset c.prev
    | none => some { b with tail := c.prev }

def free (b : ByteBook) (p : ℕ) : Option ByteBook :=
  (b.heap.free p).map fun h => { b with heap := h }

def removeAbonent (b : ByteBook) (number : ℤ) : Option ByteBook :=
  match b.head with
  | none => some b
  | some _ =>
    (DynBook.seek b.nodes number.toNat b.head).bind fun current =>
      match current with
      | none => some b
      | some current =>
        (b.unlinkNext current).bind fun b =>
          (b.unlinkPrev current).bind fun b => b.free current

/-- The loop of `free_all`; it has no result where it goes on behind its fuel. -/
def freeFrom : ℕ → ByteBook → Option ℕ → Option ByteBook
  | _, b, none => some b
  | 0, _, some _ => none
  | fuel + 1, b, some p =>
    (b.nodes.read p).bind fun v => (b.free p).bind fun b => freeFrom fuel b v.next

def freeAll (b : ByteBook) : Option ByteBook :=
  (freeFrom b.heap.allocs b b.head).map fun b => { b with head := none, tail := none }

end ByteBook

inductive ByteOp where
  | add (new : Option (ℕ × List UInt8)) (word : AbonentField → Option (List UInt8))
  | remove (number : ℤ)
  | freeAll

def ByteBook.run (b : ByteBook) : ByteOp → Option ByteBook
  | .add new word => b.addAbonent new word
  | .remove number => b.removeAbonent number
  | .freeAll => b.freeAll

/-- `malloc` hands out bytes of no node that is live. -/
def ByteOp.Fresh (b : ByteBook) : ByteOp → Prop
  | .add new _ => ∀ p junk, new = some (p, junk) → 0 < p ∧ p + nodeSize ≤ 2 ^ 64 ∧
      junk.length = nodeSize ∧ ∀ q, b.heap.Live q → p + nodeSize ≤ q ∨ q + nodeSize ≤ p
  | .remove _ => True
  | .freeAll => True

def byteLts : Lts ByteBook ByteOp where
  init b := b.heap = .empty ∧ b.head = none ∧ b.tail = none
  step b op b' := op.Fresh b ∧ b.run op = some b'

/-- No word typed, with its zero byte, runs past the end of its node. -/
def ByteOp.Inside : ByteOp → Prop
  | .add _ word => ∀ f w, word f = some w → f.offset + w.length < nodeSize
  | .remove _ => True
  | .freeAll => True

end EltexSystems
