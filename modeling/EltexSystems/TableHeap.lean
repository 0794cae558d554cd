import EltexSystems.ClientTable
import EltexSystems.Lib.Lts
import EltexSystems.Lib.SinglyLinked

/-!
# The client table of `echo_raw/src/client_table.c` in memory

The table as the code keeps it: the struct, the array of the buckets and the nodes are cells of one
heap, and a chain is walked along the `next` pointers.  An access to a cell that is not live or is
of another kind, or beyond the array, has no result.  `calloc` gives an address or `NULL`.
-/

namespace EltexSystems

open SinglyLinked

/-- `node_t`. -/
structure NodeCell extends Node where
  next : Option ℕ
  deriving DecidableEq

/-- What `calloc` was called for: the table, its array of buckets, a node. -/
inductive CtCell where
  | table (buckets : Option ℕ) (nb : ℕ)
  | array (heads : List (Option ℕ))
  | node (n : NodeCell)
  deriving DecidableEq

namespace CtCell

def asTable : CtCell → Option (Option ℕ × ℕ)
  | .table buckets nb => some (buckets, nb)
  | _ => none

def asArray : CtCell → Option (List (Option ℕ))
  | .array heads => some heads
  | _ => none

/-- A node as a cell of a chain. -/
def asNode : CtCell → Option (Node × Option ℕ)
  | .node n => some (n.toNode, n.next)
  | _ => none

end CtCell

abbrev nodeAt (h : Heap CtCell) : ℕ → Option (Node × Option ℕ) := cellAt CtCell.asNode h

/-- The memory, and the pointer `rawudp_ct_create` returned. -/
structure CtHeap where
  heap : Heap CtCell
  t : Option ℕ

/-- The array of the buckets, its address and the number of buckets, through the table. -/
def bucketsOf (h : Heap CtCell) (p : ℕ) : Option (ℕ × List (Option ℕ) × ℕ) :=
  ((h.read p).bind CtCell.asTable).bind fun t =>
    t.1.bind fun q => ((h.read q).bind CtCell.asArray).map fun heads => (q, heads, t.2)

/-- `t->buckets[idx] = a`. -/
def setBucket (h : Heap CtCell) (q : ℕ) (heads : List (Option ℕ)) (idx : ℕ) (a : Option ℕ) :
    Option (Heap CtCell) := h.modify q fun _ => .array (heads.set idx a)

/-- The walk down a chain to the node with a key, with the node before it. -/
def findFrom (key : ClientKey) (h : Heap CtCell) :
    ℕ → Option ℕ → Option ℕ → Option (Option (Option ℕ × ℕ))
  | _, _, none => some none
  | 0, _, some _ => none
  | fuel + 1, prev, some p =>
    (nodeAt h p).bind fun n =>
      if keyEq n.1.key key then some (some (prev, p)) else findFrom key h fuel (some p) n.2

namespace CtHeap

/-- The two `calloc` calls give addresses or `NULL`. -/
def create (h : Heap CtCell) (newTable newBuckets : Option ℕ) : Option CtHeap :=
  match newTable with
  | none => some ⟨h, none⟩
  | some p =>
    ((h.malloc p (.table none 0)).modify p fun _ => .table none 1024).bind fun h =>
      match newBuckets with
      | none => (h.free p).map fun h => ⟨h, none⟩
      | some q =>
        ((h.malloc q (.array (List.replicate 1024 none))).modify p fun _ =>
          .table (some q) 1024).map fun h => ⟨h, some p⟩

/-- The new node is put in front of the bucket's chain. -/
def prepend (h : Heap CtCell) (key : ClientKey) (q : ℕ) (heads : List (Option ℕ)) (idx : ℕ)
    (first : Option ℕ) (new : ℕ) : Option (Heap CtCell) :=
  ((h.malloc new (.node ⟨⟨⟨0, 0⟩, 0⟩, none⟩)).modify new fun _ =>
    .node ⟨⟨key, 1⟩, first⟩).bind fun h => setBucket h q heads idx (some new)

def next (s : CtHeap) (key : ClientKey) (outCounter : Option UInt32) (new : Option ℕ) :
    Option (ℤ × CtHeap × Option UInt32) :=
  match s.t, outCounter with
  | some p, some old =>
    (bucketsOf s.heap p).bind fun (q, heads, nb) =>
      (heads[bucketOf nb key]?).bind fun first =>
        (findFrom key s.heap s.heap.allocs none first).bind fun found =>
          match found with
          | some (_, n) =>
            (nodeAt s.heap n).bind fun v =>
              (s.heap.modify n fun _ =>
                .node ⟨{ v.1 with counter := v.1.counter + 1 }, v.2⟩).map fun h =>
                (0, { s with heap := h }, some (v.1.counter + 1))
          | none =>
            match new with
            | none => some (-1, s, some old)
            | some a =>
              (prepend s.heap key q heads (bucketOf nb key) first a).map fun h =>
                (0, { s with heap := h }, some 1)
  | _, outCounter => some (-1, s, outCounter)

/-- What leads to the node `n` is led behind it: the node before it, or the bucket. -/
def unlink (h : Heap CtCell) (q : ℕ) (heads : List (Option ℕ)) (idx : ℕ) (prev : Option ℕ)
    (behind : Option ℕ) : Option (Heap CtCell) :=
  match prev with
  | some m => (nodeAt h m).bind fun v => h.modify m fun _ => .node ⟨v.1, behind⟩
  | none => setBucket h q heads idx behind

def reset (s : CtHeap) (key : ClientKey) : Option CtHeap :=
  match s.t with
  | none => some s
  | some p =>
    (bucketsOf s.heap p).bind fun (q, heads, nb) =>
      (heads[bucketOf nb key]?).bind fun first =>
        (findFrom key s.heap s.heap.allocs none first).bind fun found =>
          match found with
          | none => some s
          | some (prev, n) =>
            (nodeAt s.heap n).bind fun v =>
              (unlink s.heap q heads (bucketOf nb key) prev v.2).bind fun h =>
                (h.free n).map fun h => { s with heap := h }

/-- The outer loop of `rawudp_ct_destroy` over the buckets listed. -/
def freeBuckets (p : ℕ) : List ℕ → Heap CtCell → Option (Heap CtCell)
  | [], h => some h
  | i :: is, h =>
    (bucketsOf h p).bind fun (_, heads, _) =>
      (heads[i]?).bind fun first =>
        (freeFrom CtCell.asNode h.allocs h first).bind fun h => freeBuckets p is h

def destroy (s : CtHeap) : Option (Heap CtCell) :=
  match s.t with
  | none => some s.heap
  | some p =>
    ((s.heap.read p).bind CtCell.asTable).bind fun t =>
      (freeBuckets p (List.range t.2) s.heap).bind fun h =>
        (bucketsOf h p).bind fun (q, _, _) => (h.free q).bind fun h => h.free p

end CtHeap

/-- A call on the table, with the address `calloc` will give. -/
inductive CtCall where
  | next (key : ClientKey) (outCounter : Option UInt32) (new : Option ℕ)
  | reset (key : ClientKey)

namespace CtCall

/-- The call, as one on the abstract table. -/
def op : CtCall → TableOp
  | .next key out new => .next key out new.isSome
  | .reset key => .reset key

def run (s : CtHeap) : CtCall → Option (ℤ × CtHeap × Option UInt32)
  | .next key out new => s.next key out new
  | .reset key => (s.reset key).map fun s => (0, s, none)

/-- `calloc` gives no address that is in use. -/
def Fresh (s : CtHeap) : CtCall → Prop
  | .next _ _ new => ∀ a, new = some a → ¬ s.heap.Live a
  | .reset _ => True

end CtCall

/-- The calls on a table, from its creation on. -/
def ctLts (newTable newBuckets : Option ℕ) : Lts CtHeap CtCall where
  init s := (∀ p, newTable = some p → newBuckets ≠ some p) ∧
    CtHeap.create .empty newTable newBuckets = some s
  step s c s' := c.Fresh s ∧ ∃ r, c.run s = some r ∧ s' = r.2.1

/-- The abstract table after the calls of a path. -/
def abstractTable (newTable newBuckets : Option ℕ) (tr : List (CtHeap × CtCall)) :
    Option ClientTable :=
  runOps (rawudpCtCreate newTable.isSome newBuckets.isSome) (tr.map fun x => x.2.op)

end EltexSystems
