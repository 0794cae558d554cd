import Mathlib.Data.Int.Notation
import Mathlib.Data.List.Basic

/-!
# The client table of `echo_raw/src/client_table.c`

1024 chains of nodes, a node holding a key and the counter of the requests seen under it.  A chain
is the list of its nodes from the bucket on.  A table pointer is an `Option`, `none` for `NULL`, and
so is the out parameter of `rawudpCtNext`; whether `calloc` succeeds is an argument.
-/

namespace EltexSystems

/-- `rawudp_client_key_t`: an address as its `s_addr`, a port in host order. -/
structure ClientKey where
  ip : UInt32
  port : UInt16
  deriving DecidableEq, Repr

structure Node where
  key : ClientKey
  counter : UInt32
  deriving DecidableEq, Repr

structure ClientTable where
  nb : ℕ
  buckets : List (List Node)
  deriving DecidableEq

def hashKey (k : ClientKey) : UInt32 :=
  let ip := k.ip
  let p := k.port.toUInt32
  let x := ip ^^^ (p * 2654435761)
  let x := x ^^^ (x >>> 16)
  let x := x * 2246822519
  let x := x ^^^ (x >>> 13)
  let x := x * 3266489917
  x ^^^ (x >>> 16)

def keyEq (a b : ClientKey) : Bool := a.ip == b.ip && a.port == b.port

/-- The bucket of a key in a table of `nb` buckets. -/
def bucketOf (nb : ℕ) (key : ClientKey) : ℕ := (hashKey key % UInt32.ofNat nb).toNat

/-- The two `calloc` calls of the constructor succeed or not. -/
def rawudpCtCreate (callocTable callocBuckets : Bool) : Option ClientTable :=
  if callocTable then
    if callocBuckets then some ⟨1024, List.replicate 1024 []⟩ else none
  else none

/-- The walk of `rawudp_ct_next` down a chain: the node found has its counter incremented in place,
and the new value is handed out. -/
def bumpChain (key : ClientKey) : List Node → Option (List Node × UInt32)
  | [] => none
  | n :: rest =>
    if keyEq n.key key then
      some ({ n with counter := n.counter + 1 } :: rest, n.counter + 1)
    else (bumpChain key rest).map fun r => (n :: r.1, r.2)

/-- The walk of `rawudp_ct_reset`: the node found is unlinked, from the bucket or from the node
before it. -/
def unlinkChain (key : ClientKey) : List Node → List Node
  | [] => []
  | n :: rest => if keyEq n.key key then rest else n :: unlinkChain key rest

/-- The return value, the table and the counter cell afterwards. -/
def rawudpCtNext (t : Option ClientTable) (key : ClientKey) (outCounter : Option UInt32)
    (calloc : Bool) : ℤ × Option ClientTable × Option UInt32 :=
  match t, outCounter with
  | some t, some old =>
    let idx := bucketOf t.nb key
    match bumpChain key (t.buckets.getD idx []) with
    | some (chain, c) => (0, some { t with buckets := t.buckets.set idx chain }, some c)
    | none =>
      if calloc then
        let n : Node := ⟨key, 1⟩
        (0, some { t with buckets := t.buckets.set idx (n :: t.buckets.getD idx []) }, some 1)
      else (-1, some t, some old)
  | t, outCounter => (-1, t, outCounter)

def rawudpCtReset (t : Option ClientTable) (key : ClientKey) : Option ClientTable :=
  match t with
  | none => none
  | some t =>
    let idx := bucketOf t.nb key
    some { t with buckets := t.buckets.set idx (unlinkChain key (t.buckets.getD idx [])) }

/-- A call on the table, with what the caller passes and what `calloc` will do. -/
inductive TableOp where
  | next (key : ClientKey) (outCounter : Option UInt32) (calloc : Bool)
  | reset (key : ClientKey)

/-- The return value, table and counter cell of a call; `rawudp_ct_reset` returns nothing. -/
def TableOp.call (t : Option ClientTable) : TableOp → ℤ × Option ClientTable × Option UInt32
  | .next key out calloc => rawudpCtNext t key out calloc
  | .reset key => (0, rawudpCtReset t key, none)

/-- The table after a sequence of calls. -/
def runOps (t : Option ClientTable) (ops : List TableOp) : Option ClientTable :=
  ops.foldl (fun t op => (op.call t).2.1) t

/-- The calls of a sequence, each with what it returned. -/
def opHistory : Option ClientTable → List TableOp → List (TableOp × ℤ)
  | _, [] => []
  | t, op :: ops => (op, (op.call t).1) :: opHistory (op.call t).2.1 ops

/-- How a call that returned `ret` changes the number of successful `next` calls on `key` since the
last `reset` of it. -/
def countOp (key : ClientKey) (n : ℕ) : TableOp × ℤ → ℕ
  | (.next k _ _, ret) => if k = key ∧ ret = 0 then n + 1 else n
  | (.reset k, _) => if k = key then 0 else n

/-- The number of successful `next` calls on `key` in a history, since the last `reset` of it. -/
def nextsSince (key : ClientKey) (h : List (TableOp × ℤ)) : ℕ := h.foldl (countOp key) 0

namespace ClientTable

/-- All nodes of the table. -/
def nodes (t : ClientTable) : List Node := t.buckets.flatten

/-- The counter stored for a key. -/
def counter (t : ClientTable) (key : ClientKey) : Option UInt32 :=
  ((t.buckets.getD (bucketOf t.nb key) []).find? fun n => keyEq n.key key).map Node.counter

end ClientTable

end EltexSystems
