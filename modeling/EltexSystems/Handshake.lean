import EltexSystems.Lib.CString
import EltexSystems.Lib.Lts
import Mathlib.Logic.Function.Basic

/-!
# The handshake through shared memory

The server and any number of clients of `shared_memory/server_posix.c` and `client_posix.c`, or of
`server_sysv.c` and `client_sysv.c`, over one `shm_data_t`.  A process is a client or `none`, the
server.  A `strncpy` stores one byte a step and a `printf` of the text loads one, so that the text
may change between two of its bytes.  A look at the flag that does not find what it waits for leads
nowhere, and is no step.  A POSIX segment has no memory before `ftruncate`, and an access to it
before that kills the process; a System V one has its size from the start.
-/

namespace EltexSystems.Handshake

open CStr

/-- The size of `text`. -/
def TEXT_SIZE : ℕ := 64

inductive Api where
  | posix
  | sysv
  deriving DecidableEq, Repr

/-- Where a process is; `look k` and `look' k` are the loads of the text's `k`-th byte by the
`printf` behind the wait and behind the process's own store of the flag. -/
inductive Pc where
  | start
  | truncate
  | map
  | clear
  | copy (k : ℕ)
  | terminate
  | raise
  | sent (k : ℕ)
  | wait
  | got (k : ℕ)
  | unmap
  | remove
  | exited (code : ℕ)
  | beyond
  | killed
  deriving DecidableEq, Repr

/-- A process: what the `printf` it is in has loaded, and what its two `printf`s have printed. -/
structure Proc where
  pc : Pc
  line : List UInt8
  sentLine : Option (List UInt8)
  gotLine : Option (List UInt8)

/-- The segment's memory; one that is not sized has none yet. -/
structure Segment where
  sized : Bool
  flag : ℤ
  text : ℕ → UInt8

/-- The name, the memory under it and the processes. -/
structure World (ι : Type*) where
  linked : Bool
  mem : Segment
  procs : Option ι → Proc

variable {ι : Type*}

/-- The text a process sends, zeroes behind it. -/
def message : Option ι → ℕ → UInt8
  | none, k => (ascii "Hi!").getD k 0
  | some _, k => (ascii "Hello!").getD k 0

/-- The flag a process sets behind its text. -/
def raises : Option ι → ℤ
  | none => 1
  | some _ => 2

/-- The flag a process waits for. -/
def awaits : Option ι → ℤ
  | none => 2
  | some _ => 1

/-- Where a process goes on behind `mmap` or `shmat`, and behind its two `printf`s. -/
def afterMap : Option ι → Pc
  | none => .clear
  | some _ => .wait

def afterSent : Option ι → Pc
  | none => .wait
  | some _ => .unmap

def afterGot : Option ι → Pc
  | none => .unmap
  | some _ => .copy 0

def afterUnmap : Option ι → Pc
  | none => .remove
  | some _ => .exited 0

/-- Where the process accesses the segment's memory. -/
def Pc.Accesses : Pc → Prop
  | .clear | .copy _ | .terminate | .raise | .sent _ | .wait | .got _ => True
  | _ => False

inductive Label (ι : Type*) where
  | step (p : Option ι)
  | fail (p : Option ι)

variable [DecidableEq ι]

def World.set (w : World ι) (p : Option ι) (q : Proc) : World ι :=
  { w with procs := Function.update w.procs p q }

/-- A process goes on at another place. -/
def World.goto (w : World ι) (p : Option ι) (pc : Pc) : World ι :=
  w.set p { w.procs p with pc := pc }

def World.put (w : World ι) (k : ℕ) (b : UInt8) : World ι :=
  { w with mem := { w.mem with text := Function.update w.mem.text k b } }

def World.setFlag (w : World ι) (flag : ℤ) : World ι :=
  { w with mem := { w.mem with flag := flag } }

/-- One step of one process. -/
inductive Step (api : Api) : World ι → Label ι → World ι → Prop where
  | create {w : World ι} : (w.procs none).pc = .start →
      Step api w (.step none)
        { w.goto none (if api = .posix then .truncate else .map) with
          linked := true
          mem := ⟨api = .sysv, 0, fun _ => 0⟩ }
  | attach {w : World ι} {i : ι} : (w.procs (some i)).pc = .start → w.linked = true →
      Step api w (.step (some i)) (w.goto (some i) .map)
  | truncate {w : World ι} {p : Option ι} : (w.procs p).pc = .truncate →
      Step api w (.step p) { w.goto p .map with mem := { w.mem with sized := true } }
  | map {w : World ι} {p : Option ι} : (w.procs p).pc = .map →
      Step api w (.step p) (w.goto p (afterMap p))
  | fail {w : World ι} {p : Option ι} :
      (w.procs p).pc = .start ∨ (w.procs p).pc = .truncate ∨ (w.procs p).pc = .map →
      Step api w (.fail p) (w.goto p (.exited 1))
  | clear {w : World ι} {p : Option ι} : (w.procs p).pc = .clear → w.mem.sized = true →
      Step api w (.step p) ((w.goto p (.copy 0)).setFlag 0)
  | copy {w : World ι} {p : Option ι} {k : ℕ} : (w.procs p).pc = .copy k → w.mem.sized = true →
      Step api w (.step p)
        ((w.goto p (if k + 1 < TEXT_SIZE then .copy (k + 1) else .terminate)).put k (message p k))
  | terminate {w : World ι} {p : Option ι} : (w.procs p).pc = .terminate → w.mem.sized = true →
      Step api w (.step p) ((w.goto p .raise).put (TEXT_SIZE - 1) 0)
  | raise {w : World ι} {p : Option ι} : (w.procs p).pc = .raise → w.mem.sized = true →
      Step api w (.step p)
        ((w.set p { w.procs p with pc := .sent 0, line := [] }).setFlag (raises p))
  | sent {w : World ι} {p : Option ι} {k : ℕ} : (w.procs p).pc = .sent k → w.mem.sized = true →
      k < TEXT_SIZE → w.mem.text k ≠ 0 →
      Step api w (.step p) (w.set p
        { w.procs p with pc := .sent (k + 1), line := (w.procs p).line ++ [w.mem.text k] })
  | sentEnd {w : World ι} {p : Option ι} {k : ℕ} : (w.procs p).pc = .sent k →
      w.mem.sized = true → k < TEXT_SIZE → w.mem.text k = 0 →
      Step api w (.step p) (w.set p
        { w.procs p with pc := afterSent p, sentLine := some (w.procs p).line })
  | wait {w : World ι} {p : Option ι} : (w.procs p).pc = .wait → w.mem.sized = true →
      w.mem.flag = awaits p →
      Step api w (.step p) (w.set p { w.procs p with pc := .got 0, line := [] })
  | got {w : World ι} {p : Option ι} {k : ℕ} : (w.procs p).pc = .got k → w.mem.sized = true →
      k < TEXT_SIZE → w.mem.text k ≠ 0 →
      Step api w (.step p) (w.set p
        { w.procs p with pc := .got (k + 1), line := (w.procs p).line ++ [w.mem.text k] })
  | gotEnd {w : World ι} {p : Option ι} {k : ℕ} : (w.procs p).pc = .got k →
      w.mem.sized = true → k < TEXT_SIZE → w.mem.text k = 0 →
      Step api w (.step p) (w.set p
        { w.procs p with pc := afterGot p, gotLine := some (w.procs p).line })
  | beyond {w : World ι} {p : Option ι} {k : ℕ} :
      (w.procs p).pc = .sent k ∨ (w.procs p).pc = .got k → TEXT_SIZE ≤ k →
      Step api w (.step p) (w.goto p .beyond)
  | bus {w : World ι} {p : Option ι} : (w.procs p).pc.Accesses → w.mem.sized = false →
      Step api w (.step p) (w.goto p .killed)
  | unmap {w : World ι} {p : Option ι} : (w.procs p).pc = .unmap →
      Step api w (.step p) (w.goto p (afterUnmap p))
  | remove {w : World ι} {p : Option ι} : (w.procs p).pc = .remove →
      Step api w (.step p) { w.goto p (.exited 0) with linked := false }
  | removeFails {w : World ι} {p : Option ι} : (w.procs p).pc = .remove →
      Step api w (.fail p) (w.goto p (.exited 0))

/-- The step a label stands for, if it can be taken. -/
def next (api : Api) (w : World ι) : Label ι → Option (World ι)
  | .step p =>
    match (w.procs p).pc with
    | .start =>
      match p with
      | none => some { w.goto none (if api = .posix then .truncate else .map) with
          linked := true
          mem := ⟨api = .sysv, 0, fun _ => 0⟩ }
      | some i => if w.linked then some (w.goto (some i) .map) else none
    | .truncate => some { w.goto p .map with mem := { w.mem with sized := true } }
    | .map => some (w.goto p (afterMap p))
    | .unmap => some (w.goto p (afterUnmap p))
    | .remove => some { w.goto p (.exited 0) with linked := false }
    | .exited _ | .beyond | .killed => none
    | pc =>
      if w.mem.sized = false then some (w.goto p .killed)
      else match pc with
        | .clear => some ((w.goto p (.copy 0)).setFlag 0)
        | .copy k =>
          some ((w.goto p (if k + 1 < TEXT_SIZE then .copy (k + 1) else .terminate)).put k
            (message p k))
        | .terminate => some ((w.goto p .raise).put (TEXT_SIZE - 1) 0)
        | .raise =>
          some ((w.set p { w.procs p with pc := .sent 0, line := [] }).setFlag (raises p))
        | .sent k =>
          if TEXT_SIZE ≤ k then some (w.goto p .beyond)
          else if w.mem.text k = 0 then
            some (w.set p { w.procs p with pc := afterSent p, sentLine := some (w.procs p).line })
          else
            some (w.set p
              { w.procs p with pc := .sent (k + 1), line := (w.procs p).line ++ [w.mem.text k] })
        | .wait =>
          if w.mem.flag = awaits p then
            some (w.set p { w.procs p with pc := .got 0, line := [] })
          else none
        | .got k =>
          if TEXT_SIZE ≤ k then some (w.goto p .beyond)
          else if w.mem.text k = 0 then
            some (w.set p { w.procs p with pc := afterGot p, gotLine := some (w.procs p).line })
          else
            some (w.set p
              { w.procs p with pc := .got (k + 1), line := (w.procs p).line ++ [w.mem.text k] })
        | _ => none
  | .fail p =>
    match (w.procs p).pc with
    | .start | .truncate | .map => some (w.goto p (.exited 1))
    | .remove => some (w.goto p (.exited 0))
    | _ => none

/-- No segment is left over from an earlier run. -/
def World.start : World ι := ⟨false, ⟨false, 0, fun _ => 0⟩, fun _ => ⟨.start, [], none, none⟩⟩

def lts (api : Api) : Lts (World ι) (Label ι) where
  init w := w = .start
  step := Step api

/-- The bytes of a line are what a property says of their places, and none is zero. -/
def Loaded (P : ℕ → UInt8 → Prop) (bs : List UInt8) : Prop :=
  ∀ k b, bs[k]? = some b → P k b ∧ b ≠ 0

/-- And so is the zero behind it. -/
def Printed (P : ℕ → UInt8 → Prop) (bs : List UInt8) : Prop :=
  Loaded P bs ∧ P bs.length 0

/-- The byte of the server's text, or of a client's. -/
def Hi (k : ℕ) (b : UInt8) : Prop := b = (ascii "Hi!").getD k 0

def Hello (k : ℕ) (b : UInt8) : Prop := b = (ascii "Hello!").getD k 0

def OneOf (k : ℕ) (b : UInt8) : Prop := Hi k b ∨ Hello k b

/-- A client has begun to store its answer. -/
def Pc.Answering : Pc → Prop
  | .copy _ | .terminate | .raise | .sent _ | .unmap | .exited 0 => True
  | _ => False

/-- The process has the segment's memory mapped, or has had it and has returned 0. -/
def Pc.Attached : Pc → Prop
  | .clear | .copy _ | .terminate | .raise | .sent _ | .wait | .got _ => True
  | .unmap | .remove | .exited 0 => True
  | _ => False

/-- No client but this one has begun to store its answer. -/
def Alone (w : World ι) (i : ι) : Prop := ∀ j ≠ i, ¬ (w.procs (some j)).pc.Answering

end EltexSystems.Handshake
