import EltexSystems.Lib.Lines
import EltexSystems.Lib.Lts
import EltexSystems.TaxiCli

/-!
# Standard input of `taxi_control/main.c`

`main`'s loop with the way a command line takes to it: the bytes in the kernel's input, which `poll`
tests, the bytes `stdio` has read ahead, which it does not, and the bytes `fgets` has put into
`line`.  `fgets` takes bytes up to a line feed or until `line` is full, and refills its buffer when
that is empty; a line read is the `line` of an iteration of `mainIter`.
-/

namespace EltexSystems

open CStr

/-- `'\n'`. -/
def LF : UInt8 := 10

/-- Where the loop is: at `poll`, in `fgets`, or left. -/
inductive StdinPc where
  | poll
  | fgets
  | exited
  deriving DecidableEq

/-- The CLI and its standard input, with the bytes received so far and the lines executed. -/
structure Stdin where
  cli : Cli
  pc : StdinPc
  kernel : List UInt8
  stdio : List UInt8
  acc : List UInt8
  eof : Bool
  received : List UInt8
  executed : List (List UInt8)

inductive StdinLabel where
  | arrive (chunk : List UInt8)
  | close
  | idle (e : LoopEnv)
  | ready
  | refill (k : ℕ)
  | byte (e : LoopEnv)
  | endOfInput (e : LoopEnv)

/-- `poll` reports standard input. -/
def PollResult.stdinReady : PollResult → Bool
  | .ready revents => (revents 0).pollin
  | _ => false

/-- An iteration in which `fgets` reads the given line. -/
def LoopEnv.reads (e : LoopEnv) (line : List UInt8) : Bool :=
  e.calloc && e.poll.stdinReady && e.line == some line

namespace Stdin

variable (s : Stdin)

/-- After the rest of an iteration. -/
def goOn (it : Iteration) : Stdin :=
  { s with cli := it.cli, pc := if it.flow = .again then .poll else .exited }

/-- `fgets` returns a line and the iteration runs with it. -/
def execute (line : List UInt8) (e : LoopEnv) : Stdin :=
  { s with acc := [], executed := s.executed ++ [line] }.goOn (mainIter s.cli e)

/-- `fgets` takes the first byte of the buffer. -/
def takeByte (b : UInt8) (rest : List UInt8) (e : LoopEnv) : Option Stdin :=
  if b = LF ∨ s.acc.length + 1 = MSGSZ - 1 then
    if e.reads (s.acc ++ [b]) then some ({ s with stdio := rest }.execute (s.acc ++ [b]) e)
    else none
  else some { s with stdio := rest, acc := s.acc ++ [b] }

/-- `fgets` at the end of the input: `NULL`, or the bytes it has. -/
def atEnd (e : LoopEnv) : Option Stdin :=
  if s.acc = [] then some { s with pc := .exited }
  else if e.reads s.acc then some (s.execute s.acc e)
  else none

/-- `poll` does not return for standard input: it has no byte and is open, or `poll` is not called
or returns an error. -/
def passesOver (e : LoopEnv) : Bool :=
  match e.calloc, e.poll with
  | true, .ready revents => !(revents 0).pollin && s.kernel == [] && !s.eof
  | _, _ => true

/-- The state after a step, `none` where it is not enabled.  A refill takes some of the kernel's
bytes, `bufSize` at most. -/
def next (bufSize : ℕ) (s : Stdin) : StdinLabel → Option Stdin
  | .arrive chunk =>
    if s.eof then none
    else some { s with kernel := s.kernel ++ chunk, received := s.received ++ chunk }
  | .close => some { s with eof := true }
  | .idle e =>
    if s.pc = .poll ∧ s.passesOver e then some (s.goOn (mainIter s.cli e)) else none
  | .ready =>
    if s.pc = .poll ∧ (s.kernel ≠ [] ∨ s.eof) then some { s with pc := .fgets } else none
  | .refill k =>
    if s.pc = .fgets ∧ s.stdio = [] ∧ 0 < k ∧ k ≤ bufSize ∧ k ≤ s.kernel.length then
      some { s with stdio := s.kernel.take k, kernel := s.kernel.drop k }
    else none
  | .byte e =>
    match s.pc, s.stdio with
    | .fgets, b :: rest => s.takeByte b rest e
    | _, _ => none
  | .endOfInput e =>
    if s.pc = .fgets ∧ s.stdio = [] ∧ s.kernel = [] ∧ s.eof then s.atEnd e else none

/-- The loop is about to block in `poll`, with no byte left in the kernel. -/
def Blocked (s : Stdin) : Prop := s.pc = .poll ∧ s.kernel = [] ∧ s.eof = false

/-- The line being read has its line feed among its first 255 bytes, and no other line feed is in
the buffer when that one is taken with the kernel's input empty. -/
def OneLine (s : Stdin) : StdinLabel → Prop
  | .byte _ => (s.acc.length + 1 = MSGSZ - 1 → s.stdio.head? = some LF) ∧
      (s.stdio.head? = some LF → s.kernel = [] → LF ∉ s.stdio.tail)
  | _ => True

instance (s : Stdin) (l : StdinLabel) : Decidable (s.OneLine l) :=
  match l with
  | .byte _ => inferInstanceAs (Decidable (_ ∧ _))
  | .arrive _ => isTrue trivial
  | .close => isTrue trivial
  | .idle _ => isTrue trivial
  | .ready => isTrue trivial
  | .refill _ => isTrue trivial
  | .endOfInput _ => isTrue trivial

end Stdin

def stdinLts (bufSize : ℕ) : Lts Stdin StdinLabel where
  init s := s = ⟨⟨[], 0, [], []⟩, .poll, [], [], [], false, [], []⟩
  step s l t := s.next bufSize l = some t

end EltexSystems
