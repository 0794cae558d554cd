import EltexSystems.TaxiStdin

/-!
# A pipe as standard input of `taxi_control/main.c`

`poll` reports a pipe as readable while it holds a byte; an empty one whose writer is gone it
reports with `POLLHUP` alone, at once and every time.  A read of a pipe takes what it holds, as much
of it as the buffer has room for.  No call fails, so the loop is only left for `shutdown_all`.
-/

namespace EltexSystems

open CStr

/-- What successive calls of `fgets` give for a finite input, `acc` being in `line` already. -/
def fgetsLines (acc : List UInt8) : List UInt8 → List (List UInt8)
  | [] => if acc = [] then [] else [acc]
  | b :: l =>
    if b = LF ∨ acc.length + 1 = MSGSZ - 1 then (acc ++ [b]) :: fgetsLines [] l
    else fgetsLines (acc ++ [b]) l

/-- No call of an iteration fails. -/
def LoopEnv.succeeds (e : LoopEnv) : Bool := e.calloc && e.spawn.isSome && e.realloc

/-- `poll` returns with an event other than input: of a driver, or the hang-up of the pipe. -/
def LoopEnv.pollsEmpty (e : LoopEnv) (closed : Bool) : Bool :=
  match e.poll with
  | .ready revents => !(revents 0).pollin && (revents 0).hangup == closed
  | _ => false

/-- The bytes that reads of `bufSize` bytes take for the first `n` of them. -/
def readAhead (bufSize n : ℕ) : ℕ := (n + bufSize - 1) / bufSize * bufSize

namespace Stdin

/-- The steps of the loop whose standard input is a pipe. -/
def pipeNext (bufSize : ℕ) (s : Stdin) : StdinLabel → Option Stdin
  | .arrive chunk => s.next bufSize (.arrive chunk)
  | .close => if s.eof then none else s.next bufSize .close
  | .idle e =>
    if s.pc = .poll ∧ s.kernel = [] ∧ e.succeeds ∧ e.pollsEmpty s.eof then
      some (s.goOn (mainIter s.cli e))
    else none
  | .ready => if s.kernel = [] then none else s.next bufSize .ready
  | .refill k => if k = min bufSize s.kernel.length then s.next bufSize (.refill k) else none
  | .byte e => if e.succeeds then s.next bufSize (.byte e) else none
  | .endOfInput e => if e.succeeds then s.next bufSize (.endOfInput e) else none

/-- The lines `fgets` would give of what has not been executed. -/
def pending (s : Stdin) : List (List UInt8) := fgetsLines s.acc (s.stdio ++ s.kernel)

/-- Among the lines left is an `exit` or `quit`, and when `poll` is called before `fgets` reads it
the pipe still holds a byte; a first line that is being read needs no call. -/
def QuitAhead (bufSize : ℕ) (s : Stdin) : Prop :=
  ∃ before p after, s.pending = before ++ p :: after ∧ parseLine p = .quit ∧
    (s.pc = .fgets ∧ before = [] ∨
      readAhead bufSize (before.flatten.length - s.acc.length - s.stdio.length) < s.kernel.length)

end Stdin

def pipeLts (bufSize : ℕ) : Lts Stdin StdinLabel where
  init s := s = ⟨⟨[], 0, [], []⟩, .poll, [], [], [], false, [], []⟩
  step s l t := s.pipeNext bufSize l = some t

end EltexSystems
