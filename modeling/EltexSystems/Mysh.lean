import EltexSystems.Lib.Lines
import EltexSystems.Lib.Strtok

/-!
# The pipe shell of `channels/interpreter.c`

One round of `mysh`: the line is read into the array, cut at its bars by `strtok`, and the commands
are cut at their blanks, in a child of its own each where there are two.  `pipe`, `fork` and `dup2`
are taken to succeed, and a child whose `execvp` fails to leave standard input where it is; a
command is executed when `execvp` is called with a name.
-/

namespace EltexSystems.Mysh

open CStr Strtok

def MAX_LINE : ℕ := 256

def MAX_ARGS : ℕ := 64

/-- An entry of `args`. -/
inductive Slot
  | unset
  | null
  | ptr (p : ℕ)
  deriving DecidableEq

/-- `args[i] = v`. -/
def store (args : List Slot) (i : ℕ) (v : Slot) : Option (List Slot) :=
  if i < args.length then some (args.set i v) else none

/-- The loop of `parse_cmd` and the store behind it, with the rounds left. -/
def fillArgs : ℕ → ℕ → Option ℕ → List Slot → Tokenizer → Option (List Slot × Tokenizer)
  | 0, i, _, args, m => (store args i .null).map fun args => (args, m)
  | _ + 1, i, none, args, m => (store args i .null).map fun args => (args, m)
  | n + 1, i, some token, args, m =>
    (store args i (.ptr token)).bind fun args =>
      fillArgs n (i + 1) (strtok (ascii " ") none m).1 args (strtok (ascii " ") none m).2

def parseCmd (cmd : ℕ) (m : Tokenizer) : Option (List Slot × Tokenizer) :=
  fillArgs (MAX_ARGS - 1) 0 (strtok (ascii " ") (some cmd) m).1
    (List.replicate MAX_ARGS .unset) (strtok (ascii " ") (some cmd) m).2

/-- The argument vector `execvp` reads: the strings up to the first `NULL` of the array. -/
def readArgv (m : Tokenizer) : List Slot → Option (List (List UInt8))
  | .ptr p :: args => (readArgv m args).map (m.string p :: ·)
  | .null :: _ => some []
  | _ => none

inductive Stream
  | inherited
  | pipe (k : ℕ)
  deriving DecidableEq

/-- A program that is executed, and where its standard input and output go. -/
structure Exec where
  argv : List (List UInt8)
  input : Stream
  output : Stream
  deriving DecidableEq

/-- A child that parses its command and executes it. -/
def child (m : Tokenizer) (cmd : ℕ) (input output : Stream) : Option (List Exec) :=
  (parseCmd cmd m).bind fun r => (readArgv r.2 r.1).map fun argv =>
    if argv = [] then [] else [⟨argv, input, output⟩]

/-- What is executed for the line in the array. -/
def runLine (line : List UInt8) (save : ℕ) : Option (List Exec) :=
  let first := strtok (ascii "|") (some 0) ⟨line, save⟩
  let second := strtok (ascii "|") none first.2
  match second.1 with
  | some cmd2 =>
    first.1.bind fun cmd1 => (child second.2 cmd1 .inherited (.pipe 0)).bind fun a =>
      (child second.2 cmd2 (.pipe 0) .inherited).map (a ++ ·)
  | none => child second.2 0 .inherited .inherited

/-- `fgets`, over what was in the array, and the newline cut off. -/
def readLine (old stream : List UInt8) : List UInt8 :=
  let got := Lines.fgets 10 (MAX_LINE - 1) stream
  let line := got ++ 0 :: old.drop (got.length + 1)
  line.set (strcspn (cstr line) (ascii "\n")) 0

/-- What comes of a round. -/
inductive Round
  | stop
  | ran (cmds : List Exec)
  deriving DecidableEq

/-- A round of the main loop, with what the array and `strtok` keep from before. -/
def round (old : List UInt8) (save : ℕ) (stream : List UInt8) : Option Round :=
  if stream = [] then some .stop
  else if cstr (readLine old stream) = ascii "exit" then some .stop
  else (runLine (readLine old stream) save).map .ran

/-- The segments of a line. -/
def segments (line : List UInt8) : List (List UInt8) := line.splitOn 124

/-- The words of a segment. -/
def words (seg : List UInt8) : List (List UInt8) := (seg.splitOn 32).filter (!·.isEmpty)

def nonblank (seg : List UInt8) : Bool := seg.any (· != 32)

/-- The commands of a line. -/
def commands (line : List UInt8) : List (List (List UInt8)) :=
  ((segments line).filter nonblank).map words

/-- Commands executed side by side, each one's output the input of the next. -/
def wire (argvs : List (List (List UInt8))) : List Exec :=
  argvs.mapIdx fun i argv =>
    ⟨argv, if i = 0 then .inherited else .pipe (i - 1),
      if i + 1 = argvs.length then .inherited else .pipe i⟩

/-- A line of one or no command does not begin with a bar, and of a line of more the first two that
are not empty are not blank. -/
structure Regular (line : List UInt8) : Prop where
  front : line.head? = some 124 → 2 ≤ ((segments line).filter (!·.isEmpty)).length
  blank : 2 ≤ ((segments line).filter (!·.isEmpty)).length →
    ∀ seg ∈ ((segments line).filter (!·.isEmpty)).take 2, nonblank seg = true

end EltexSystems.Mysh
