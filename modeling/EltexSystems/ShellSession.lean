import EltexSystems.Mysh

/-!
# Sessions of the two shells

The main loops of `processes/task3.c` and `channels/interpreter.c` over a finite standard input,
round by round.  What the array of the line and `strtok` keep from one round to the next is left
open.  Only the shell moves the input, as where it is a pipe or a terminal and no command reads it:
in a file, the `exit(1)` of a child whose `execvp` fails would move it back over what is buffered.
`fork`, `pipe` and `dup2` are taken to succeed, and what the commands do is left out.
-/

namespace EltexSystems

open CStr Strtok

/-- A round of `processes/task3.c`: its parsing is that of `parse_cmd`, on the whole line. -/
def Task3.round (old : List UInt8) (save : ℕ) (stream : List UInt8) : Option Mysh.Round :=
  if stream = [] then some .stop
  else if cstr (Mysh.readLine old stream) = ascii "exit" then some .stop
  else (Mysh.child ⟨Mysh.readLine old stream, save⟩ 0 .inherited .inherited).map .ran

/-- The rounds of a main loop until it stops, with the array and `strtok`'s pointer as the `i`-th
round finds them. -/
def shellLoop (round : List UInt8 → ℕ → List UInt8 → Option Mysh.Round)
    (keep : ℕ → List UInt8 × ℕ) : ℕ → ℕ → List UInt8 → Option (List (List Mysh.Exec))
  | 0, _, _ => none
  | fuel + 1, i, stream =>
    (round (keep i).1 (keep i).2 stream).bind fun
      | .stop => some []
      | .ran cmds =>
        (shellLoop round keep fuel (i + 1)
          (stream.drop (Lines.fgets 10 (Mysh.MAX_LINE - 1) stream).length)).map (cmds :: ·)

/-- The text of a piece of the input: what is before the first newline or zero byte. -/
def pieceText (piece : List UInt8) : List UInt8 := piece.takeWhile fun b => b != 0 && b != 10

/-- The texts a shell acts on: those of the pieces before the first that is `exit`. -/
def shellTexts (stream : List UInt8) : List (List UInt8) :=
  ((Lines.pieces 10 (Mysh.MAX_LINE - 1) stream).map pieceText).takeWhile (· ≠ ascii "exit")

/-- A command of up to 63 words, or nothing. -/
def execOf (text : List UInt8) (input output : Mysh.Stream) : List Mysh.Exec :=
  if Mysh.words text = [] then [] else [⟨(Mysh.words text).take 63, input, output⟩]

/-- What `channels/interpreter.c` executes for a text: the first two of its commands, or where there
is one at most, the text up to the bar behind it. -/
def lineExecs (text : List UInt8) : List Mysh.Exec :=
  match tokens ((ascii "|").contains ·) text with
  | a :: b :: _ => execOf a .inherited (.pipe 0) ++ execOf b (.pipe 0) .inherited
  | _ =>
    execOf (text.takeWhile ((ascii "|").contains ·)
      ++ (text.dropWhile ((ascii "|").contains ·)).takeWhile (!(ascii "|").contains ·))
      .inherited .inherited

end EltexSystems
