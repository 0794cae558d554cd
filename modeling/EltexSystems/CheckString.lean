import EltexSystems.Lib.CheckedMem
import EltexSystems.Lib.Lines

/-!
# The search of `pointers/pointers_task4.c`

`check_string` over the two buffers of `main`, with every read checked against their size, and the
lines `fgets` stores there.
-/

namespace EltexSystems

open CStr CheckedMem

/-- What `check_string` prints, and whether it returns the pattern. -/
structure Search where
  printed : List UInt8
  found : Bool

namespace Search

def string_size : ℕ := 100

/-- Some output before what is left to do. -/
def behind (out : List UInt8) (s : Search) : Search := { s with printed := out ++ s.printed }

/-- The inner loop from `j` on, with the rounds left. -/
def inner (input_string substring : List UInt8) (i : ℕ) : ℕ → ℕ → Option Search
  | 0, _ => some ⟨[], false⟩
  | n + 1, j =>
    (load8 input_string (i + j)).bind fun a => (load8 substring j).bind fun b =>
      if a = b then
        (load8 substring (j + 1)).bind fun c =>
          if c = 10 then some ⟨b :: ascii "\nTask Complete\n", true⟩
          else (inner input_string substring i n (j + 1)).map (behind [b])
      else some ⟨[], false⟩

/-- The outer loop from `i` on, with the rounds left. -/
def outer (input_string substring : List UInt8) : ℕ → ℕ → Option Search
  | 0, _ => some ⟨ascii "\nTask failed\n", false⟩
  | n + 1, i =>
    (load8 input_string i).bind fun a => (load8 substring 0).bind fun b =>
      if a = b then
        (inner input_string substring i (string_size - i) 0).bind fun s =>
          if s.found then some s
          else (outer input_string substring n (i + 1)).map (behind s.printed)
      else outer input_string substring n (i + 1)

/-- A line without `NUL` that `fgets` takes into a buffer of the program. -/
def Stored (line : List UInt8) : Prop :=
  0 ∉ line ∧ ∃ stream, Lines.fgets 10 (string_size - 1) stream = line

/-- The zero-filled buffer with a line in it. -/
def buffer (line : List UInt8) : List UInt8 :=
  line ++ List.replicate (string_size - line.length) 0

/-- The line without its newline. -/
def lineText (line : List UInt8) : List UInt8 := line.takeWhile (· ≠ 10)

end Search

def checkString (input_string substring : List UInt8) : Option Search :=
  Search.outer input_string substring Search.string_size 0

end EltexSystems
