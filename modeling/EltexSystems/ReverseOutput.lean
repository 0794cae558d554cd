import EltexSystems.Lib.CString

/-!
# The reversed array of `massives/massives.c`

`reverse_output` swaps a pair of elements at the moment it prints the first of them.  An index
outside the array has no result.  The stack is taken to have room for the array, and the prompts are
left out.
-/

namespace EltexSystems

open CStr

/-- The array of `reverse_output`, and the numbers printed. -/
structure Reversal where
  array : List ℤ
  printed : List ℤ

namespace Reversal

/-- `if (N-i-1 > i)`: the swap. -/
def swap (N i : ℕ) (buf : ℤ) (array : List ℤ) : Option (List ℤ) :=
  if N - i - 1 > i then
    array[i]?.map fun x => (array.set (N - i - 1) x).set i buf
  else some array

/-- The body of the loop. -/
def body (N : ℕ) (s : Reversal) (i : ℕ) : Option Reversal :=
  s.array[N - i - 1]?.bind fun buf => (swap N i buf s.array).bind fun array =>
    array[i]?.map fun x => ⟨array, s.printed ++ [x]⟩

/-- `for (int i = 0; i < N; i++)`. -/
def loop (array : List ℤ) : Option Reversal :=
  (List.range array.length).foldlM (body array.length) ⟨array, []⟩

/-- The numbers printed, each with a blank behind it. -/
def text (printed : List ℤ) : List UInt8 :=
  printed.flatMap (fun x => decimalInt x ++ [32]) ++ [10]

/-- The array filled with the first numbers typed. -/
def typed (N : ℤ) (input : ℕ → ℤ) : List ℤ := (List.range N.toNat).map input

end Reversal

/-- What comes of `reverse_output`. -/
inductive ReverseOutput
  | notPositive
  | done (array : List ℤ) (line : List UInt8)
  deriving DecidableEq

def reverseOutput (N : ℤ) (input : ℕ → ℤ) : Option ReverseOutput :=
  if N ≤ 0 then some .notPositive
  else (Reversal.loop (Reversal.typed N input)).map fun s => .done s.array (Reversal.text s.printed)

end EltexSystems
