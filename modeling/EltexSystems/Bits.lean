import EltexSystems.Lib.Binary
import EltexSystems.Lib.Bytes
import EltexSystems.Lib.CString

/-!
# The bits of `bits_operations/bits.c`

The functions of the menu that print an `int`'s bits and replace its third byte, with the signed
shifts of gcc, and beside the last one the program of `pointers/pointers_task1.c`, which stores the
byte in memory.  An output is its lines of digits; the headings between them are left out.
-/

namespace EltexSystems

open CStr Binary

/-- `printf("%d", x)`. -/
def printInt (x : BitVec 32) : List UInt8 := decimalInt x.toInt

/-- `while (bit_counter >= 0)`: the digits from the given number of low bits, the highest first. -/
def straight (x : BitVec 32) : ℕ → List UInt8
  | 0 => []
  | n + 1 => printInt (masked x n) ++ straight x n

/-- `while (podopitniy)`: the digits from the lowest on, if the loop ends. -/
def reversed : ℕ → BitVec 32 → Option (List UInt8)
  | 0, x => if x = 0 then some [] else none
  | fuel + 1, x =>
    if x = 0 then some []
    else (reversed fuel (x.sshiftRight 1)).map (printInt (x &&& 1) ++ ·)

/-- What `positive_to_bits` prints. -/
structure PositiveLines where
  reversed : List UInt8
  straight : List UInt8

def positiveToBits (fuel : ℕ) (input : BitVec 32) : Option PositiveLines :=
  (reversed fuel input).map fun digits => ⟨digits, straight input 32⟩

/-- The subtraction of one and the inversion, with the rounds left and the bit reached. -/
def toDirect : ℕ → ℕ → BitVec 32 → BitVec 32
  | 0, _, x => x
  | n + 1, shift, x =>
    if masked x shift = 0 then toDirect n (shift + 1) (x ||| 1#32 <<< shift)
    else ~~~(x &&& ~~~(1#32 <<< shift))

/-- What `negative_to_bits` prints. -/
structure NegativeLines where
  number : List UInt8
  complement : List UInt8
  direct : Option (List UInt8)
  deriving DecidableEq

def negativeToBits (input : BitVec 32) : NegativeLines where
  number := printInt input
  complement := straight input 32
  direct := if input.toInt < 0 then some (straight (toDirect 31 0 input) 32) else none

/-- The number `change_third_byte` prints. -/
def changeThirdByte (input input_byte : BitVec 32) : BitVec 32 :=
  (input &&& ~~~(0xFF#32 <<< 16)) ||| input_byte <<< 16

/-- The number the other program prints: the byte is stored at index 2. -/
def pointersTask1 (a input : BitVec 32) : BitVec 32 :=
  let ap := Mem.le32 (UInt32.ofBitVec a)
  (Mem.load32 (Mem.store8 ap 2 (UInt8.ofNat input.toNat)) 0).toBitVec

/-- The sign-magnitude code of a negative number. -/
def DirectCode (x : BitVec 32) (line : List UInt8) : Prop :=
  ∃ digits, line = 49 :: digits ∧ Denotes 31 x.toInt.natAbs digits

/-- Two numbers that differ in the third byte at most. -/
def SameButThird (x y : BitVec 32) : Prop :=
  ∀ k < 32, k < 16 ∨ 24 ≤ k → x.getLsbD k = y.getLsbD k

/-- The bits that a value too large for a byte would set are set already. -/
def Covered (a input : BitVec 32) : Prop :=
  ∀ k < 8, input.getLsbD (8 + k) = true → a.getLsbD (24 + k) = true

end EltexSystems
