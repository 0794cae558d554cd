import EltexSystems.Lib.Bytes
import EltexSystems.Lib.CString

/-!
# Bounds-checked memory

The loads and stores of a list of bytes with every index checked against the array's size: `none` is
an access outside the array.  Inside it each is the unchecked one (`load8_eq` to `string_eq`), and
no store changes the size of an array.
-/

namespace CheckedMem

open CStr

def load8 (m : List UInt8) (i : ℕ) : Option UInt8 := m[i]?

def load16 (m : List UInt8) (i : ℕ) : Option UInt16 := do
  let a ← load8 m i
  let b ← load8 m (i + 1)
  return Mem.host16 a b

def load32 (m : List UInt8) (i : ℕ) : Option UInt32 := do
  let a ← load8 m i
  let b ← load8 m (i + 1)
  let c ← load8 m (i + 2)
  let d ← load8 m (i + 3)
  return Mem.host32 a b c d

def store8 (m : List UInt8) (i : ℕ) (v : UInt8) : Option (List UInt8) :=
  if i < m.length then some (Mem.store8 m i v) else none

def store16 (m : List UInt8) (i : ℕ) (v : UInt16) : Option (List UInt8) := do
  let m ← store8 m i v.toUInt8
  store8 m (i + 1) (v >>> 8).toUInt8

def store32 (m : List UInt8) (i : ℕ) (v : UInt32) : Option (List UInt8) := do
  let m ← store8 m i v.toUInt8
  let m ← store8 m (i + 1) (v >>> 8).toUInt8
  let m ← store8 m (i + 2) (v >>> 16).toUInt8
  store8 m (i + 3) (v >>> 24).toUInt8

def memset (m : List UInt8) (v : UInt8) (n : ℕ) : Option (List UInt8) :=
  if n ≤ m.length then some (Mem.memset m v n) else none

/-- `memcpy` of the `n` bytes from offset `j` of `src` to offset `i`. -/
def memcpy (m : List UInt8) (i : ℕ) (src : List UInt8) (j n : ℕ) : Option (List UInt8) :=
  if i + n ≤ m.length ∧ j + n ≤ src.length then some (Mem.memcpy m i (src.drop j) n) else none

/-- The `n` bytes from offset `i`, all of them read. -/
def slice (m : List UInt8) (i n : ℕ) : Option (List UInt8) :=
  if i + n ≤ m.length then some ((m.drop i).take n) else none

/-- The C string at the start of an array, read up to its `NUL`. -/
def string : List UInt8 → Option (List UInt8)
  | [] => none
  | b :: m => if b = 0 then some [] else (string m).map (b :: ·)

/-- An access that succeeds, and what follows it. -/
theorem bind_of_eq.{u} {α β : Type u} {x : Option α} {a : α} {f : α → Option β} {r : Option β}
    (hx : x = some a) (hf : f a = r) : (x >>= f) = r := by
  rw [hx]
  exact hf

variable {m : List UInt8} {i n : ℕ}

theorem load8_eq (h : i < m.length) : load8 m i = some (Mem.load8 m i) := by
  rw [load8, Mem.load8, List.getD_eq_getElem?_getD, List.getElem?_eq_getElem h]
  rfl

theorem load16_eq (h : i + 1 < m.length) : load16 m i = some (Mem.load16 m i) := by
  rw [load16, load8_eq (by omega), load8_eq h]
  rfl

theorem load32_eq (h : i + 3 < m.length) : load32 m i = some (Mem.load32 m i) := by
  rw [load32, load8_eq (by omega), load8_eq (by omega), load8_eq (by omega), load8_eq h]
  rfl

theorem store8_eq (v : UInt8) (h : i < m.length) : store8 m i v = some (Mem.store8 m i v) :=
  if_pos h

theorem store16_eq (v : UInt16) (h : i + 1 < m.length) :
    store16 m i v = some (Mem.store16 m i v) := by
  rw [store16, store8_eq _ (by omega)]
  exact store8_eq _ (by rwa [Mem.length_store8])

theorem store32_eq (v : UInt32) (h : i + 3 < m.length) :
    store32 m i v = some (Mem.store32 m i v) := by
  rw [store32, store8_eq _ (by omega), Option.bind_eq_bind, Option.bind_some,
    store8_eq _ (by rw [Mem.length_store8]; omega), Option.bind_some,
    store8_eq _ (by rw [Mem.length_store8, Mem.length_store8]; omega)]
  exact store8_eq _ (by rwa [Mem.length_store8, Mem.length_store8, Mem.length_store8])

theorem memset_eq (v : UInt8) (h : n ≤ m.length) : memset m v n = some (Mem.memset m v n) :=
  if_pos h

theorem memcpy_eq {src : List UInt8} {j : ℕ} (h : i + n ≤ m.length) (hs : j + n ≤ src.length) :
    memcpy m i src j n = some (Mem.memcpy m i (src.drop j) n) := if_pos ⟨h, hs⟩

theorem slice_eq (h : i + n ≤ m.length) : slice m i n = some ((m.drop i).take n) := if_pos h

/-- Reading a string stays inside an array that holds a `NUL`. -/
theorem string_eq : ∀ {m : List UInt8}, (0 : UInt8) ∈ m → string m = some (cstr m)
  | b :: m, h => by
    rw [string]
    split_ifs with hb
    · rw [hb]
      rfl
    · have hm : (0 : UInt8) ∈ m := (List.mem_cons.mp h).resolve_left (Ne.symm hb)
      have hcons : cstr (b :: m) = b :: cstr m := List.takeWhile_cons_of_pos (by simpa using hb)
      rw [string_eq hm, hcons]
      rfl

end CheckedMem
