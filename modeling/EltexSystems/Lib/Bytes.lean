import Mathlib.Data.Nat.Bitwise
import Mathlib.Data.List.Basic

/-!
# Memory as a list of bytes

Loads and stores of a little-endian host over a list of bytes, the 16-bit byte swap between host
and network order, and the network order reading of a pair of bytes.  What is stored in host order
after a swap lies in memory in network order (`be16_htons`), and loads undo stores (`host16_le16`,
`host32_le32`).
-/

namespace Mem

/-- The bytes of a 16-bit store, low byte first. -/
def le16 (v : UInt16) : List UInt8 := [v.toUInt8, (v >>> 8).toUInt8]

/-- The bytes of a 32-bit store, low byte first. -/
def le32 (v : UInt32) : List UInt8 :=
  [v.toUInt8, (v >>> 8).toUInt8, (v >>> 16).toUInt8, (v >>> 24).toUInt8]

/-- A 16-bit host value from its two bytes in memory. -/
def host16 (a b : UInt8) : UInt16 := a.toUInt16 ||| (b.toUInt16 <<< 8)

/-- A 32-bit host value from its four bytes in memory. -/
def host32 (a b c d : UInt8) : UInt32 :=
  a.toUInt32 ||| (b.toUInt32 <<< 8) ||| (c.toUInt32 <<< 16) ||| (d.toUInt32 <<< 24)

/-- A pair of bytes read in network order. -/
def be16 (a b : UInt8) : UInt16 := (a.toUInt16 <<< 8) ||| b.toUInt16

/-- `htons` of a little-endian host: the two bytes change places. -/
def htons (v : UInt16) : UInt16 := (v <<< 8) ||| (v >>> 8)

/-- `ntohs`, the same swap. -/
def ntohs (v : UInt16) : UInt16 := htons v

def load8 (m : List UInt8) (i : ℕ) : UInt8 := m.getD i 0

def load16 (m : List UInt8) (i : ℕ) : UInt16 := host16 (load8 m i) (load8 m (i + 1))

def load32 (m : List UInt8) (i : ℕ) : UInt32 :=
  host32 (load8 m i) (load8 m (i + 1)) (load8 m (i + 2)) (load8 m (i + 3))

def store8 (m : List UInt8) (i : ℕ) (v : UInt8) : List UInt8 := m.set i v

def store16 (m : List UInt8) (i : ℕ) (v : UInt16) : List UInt8 :=
  store8 (store8 m i v.toUInt8) (i + 1) (v >>> 8).toUInt8

def store32 (m : List UInt8) (i : ℕ) (v : UInt32) : List UInt8 :=
  store8 (store8 (store8 (store8 m i v.toUInt8) (i + 1) (v >>> 8).toUInt8)
    (i + 2) (v >>> 16).toUInt8) (i + 3) (v >>> 24).toUInt8

def memset (m : List UInt8) (v : UInt8) (n : ℕ) : List UInt8 := List.replicate n v ++ m.drop n

/-- `memcpy` of the first `n` bytes of `src` to offset `i`. -/
def memcpy (m : List UInt8) (i : ℕ) (src : List UInt8) (n : ℕ) : List UInt8 :=
  m.take i ++ src.take n ++ m.drop (i + n)

theorem or_shiftLeft {a k : ℕ} (ha : a < 2 ^ k) (b : ℕ) : a ||| b <<< k = 2 ^ k * b + a := by
  rw [Nat.or_comm, ← Nat.shiftLeft_add_eq_or_of_lt ha, Nat.shiftLeft_eq, Nat.mul_comm]

theorem shiftLeft_or {b k : ℕ} (hb : b < 2 ^ k) (a : ℕ) : a <<< k ||| b = 2 ^ k * a + b := by
  rw [Nat.or_comm, or_shiftLeft hb]

theorem toNat_be16 (a b : UInt8) : (be16 a b).toNat = 256 * a.toNat + b.toNat := by
  have ha := a.toNat_lt
  have hb := b.toNat_lt
  have hs : (a.toUInt16 <<< 8).toNat = a.toNat <<< 8 := by
    simp [Nat.shiftLeft_eq]
    omega
  rw [be16, UInt16.toNat_or, hs, UInt8.toNat_toUInt16, shiftLeft_or hb]
  rfl

theorem toNat_host16 (a b : UInt8) : (host16 a b).toNat = 256 * b.toNat + a.toNat := by
  rw [← toNat_be16, host16, be16, UInt16.toNat_or, UInt16.toNat_or, Nat.or_comm]

theorem toNat_htons (v : UInt16) : (htons v).toNat = 256 * (v.toNat % 256) + v.toNat / 256 := by
  have hv := v.toNat_lt
  have hs : (v <<< 8).toNat = (v.toNat % 256) <<< 8 := by
    simp [Nat.shiftLeft_eq]
    omega
  have hr : (v >>> 8).toNat = v.toNat / 256 := by simp [Nat.shiftRight_eq_div_pow]
  rw [htons, UInt16.toNat_or, hs, hr, shiftLeft_or (by omega)]
  rfl

@[simp] theorem htons_htons (v : UInt16) : htons (htons v) = v := by
  have hv := v.toNat_lt
  apply UInt16.toNat_inj.mp
  rw [toNat_htons, toNat_htons]
  omega

theorem toNat_lo (v : UInt16) : v.toUInt8.toNat = v.toNat % 256 := by simp

theorem toNat_hi (v : UInt16) : (v >>> 8).toUInt8.toNat = v.toNat / 256 := by
  have hv := v.toNat_lt
  simp [Nat.shiftRight_eq_div_pow]
  omega

theorem host16_le16 (v : UInt16) : host16 v.toUInt8 (v >>> 8).toUInt8 = v := by
  apply UInt16.toNat_inj.mp
  rw [toNat_host16, toNat_hi, toNat_lo]
  omega

/-- A store of a swapped value lies in memory in network order. -/
theorem be16_htons (v : UInt16) : be16 (htons v).toUInt8 (htons v >>> 8).toUInt8 = v := by
  have hv := v.toNat_lt
  have hlo : (htons v).toNat % 256 = v.toNat / 256 := by
    rw [toNat_htons]
    omega
  have hhi : (htons v).toNat / 256 = v.toNat % 256 := by
    rw [toNat_htons]
    omega
  apply UInt16.toNat_inj.mp
  rw [toNat_be16, toNat_hi, toNat_lo, hlo, hhi]
  omega

theorem toNat_host32 (a b c d : UInt8) : (host32 a b c d).toNat
    = 2 ^ 24 * d.toNat + (2 ^ 16 * c.toNat + (2 ^ 8 * b.toNat + a.toNat)) := by
  have ha := a.toNat_lt
  have hb := b.toNat_lt
  have hc := c.toNat_lt
  have hd := d.toNat_lt
  have hsb : (b.toUInt32 <<< 8).toNat = b.toNat <<< 8 := by
    simp [Nat.shiftLeft_eq]
    omega
  have hsc : (c.toUInt32 <<< 16).toNat = c.toNat <<< 16 := by
    simp [Nat.shiftLeft_eq]
    omega
  have hsd : (d.toUInt32 <<< 24).toNat = d.toNat <<< 24 := by
    simp [Nat.shiftLeft_eq]
    omega
  simp only [host32, UInt32.toNat_or, hsb, hsc, hsd, UInt8.toNat_toUInt32]
  rw [or_shiftLeft ha, or_shiftLeft (by omega : _ < 2 ^ 16), or_shiftLeft (by omega)]

theorem host32_le32 (v : UInt32) : host32 v.toUInt8 (v >>> 8).toUInt8 (v >>> 16).toUInt8
    (v >>> 24).toUInt8 = v := by
  have hv := v.toNat_lt
  apply UInt32.toNat_inj.mp
  rw [toNat_host32]
  simp [Nat.shiftRight_eq_div_pow]
  omega

section Sizes

variable {m : List UInt8} {i n : ℕ}

@[simp] theorem length_store8 (m : List UInt8) (i : ℕ) (v : UInt8) :
    (store8 m i v).length = m.length := List.length_set

@[simp] theorem length_store16 (m : List UInt8) (i : ℕ) (v : UInt16) :
    (store16 m i v).length = m.length := by
  rw [store16, length_store8, length_store8]

@[simp] theorem length_store32 (m : List UInt8) (i : ℕ) (v : UInt32) :
    (store32 m i v).length = m.length := by
  rw [store32, length_store8, length_store8, length_store8, length_store8]

theorem length_memset (v : UInt8) (h : n ≤ m.length) : (memset m v n).length = m.length := by
  rw [memset, List.length_append, List.length_replicate, List.length_drop]
  omega

theorem length_memcpy {src : List UInt8} (h : i + n ≤ m.length) (hs : n ≤ src.length) :
    (memcpy m i src n).length = m.length := by
  simp only [memcpy, List.length_append, List.length_take, List.length_drop]
  omega

end Sizes

theorem store8_append {p : List UInt8} {n : ℕ} (hp : p.length = n) (l : List UInt8) (i : ℕ)
    (v : UInt8) : store8 (p ++ l) (n + i) v = p ++ store8 l i v := by
  subst hp
  rw [store8, store8, List.set_append_right _ _ (by omega), Nat.add_sub_cancel_left]

/-- A store past a prefix leaves the prefix alone. -/
theorem store16_append {p : List UInt8} {n : ℕ} (hp : p.length = n) (l : List UInt8) (i : ℕ)
    (v : UInt16) : store16 (p ++ l) (n + i) v = p ++ store16 l i v := by
  rw [store16, store8_append hp, Nat.add_assoc, store8_append hp, store16]

theorem memcpy_append {p old : List UInt8} {n k : ℕ} (hp : p.length = n) (hold : old.length = k)
    (m src : List UInt8) : memcpy (p ++ (old ++ m)) n src k = p ++ (src.take k ++ m) := by
  subst hp hold
  have hd : (p ++ (old ++ m)).drop (p.length + old.length) = m := by
    rw [← List.append_assoc]
    exact List.drop_left' (by simp)
  rw [memcpy, List.take_left, hd, List.append_assoc]

end Mem
