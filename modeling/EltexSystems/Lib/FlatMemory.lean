import Mathlib.Data.List.Basic
import Mathlib.Data.UInt
import Mathlib.Tactic.SplitIfs

/-!
# Memory by address

Memory as a function from addresses: writes of a row of bytes, copies of a block, the bytes of a
block, the C string at an address and the pointer there.  A write leaves what lies below it
(`write_of_lt`) and behind it (`write_of_ge`), a string is found in the bytes up to its zero
(`IsStr`), and a pointer that was stored is loaded again (`loadPtr_write`).
-/

namespace FlatMem

variable {mem mem' : ℕ → UInt8} {p a : ℕ} {bytes : List UInt8}

/-- A row of bytes written from an address on. -/
def write (mem : ℕ → UInt8) (p : ℕ) (bytes : List UInt8) : ℕ → UInt8 := fun a =>
  if p ≤ a then (bytes[a - p]?).getD (mem a) else mem a

/-- `n` bytes copied from one address to another. -/
def copy (mem : ℕ → UInt8) (dst src n : ℕ) : ℕ → UInt8 := fun a =>
  if dst ≤ a ∧ a < dst + n then mem (src + (a - dst)) else mem a

/-- The `n` bytes from an address on. -/
def block (mem : ℕ → UInt8) (p n : ℕ) : List UInt8 := (List.range n).map fun i => mem (p + i)

/-- The C string at an address. -/
structure IsStr (mem : ℕ → UInt8) (p : ℕ) (w : List UInt8) : Prop where
  chars : ∀ i b, w[i]? = some b → mem (p + i) = b ∧ b ≠ 0
  nul : mem (p + w.length) = 0

/-- The `k` low bytes of a number, the lowest first. -/
def leBytes : ℕ → ℕ → List UInt8
  | 0, _ => []
  | k + 1, n => UInt8.ofNat (n % 256) :: leBytes k (n / 256)

def leValue : List UInt8 → ℕ
  | [] => 0
  | b :: bs => b.toNat + 256 * leValue bs

/-- The bytes of a pointer of 64 bits. -/
def ptrBytes (v : Option ℕ) : List UInt8 := leBytes 8 (v.getD 0)

/-- The pointer at an address. -/
def loadPtr (mem : ℕ → UInt8) (p : ℕ) : Option ℕ :=
  if leValue (block mem p 8) = 0 then none else some (leValue (block mem p 8))

/-- A pointer that 64 bits hold. -/
def IsPtr (v : Option ℕ) : Prop := ∀ n, v = some n → 0 < n ∧ n < 2 ^ 64

theorem write_of_lt (h : a < p) : write mem p bytes a = mem a := if_neg (Nat.not_le_of_lt h)

theorem write_at {i : ℕ} {b : UInt8} (h : bytes[i]? = some b) : write mem p bytes (p + i) = b := by
  unfold write
  rw [if_pos (Nat.le_add_right p i), Nat.add_sub_cancel_left, h]
  rfl

theorem block_congr {n : ℕ} (h : ∀ i < n, mem' (p + i) = mem (p + i)) :
    block mem' p n = block mem p n :=
  List.map_congr_left fun i hi => h i (List.mem_range.mp hi)

theorem block_copy (mem : ℕ → UInt8) (dst src n : ℕ) {k m : ℕ} (h : k + m ≤ n) :
    block (copy mem dst src n) (dst + k) m = block mem (src + k) m := by
  refine List.map_congr_left fun i hi => ?_
  have hi := List.mem_range.mp hi
  unfold copy
  rw [if_pos (by omega)]
  congr 1
  omega

/-- A block outside the one copied to keeps its bytes. -/
theorem block_copy_of_disjoint (mem : ℕ → UInt8) {dst n p m : ℕ} (src : ℕ)
    (h : p + m ≤ dst ∨ dst + n ≤ p) : block (copy mem dst src n) p m = block mem p m := by
  refine block_congr fun i hi => if_neg ?_
  omega

theorem write_of_ge (h : p + bytes.length ≤ a) : write mem p bytes a = mem a := by
  unfold write
  split_ifs
  · rw [List.getElem?_eq_none (by omega)]
    rfl
  · rfl

theorem block_write_of_disjoint {q n : ℕ} (h : q + n ≤ p ∨ p + bytes.length ≤ q) :
    block (write mem p bytes) q n = block mem q n := by
  refine block_congr fun i hi => ?_
  rcases h with h | h
  · exact write_of_lt (by omega)
  · exact write_of_ge (by omega)

theorem block_write (mem : ℕ → UInt8) (p : ℕ) (bytes : List UInt8) :
    block (write mem p bytes) p bytes.length = bytes := by
  refine List.ext_getElem (by simp [block]) fun i hi hi' => ?_
  simp only [block, List.getElem_map, List.getElem_range]
  exact write_at (List.getElem?_eq_getElem hi')

section Pointers

theorem length_leBytes (k : ℕ) : ∀ n, (leBytes k n).length = k := by
  induction k with
  | zero => exact fun _ => rfl
  | succ k ih => exact fun n => congrArg Nat.succ (ih _)

theorem leValue_leBytes (k : ℕ) : ∀ n, leValue (leBytes k n) = n % 256 ^ k := by
  induction k with
  | zero => exact fun n => (Nat.mod_one n).symm
  | succ k ih =>
    intro n
    have hbyte : (UInt8.ofNat (n % 256)).toNat = n % 256 := Nat.mod_mod n 256
    rw [leBytes, leValue, ih, hbyte, Nat.pow_succ' (m := 256), Nat.mod_mul]

theorem leValue_lt (bs : List UInt8) : leValue bs < 256 ^ bs.length := by
  induction bs with
  | nil => exact Nat.one_pos
  | cons b bs ih =>
    have hb := b.toNat_lt
    rw [leValue, List.length_cons, Nat.pow_succ']
    omega

theorem length_ptrBytes (v : Option ℕ) : (ptrBytes v).length = 8 := length_leBytes 8 _

theorem isPtr_none : IsPtr none := fun _ hn => nomatch hn

theorem isPtr_loadPtr (mem : ℕ → UInt8) (p : ℕ) : IsPtr (loadPtr mem p) := by
  rintro n hn
  unfold loadPtr at hn
  split_ifs at hn with h
  obtain rfl := Option.some.inj hn
  have hlt := leValue_lt (block mem p 8)
  rw [block, List.length_map, List.length_range] at hlt
  exact ⟨Nat.pos_of_ne_zero h, hlt.trans_le (by decide)⟩

theorem loadPtr_congr (h : ∀ i < 8, mem' (p + i) = mem (p + i)) :
    loadPtr mem' p = loadPtr mem p := by
  rw [loadPtr, block_congr h, loadPtr]

/-- A pointer that was stored is loaded. -/
theorem loadPtr_write {v : Option ℕ} (hv : IsPtr v) : loadPtr (write mem p (ptrBytes v)) p = v := by
  have hblock := block_write mem p (ptrBytes v)
  rw [length_ptrBytes] at hblock
  rw [loadPtr, hblock, ptrBytes, leValue_leBytes]
  rcases v with _ | n
  · rfl
  · obtain ⟨hpos, hlt⟩ := hv n rfl
    rw [Option.getD_some, Nat.mod_eq_of_lt (by omega), if_neg (by omega)]

end Pointers

/-- A zero byte ends the row. -/
theorem getElem?_zero_ended (w : List UInt8) {i : ℕ} {b : UInt8} :
    (w ++ [0])[i]? = some b ↔ w[i]? = some b ∨ i = w.length ∧ b = 0 := by
  rw [List.getElem?_append]
  split_ifs with h
  · exact ⟨.inl, fun hor => hor.resolve_right fun hend => absurd hend.1 (Nat.ne_of_lt h)⟩
  · rw [List.getElem?_eq_none (l := w) (by omega)]
    by_cases hi : i = w.length
    · subst hi
      simp [eq_comm]
    · rw [List.getElem?_eq_none (by simp; omega)]
      simp [hi]

/-- Where the first bytes of a zero-ended word lie, its first `n` characters are a string exactly
when they hold no zero byte and one follows them. -/
theorem isStr_take_iff {w : List UInt8} {n : ℕ}
    (h : ∀ i b, i ≤ n → (w ++ [0])[i]? = some b → mem (p + i) = b) :
    IsStr mem p (w.take n) ↔ 0 ∉ w.take n ∧ (w.length ≤ n ∨ w[n]? = some 0) := by
  simp only [getElem?_zero_ended] at h
  constructor
  · intro hs
    refine ⟨fun hz => ?_, ?_⟩
    · obtain ⟨i, hi⟩ := List.mem_iff_getElem?.mp hz
      exact (hs.chars i 0 hi).2 rfl
    · rcases Nat.lt_or_ge n w.length with hlt | hle
      · have hnul := hs.nul
        rw [List.length_take, Nat.min_eq_left hlt.le,
          h n w[n] le_rfl (.inl (List.getElem?_eq_getElem hlt))] at hnul
        exact .inr ((List.getElem?_eq_getElem hlt).trans (congrArg some hnul))
      · exact .inl hle
  · rintro ⟨hz, hend⟩
    refine ⟨fun i b hi => ?_, ?_⟩
    · have hin : i < n ∧ w[i]? = some b := by
        rw [List.getElem?_take] at hi
        split_ifs at hi with hlt
        exact ⟨hlt, hi⟩
      refine ⟨h i b hin.1.le (.inl hin.2), ?_⟩
      rintro rfl
      exact hz (List.mem_of_getElem? hi)
    · rcases Nat.lt_or_ge n w.length with hlt | hle
      · rw [List.length_take, Nat.min_eq_left hlt.le]
        exact h n 0 le_rfl (.inl (hend.resolve_left (by omega)))
      · rw [List.take_of_length_le hle]
        exact h _ 0 hle (.inr ⟨rfl, rfl⟩)

end FlatMem
