import Mathlib.Data.Int.Notation
import Mathlib.Data.List.Basic

/-!
# Bounded lists

Lists of at most a given number of entries: an entry is appended if there is room, and one is taken
out under its index if there is one.
-/

/-- A list of at most `n` entries. -/
structure BoundedList (α : Type*) (n : ℕ) where
  entries : List α
  fits : entries.length ≤ n

namespace BoundedList

variable {α : Type*} {n : ℕ}

def empty : BoundedList α n := ⟨[], Nat.zero_le n⟩

def push (l : BoundedList α n) (a : α) : BoundedList α n :=
  if h : l.entries.length < n then
    ⟨l.entries ++ [a], by rw [List.length_append, List.length_singleton]; exact h⟩
  else l

/-- An index that names no entry is ignored. -/
def remove (l : BoundedList α n) (i : ℤ) : BoundedList α n :=
  if i < 0 then l
  else ⟨l.entries.eraseIdx i.toNat, Nat.le_trans (List.length_eraseIdx_le _ _) l.fits⟩

theorem entries_push {l : BoundedList α n} (h : l.entries.length < n) (a : α) :
    (l.push a).entries = l.entries ++ [a] := by
  unfold push
  rw [dif_pos h]

theorem push_full {l : BoundedList α n} (h : l.entries.length = n) (a : α) : l.push a = l := by
  unfold push
  rw [dif_neg (by omega)]

theorem entries_remove {l : BoundedList α n} {i : ℤ} (h : 0 ≤ i) :
    (l.remove i).entries = l.entries.eraseIdx i.toNat := by
  unfold remove
  rw [if_neg (by omega)]

theorem remove_neg {l : BoundedList α n} {i : ℤ} (h : i < 0) : l.remove i = l := by
  unfold remove
  rw [if_pos h]

end BoundedList
