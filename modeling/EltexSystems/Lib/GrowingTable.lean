import Mathlib.Data.List.Basic
import Mathlib.Logic.Function.Basic

/-!
# Tables that only grow

An array of slots, of which the first `count` are in use.  When nothing below the count changes
(`Grows`), what readers have copied from the first slot on stays what the table holds there
(`Grows.firsts_eq`), and what two of them have copied is one a prefix of the other
(`firsts_prefix_or`).
-/

structure GrowingTable (α : Type*) where
  count : ℕ
  slots : ℕ → α

namespace GrowingTable

variable {α : Type*} {t t' t'' : GrowingTable α}

/-- The first slots. -/
def firsts (t : GrowingTable α) (n : ℕ) : List α := (List.range n).map t.slots

/-- The slots in use. -/
def stored (t : GrowingTable α) : List α := t.firsts t.count

/-- Whatever is stored stays. -/
structure Grows (t t' : GrowingTable α) : Prop where
  count : t.count ≤ t'.count
  slots : ∀ k < t.count, t'.slots k = t.slots k

theorem Grows.refl (t : GrowingTable α) : t.Grows t := ⟨Nat.le_refl _, fun _ _ => rfl⟩

theorem Grows.trans (h : t.Grows t') (h' : t'.Grows t'') : t.Grows t'' :=
  ⟨Nat.le_trans h.count h'.count, fun k hk =>
    (h'.slots k (Nat.lt_of_lt_of_le hk h.count)).trans (h.slots k hk)⟩

theorem length_firsts (t : GrowingTable α) (n : ℕ) : (t.firsts n).length = n := by
  rw [firsts, List.length_map, List.length_range]

theorem length_stored (t : GrowingTable α) : t.stored.length = t.count := t.length_firsts _

theorem firsts_succ (t : GrowingTable α) (n : ℕ) :
    t.firsts (n + 1) = t.firsts n ++ [t.slots n] := by
  rw [firsts, List.range_succ, List.map_append]
  rfl

theorem firsts_prefix {n k : ℕ} (h : n ≤ k) : t.firsts n <+: t.firsts k := by
  induction h with
  | refl => exact List.prefix_rfl
  | step _ ih => exact ih.trans (t.firsts_succ _ ▸ List.prefix_append _ _)

/-- What two readers have copied is one a prefix of the other. -/
theorem firsts_prefix_or (t : GrowingTable α) (n k : ℕ) :
    t.firsts n <+: t.firsts k ∨ t.firsts k <+: t.firsts n :=
  (Nat.le_total n k).imp firsts_prefix firsts_prefix

theorem Grows.firsts_eq {n : ℕ} (h : t.Grows t') (hn : n ≤ t.count) :
    t'.firsts n = t.firsts n :=
  List.map_congr_left fun k hk => h.slots k (Nat.lt_of_lt_of_le (List.mem_range.mp hk) hn)

/-- The slot behind those in use is written. -/
def write (t : GrowingTable α) (v : α) : GrowingTable α :=
  { t with slots := Function.update t.slots t.count v }

/-- One more slot is in use. -/
def extend (t : GrowingTable α) : GrowingTable α := { t with count := t.count + 1 }

theorem grows_write (t : GrowingTable α) (v : α) : t.Grows (t.write v) :=
  ⟨Nat.le_refl _, fun _ hk => Function.update_of_ne (Nat.ne_of_lt hk) _ _⟩

theorem grows_extend (t : GrowingTable α) : t.Grows t.extend :=
  ⟨Nat.le_succ _, fun _ _ => rfl⟩

theorem slots_write (t : GrowingTable α) (v : α) : (t.write v).slots t.count = v :=
  Function.update_self ..

theorem stored_write (t : GrowingTable α) (v : α) : (t.write v).stored = t.stored :=
  (t.grows_write v).firsts_eq (Nat.le_refl _)

theorem stored_extend (t : GrowingTable α) : t.extend.stored = t.stored ++ [t.slots t.count] :=
  t.firsts_succ t.count

/-- What overflows at first overflows in the end. -/
theorem take_take_append (n : ℕ) (l k : List α) :
    (l.take n ++ k).take n = (l ++ k).take n := by
  rw [List.take_append, List.take_append, List.take_take, Nat.min_self, List.length_take]
  congr 2
  omega

end GrowingTable
