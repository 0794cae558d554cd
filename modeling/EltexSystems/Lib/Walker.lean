import Mathlib.Data.Finset.Card
import Mathlib.Data.Finset.Prod
import Mathlib.Data.Prod.Basic
import Mathlib.Logic.Function.Iterate
import Mathlib.Tactic.Linarith

/-!
# A walker that turns right

A walker on a finite board of cells goes straight on while the next cell is on the board and not yet
visited, and turns right otherwise.  Cells are rows and columns, rows counted downwards.  While what
is left of the board goes on ahead of it, one turn and a straight run take it along a side
(`walk_side`), and what it has visited and what is left make up the board (`Leaves.card`).
-/

namespace Walker

inductive Heading where
  | east
  | south
  | west
  | north
  deriving DecidableEq

def Heading.right : Heading → Heading
  | .east => .south
  | .south => .west
  | .west => .north
  | .north => .east

/-- The rows and columns a step covers. -/
def Heading.vec : Heading → ℤ × ℤ
  | .east => (0, 1)
  | .south => (1, 0)
  | .west => (0, -1)
  | .north => (-1, 0)

/-- The cell some steps ahead. -/
def ahead (c : ℤ × ℤ) (h : Heading) (k : ℤ) : ℤ × ℤ := (c.1 + k * h.vec.1, c.2 + k * h.vec.2)

/-- The cells of a straight run. -/
def side (c : ℤ × ℤ) (h : Heading) (k : ℕ) : List (ℤ × ℤ) :=
  (List.range k).map fun i : ℕ => ahead c h (i + 1)

end Walker

/-- Where the walker is, where it is heading and the cells visited, in order. -/
structure Walker where
  cell : ℤ × ℤ
  heading : Walker.Heading
  visited : List (ℤ × ℤ)

namespace Walker

variable {board rest : Finset (ℤ × ℤ)} {w : Walker} {c : ℤ × ℤ} {h : Heading}

def go (w : Walker) (h : Heading) : Walker :=
  ⟨ahead w.cell h 1, h, w.visited ++ [ahead w.cell h 1]⟩

def step (board : Finset (ℤ × ℤ)) (w : Walker) : Walker :=
  if ahead w.cell w.heading 1 ∈ board ∧ ahead w.cell w.heading 1 ∉ w.visited then w.go w.heading
  else w.go w.heading.right

def walk (board : Finset (ℤ × ℤ)) (w : Walker) (k : ℕ) : Walker := (step board)^[k] w

/-- The cells of the board that are not visited. -/
structure Leaves (board : Finset (ℤ × ℤ)) (w : Walker) (rest : Finset (ℤ × ℤ)) : Prop where
  nodup : w.visited.Nodup
  inside : ∀ c ∈ w.visited, c ∈ board
  free : ∀ c, c ∈ rest ↔ c ∈ board ∧ c ∉ w.visited

@[simp] theorem ahead_east (c : ℤ × ℤ) (k : ℤ) : ahead c .east k = (c.1, c.2 + k) := by
  simp [ahead, Heading.vec]

@[simp] theorem ahead_south (c : ℤ × ℤ) (k : ℤ) : ahead c .south k = (c.1 + k, c.2) := by
  simp [ahead, Heading.vec]

@[simp] theorem ahead_west (c : ℤ × ℤ) (k : ℤ) : ahead c .west k = (c.1, c.2 - k) := by
  simp [ahead, Heading.vec, sub_eq_add_neg]

@[simp] theorem ahead_north (c : ℤ × ℤ) (k : ℤ) : ahead c .north k = (c.1 - k, c.2) := by
  simp [ahead, Heading.vec, sub_eq_add_neg]

theorem ahead_ahead (c : ℤ × ℤ) (h : Heading) (k m : ℤ) :
    ahead (ahead c h k) h m = ahead c h (k + m) := by
  unfold ahead
  rw [add_mul, add_mul, add_assoc, add_assoc]

theorem ahead_inj {k m : ℤ} (heq : ahead c h k = ahead c h m) : k = m := by
  obtain ⟨h1, h2⟩ := Prod.ext_iff.mp heq
  cases h <;> simp only [ahead, Heading.vec] at h1 h2 <;> omega

theorem side_succ (c : ℤ × ℤ) (h : Heading) (k : ℕ) :
    side c h (k + 1) = side c h k ++ [ahead c h (k + 1)] := by
  unfold side
  rw [List.range_succ, List.map_append, List.map_singleton]

theorem mem_side {x : ℤ × ℤ} {k : ℕ} : x ∈ side c h k ↔ ∃ i < k, ahead c h (i + 1) = x := by
  simp [side]

theorem ahead_notMem_side (c : ℤ × ℤ) (h : Heading) (k : ℕ) : ahead c h (k + 1) ∉ side c h k := by
  intro hmem
  obtain ⟨i, hi, heq⟩ := mem_side.mp hmem
  have := ahead_inj heq
  omega

theorem walk_succ (board : Finset (ℤ × ℤ)) (w : Walker) (k : ℕ) :
    walk board w (k + 1) = step board (walk board w k) := Function.iterate_succ_apply' _ k w

theorem walk_add (board : Finset (ℤ × ℤ)) (w : Walker) (k m : ℕ) :
    walk board w (m + k) = walk board (walk board w k) m := Function.iterate_add_apply _ m k w

/-- A step goes one cell on and visits it. -/
theorem step_eq_go (board : Finset (ℤ × ℤ)) (w : Walker) : ∃ h, step board w = w.go h := by
  unfold step
  split_ifs
  · exact ⟨_, rfl⟩
  · exact ⟨_, rfl⟩

theorem visited_walk (board : Finset (ℤ × ℤ)) (w : Walker) (k : ℕ) : (walk board w k).visited =
    w.visited ++ (List.range k).map fun i => (walk board w (i + 1)).cell := by
  induction k with
  | zero => exact (List.append_nil _).symm
  | succ k ih =>
    obtain ⟨h, hgo⟩ := step_eq_go board (walk board w k)
    rw [List.range_succ, List.map_append, List.map_singleton, ← List.append_assoc, ← ih, walk_succ,
      hgo]
    rfl

/-- Consecutive cells lie side by side. -/
theorem walk_adjacent (board : Finset (ℤ × ℤ)) (w : Walker) (k : ℕ) :
    ((walk board w (k + 1)).cell.1 - (walk board w k).cell.1).natAbs +
      ((walk board w (k + 1)).cell.2 - (walk board w k).cell.2).natAbs = 1 := by
  obtain ⟨h, hgo⟩ := step_eq_go board (walk board w k)
  rw [walk_succ, hgo]
  cases h <;> simp [go, ahead, Heading.vec]

theorem Leaves.go (hl : Leaves board w rest) (hfree : ahead w.cell h 1 ∈ rest) :
    Leaves board (w.go h) (rest.erase (ahead w.cell h 1)) := by
  obtain ⟨hboard, hnew⟩ := (hl.free _).mp hfree
  refine ⟨?_, fun c hc => ?_, fun c => ?_⟩
  · change (w.visited ++ [ahead w.cell h 1]).Nodup
    rw [← List.concat_eq_append]
    exact hl.nodup.concat hnew
  · rcases List.mem_append.mp hc with hc | hc
    · exact hl.inside c hc
    · rwa [List.mem_singleton.mp hc]
  · change _ ↔ c ∈ board ∧ c ∉ w.visited ++ [ahead w.cell h 1]
    rw [Finset.mem_erase, hl.free, List.mem_append, List.mem_singleton]
    tauto

theorem step_straight (hl : Leaves board w rest) (hfree : ahead w.cell w.heading 1 ∈ rest) :
    step board w = w.go w.heading := if_pos ((hl.free _).mp hfree)

theorem step_turn (hl : Leaves board w rest) (hblocked : ahead w.cell w.heading 1 ∉ rest) :
    step board w = w.go w.heading.right := if_neg fun hfree => hblocked ((hl.free _).mpr hfree)

/-- A walker that cannot go on turns right and walks along a side whose cells are left. -/
theorem walk_side {k : ℕ} (hl : Leaves board w rest)
    (hblocked : ahead w.cell w.heading 1 ∉ rest)
    (hfree : ∀ i < k, ahead w.cell w.heading.right (i + 1) ∈ rest) :
    (walk board w k).visited = w.visited ++ side w.cell w.heading.right k ∧
      Leaves board (walk board w k) (rest \ (side w.cell w.heading.right k).toFinset) ∧
      (0 < k → (walk board w k).heading = w.heading.right ∧
        (walk board w k).cell = ahead w.cell w.heading.right k) := by
  induction k with
  | zero =>
    refine ⟨(List.append_nil _).symm, ?_, fun h0 => absurd h0 (lt_irrefl 0)⟩
    rw [show rest \ (side w.cell w.heading.right 0).toFinset = rest from Finset.sdiff_empty]
    exact hl
  | succ k ih =>
    obtain ⟨hvisited, hleaves, hend⟩ := ih fun i hi => hfree i (Nat.lt_succ_of_lt hi)
    have hnext : step board (walk board w k) = (walk board w k).go w.heading.right ∧
        ahead (walk board w k).cell w.heading.right 1 = ahead w.cell w.heading.right (k + 1) := by
      rcases Nat.eq_zero_or_pos k with rfl | hk
      · exact ⟨step_turn hl hblocked, by rw [Nat.cast_zero, zero_add]; rfl⟩
      · obtain ⟨hheading, hcell⟩ := hend hk
        have hahead : ahead (walk board w k).cell w.heading.right 1 =
            ahead w.cell w.heading.right (k + 1) := by rw [hcell, ahead_ahead]
        refine ⟨?_, hahead⟩
        rw [step_straight hleaves, hheading]
        rw [hheading, hahead, Finset.mem_sdiff, List.mem_toFinset]
        exact ⟨hfree k (Nat.lt_succ_self k), ahead_notMem_side _ _ _⟩
    obtain ⟨hstep, hahead⟩ := hnext
    have hmem : ahead (walk board w k).cell w.heading.right 1 ∈
        rest \ (side w.cell w.heading.right k).toFinset := by
      rw [hahead, Finset.mem_sdiff, List.mem_toFinset]
      exact ⟨hfree k (Nat.lt_succ_self k), ahead_notMem_side _ _ _⟩
    rw [walk_succ, hstep]
    refine ⟨?_, ?_, fun _ => ⟨rfl, ?_⟩⟩
    · change (walk board w k).visited ++ [ahead (walk board w k).cell w.heading.right 1] = _
      rw [hahead, hvisited, side_succ, List.append_assoc]
    · have hgo := hleaves.go hmem
      have hsides : (rest \ (side w.cell w.heading.right k).toFinset).erase
          (ahead w.cell w.heading.right (k + 1)) =
            rest \ (side w.cell w.heading.right (k + 1)).toFinset := by
        ext x
        rw [Finset.mem_erase, Finset.mem_sdiff, Finset.mem_sdiff, List.mem_toFinset,
          List.mem_toFinset, side_succ, List.mem_append, List.mem_singleton]
        tauto
      rwa [hahead, hsides] at hgo
    · change ahead (walk board w k).cell w.heading.right 1 = _
      rw [hahead, Nat.cast_succ]

/-- The cells visited and those left are those of the board. -/
theorem Leaves.card (hl : Leaves board w rest) : w.visited.length + rest.card = board.card := by
  have hboard : board = w.visited.toFinset ∪ rest := by
    ext c
    rw [Finset.mem_union, List.mem_toFinset, hl.free]
    have := hl.inside c
    tauto
  have hdisjoint : Disjoint w.visited.toFinset rest :=
    Finset.disjoint_left.mpr fun c hc hrest =>
      ((hl.free c).mp hrest).2 (List.mem_toFinset.mp hc)
  rw [hboard, Finset.card_union_of_disjoint hdisjoint, List.toFinset_card_of_nodup hl.nodup]

end Walker
