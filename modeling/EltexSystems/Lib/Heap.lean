import Mathlib.Data.List.Nodup
import Mathlib.Data.List.Perm.Subperm
import Mathlib.Logic.Function.Basic

/-!
# A heap of cells

`malloc` hands out a cell at an address of its own choice and `free` takes it back.  A cell carries
the number of its allocation, so that an address handed out again is another cell, and an access to
an address that holds no cell, a `free` of one included, is a fault (`none`).  Every allocation is
either live or freed, and freed once (`Heap.Wf`), whatever cells are written, allocated at an
address that holds none, and freed.
-/

/-- What lies at each address, with the number of its allocation; how many there have been, and the
numbers of those freed, in order. -/
structure Heap (α : Type*) where
  cell : ℕ → Option (ℕ × α)
  allocs : ℕ
  freed : List ℕ

namespace Heap

variable {α : Type*}

def empty : Heap α := ⟨fun _ => none, 0, []⟩

def Live (h : Heap α) (p : ℕ) : Prop := h.cell p ≠ none

def read (h : Heap α) (p : ℕ) : Option α := (h.cell p).map Prod.snd

def modify (h : Heap α) (p : ℕ) (f : α → α) : Option (Heap α) :=
  (h.cell p).map fun c => { h with cell := Function.update h.cell p (some (c.1, f c.2)) }

/-- A cell at an address, which holds what lay there. -/
def malloc (h : Heap α) (p : ℕ) (junk : α) : Heap α where
  cell := Function.update h.cell p (some (h.allocs, junk))
  allocs := h.allocs + 1
  freed := h.freed

def free (h : Heap α) (p : ℕ) : Option (Heap α) :=
  (h.cell p).map fun c =>
    { h with cell := Function.update h.cell p none, freed := h.freed ++ [c.1] }

/-- Every allocation is live at one address, or it has been freed, once. -/
structure Wf (h : Heap α) : Prop where
  lt_allocs : ∀ p n v, h.cell p = some (n, v) → n < h.allocs
  unique : ∀ p q n v w, h.cell p = some (n, v) → h.cell q = some (n, w) → p = q
  freed_nodup : h.freed.Nodup
  freed_lt : ∀ n ∈ h.freed, n < h.allocs
  not_freed : ∀ p n v, h.cell p = some (n, v) → n ∉ h.freed
  accounted : ∀ n < h.allocs, n ∈ h.freed ∨ ∃ p v, h.cell p = some (n, v)

variable {h h' : Heap α} {p q : ℕ} {v : α}

theorem read_eq_some : h.read p = some v ↔ ∃ n, h.cell p = some (n, v) := by
  unfold read
  rw [Option.map_eq_some_iff]
  constructor
  · rintro ⟨⟨n, w⟩, hc, rfl⟩
    exact ⟨n, hc⟩
  · rintro ⟨n, hc⟩
    exact ⟨_, hc, rfl⟩

theorem live_iff : h.Live p ↔ ∃ v, h.read p = some v := by
  unfold Live read
  rcases h.cell p with _ | c
  · simp
  · simp

theorem not_live : ¬ h.Live p ↔ h.read p = none := by
  unfold Live read
  rcases h.cell p with _ | c
  · simp
  · simp

/-- What is read where the cell at one address is replaced. -/
theorem read_of_cell {c : Option (ℕ × α)} (hc : h'.cell = Function.update h.cell p c) (q : ℕ) :
    h'.read q = if q = p then c.map Prod.snd else h.read q := by
  unfold read
  rw [hc]
  split_ifs with hq
  · rw [hq, Function.update_self]
  · rw [Function.update_of_ne hq]

theorem read_malloc (junk : α) :
    (h.malloc p junk).read q = if q = p then some junk else h.read q :=
  read_of_cell (c := some (h.allocs, junk)) rfl q

/-- A cell that is live can be written, and nothing else changes. -/
theorem modify_of_read (f : α → α) (hp : h.read p = some v) :
    ∃ h', h.modify p f = some h' ∧ h'.allocs = h.allocs ∧
      ∀ q, h'.read q = if q = p then some (f v) else h.read q := by
  obtain ⟨n, hc⟩ := read_eq_some.mp hp
  unfold modify
  rw [hc]
  exact ⟨_, rfl, rfl, read_of_cell (c := some (n, f v)) rfl⟩

theorem modify_modify (h : Heap α) (p : ℕ) (f g : α → α) :
    ((h.modify p f).bind fun h => h.modify p g) = h.modify p fun v => g (f v) := by
  unfold modify
  rcases h.cell p with _ | c
  · rfl
  · simp only [Option.map_some, Option.bind_some, Function.update_self, Function.update_idem]

/-- A write of the one cell with some property is a change of all cells with it. -/
theorem modify_where {c : α → Prop} [DecidablePred c] (f : α → α) (hp : h.read p = some v)
    (hc : ∀ q w, h.read q = some w → (c w ↔ q = p)) :
    ∃ h', h.modify p f = some h' ∧ h'.allocs = h.allocs ∧
      ∀ q, h'.read q = (h.read q).map fun w => if c w then f w else w := by
  obtain ⟨h', hm, ha, hread⟩ := modify_of_read f hp
  refine ⟨h', hm, ha, fun q => ?_⟩
  rw [hread]
  rcases hq : h.read q with _ | w
  · rw [if_neg (by rintro rfl; cases hp.symm.trans hq)]
    rfl
  · rw [Option.map_some]
    by_cases hqp : q = p
    · rw [if_pos hqp, if_pos ((hc q w hq).mpr hqp)]
      cases (hqp ▸ hp).symm.trans hq
      rfl
    · rw [if_neg hqp, if_neg fun hw => hqp ((hc q w hq).mp hw)]

/-- A change of the cells with a property none of them has. -/
theorem read_where {c : α → Prop} [DecidablePred c] (f : α → α)
    (hc : ∀ q w, h.read q = some w → ¬ c w) (q : ℕ) :
    h.read q = (h.read q).map fun w => if c w then f w else w := by
  rcases hq : h.read q with _ | w
  · rfl
  · rw [Option.map_some, if_neg (hc q w hq)]

/-- A cell that is live can be freed, and nothing else changes. -/
theorem free_of_read (hp : h.read p = some v) :
    ∃ h', h.free p = some h' ∧ h'.allocs = h.allocs ∧
      ∀ q, h'.read q = if q = p then none else h.read q := by
  obtain ⟨n, hc⟩ := read_eq_some.mp hp
  unfold free
  rw [hc]
  exact ⟨_, rfl, rfl, read_of_cell (c := none) rfl⟩

theorem Wf.empty : (empty : Heap α).Wf where
  lt_allocs _ _ _ hc := by cases hc
  unique _ _ _ _ _ hc := by cases hc
  freed_nodup := List.nodup_nil
  freed_lt _ hn := by cases hn
  not_freed _ _ _ hc := by cases hc
  accounted _ hn := absurd hn (Nat.not_lt_zero _)

theorem Wf.malloc (hw : h.Wf) (hp : ¬ h.Live p) (junk : α) : (h.malloc p junk).Wf := by
  have hcell : ∀ q n v, (h.malloc p junk).cell q = some (n, v) →
      (q = p ∧ n = h.allocs) ∨ (q ≠ p ∧ h.cell q = some (n, v)) := by
    intro q n v hc
    unfold Heap.malloc at hc
    by_cases hq : q = p
    · rw [hq] at hc
      simp only [Function.update_self, Option.some.injEq, Prod.mk.injEq] at hc
      exact .inl ⟨hq, hc.1.symm⟩
    · simp only [Function.update_of_ne hq] at hc
      exact .inr ⟨hq, hc⟩
  constructor
  · intro q n v hc
    show n < h.allocs + 1
    rcases hcell q n v hc with ⟨-, rfl⟩ | ⟨-, hc⟩
    · exact Nat.lt_succ_self _
    · exact Nat.lt_succ_of_lt (hw.lt_allocs q n v hc)
  · intro q r n v w hq hr
    rcases hcell q n v hq with ⟨hqp, hqn⟩ | ⟨-, hq'⟩ <;>
      rcases hcell r n w hr with ⟨hrp, hrn⟩ | ⟨-, hr'⟩
    · rw [hqp, hrp]
    · exact absurd hqn (Nat.ne_of_lt (hw.lt_allocs r n w hr'))
    · exact absurd hrn (Nat.ne_of_lt (hw.lt_allocs q n v hq'))
    · exact hw.unique q r n v w hq' hr'
  · exact hw.freed_nodup
  · exact fun n hn => Nat.lt_succ_of_lt (hw.freed_lt n hn)
  · intro q n v hc hn
    rcases hcell q n v hc with ⟨-, rfl⟩ | ⟨-, hc⟩
    · exact absurd (hw.freed_lt _ hn) (Nat.lt_irrefl _)
    · exact hw.not_freed q n v hc hn
  · intro n hn
    have hn' : n < h.allocs + 1 := hn
    by_cases hlast : n = h.allocs
    · exact .inr ⟨p, junk, by rw [hlast]; exact Function.update_self _ _ _⟩
    · rcases hw.accounted n (by omega) with hf | ⟨q, v, hc⟩
      · exact .inl hf
      · refine .inr ⟨q, v, ?_⟩
        have hq : q ≠ p := by
          rintro rfl
          rw [Live, hc] at hp
          exact hp (by simp)
        exact (Function.update_of_ne hq _ _).trans hc

theorem Wf.modify {f : α → α} (hw : h.Wf) (hm : h.modify p f = some h') : h'.Wf := by
  obtain ⟨⟨m, u⟩, hp, rfl⟩ := Option.map_eq_some_iff.mp hm
  have hcell : ∀ q n v, Function.update h.cell p (some (m, f u)) q = some (n, v) →
      ∃ w, h.cell q = some (n, w) := by
    intro q n v hc
    by_cases hq : q = p
    · rw [hq, Function.update_self, Option.some.injEq, Prod.mk.injEq] at hc
      exact ⟨u, by rw [hq, hp, hc.1]⟩
    · rw [Function.update_of_ne hq] at hc
      exact ⟨v, hc⟩
  constructor
  · intro q n v hc
    obtain ⟨w, hc⟩ := hcell q n v hc
    exact hw.lt_allocs q n w hc
  · intro q r n v w hq hr
    obtain ⟨v', hq⟩ := hcell q n v hq
    obtain ⟨w', hr⟩ := hcell r n w hr
    exact hw.unique q r n v' w' hq hr
  · exact hw.freed_nodup
  · exact hw.freed_lt
  · intro q n v hc
    obtain ⟨w, hc⟩ := hcell q n v hc
    exact hw.not_freed q n w hc
  · intro n hn
    rcases hw.accounted n hn with hf | ⟨q, v, hc⟩
    · exact .inl hf
    · right
      by_cases hq : q = p
      · rw [hq, hp, Option.some.injEq, Prod.mk.injEq] at hc
        exact ⟨p, f u, by simp only [Function.update_self, hc.1]⟩
      · exact ⟨q, v, by simp only [Function.update_of_ne hq, hc]⟩

theorem Wf.free (hw : h.Wf) (hf : h.free p = some h') : h'.Wf := by
  obtain ⟨⟨m, u⟩, hp, rfl⟩ := Option.map_eq_some_iff.mp hf
  have hcell : ∀ q n v, Function.update h.cell p none q = some (n, v) →
      q ≠ p ∧ h.cell q = some (n, v) := by
    intro q n v hc
    by_cases hq : q = p
    · rw [hq, Function.update_self] at hc
      cases hc
    · rw [Function.update_of_ne hq] at hc
      exact ⟨hq, hc⟩
  constructor
  · exact fun q n v hc => hw.lt_allocs q n v (hcell q n v hc).2
  · exact fun q r n v w hq hr => hw.unique q r n v w (hcell q n v hq).2 (hcell r n w hr).2
  · refine List.nodup_append.mpr ⟨hw.freed_nodup, List.nodup_singleton m, ?_⟩
    rintro a ha b hb rfl
    obtain rfl : a = m := List.mem_singleton.mp hb
    exact hw.not_freed p a u hp ha
  · intro n hn
    rcases List.mem_append.mp hn with hn | hn
    · exact hw.freed_lt n hn
    · rw [List.mem_singleton.mp hn]
      exact hw.lt_allocs p m u hp
  · intro q n v hc hn
    obtain ⟨hq, hc⟩ := hcell q n v hc
    rcases List.mem_append.mp hn with hn | hn
    · exact hw.not_freed q n v hc hn
    · rw [List.mem_singleton.mp hn] at hc
      exact hq (hw.unique q p m v u hc hp)
  · intro n hn
    rcases hw.accounted n hn with hf | ⟨q, v, hc⟩
    · exact .inl (List.mem_append_left _ hf)
    · by_cases hq : q = p
      · rw [hq, hp, Option.some.injEq, Prod.mk.injEq] at hc
        exact .inl (List.mem_append_right _ (by simp [hc.1]))
      · exact .inr ⟨q, v, by simp only [Function.update_of_ne hq, hc]⟩

theorem Wf.length_le (hw : h.Wf) {l : List ℕ} (hl : l.Nodup) (hlive : ∀ p ∈ l, h.Live p) :
    l.length ≤ h.allocs := by
  let number : ℕ → ℕ := fun p => ((h.cell p).map Prod.fst).getD 0
  have hnum : ∀ p ∈ l, ∃ v, h.cell p = some (number p, v) := by
    intro p hp
    obtain ⟨v, hv⟩ := live_iff.mp (hlive p hp)
    obtain ⟨n, hc⟩ := read_eq_some.mp hv
    exact ⟨v, by simp only [number, hc]; rfl⟩
  have hnodup : (l.map number).Nodup := List.Nodup.map_on (fun p hp q hq hpq => by
    obtain ⟨v, hv⟩ := hnum p hp
    obtain ⟨w, hw'⟩ := hnum q hq
    exact hw.unique p q _ v w hv (hpq ▸ hw')) hl
  have hsub : l.map number ⊆ List.range h.allocs := by
    intro n hn
    obtain ⟨p, hp, rfl⟩ := List.mem_map.mp hn
    obtain ⟨v, hv⟩ := hnum p hp
    exact List.mem_range.mpr (hw.lt_allocs p _ v hv)
  have hle := (hnodup.subperm hsub).length_le
  rwa [List.length_map, List.length_range] at hle

end Heap
