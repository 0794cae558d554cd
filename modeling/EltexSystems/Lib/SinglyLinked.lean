import EltexSystems.Lib.Heap

/-!
# Singly linked chains in memory

The cells met from a pointer on, each a payload and the link to the next (`Chain`).  The pointer
determines them, so no address is met twice (`Chain.nodup`); a payload may be changed in place
(`Chain.set`), a cell put in front (`Chain.node`) or taken out by leading the link to it behind it
(`Chain.unlink`), and a walk may free them all (`freeFrom_chain`).
-/

namespace SinglyLinked

variable {α β : Type*}

inductive Chain (get : ℕ → Option (β × Option ℕ)) : Option ℕ → List (ℕ × β) → Prop where
  | null : Chain get none []
  | node {p : ℕ} {b : β} {a : Option ℕ} {l : List (ℕ × β)} :
      get p = some (b, a) → Chain get a l → Chain get (some p) ((p, b) :: l)

variable {get get' : ℕ → Option (β × Option ℕ)} {a : Option ℕ} {l l' : List (ℕ × β)}

theorem Chain.unique (h : Chain get a l) (h' : Chain get a l') : l = l' := by
  induction h generalizing l' with
  | null =>
    cases h'
    rfl
  | node hp _ ih =>
    cases h' with
    | node hq h' =>
      cases hp.symm.trans hq
      rw [ih h']

theorem Chain.get_of_mem (h : Chain get a l) {p : ℕ} {b : β} (hm : (p, b) ∈ l) :
    ∃ n, get p = some (b, n) := by
  induction h with
  | null => cases hm
  | node hp _ ih =>
    rcases List.mem_cons.mp hm with heq | hm
    · cases heq
      exact ⟨_, hp⟩
    · exact ih hm

/-- What follows a part of a chain is a chain. -/
theorem Chain.drop {l₁ l₂ : List (ℕ × β)} (h : Chain get a (l₁ ++ l₂)) :
    ∃ a', Chain get a' l₂ := by
  induction l₁ generalizing a with
  | nil => exact ⟨a, h⟩
  | cons x l₁ ih =>
    cases h with
    | node _ h => exact ih h

theorem Chain.nodup (h : Chain get a l) : (l.map Prod.fst).Nodup := by
  induction h with
  | null => exact List.nodup_nil
  | @node p b a l hp h ih =>
    refine List.nodup_cons.mpr ⟨fun hm => ?_, ih⟩
    -- a second visit would go on as the first did, for ever
    obtain ⟨⟨q, c⟩, hmem, rfl⟩ := List.mem_map.mp hm
    obtain ⟨l₁, l₂, rfl⟩ := List.append_of_mem hmem
    obtain ⟨a', h'⟩ := h.drop
    cases h' with
    | node hq h' =>
      have heq := (Chain.node hp h).unique (Chain.node hq h')
      have hlen := congrArg List.length heq
      simp only [List.length_cons, List.length_append] at hlen
      omega

theorem Chain.congr (h : Chain get a l) (hget : ∀ p ∈ l.map Prod.fst, get' p = get p) :
    Chain get' a l := by
  induction h with
  | null => exact .null
  | node hp _ ih =>
    exact .node ((hget _ List.mem_cons_self).trans hp)
      (ih fun p hm => hget p (List.mem_cons_of_mem _ hm))

/-- The payload of a cell is changed. -/
theorem Chain.set {l₁ l₂ : List (ℕ × β)} {p : ℕ} {b c : β} {n : Option ℕ}
    (h : Chain get a (l₁ ++ (p, b) :: l₂)) (hp : get p = some (b, n))
    (hp' : get' p = some (c, n)) (hget : ∀ q, q ≠ p → get' q = get q) :
    Chain get' a (l₁ ++ (p, c) :: l₂) := by
  have hnd := h.nodup
  induction l₁ generalizing a with
  | nil =>
    cases h with
    | node hq h =>
      cases hp.symm.trans hq
      refine .node hp' (h.congr fun q hm => hget q ?_)
      rintro rfl
      exact (List.nodup_cons.mp hnd).1 hm
  | cons x l₁ ih =>
    cases h with
    | @node q d a' _ hq h =>
      have hne : q ≠ p := by
        rintro rfl
        exact (List.nodup_cons.mp hnd).1 (by simp)
      exact .node ((hget q hne).trans hq) (ih h (List.nodup_cons.mp hnd).2)

/-- A cell is taken out: the cell before it is led where it led. -/
theorem Chain.unlink {l₁ l₂ : List (ℕ × β)} {p q : ℕ} {b c : β} {n : Option ℕ}
    (h : Chain get a (l₁ ++ (q, c) :: (p, b) :: l₂)) (hp : get p = some (b, n))
    (hq' : get' q = some (c, n)) (hget : ∀ r, r ≠ q → r ≠ p → get' r = get r) :
    Chain get' a (l₁ ++ (q, c) :: l₂) := by
  have hnd := h.nodup
  induction l₁ generalizing a with
  | nil =>
    cases h with
    | node hq h =>
      cases h with
      | node hp' h =>
        cases hp.symm.trans hp'
        obtain ⟨hq1, hp1, -⟩ : q ∉ p :: l₂.map Prod.fst ∧ p ∉ l₂.map Prod.fst ∧ _ :=
          ⟨(List.nodup_cons.mp hnd).1, (List.nodup_cons.mp (List.nodup_cons.mp hnd).2).1, trivial⟩
        refine .node hq' (h.congr fun r hm => hget r ?_ ?_)
        · rintro rfl
          exact hq1 (List.mem_cons_of_mem _ hm)
        · rintro rfl
          exact hp1 hm
  | cons x l₁ ih =>
    cases h with
    | @node r d a' _ hr h =>
      have hfst := (List.nodup_cons.mp hnd).1
      have hrq : r ≠ q := by
        rintro rfl
        exact hfst (by simp)
      have hrp : r ≠ p := by
        rintro rfl
        exact hfst (by simp)
      exact .node ((hget r hrq hrp).trans hr) (ih h (List.nodup_cons.mp hnd).2)

theorem Chain.link {l₁ l₂ : List (ℕ × β)} {p q : ℕ} {b c : β}
    (h : Chain get a (l₁ ++ (q, c) :: (p, b) :: l₂)) : get q = some (c, some p) := by
  induction l₁ generalizing a with
  | nil =>
    cases h with
    | node hq h =>
      cases h with
      | node hp _ => exact hq
  | cons x l₁ ih =>
    cases h with
    | node _ h => exact ih h

section Freeing

variable (view : α → Option (β × Option ℕ))

/-- The cell at an address, where it is one of a chain. -/
def cellAt (h : Heap α) (p : ℕ) : Option (β × Option ℕ) := (h.read p).bind view

/-- A walk that frees each cell after it has read the link behind it; it has no result where it goes
on behind its fuel. -/
def freeFrom : ℕ → Heap α → Option ℕ → Option (Heap α)
  | _, h, none => some h
  | 0, _, some _ => none
  | fuel + 1, h, some p =>
    (cellAt view h p).bind fun v => (h.free p).bind fun h => freeFrom fuel h v.2

variable {view}

theorem freeFrom_chain {l : List (ℕ × β)} :
    ∀ {h : Heap α} {a : Option ℕ} {fuel : ℕ}, Chain (cellAt view h) a l → l.length ≤ fuel → h.Wf →
      ∃ h', freeFrom view fuel h a = some h' ∧ h'.Wf ∧ h'.allocs = h.allocs ∧
        ∀ q, h'.read q = if q ∈ l.map Prod.fst then none else h.read q := by
  induction l with
  | nil =>
    intro h a fuel hc _ hw
    cases hc
    exact ⟨h, by cases fuel <;> rfl, hw, rfl, fun q => (if_neg List.not_mem_nil).symm⟩
  | cons x l ih =>
    intro h a fuel hc hle hw
    have hnd := hc.nodup
    cases hc with
    | @node p b n _ hp hc =>
      obtain ⟨v, hv, hview⟩ := Option.bind_eq_some_iff.mp hp
      obtain ⟨h₁, hfree, halloc, hread⟩ := Heap.free_of_read hv
      have hother : ∀ q ∈ l.map Prod.fst, cellAt view h₁ q = cellAt view h q := by
        intro q hq
        have hne : q ≠ p := by
          rintro rfl
          exact (List.nodup_cons.mp hnd).1 hq
        unfold cellAt
        rw [hread, if_neg hne]
      obtain ⟨fuel, rfl⟩ : ∃ k, fuel = k + 1 := ⟨fuel - 1, by
        rw [List.length_cons] at hle
        omega⟩
      obtain ⟨h', hrun, hw', hall, hread'⟩ := ih (hc.congr hother)
        (Nat.le_of_succ_le_succ hle) (hw.free hfree)
      refine ⟨h', ?_, hw', hall.trans halloc, fun q => ?_⟩
      · unfold freeFrom
        rw [hp, Option.bind_some, hfree, Option.bind_some]
        exact hrun
      · have hmem : q ∈ ((p, b) :: l).map Prod.fst ↔ q = p ∨ q ∈ l.map Prod.fst := List.mem_cons
        rw [hread']
        by_cases hm : q ∈ l.map Prod.fst
        · rw [if_pos hm, if_pos (hmem.mpr (.inr hm))]
        · rw [if_neg hm, hread]
          by_cases hq : q = p
          · rw [if_pos hq, if_pos (hmem.mpr (.inl hq))]
          · rw [if_neg hq, if_neg fun h => (hmem.mp h).elim hq hm]

end Freeing

end SinglyLinked
