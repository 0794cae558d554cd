import Mathlib.Data.List.Basic

/-!
# Queues of typed messages

A queue from which the first message of a type is taken, with what was ever sent to it and taken
from it.  Of each type nothing is lost, doubled or reordered (`TypedQueue.Wf`).
-/

/-- The messages in a queue, each with its type, and a record of all that were sent to it and taken
from it. -/
structure TypedQueue (τ α : Type*) where
  buf : List (τ × α)
  sent : List (τ × α)
  taken : List (τ × α)

namespace TypedQueue

variable {τ α : Type*}

def empty : TypedQueue τ α := ⟨[], [], []⟩

def send (q : TypedQueue τ α) (m : τ × α) : TypedQueue τ α :=
  { q with buf := q.buf ++ [m], sent := q.sent ++ [m] }

theorem mem_send {q : TypedQueue τ α} {m m' : τ × α} :
    m' ∈ (q.send m).buf ↔ m' ∈ q.buf ∨ m' = m := by
  rw [send, List.mem_append, List.mem_singleton]

variable [DecidableEq τ]

/-- The first message of a type, and the queue without it. -/
def receive (q : TypedQueue τ α) (t : τ) : Option (α × TypedQueue τ α) :=
  (q.buf.find? fun m => m.1 = t).map fun m =>
    (m.2, { q with buf := q.buf.eraseP fun m => m.1 = t, taken := q.taken ++ [m] })

def ofType (t : τ) (l : List (τ × α)) : List (τ × α) := l.filter fun m => m.1 = t

/-- Of each type, what was sent was taken or is still there. -/
def Wf (q : TypedQueue τ α) : Prop :=
  ∀ t, ofType t q.taken ++ ofType t q.buf = ofType t q.sent

variable {q q' : TypedQueue τ α} {t : τ} {a : α}

/-- What `receive` takes is in the queue, no message of its type before it. -/
theorem receive_cases (h : q.receive t = some (a, q')) :
    ∃ l₁ l₂, (∀ m ∈ l₁, m.1 ≠ t) ∧ q.buf = l₁ ++ (t, a) :: l₂ ∧
      q' = ⟨l₁ ++ l₂, q.sent, q.taken ++ [(t, a)]⟩ := by
  obtain ⟨m, hm, heq⟩ := Option.map_eq_some_iff.mp h
  cases heq
  obtain ⟨hmt, l₁, l₂, hbuf, hfront⟩ := List.find?_eq_some_iff_append.mp hm
  have hmt : m.1 = t := by simpa using hmt
  have hne : ∀ x ∈ l₁, x.1 ≠ t := fun x hx => by simpa using hfront x hx
  refine ⟨l₁, l₂, hne, by rw [hbuf, ← hmt], ?_⟩
  have herase : (l₁ ++ m :: l₂).eraseP (fun m => decide (m.1 = t)) = l₁ ++ l₂ := by
    rw [List.eraseP_append_right _ fun x hx => by simpa using hne x hx,
      List.eraseP_cons_of_pos (by simpa using hmt)]
  rw [hbuf, herase, ← hmt]

theorem mem_receive (h : q.receive t = some (a, q')) : (t, a) ∈ q.buf := by
  obtain ⟨l₁, l₂, -, hbuf, -⟩ := receive_cases h
  rw [hbuf]
  exact List.mem_append_right _ List.mem_cons_self

theorem mem_of_mem_receive (h : q.receive t = some (a, q')) {m : τ × α} (hm : m ∈ q'.buf) :
    m ∈ q.buf := by
  obtain ⟨l₁, l₂, -, hbuf, rfl⟩ := receive_cases h
  rw [hbuf]
  exact (List.sublist_cons_self _ _).append_left l₁ |>.subset hm

/-- Messages of another type stay. -/
theorem mem_receive_of_ne (h : q.receive t = some (a, q')) {m : τ × α} (hm : m ∈ q.buf)
    (hne : m.1 ≠ t) : m ∈ q'.buf := by
  obtain ⟨l₁, l₂, -, hbuf, rfl⟩ := receive_cases h
  rw [hbuf] at hm
  rcases List.mem_append.mp hm with hm | hm
  · exact List.mem_append_left _ hm
  · rcases List.mem_cons.mp hm with rfl | hm
    · exact absurd rfl hne
    · exact List.mem_append_right _ hm

theorem receive_isSome (h : ∃ m ∈ q.buf, m.1 = t) : (q.receive t).isSome := by
  obtain ⟨m, hm, hmt⟩ := h
  rw [receive, Option.isSome_map, List.find?_isSome]
  exact ⟨m, hm, by simpa using hmt⟩

theorem Wf.empty : (TypedQueue.empty : TypedQueue τ α).Wf := fun _ => rfl

theorem Wf.send (h : q.Wf) (m : τ × α) : (q.send m).Wf := by
  intro t
  rw [TypedQueue.send, ofType, ofType, ofType, List.filter_append, List.filter_append,
    ← List.append_assoc]
  exact congrArg (· ++ _) (h t)

theorem Wf.receive (h : q.Wf) (hr : q.receive t = some (a, q')) : q'.Wf := by
  obtain ⟨l₁, l₂, hfront, hbuf, rfl⟩ := receive_cases hr
  intro u
  have hu := h u
  rw [hbuf] at hu
  simp only [ofType, List.filter_append, List.append_assoc] at hu ⊢
  rw [← hu]
  by_cases htu : t = u
  · subst htu
    -- the messages before the one taken are of other types
    have hnil : l₁.filter (fun m => decide (m.1 = t)) = [] :=
      List.filter_eq_nil_iff.mpr fun m hm => by simpa using hfront m hm
    rw [hnil, List.filter_cons_of_pos (by simp), List.filter_cons_of_pos (by simp)]
    rfl
  · rw [List.filter_cons_of_neg (by simpa using htu), List.filter_cons_of_neg (by simpa using htu)]
    rfl

end TypedQueue
