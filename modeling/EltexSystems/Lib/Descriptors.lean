import EltexSystems.Lib.Positions

/-!
# Descriptors opened and closed

A number that the kernel gives out may be given out again once it was closed.  Where every `close`
finds its number open (`Sound`), what was opened under a number is closed at most once, since a
second `close` of the number has an opening before it (`Sound.closed_once`).
-/

namespace Descriptors

inductive Event (κ : Type*) where
  | opened (fd : κ)
  | closed (fd : κ)
  deriving DecidableEq, Repr

variable {κ : Type*} [DecidableEq κ]

/-- Whether a number is open behind an event. -/
def Event.next (fd : κ) (isOpen : Bool) : Event κ → Bool
  | .opened n => isOpen || decide (n = fd)
  | .closed n => isOpen && decide (n ≠ fd)

/-- Whether a number is open after some events. -/
def openAfter (fd : κ) (es : List (Event κ)) : Bool := es.foldl (Event.next fd) false

/-- Every `close` finds its number open. -/
def Sound (es : List (Event κ)) : Prop :=
  ∀ (l₁ l₂ : List (Event κ)) (fd : κ), es = l₁ ++ .closed fd :: l₂ → openAfter fd l₁ = true

/-- Between two closes of a number it is opened again. -/
def ClosedOnce (es : List (Event κ)) : Prop :=
  ∀ (l₁ l₂ l₃ : List (Event κ)) (fd : κ),
    es = l₁ ++ .closed fd :: (l₂ ++ .closed fd :: l₃) → .opened fd ∈ l₂

variable {es : List (Event κ)} {fd n : κ}

@[simp] theorem openAfter_opened :
    openAfter fd (es ++ [.opened n]) = (openAfter fd es || decide (n = fd)) := by
  simp [openAfter, Event.next]

@[simp] theorem openAfter_closed :
    openAfter fd (es ++ [.closed n]) = (openAfter fd es && decide (n ≠ fd)) := by
  simp [openAfter, Event.next]

theorem Sound.nil : Sound ([] : List (Event κ)) := fun l₁ l₂ fd h => by simp at h

/-- What follows is sound if it opens something or closes a number that is open. -/
theorem Sound.concat (h : Sound es) {e : Event κ}
    (he : ∀ fd, e = .closed fd → openAfter fd es = true) : Sound (es ++ [e]) := by
  intro l₁ l₂ fd heq
  rcases Positions.concat_eq_append_cons heq with ⟨-, rfl, rfl⟩ | ⟨l, -, heq⟩
  · exact he fd rfl
  · exact h l₁ l fd heq

theorem not_open_of_closed {l₁ l₂ : List (Event κ)} (h : .opened fd ∉ l₂) :
    openAfter fd (l₁ ++ .closed fd :: l₂) = false := by
  induction l₂ using List.reverseRecOn with
  | nil => simp
  | append_singleton l e ih =>
    have hl : Event.opened fd ∉ l := fun hm => h (List.mem_append_left _ hm)
    rw [← List.cons_append, ← List.append_assoc]
    cases e with
    | opened n =>
      rw [openAfter_opened, ih hl, Bool.false_or, decide_eq_false_iff_not]
      rintro rfl
      exact h (List.mem_append_right _ (List.mem_singleton_self _))
    | closed n => rw [openAfter_closed, ih hl, Bool.false_and]

theorem Sound.closed_once (h : Sound es) : ClosedOnce es := by
  rintro l₁ l₂ l₃ fd rfl
  by_contra hm
  have hopen := h (l₁ ++ .closed fd :: l₂) l₃ fd (by simp)
  rw [not_open_of_closed hm] at hopen
  exact Bool.false_ne_true hopen

end Descriptors
