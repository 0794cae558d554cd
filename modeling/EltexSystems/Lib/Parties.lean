import Mathlib.Algebra.BigOperators.Group.Finset.Basic
import Mathlib.Data.Fintype.Basic

/-!
# Families in which one member changes

What `Function.update` does to a property of all members, to the existence of a member with a
property, and to a sum over the members.
-/

namespace Parties

variable {ι α : Type*} [DecidableEq ι] {g : ι → α} {p : ι} {c : α} {P : ι → α → Prop}

theorem forall_update (h : ∀ r, P r (g r)) (hc : P p c) : ∀ r, P r (Function.update g p c r) := by
  intro r
  rcases eq_or_ne r p with rfl | hne
  · rwa [Function.update_self]
  · rw [Function.update_of_ne hne]
    exact h r

theorem exists_update (h : ∃ r, P r (g r)) (hc : P p (g p) → P p c) :
    ∃ r, P r (Function.update g p c r) := by
  obtain ⟨r, hr⟩ := h
  refine ⟨r, ?_⟩
  rcases eq_or_ne r p with rfl | hne
  · rw [Function.update_self]
    exact hc hr
  · rwa [Function.update_of_ne hne]

theorem of_exists_update (h : ∃ r, P r (Function.update g p c r)) (hc : P p c → P p (g p)) :
    ∃ r, P r (g r) := by
  obtain ⟨r, hr⟩ := h
  refine ⟨r, ?_⟩
  rcases eq_or_ne r p with rfl | hne
  · rw [Function.update_self] at hr
    exact hc hr
  · rwa [Function.update_of_ne hne] at hr

/-- What a sum over the members loses and gains. -/
theorem sum_update [Fintype ι] (f : ι → α → ℕ) (g : ι → α) (p : ι) (c : α) :
    ∑ r, f r (Function.update g p c r) + f p (g p) = ∑ r, f r (g r) + f p c := by
  have hothers : ∑ r ∈ Finset.univ.erase p, f r (Function.update g p c r)
      = ∑ r ∈ Finset.univ.erase p, f r (g r) :=
    Finset.sum_congr rfl fun r hr => by rw [Function.update_of_ne (Finset.ne_of_mem_erase hr)]
  rw [← Finset.add_sum_erase _ _ (Finset.mem_univ p), hothers, Function.update_self,
    ← Finset.add_sum_erase _ (fun r => f r (g r)) (Finset.mem_univ p)]
  omega

end Parties
