import EltexSystems.Lib.Lts

/-!
# Refinement with stutter

A system whose steps, seen through a map, are steps of another system or change nothing that the map
shows.  What it reaches, the other reaches under the map (`Refines.reachable`), and what is
inevitable there is inevitable here as far as the steps go on and only finitely many of them in a
row change nothing (`Refines.inevitably`).
-/

namespace Lts

variable {σ ι σ' ι' : Type*} {T : Lts σ ι} {U : Lts σ' ι'} {f : σ → σ'} {I : σ → Prop}
  {μ : σ → ℕ}

/-- Steps keep the invariant, and are steps under the map or decrease the measure. -/
def Refines (T : Lts σ ι) (U : Lts σ' ι') (f : σ → σ') (I : σ → Prop) (μ : σ → ℕ) : Prop :=
  ∀ s l t, I s → T.step s l t →
    I t ∧ ((∃ l', U.step (f s) l' (f t)) ∨ f t = f s ∧ μ t < μ s)

/-- Where the map leads to a state that the other system reaches, it goes on to do so. -/
theorem Refines.reachable (h : T.Refines U f I μ) :
    T.Refines U f (fun s => I s ∧ ∃ tr, U.Run tr (f s)) μ := by
  rintro s l t ⟨hs, tr, hrun⟩ hst
  obtain ⟨ht, hstep⟩ := h s l t hs hst
  refine ⟨⟨ht, ?_⟩, hstep⟩
  rcases hstep with ⟨l', hst'⟩ | ⟨heq, -⟩
  · exact ⟨_, hrun.snoc hst'⟩
  · rw [heq]
    exact ⟨tr, hrun⟩

theorem Refines.inevitably (h : T.Refines U f I μ) {P : σ' → Prop}
    (hlive : ∀ s, I s → ¬ P (f s) → ∃ l t, T.step s l t) {s : σ} (hU : U.Inevitably P (f s))
    (hs : I s) : T.Inevitably (fun t => I t ∧ P (f t)) s := by
  generalize hu : f s = u at hU
  induction hU generalizing s with
  | now hP => exact .now ⟨hs, hu ▸ hP⟩
  | @later u _ hall ih =>
    -- The steps that change nothing come to an end, by the measure.
    induction hn : μ s using Nat.strongRecOn generalizing s with
    | _ n ihn =>
      by_cases hP : P (f s)
      · exact .now ⟨hs, hP⟩
      · refine .later (hlive s hs hP) fun l t hst => ?_
        obtain ⟨ht, ⟨l', hst'⟩ | ⟨heq, hlt⟩⟩ := h s l t hs hst
        · exact ih l' (f t) (hu ▸ hst') ht rfl
        · exact ihn (μ t) (hn ▸ hlt) ht (heq.trans hu) rfl

end Lts
