import Mathlib.Data.List.Basic
import Mathlib.Data.List.Induction

/-!
# Labelled transition systems

A path is the list of its steps, each the state before it and its label.  An invariant that every
step keeps holds along every path (`Path.inv`), one that a step keeps when it meets a condition
holds along the paths whose steps all meet it (`Path.inv_when`), and one that a step keeps between
states with a property holds along the paths through such states (`Path.inv_within`).  A property
is inevitable where steps decrease a measure until it holds (`Inevitably.of_measure`).
-/

/-- Where runs start, and which state a step under a label may lead to. -/
structure Lts (σ ι : Type*) where
  init : σ → Prop
  step : σ → ι → σ → Prop

namespace Lts

variable {σ ι : Type*} (T : Lts σ ι)

/-- A path from a state to another through the steps listed. -/
inductive Path : σ → List (σ × ι) → σ → Prop where
  | nil (s : σ) : Path s [] s
  | cons {s t u : σ} {l : ι} {tr : List (σ × ι)} :
      T.step s l t → Path t tr u → Path s ((s, l) :: tr) u

/-- A run: a path from an initial state. -/
def Run (tr : List (σ × ι)) (t : σ) : Prop := ∃ s, T.init s ∧ T.Path s tr t

variable {T}

theorem Path.single {s t : σ} {l : ι} (h : T.step s l t) : T.Path s [(s, l)] t :=
  .cons h (.nil t)

theorem Path.append {s t u : σ} {tr tr' : List (σ × ι)} (h : T.Path s tr t)
    (h' : T.Path t tr' u) : T.Path s (tr ++ tr') u := by
  induction h with
  | nil => exact h'
  | cons hst _ ih => exact .cons hst (ih h')

theorem Path.split {s u : σ} {tr' : List (σ × ι)} :
    ∀ {tr : List (σ × ι)}, T.Path s (tr ++ tr') u → ∃ t, T.Path s tr t ∧ T.Path t tr' u := by
  intro tr h
  induction tr generalizing s with
  | nil => exact ⟨s, .nil s, h⟩
  | cons p tr ih =>
    cases h with
    | cons hst hp =>
      obtain ⟨t, h1, h2⟩ := ih hp
      exact ⟨t, .cons hst h1, h2⟩

/-- A path through a step listed: up to it, the step, and on from it. -/
theorem Path.through {s u v : σ} {l : ι} {tr tr' : List (σ × ι)}
    (h : T.Path s (tr ++ (u, l) :: tr') v) :
    ∃ t, T.Path s tr u ∧ T.step u l t ∧ T.Path t tr' v := by
  obtain ⟨w, h1, h2⟩ := h.split
  cases h2 with
  | cons hst hp => exact ⟨_, h1, hst, hp⟩

theorem Run.through {v u : σ} {l : ι} {tr tr' : List (σ × ι)}
    (h : T.Run (tr ++ (u, l) :: tr') v) : ∃ t, T.Run tr u ∧ T.step u l t ∧ T.Path t tr' v := by
  obtain ⟨s, hs, hp⟩ := h
  obtain ⟨t, h1, h2, h3⟩ := hp.through
  exact ⟨t, ⟨s, hs, h1⟩, h2, h3⟩

theorem Run.snoc {s t : σ} {l : ι} {tr : List (σ × ι)} (h : T.Run tr s) (hst : T.step s l t) :
    T.Run (tr ++ [(s, l)]) t := by
  obtain ⟨s₀, h0, hp⟩ := h
  exact ⟨s₀, h0, hp.append (.single hst)⟩

/-- What holds of the empty run and is kept when a run goes on by a step holds of every run. -/
theorem Run.induction {P : List (σ × ι) → σ → Prop} (hinit : ∀ s, T.init s → P [] s)
    (hstep : ∀ tr s l t, T.Run tr s → P tr s → T.step s l t → P (tr ++ [(s, l)]) t) {t : σ}
    {tr : List (σ × ι)} (h : T.Run tr t) : P tr t := by
  obtain ⟨s, hs, hp⟩ := h
  induction tr using List.reverseRecOn generalizing t with
  | nil =>
    cases hp
    exact hinit s hs
  | append_singleton tr p ih =>
    obtain ⟨u, h1, h2⟩ := hp.split
    cases h2 with
    | cons hst hnil =>
      cases hnil
      exact hstep tr _ _ _ ⟨s, hs, h1⟩ (ih h1) hst

/-- An invariant kept by the steps that meet a condition holds along paths of such steps. -/
theorem Path.inv_when {I : σ → Prop} {C : σ → ι → Prop}
    (hstep : ∀ s l t, I s → C s l → T.step s l t → I t) {s t : σ} {tr : List (σ × ι)}
    (h : T.Path s tr t) (hC : ∀ p ∈ tr, C p.1 p.2) (hs : I s) : I t := by
  induction h with
  | nil => exact hs
  | cons hst _ ih =>
    exact ih (fun p hp => hC p (List.mem_cons_of_mem _ hp))
      (hstep _ _ _ hs (hC _ List.mem_cons_self) hst)

theorem Path.inv {I : σ → Prop} (hstep : ∀ s l t, I s → T.step s l t → I t) {s t : σ}
    {tr : List (σ × ι)} (h : T.Path s tr t) (hs : I s) : I t :=
  h.inv_when (C := fun _ _ => True) (fun s l t hI _ hst => hstep s l t hI hst)
    (fun _ _ => trivial) hs

theorem Run.inv_when {I : σ → Prop} {C : σ → ι → Prop} (hinit : ∀ s, T.init s → I s)
    (hstep : ∀ s l t, I s → C s l → T.step s l t → I t) {t : σ} {tr : List (σ × ι)}
    (h : T.Run tr t) (hC : ∀ p ∈ tr, C p.1 p.2) : I t := by
  obtain ⟨s, hs, hp⟩ := h
  exact hp.inv_when hstep hC (hinit s hs)

theorem Run.inv {I : σ → Prop} (hinit : ∀ s, T.init s → I s)
    (hstep : ∀ s l t, I s → T.step s l t → I t) {t : σ} {tr : List (σ × ι)} (h : T.Run tr t) :
    I t := by
  obtain ⟨s, hs, hp⟩ := h
  exact hp.inv hstep (hinit s hs)

/-- The steps of a path ending in `t`, each with the state behind it. -/
def steps : List (σ × ι) → σ → List (σ × ι × σ)
  | [], _ => []
  | (s, l) :: tr, t => (s, l, (tr.head?.map Prod.fst).getD t) :: steps tr t

theorem Path.head {s t : σ} {tr : List (σ × ι)} (h : T.Path s tr t) :
    (tr.head?.map Prod.fst).getD t = s := by
  cases h <;> rfl

/-- The states a path ending in `t` goes through. -/
def visited (tr : List (σ × ι)) (t : σ) : List σ := tr.map Prod.fst ++ [t]

/-- The state before a step of a run is reached by the steps before it. -/
theorem Run.before {s t : σ} {l : ι} {tr : List (σ × ι)} (h : T.Run tr t) (hm : (s, l) ∈ tr) :
    ∃ tr₁ tr₂ u, tr = tr₁ ++ (s, l) :: tr₂ ∧ T.Run tr₁ s ∧ T.step s l u ∧ T.Path u tr₂ t := by
  obtain ⟨tr₁, tr₂, rfl⟩ := List.append_of_mem hm
  obtain ⟨u, h1, h2, h3⟩ := h.through
  exact ⟨tr₁, tr₂, u, rfl, h1, h2, h3⟩

theorem Path.mem_visited {s t : σ} {tr : List (σ × ι)} (h : T.Path s tr t) :
    s ∈ Lts.visited tr t := by
  cases h with
  | nil => exact List.mem_append_right _ (List.mem_singleton_self _)
  | cons => exact List.mem_append_left _ List.mem_cons_self

/-- An invariant kept by the steps between states with a property holds along paths through such
states. -/
theorem Path.inv_within {I P : σ → Prop} (hstep : ∀ s l t, I s → P s → P t → T.step s l t → I t)
    {s t : σ} {tr : List (σ × ι)} (h : T.Path s tr t) (hP : ∀ v ∈ Lts.visited tr t, P v)
    (hs : I s) : I t := by
  induction h with
  | nil => exact hs
  | cons hst hp ih =>
    have hP' := fun v hv => hP v (List.mem_cons_of_mem _ hv)
    exact ih hP' (hstep _ _ _ hs (hP _ List.mem_cons_self) (hP' _ hp.mem_visited) hst)

theorem Run.visited {s t : σ} {tr : List (σ × ι)} (h : T.Run tr t) (hm : s ∈ Lts.visited tr t) :
    ∃ tr₁ tr₂, tr = tr₁ ++ tr₂ ∧ T.Run tr₁ s := by
  rcases List.mem_append.mp hm with hm | hm
  · obtain ⟨⟨s', l⟩, hp, rfl⟩ := List.mem_map.mp hm
    obtain ⟨tr₁, tr₂, -, rfl, h1, -, -⟩ := h.before hp
    exact ⟨tr₁, _, rfl, h1⟩
  · rw [List.mem_singleton.mp hm]
    exact ⟨tr, [], (List.append_nil tr).symm, h⟩

theorem Run.after {s t : σ} {l : ι} {tr : List (σ × ι)} (h : T.Run tr t) (hm : (s, l) ∈ tr) :
    ∃ u ∈ Lts.visited tr t, T.step s l u := by
  obtain ⟨tr₁, tr₂, u, rfl, -, hst, hp⟩ := h.before hm
  refine ⟨u, ?_, hst⟩
  rw [Lts.visited, List.map_append, List.append_assoc]
  exact List.mem_append_right _ (List.mem_cons_of_mem _ hp.mem_visited)

/-- Whatever steps are taken, there are some until a state with a property is reached. -/
inductive Inevitably (T : Lts σ ι) (P : σ → Prop) : σ → Prop where
  | now {s : σ} : P s → Inevitably T P s
  | later {s : σ} : (∃ l t, T.step s l t) → (∀ l t, T.step s l t → Inevitably T P t) →
      Inevitably T P s

/-- Steps that decrease a measure lead to the property. -/
theorem Inevitably.of_measure {P I : σ → Prop} (μ : σ → ℕ)
    (hlive : ∀ s, I s → ¬ P s → ∃ l t, T.step s l t)
    (hstep : ∀ s l t, I s → ¬ P s → T.step s l t → P t ∨ I t ∧ μ t < μ s) {s : σ} (hs : I s) :
    T.Inevitably P s := by
  induction hn : μ s using Nat.strongRecOn generalizing s with
  | _ n ih =>
    by_cases hP : P s
    · exact .now hP
    · refine .later (hlive s hs hP) fun l t hst => ?_
      rcases hstep s l t hs hP hst with ht | ⟨ht, hlt⟩
      · exact .now ht
      · exact ih (μ t) (hn ▸ hlt) ht rfl

/-- Where the property holds in the end, what steps lead back from it holds at the start. -/
theorem Inevitably.back {P I : σ → Prop} (hP : ∀ s, P s → I s)
    (hstep : ∀ s l t, T.step s l t → I t → I s) {s : σ} (h : T.Inevitably P s) : I s := by
  induction h with
  | now h => exact hP _ h
  | later hlive _ ih =>
    obtain ⟨l, t, hst⟩ := hlive
    exact hstep _ l t hst (ih l t hst)

/-- Where a property is inevitable, so is what is inevitable wherever the property holds. -/
theorem Inevitably.bind {P Q I : σ → Prop} (hI : ∀ s l t, I s → T.step s l t → I t)
    (hQ : ∀ s, I s → Q s → T.Inevitably P s) {s : σ} (h : T.Inevitably Q s) (hs : I s) :
    T.Inevitably P s := by
  induction h with
  | now h => exact hQ _ hs h
  | later hlive _ ih => exact .later hlive fun l t hst => ih l t hst (hI _ l t hs hst)

theorem Inevitably.mono {P Q : σ → Prop} (hPQ : ∀ s, P s → Q s) {s : σ}
    (h : T.Inevitably P s) : T.Inevitably Q s :=
  h.bind (I := fun _ => True) (fun _ _ _ _ _ => trivial) (fun s _ hP => .now (hPQ s hP)) trivial

/-- A path, followed by a map that takes every step of states with an invariant to a step. -/
theorem Path.map {σ' ι' : Type*} {U : Lts σ' ι'} {f : σ → σ'} {g : σ → ι → ι'} {I : σ → Prop}
    (hI : ∀ s l t, I s → T.step s l t → I t)
    (hstep : ∀ s l t, I s → T.step s l t → U.step (f s) (g s l) (f t)) {s t : σ}
    {tr : List (σ × ι)} (h : T.Path s tr t) (hs : I s) :
    U.Path (f s) (tr.map fun p => (f p.1, g p.1 p.2)) (f t) := by
  induction h with
  | nil s => exact .nil (f s)
  | cons hst _ ih => exact .cons (hstep _ _ _ hs hst) (ih (hI _ _ _ hs hst))

theorem visited_map {σ' ι' : Type*} (f : σ → σ') (g : σ → ι → ι') (tr : List (σ × ι)) (t : σ) :
    visited (tr.map fun p => (f p.1, g p.1 p.2)) (f t) = (visited tr t).map f := by
  unfold visited
  rw [List.map_append, List.map_map, List.map_map]
  rfl

/-- The steps under the labels listed, where a state and a label leave no choice. -/
def exec (f : σ → ι → Option σ) : σ → List ι → Option σ
  | s, [] => some s
  | s, l :: ls => (f s l).bind fun t => exec f t ls

/-- Those steps. -/
def trace (f : σ → ι → Option σ) : σ → List ι → List (σ × ι)
  | _, [] => []
  | s, l :: ls => (s, l) :: (f s l).elim [] fun t => trace f t ls

theorem mem_trace {f : σ → ι → Option σ} {p : σ × ι} :
    ∀ {ls : List ι} {s : σ}, p ∈ trace f s ls → p.2 ∈ ls
  | [], _, h => nomatch h
  | l :: ls, s, h => by
    rcases List.mem_cons.mp h with rfl | h
    · exact List.mem_cons_self
    · cases ht : f s l with
      | none => rw [ht] at h; cases h
      | some t =>
        rw [ht] at h
        exact List.mem_cons_of_mem _ (mem_trace h)

theorem exec_path {f : σ → ι → Option σ} (hf : ∀ s l t, f s l = some t → T.step s l t) :
    ∀ {ls : List ι} {s t : σ}, exec f s ls = some t → T.Path s (trace f s ls) t
  | [], s, t, h => by
    cases h
    exact .nil s
  | l :: ls, s, t, h => by
    obtain ⟨u, hu, h⟩ := Option.bind_eq_some_iff.mp h
    unfold trace
    rw [hu]
    exact .cons (hf s l u hu) (exec_path hf h)

end Lts
