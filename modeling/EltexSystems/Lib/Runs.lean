import Mathlib.Data.List.Basic
import Mathlib.Data.List.TakeWhile

/-!
# Maximal runs

The maximal runs of a list between elements with a property, each with its place (`mem_runs_iff`),
the places in order (`runs_sorted`).  They are found from the front: elements with the property are
passed over (`runs_skip`), and what comes before the next of them is a run (`runs_word`).
-/

namespace Runs

variable {α : Type*} {p : α → Bool} {a : α} {l sp w : List α} {i j : ℕ}

/-- A part of a list that lies between elements with the property, or the ends, and has none. -/
structure IsRun (p : α → Bool) (l : List α) (i : ℕ) (w : List α) : Prop where
  ne_nil : w ≠ []
  inside : ∀ a ∈ w, p a = false
  place : ∃ pre post, l = pre ++ (w ++ post) ∧ pre.length = i ∧
    (∀ a ∈ pre.getLast?, p a = true) ∧ ∀ a ∈ post.head?, p a = true

theorem IsRun.add_length_le (h : IsRun p l i w) : i + w.length ≤ l.length := by
  obtain ⟨pre, post, rfl, rfl, -⟩ := h.place
  rw [List.length_append, List.length_append]
  exact Nat.add_le_add_left (Nat.le_add_right _ _) _

/-- One more element in front of some runs, of which the first may begin behind it. -/
def grow (i : ℕ) (a : α) : List (ℕ × List α) → List (ℕ × List α)
  | [] => [(i, [a])]
  | (j, w) :: rs => if j = i + 1 then (i, a :: w) :: rs else (i, [a]) :: (j, w) :: rs

/-- The runs with their places, the list beginning at the one given. -/
def runs (p : α → Bool) : ℕ → List α → List (ℕ × List α)
  | _, [] => []
  | i, a :: l => if p a then runs p (i + 1) l else grow i a (runs p (i + 1) l)

section Order

theorem grow_of_lt {rs : List (ℕ × List α)} (h : ∀ q ∈ rs, i + 1 < q.1) :
    grow i a rs = (i, [a]) :: rs := by
  rcases rs with _ | ⟨⟨j, w⟩, rs⟩
  · rfl
  · exact if_neg (Nat.ne_of_gt (h _ List.mem_cons_self))

theorem le_of_mem_runs : ∀ {l : List α} {i : ℕ}, ∀ q ∈ runs p i l, i ≤ q.1
  | [], i, q, hq => by cases hq
  | a :: l, i, q, hq => by
    rw [runs] at hq
    split_ifs at hq
    · exact Nat.le_of_succ_le (le_of_mem_runs q hq)
    have hle : ∀ r ∈ runs p (i + 1) l, i ≤ r.1 := fun r hr =>
      Nat.le_of_succ_le (le_of_mem_runs r hr)
    generalize runs p (i + 1) l = rs at hq hle
    rcases rs with _ | ⟨⟨j, w⟩, rs⟩
    · obtain rfl := List.mem_singleton.mp hq
      exact Nat.le_refl i
    · rw [grow] at hq
      split_ifs at hq
      · rcases List.mem_cons.mp hq with rfl | hq
        · exact Nat.le_refl i
        · exact hle q (List.mem_cons_of_mem _ hq)
      · rcases List.mem_cons.mp hq with rfl | hq
        · exact Nat.le_refl i
        · exact hle q hq

theorem runs_sorted (p : α → Bool) : ∀ (l : List α) (i : ℕ),
    ((runs p i l).map Prod.fst).Pairwise (· < ·)
  | [], i => .nil
  | a :: l, i => by
    have hsorted := runs_sorted p l (i + 1)
    have hle : ∀ q ∈ runs p (i + 1) l, i < q.1 := fun q hq => le_of_mem_runs q hq
    rw [runs]
    split_ifs
    · exact hsorted
    generalize runs p (i + 1) l = rs at hsorted hle
    rcases rs with _ | ⟨⟨j, w⟩, rs⟩
    · exact List.pairwise_singleton _ _
    rw [grow]
    split_ifs
    · rw [List.map_cons, List.pairwise_cons] at hsorted ⊢
      refine ⟨fun k hk => ?_, hsorted.2⟩
      obtain ⟨q, hq, rfl⟩ := List.mem_map.mp hk
      exact hle q (List.mem_cons_of_mem _ hq)
    · rw [List.map_cons, List.pairwise_cons]
      refine ⟨fun k hk => ?_, hsorted⟩
      obtain ⟨q, hq, rfl⟩ := List.mem_map.mp hk
      exact hle q hq

/-- What is put in front of the others is a run of its own, or one with the first of them. -/
theorem mem_grow {rs : List (ℕ × List α)} (hsorted : (rs.map Prod.fst).Pairwise (· < ·))
    (hle : ∀ q ∈ rs, i + 1 ≤ q.1) : (j, w) ∈ grow i a rs ↔
      (j = i ∧ ∃ v, w = a :: v ∧ ((i + 1, v) ∈ rs ∨ v = [] ∧ ∀ u, (i + 1, u) ∉ rs)) ∨
        (i + 1 < j ∧ (j, w) ∈ rs) := by
  by_cases hlt : ∀ q ∈ rs, i + 1 < q.1
  · have hnot : ∀ u, (i + 1, u) ∉ rs := fun u hu => Nat.lt_irrefl _ (hlt _ hu)
    rw [grow_of_lt hlt, List.mem_cons, Prod.mk.injEq]
    refine or_congr (and_congr_right fun _ => ⟨?_, ?_⟩) (iff_and_self.mpr (hlt (j, w)))
    · rintro rfl
      exact ⟨[], rfl, .inr ⟨rfl, hnot⟩⟩
    · rintro ⟨v, rfl, hv | ⟨rfl, -⟩⟩
      · exact absurd hv (hnot v)
      · rfl
  · rcases rs with _ | ⟨⟨k, u⟩, rs⟩
    · exact absurd (fun q hq => by cases hq) hlt
    rw [List.map_cons, List.pairwise_cons] at hsorted
    have hnext : ∀ q ∈ rs, k < q.1 := fun q hq => hsorted.1 _ (List.mem_map_of_mem hq)
    obtain rfl : k = i + 1 := by
      by_contra hne
      have hk : i + 1 < k := Nat.lt_of_le_of_ne (hle _ List.mem_cons_self) (Ne.symm hne)
      refine hlt fun q hq => ?_
      rcases List.mem_cons.mp hq with rfl | hq
      · exact hk
      · exact Nat.lt_trans hk (hnext q hq)
    rw [grow, if_pos rfl, List.mem_cons, Prod.mk.injEq]
    refine or_congr (and_congr_right fun _ => ⟨?_, ?_⟩) ⟨fun h => ?_, ?_⟩
    · rintro rfl
      exact ⟨u, rfl, .inl List.mem_cons_self⟩
    · rintro ⟨v, rfl, hv | ⟨-, hv⟩⟩
      · rcases List.mem_cons.mp hv with hv | hv
        · rw [(Prod.mk.inj hv).2]
        · exact absurd (hnext _ hv) (Nat.lt_irrefl _)
      · exact absurd List.mem_cons_self (hv u)
    · exact ⟨hnext _ h, List.mem_cons_of_mem _ h⟩
    · rintro ⟨hlt, h⟩
      rcases List.mem_cons.mp h with h | h
      · rw [(Prod.mk.inj h).1] at hlt
        exact absurd hlt (Nat.lt_irrefl _)
      · exact h

end Order

section Maximal

/-- Where elements without the property end, one with it follows. -/
theorem head_dropWhile_not (p : α → Bool) (l : List α) :
    ∀ a ∈ (l.dropWhile (!p ·)).head?, p a = true := by
  intro a ha
  have hhead := List.head?_dropWhile_not (!p ·) l
  rw [Option.mem_def.mp ha] at hhead
  simpa using hhead

/-- Behind the elements with the property a run begins. -/
theorem takeWhile_not_ne_nil (h : l.dropWhile p ≠ []) :
    (l.dropWhile p).takeWhile (!p ·) ≠ [] := by
  obtain ⟨a, t, ht⟩ := List.exists_cons_of_ne_nil h
  have hhead := List.head?_dropWhile_not p l
  rw [ht, List.head?_cons] at hhead
  rw [ht, List.takeWhile_cons_of_pos (by simpa using hhead)]
  exact List.cons_ne_nil _ _

/-- A run behind the front of a list is one of the tail, unless it only begins there. -/
theorem isRun_cons_succ : IsRun p (a :: l) (i + 1) w ↔ IsRun p l i w ∧ (i = 0 → p a = true) := by
  constructor
  · rintro ⟨hne, hin, pre, post, hl, hlen, hpre, hpost⟩
    rcases pre with _ | ⟨b, pre⟩
    · cases hlen
    obtain ⟨rfl, rfl⟩ := List.cons.inj hl
    refine ⟨⟨hne, hin, pre, post, rfl, Nat.succ.inj hlen, fun c hc => hpre c ?_, hpost⟩,
      fun hi => hpre a ?_⟩
    · rw [Option.mem_def] at hc ⊢
      rw [List.getLast?_cons, hc]
      rfl
    · obtain rfl := List.eq_nil_of_length_eq_zero ((Nat.succ.inj hlen).trans hi)
      rfl
  · rintro ⟨⟨hne, hin, pre, post, rfl, hlen, hpre, hpost⟩, ha⟩
    refine ⟨hne, hin, a :: pre, post, rfl, congrArg (· + 1) hlen, fun c hc => ?_, hpost⟩
    rcases pre.eq_nil_or_concat' with rfl | ⟨pre, b, rfl⟩
    · obtain rfl := Option.some.inj hc
      exact ha hlen.symm
    · refine hpre c ?_
      rw [Option.mem_def, List.getLast?_concat]
      rwa [Option.mem_def, ← List.cons_append, List.getLast?_concat] at hc

theorem isRun_zero : IsRun p l 0 w ↔
    w ≠ [] ∧ (∀ a ∈ w, p a = false) ∧ ∃ post, l = w ++ post ∧ ∀ a ∈ post.head?, p a = true := by
  constructor
  · rintro ⟨hne, hin, pre, post, rfl, hlen, -, hpost⟩
    obtain rfl := List.eq_nil_of_length_eq_zero hlen
    exact ⟨hne, hin, post, rfl, hpost⟩
  · rintro ⟨hne, hin, post, rfl, hpost⟩
    exact ⟨hne, hin, [], post, rfl, rfl, fun c hc => (by cases hc), hpost⟩

/-- A run begins a list exactly when an element without the property does. -/
theorem exists_isRun_zero : (∃ w, IsRun p l 0 w) ↔ ∃ a ∈ l.head?, p a = false := by
  constructor
  · rintro ⟨w, h⟩
    obtain ⟨hne, hin, post, rfl, -⟩ := isRun_zero.mp h
    obtain ⟨b, w, rfl⟩ := List.exists_cons_of_ne_nil hne
    exact ⟨b, rfl, hin b List.mem_cons_self⟩
  · rintro ⟨a, ha, hpa⟩
    obtain ⟨t, rfl⟩ := List.head?_eq_some_iff.mp ha
    refine ⟨(a :: t).takeWhile (!p ·), isRun_zero.mpr ⟨?_, fun b hb => ?_, _,
      List.takeWhile_append_dropWhile.symm, head_dropWhile_not p _⟩⟩
    · rw [List.takeWhile_cons_of_pos (by rw [hpa]; rfl)]
      exact List.cons_ne_nil _ _
    · simpa using List.mem_takeWhile_imp hb

theorem isRun_cons_zero : IsRun p (a :: l) 0 w ↔ p a = false ∧ ∃ v, w = a :: v ∧
    (IsRun p l 0 v ∨ v = [] ∧ ∀ u, ¬ IsRun p l 0 u) := by
  constructor
  · intro h
    obtain ⟨hne, hin, post, hl, hpost⟩ := isRun_zero.mp h
    obtain ⟨b, v, rfl⟩ := List.exists_cons_of_ne_nil hne
    obtain ⟨rfl, rfl⟩ := List.cons.inj hl
    refine ⟨hin a List.mem_cons_self, v, rfl, ?_⟩
    by_cases hv : v = []
    · subst hv
      refine .inr ⟨rfl, fun u hu => ?_⟩
      obtain ⟨b, hb, hpb⟩ := exists_isRun_zero.mp ⟨u, hu⟩
      rw [hpost b hb] at hpb
      cases hpb
    · exact .inl (isRun_zero.mpr ⟨hv, fun c hc => hin c (List.mem_cons_of_mem _ hc), post, rfl,
        hpost⟩)
  · rintro ⟨ha, v, rfl, h | ⟨rfl, h⟩⟩
    · obtain ⟨-, hin, post, rfl, hpost⟩ := isRun_zero.mp h
      exact isRun_zero.mpr ⟨List.cons_ne_nil _ _, List.forall_mem_cons.mpr ⟨ha, hin⟩, post, rfl,
        hpost⟩
    · refine isRun_zero.mpr ⟨List.cons_ne_nil _ _, List.forall_mem_cons.mpr
        ⟨ha, List.forall_mem_nil _⟩, l, rfl, fun b hb => ?_⟩
      by_contra hpb
      obtain ⟨u, hu⟩ := exists_isRun_zero.mpr ⟨b, hb, by simpa using hpb⟩
      exact h u hu

/-- The runs found are the maximal ones. -/
theorem mem_runs_iff : ∀ {l : List α} {i j : ℕ} {w : List α},
    (j, w) ∈ runs p i l ↔ ∃ k, j = i + k ∧ IsRun p l k w
  | [], i, j, w => by
    refine iff_of_false List.not_mem_nil ?_
    rintro ⟨k, -, hne, -, pre, post, hl, -⟩
    simp [hne] at hl
  | a :: l, i, j, w => by
    rw [runs]
    split_ifs with ha
    · rw [mem_runs_iff]
      constructor
      · rintro ⟨k, rfl, h⟩
        exact ⟨k + 1, by omega, isRun_cons_succ.mpr ⟨h, fun _ => ha⟩⟩
      · rintro ⟨_ | k, rfl, h⟩
        · rw [(isRun_cons_zero.mp h).1] at ha
          cases ha
        · exact ⟨k, by omega, (isRun_cons_succ.mp h).1⟩
    · have hzero : ∀ v, (i + 1, v) ∈ runs p (i + 1) l ↔ IsRun p l 0 v := by
        intro v
        rw [mem_runs_iff]
        constructor
        · rintro ⟨k, hk, h⟩
          obtain rfl : k = 0 := by omega
          exact h
        · exact fun h => ⟨0, rfl, h⟩
      rw [mem_grow (runs_sorted p l (i + 1)) fun q hq => le_of_mem_runs q hq]
      simp only [hzero]
      constructor
      · rintro (⟨rfl, h⟩ | ⟨hlt, h⟩)
        · exact ⟨0, rfl, isRun_cons_zero.mpr ⟨by simpa using ha, h⟩⟩
        · obtain ⟨k, rfl, hrun⟩ := mem_runs_iff.mp h
          exact ⟨k + 1, by omega, isRun_cons_succ.mpr ⟨hrun, fun hk => absurd hlt (by omega)⟩⟩
      · rintro ⟨_ | k, rfl, h⟩
        · exact .inl ⟨rfl, (isRun_cons_zero.mp h).2⟩
        · obtain ⟨h, hfront⟩ := isRun_cons_succ.mp h
          have hk : k ≠ 0 := fun hk => ha (hfront hk)
          exact .inr ⟨by omega, mem_runs_iff.mpr ⟨k, by omega, h⟩⟩

end Maximal

section Front

/-- Elements with the property are passed over. -/
theorem runs_skip : ∀ {sp : List α}, (∀ a ∈ sp, p a = true) → ∀ (i : ℕ) (l : List α),
    runs p i (sp ++ l) = runs p (i + sp.length) l
  | [], _, i, l => rfl
  | a :: sp, h, i, l => by
    rw [List.cons_append, runs, if_pos (h a List.mem_cons_self),
      runs_skip (fun b hb => h b (List.mem_cons_of_mem _ hb)), List.length_cons]
    congr 1
    omega

theorem runs_eq_nil (h : ∀ a ∈ l, p a = true) (i : ℕ) : runs p i l = [] := by
  have hskip := runs_skip h i []
  rwa [List.append_nil] at hskip

theorem runs_tail (h : ∀ a ∈ l.head?, p a = true) (i : ℕ) :
    runs p i l = runs p (i + 1) l.tail := by
  rcases l with _ | ⟨a, l⟩
  · rfl
  · exact if_pos (h a rfl)

/-- Elements without it, up to one that has it or the end, are a run. -/
theorem runs_word : ∀ {w : List α}, w ≠ [] → (∀ a ∈ w, p a = false) →
    (∀ a ∈ l.head?, p a = true) → ∀ i : ℕ,
    runs p i (w ++ l) = (i, w) :: runs p (i + w.length) l
  | [], hne, _, _, _ => absurd rfl hne
  | [a], _, hw, hl, i => by
    have ha : ¬ p a = true := by
      rw [hw a List.mem_cons_self]
      exact Bool.false_ne_true
    have hlt : ∀ q ∈ runs p (i + 1) l, i + 1 < q.1 := by
      intro q hq
      rw [runs_tail hl] at hq
      exact le_of_mem_runs q hq
    rw [List.singleton_append, runs, if_neg ha, grow_of_lt hlt, List.length_singleton]
  | a :: b :: w, _, hw, hl, i => by
    have ha : ¬ p a = true := by
      rw [hw a List.mem_cons_self]
      exact Bool.false_ne_true
    have hrest := runs_word (List.cons_ne_nil b w) (fun c hc => hw c (List.mem_cons_of_mem _ hc))
      hl (i + 1)
    rw [List.cons_append, runs, if_neg ha, hrest, grow, if_pos rfl, Nat.add_assoc, Nat.add_comm 1]
    rfl

/-- The first run, and what follows it. -/
theorem runs_eq_cons (h : l.dropWhile p ≠ []) (i : ℕ) :
    runs p i l = (i + (l.takeWhile p).length, (l.dropWhile p).takeWhile (!p ·))
      :: runs p (i + (l.takeWhile p).length + ((l.dropWhile p).takeWhile (!p ·)).length)
        ((l.dropWhile p).dropWhile (!p ·)) := by
  have hskip : runs p i (l.takeWhile p ++ l.dropWhile p)
      = runs p (i + (l.takeWhile p).length) (l.dropWhile p) :=
    runs_skip (fun a ha => List.mem_takeWhile_imp ha) _ _
  rw [List.takeWhile_append_dropWhile] at hskip
  have hin : ∀ a ∈ (l.dropWhile p).takeWhile (!p ·), p a = false := fun a ha => by
    simpa using List.mem_takeWhile_imp ha
  have hrest := runs_word (takeWhile_not_ne_nil h) hin (head_dropWhile_not p (l.dropWhile p))
    (i + (l.takeWhile p).length)
  rw [List.takeWhile_append_dropWhile] at hrest
  rw [hskip, hrest]

end Front

end Runs
