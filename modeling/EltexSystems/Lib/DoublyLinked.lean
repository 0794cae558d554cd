import Mathlib.Data.List.Nodup

/-!
# Doubly linked lists in memory

The addresses `l` of a list whose nodes point to the node after and to the node before them
(`Linked`).  A walk along either link meets exactly these, in order or in reverse (`Linked.forward`,
`Linked.backward`).  A node may be put behind the last (`Linked.concat`), and a node is taken out by
leading the links to it where its own lead (`Linked.eraseIdx`).
-/

namespace DoublyLinked

variable {α : Type*}

/-- The addresses met from a pointer on, following a link up to NULL. -/
inductive Walk (get : ℕ → Option α) (link : α → Option ℕ) : Option ℕ → List ℕ → Prop where
  | null : Walk get link none []
  | node {p : ℕ} {v : α} {l : List ℕ} :
      get p = some v → Walk get link (link v) l → Walk get link (some p) (p :: l)

/-- The address before a position. -/
def before (l : List ℕ) : ℕ → Option ℕ
  | 0 => none
  | i + 1 => l[i]?

structure Linked (get : ℕ → Option α) (next prev : α → Option ℕ) (l : List ℕ) : Prop where
  nodup : l.Nodup
  links : ∀ i p, l[i]? = some p →
    ∃ v, get p = some v ∧ next v = l[i + 1]? ∧ prev v = before l i

variable {get get' : ℕ → Option α} {next prev link : α → Option ℕ} {l l' : List ℕ}

theorem Walk.unique {a : Option ℕ} (h : Walk get link a l) (h' : Walk get link a l') : l = l' := by
  induction h generalizing l' with
  | null =>
    cases h'
    rfl
  | node hv _ ih =>
    cases h' with
    | node hw h' =>
      cases hv.symm.trans hw
      rw [ih h']

theorem Walk.onward {p q : ℕ} (h : Walk get link (some p) l) (hq : (get p).bind link = some q) :
    ∃ l', Walk get link (some q) l' := by
  cases h with
  | node hv h =>
    rw [hv, Option.bind_some] at hq
    exact ⟨_, hq ▸ h⟩

namespace Linked

theorem nil : Linked get next prev [] := ⟨List.nodup_nil, fun _ _ hi => by simp at hi⟩

theorem read (h : Linked get next prev l) {p : ℕ} (hp : p ∈ l) : ∃ v, get p = some v := by
  obtain ⟨i, hi⟩ := List.mem_iff_getElem?.mp hp
  obtain ⟨v, hv, -⟩ := h.links i p hi
  exact ⟨v, hv⟩

theorem at_unique (h : Linked get next prev l) {i j p : ℕ} (hi : l[i]? = some p)
    (hj : l[j]? = some p) : i = j := by
  obtain ⟨hlt, hi⟩ := List.getElem?_eq_some_iff.mp hi
  obtain ⟨hlt', hj⟩ := List.getElem?_eq_some_iff.mp hj
  exact (List.Nodup.getElem_inj_iff h.nodup).mp (hi.trans hj.symm)

/-- From a position on the list is walked along `next`. -/
theorem walk_drop (h : Linked get next prev l) :
    ∀ n i : ℕ, i + n = l.length → Walk get next l[i]? (l.drop i)
  | 0, i, hn => by
    rw [List.getElem?_eq_none (by omega), List.drop_of_length_le (by omega)]
    exact .null
  | n + 1, i, hn => by
    have hlt : i < l.length := by omega
    obtain ⟨v, hv, hnext, -⟩ := h.links i l[i] (List.getElem?_eq_getElem hlt)
    rw [List.getElem?_eq_getElem hlt, List.drop_eq_getElem_cons hlt]
    refine .node hv ?_
    rw [hnext]
    exact walk_drop h n (i + 1) (by omega)

theorem forward (h : Linked get next prev l) : Walk get next l[0]? l := by
  simpa using h.walk_drop l.length 0 (Nat.zero_add _)

/-- Up to a position the list is walked backwards along `prev`. -/
theorem walk_take (h : Linked get next prev l) :
    ∀ i, i ≤ l.length → Walk get prev (before l i) (l.take i).reverse
  | 0, _ => .null
  | i + 1, hle => by
    have hlt : i < l.length := by omega
    obtain ⟨v, hv, -, hprev⟩ := h.links i l[i] (List.getElem?_eq_getElem hlt)
    rw [List.take_add_one, List.getElem?_eq_getElem hlt, Option.toList_some, List.reverse_append]
    show Walk get prev l[i]? (l[i] :: (l.take i).reverse)
    rw [List.getElem?_eq_getElem hlt]
    refine .node hv ?_
    rw [hprev]
    exact walk_take h i (by omega)

theorem before_length (l : List ℕ) : before l l.length = l.getLast? := by
  rcases l.eq_nil_or_concat with rfl | ⟨l', p, rfl⟩
  · rfl
  · simp [before]

theorem backward (h : Linked get next prev l) : Walk get prev l.getLast? l.reverse := by
  have hw := h.walk_take l.length (Nat.le_refl _)
  rwa [before_length, List.take_length] at hw

theorem getLast?_eq_some (h : Linked get next prev l) {i p : ℕ} (hi : l[i]? = some p) :
    l.getLast? = some p ↔ l[i + 1]? = none := by
  have hlt := (List.getElem?_eq_some_iff.mp hi).1
  rw [List.getLast?_eq_getElem?, List.getElem?_eq_none_iff]
  constructor
  · intro hlast
    have := h.at_unique hi hlast
    omega
  · intro hle
    rw [show l.length - 1 = i by omega]
    exact hi

theorem next_iff (h : Linked get next prev l) {p q : ℕ} {u v : α} (hp : p ∈ l) (hq : q ∈ l)
    (hu : get p = some u) (hv : get q = some v) : next v = some p ↔ prev u = some q := by
  obtain ⟨k, hk⟩ := List.mem_iff_getElem?.mp hp
  obtain ⟨j, hj⟩ := List.mem_iff_getElem?.mp hq
  obtain ⟨u', hu', -, hprev⟩ := h.links k p hk
  obtain ⟨v', hv', hnext, -⟩ := h.links j q hj
  cases hu.symm.trans hu'
  cases hv.symm.trans hv'
  rw [hnext, hprev]
  constructor
  · intro hjp
    obtain rfl := h.at_unique hjp hk
    exact hj
  · intro hkq
    cases k with
    | zero => cases hkq
    | succ k =>
      obtain rfl := h.at_unique hkq hj
      exact hk

theorem next_ne (h : Linked get next prev l) {p : ℕ} {u : α} (hp : p ∈ l) (hu : get p = some u) :
    next u ≠ some p := by
  obtain ⟨k, hk⟩ := List.mem_iff_getElem?.mp hp
  obtain ⟨u', hu', hnext, -⟩ := h.links k p hk
  cases hu.symm.trans hu'
  rw [hnext]
  intro hself
  have := h.at_unique hself hk
  omega

theorem prev_ne (h : Linked get next prev l) {p : ℕ} {u : α} (hp : p ∈ l) (hu : get p = some u) :
    prev u ≠ some p :=
  fun hself => h.next_ne hp hu ((h.next_iff hp hp hu hu).mpr hself)

/-- A node is put behind the last, which is led to it. -/
theorem concat (h : Linked get next prev l) {p : ℕ} (hp : p ∉ l)
    (hnew : ∃ v, get' p = some v ∧ next v = none ∧ prev v = l.getLast?)
    (hold : ∀ q v, q ∈ l → get q = some v → ∃ v', get' q = some v' ∧ prev v' = prev v ∧
      next v' = if l.getLast? = some q then some p else next v) :
    Linked get' next prev (l ++ [p]) := by
  refine ⟨?_, fun i q hi => ?_⟩
  · refine List.nodup_append.mpr ⟨h.nodup, List.nodup_singleton p, ?_⟩
    rintro a ha b hb rfl
    exact hp (List.mem_singleton.mp hb ▸ ha)
  · have hbefore : ∀ j, j ≤ l.length → before (l ++ [p]) j = before l j := by
      intro j hj
      cases j with
      | zero => rfl
      | succ j => exact List.getElem?_append_left (by omega)
    rcases Nat.lt_or_ge i l.length with hlt | hge
    · rw [List.getElem?_append_left hlt] at hi
      obtain ⟨v, hv, hnext, hprev⟩ := h.links i q hi
      obtain ⟨v', hv', hprev', hnext'⟩ := hold q v (List.mem_of_getElem? hi) hv
      refine ⟨v', hv', ?_, by rw [hprev', hprev, hbefore i (by omega)]⟩
      rw [hnext']
      by_cases hlast : i + 1 = l.length
      · rw [if_pos ((h.getLast?_eq_some hi).mpr (List.getElem?_eq_none (by omega))), hlast]
        simp
      · rw [if_neg (fun hq => ?_), hnext, List.getElem?_append_left (by omega)]
        have := List.getElem?_eq_none_iff.mp ((h.getLast?_eq_some hi).mp hq)
        omega
    · have hlt := (List.getElem?_eq_some_iff.mp hi).1
      rw [List.length_append, List.length_singleton] at hlt
      obtain rfl : i = l.length := by omega
      rw [List.getElem?_append_right (Nat.le_refl _), Nat.sub_self] at hi
      obtain rfl : p = q := by simpa using hi
      obtain ⟨v, hv, hnext, hprev⟩ := hnew
      refine ⟨v, hv, by rw [hnext, List.getElem?_eq_none (by simp)], ?_⟩
      rw [hprev, hbefore _ (Nat.le_refl _), before_length]

/-- A node is taken out: the links to it lead where its own lead, and the others stay. -/
theorem eraseIdx (h : Linked get next prev l) {k p : ℕ} {u : α} (hk : l[k]? = some p)
    (hu : get p = some u)
    (hold : ∀ q v, q ∈ l → q ≠ p → get q = some v → ∃ v', get' q = some v' ∧
      next v' = (if next v = some p then next u else next v) ∧
      prev v' = if prev v = some p then prev u else prev v) :
    Linked get' next prev (l.eraseIdx k) := by
  obtain ⟨hklt, -⟩ := List.getElem?_eq_some_iff.mp hk
  obtain ⟨u', hu', hunext, huprev⟩ := h.links k p hk
  cases hu.symm.trans hu'
  refine ⟨h.nodup.sublist (List.eraseIdx_sublist l k), fun i q hi => ?_⟩
  -- the position in the whole list
  obtain ⟨j, hj, hjk, hij⟩ : ∃ j, l[j]? = some q ∧ j ≠ k ∧ (i = if j < k then j else j - 1) := by
    rw [List.getElem?_eraseIdx] at hi
    split_ifs at hi with hik
    · exact ⟨i, hi, by omega, by rw [if_pos hik]⟩
    · exact ⟨i + 1, hi, by omega, by rw [if_neg (by omega)]; rfl⟩
  have hqp : q ≠ p := fun hq => hjk (h.at_unique hj (hq ▸ hk))
  obtain ⟨v, hv, hnext, hprev⟩ := h.links j q hj
  obtain ⟨v', hv', hnext', hprev'⟩ := hold q v (List.mem_of_getElem? hj) hqp hv
  refine ⟨v', hv', ?_, ?_⟩
  · rw [hnext', hnext, List.getElem?_eraseIdx, hunext]
    by_cases hjk' : j + 1 = k
    · rw [if_pos (hjk' ▸ hk), if_neg (by rw [hij]; split_ifs <;> omega), hij, if_pos (by omega),
        hjk']
    · rw [if_neg fun hq => hjk' (h.at_unique hq hk)]
      by_cases hlt : j < k
      · rw [if_pos (by rw [hij, if_pos hlt]; omega), hij, if_pos hlt]
      · rw [if_neg (by rw [hij, if_neg hlt]; omega), hij, if_neg hlt,
          show j - 1 + 1 + 1 = j + 1 by omega]
  · rw [hprev', hprev, huprev]
    by_cases hjk' : j = k + 1
    · rw [if_pos (show before l j = some p by rw [hjk']; exact hk), hij, hjk',
        if_neg (by omega), Nat.add_sub_cancel]
      cases k with
      | zero => rfl
      | succ k => simp [before, List.getElem?_eraseIdx]
    · have hne : before l j ≠ some p := by
        cases j with
        | zero => exact fun hq => by cases hq
        | succ j => exact fun hq => hjk' (by rw [h.at_unique hq hk])
      rw [if_neg hne, hij]
      cases j with
      | zero => rw [if_pos (by omega)]; rfl
      | succ j =>
        by_cases hlt : j + 1 < k
        · rw [if_pos hlt]
          simp only [before]
          rw [List.getElem?_eraseIdx, if_pos (by omega)]
        · rw [if_neg hlt, Nat.add_sub_cancel]
          obtain ⟨m, rfl⟩ : ∃ m, j = m + 1 := ⟨j - 1, by omega⟩
          simp only [before]
          rw [List.getElem?_eraseIdx, if_neg (by omega)]

theorem head_eraseIdx {l : List ℕ} {k : ℕ} (hk : k < l.length) :
    (l.eraseIdx k)[0]? = if before l k = none then l[k + 1]? else l[0]? := by
  rw [List.getElem?_eraseIdx]
  cases k with
  | zero => rfl
  | succ k =>
    rw [if_pos (Nat.succ_pos k), if_neg]
    simp only [before]
    rw [List.getElem?_eq_getElem (by omega)]
    exact Option.some_ne_none _

theorem getLast?_eraseIdx {l : List ℕ} {k : ℕ} (hk : k < l.length) :
    (l.eraseIdx k).getLast? = if l[k + 1]? = none then before l k else l.getLast? := by
  rw [List.getLast?_eq_getElem?, List.getLast?_eq_getElem?, List.length_eraseIdx_of_lt hk,
    List.getElem?_eraseIdx]
  by_cases hnone : l[k + 1]? = none
  · have hle := List.getElem?_eq_none_iff.mp hnone
    rw [if_pos hnone]
    cases k with
    | zero => rw [if_neg (Nat.not_lt_zero _), List.getElem?_eq_none (by omega), before]
    | succ k => rw [if_pos (by omega), before, show l.length - 1 - 1 = k by omega]
  · have hlt : k + 1 < l.length := by
      by_contra hge
      exact hnone (List.getElem?_eq_none (by omega))
    rw [if_neg hnone, if_neg (by omega), show l.length - 1 - 1 + 1 = l.length - 1 by omega]

end Linked

end DoublyLinked
