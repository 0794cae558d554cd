import EltexSystems.DynMem

/-!
# The list of `dynmem/dynmem.c` stays intact

The nodes are those of a doubly linked list whose ends are `head` and `tail` and which is all that
is live (`DynInv`).  Adding puts a node behind the last, removing takes out the node of the number
typed, the first one for a negative number, and `free_all` takes out all of them; none of it faults
(`DynInv.run`), and what the walks meet is intact (`DynInv.intact`).
-/

namespace EltexSystems

open CStr Mem DoublyLinked

/-- The nodes `l` are the list, and all that is live. -/
structure DynInv (b : DynBook) (l : List ℕ) : Prop where
  linked : Linked b.heap.read AbonentNode.next AbonentNode.prev l
  head : b.head = l[0]?
  tail : b.tail = l.getLast?
  live : ∀ p, b.heap.Live p ↔ p ∈ l
  heap : b.heap.Wf

variable {b b' : DynBook} {l : List ℕ}

theorem DynInv.start : DynInv .start [] :=
  ⟨.nil, rfl, rfl, fun p => by simp [Heap.Live, DynBook.start, Heap.empty], .empty⟩

theorem DynInv.read (h : DynInv b l) {p : ℕ} (hp : p ∈ l) : ∃ v, b.heap.read p = some v :=
  h.linked.read hp

theorem DynInv.read_none (h : DynInv b l) {p : ℕ} (hp : p ∉ l) : b.heap.read p = none := by
  rw [← Heap.not_live, h.live]
  exact hp

theorem DynInv.mem_of_read (h : DynInv b l) {p : ℕ} {v : AbonentNode}
    (hv : b.heap.read p = some v) : p ∈ l :=
  (h.live p).mp (Heap.live_iff.mpr ⟨v, hv⟩)

section Adding

theorem DynInv.concat (h : DynInv b l) {p : ℕ} (hp : p ∉ l) {new : AbonentNode}
    (hnext : new.next = none) (hprev : new.prev = b.tail) (hnew : b'.heap.read p = some new)
    (hold : ∀ q, q ≠ p → b'.heap.read q = (b.heap.read q).map fun v =>
      if b.tail = some q then { v with next := some p } else v)
    (hhead : b'.head = if b.tail = none then some p else b.head) (htail : b'.tail = some p)
    (hheap : b'.heap.Wf) :
    DynInv b' (l ++ [p]) ∧
      recordsAt b'.heap (l ++ [p]) = recordsAt b.heap l ++ [some new.shown] := by
  have hmem : ∀ q v, q ∈ l → b.heap.read q = some v → b'.heap.read q =
      some (if b.tail = some q then { v with next := some p } else v) := by
    intro q v hq hv
    rw [hold q fun heq => hp (heq ▸ hq), hv]
    rfl
  refine ⟨⟨?_, ?_, ?_, fun q => ?_, hheap⟩, ?_⟩
  · refine h.linked.concat hp ⟨new, hnew, hnext, hprev.trans h.tail⟩ fun q v hq hv =>
      ⟨_, hmem q v hq hv, ?_⟩
    rw [← h.tail]
    split_ifs <;> exact ⟨rfl, rfl⟩
  · rw [hhead, h.head, h.tail]
    rcases l with _ | ⟨q, l⟩
    · rfl
    · rw [if_neg (by simp)]
      rfl
  · rw [htail]
    exact List.getLast?_concat.symm
  · rw [Heap.live_iff, List.mem_append, List.mem_singleton]
    by_cases hq : q = p
    · exact iff_of_true ⟨new, hq ▸ hnew⟩ (.inr hq)
    · rw [hold q hq, or_iff_left hq, ← h.live, Heap.live_iff]
      simp
  · unfold recordsAt
    rw [List.map_append, List.map_cons, List.map_nil, hnew]
    congr 1
    refine List.map_congr_left fun q hq => ?_
    obtain ⟨v, hv⟩ := h.read hq
    rw [hmem q v hq hv, hv]
    split_ifs <;> rfl

theorem DynInv.link (h : DynInv b l) {p : ℕ} (hp : ¬ b.heap.Live p) (junk : AbonentNode)
    {f : AbonentNode → AbonentNode} (hnext : (f junk).next = none)
    (hprev : (f junk).prev = b.tail) :
    ∃ b', b.link p junk f = some b' ∧ DynInv b' (l ++ [p]) ∧
      recordsAt b'.heap (l ++ [p]) = recordsAt b.heap l ++ [some (f junk).shown] := by
  have hpl : p ∉ l := fun hm => hp ((h.live p).mpr hm)
  have hmalloc := h.heap.malloc hp junk
  have hread : (b.heap.malloc p junk).read p = some junk := by
    rw [Heap.read_malloc, if_pos rfl]
  obtain ⟨h₁, hm₁, -, hread₁⟩ := Heap.modify_of_read f hread
  have hnew₁ := (hread₁ p).trans (if_pos rfl)
  have hold₁ : ∀ q, q ≠ p → h₁.read q = b.heap.read q := by
    intro q hq
    rw [hread₁, if_neg hq, Heap.read_malloc, if_neg hq]
  unfold DynBook.link DynBook.putLast
  simp only [hm₁, Option.bind_some]
  rcases ht : b.tail with _ | t
  · refine ⟨_, rfl, @DynInv.concat b ⟨h₁, some p, some p⟩ l h p hpl _ hnext hprev hnew₁
      (fun q hq => ?_) (by rw [ht]; rfl) rfl (hmalloc.modify hm₁)⟩
    show h₁.read q = _
    rw [hold₁ q hq, ht]
    simp
  · have htl : t ∈ l := List.mem_of_getLast? (h.tail.symm.trans ht)
    have htp : t ≠ p := fun heq => hpl (heq ▸ htl)
    obtain ⟨vt, hvt⟩ := h.read htl
    obtain ⟨h₂, hm₂, -, hread₂⟩ := Heap.modify_of_read
      (fun n : AbonentNode => { n with next := some p }) ((hold₁ t htp).trans hvt)
    simp only [hm₂, Option.map_some]
    refine ⟨_, rfl, @DynInv.concat b ⟨h₂, b.head, some p⟩ l h p hpl _ hnext hprev
      ((hread₂ p).trans ((if_neg htp.symm).trans hnew₁)) (fun q hq => ?_) (by rw [ht]; rfl) rfl
      ((hmalloc.modify hm₁).modify hm₂)⟩
    show h₂.read q = _
    rw [hread₂, hold₁ q hq, ht]
    by_cases hqt : q = t
    · rw [if_pos hqt, hqt, hvt]
      simp
    · rw [if_neg hqt]
      simp [Ne.symm hqt]

theorem DynInv.add (h : DynInv b l) {p : ℕ} (hp : ¬ b.heap.Live p) (junk : AbonentNode)
    (name second_name tel : Word) :
    ∃ b', b.addAbonent (some (p, junk)) name second_name tel = some b' ∧ DynInv b' (l ++ [p]) ∧
      recordsAt b'.heap (l ++ [p]) = recordsAt b.heap l ++
        [some (scanAbonent name second_name tel junk.toAbonent).shown] :=
  h.link hp junk rfl rfl

end Adding

section Removing

theorem DynInv.seek (h : DynInv b l) :
    ∀ n i : ℕ, DynBook.seek b.heap n l[i]? = some l[i + n]?
  | 0, i => rfl
  | n + 1, i => by
    rcases hi : l[i]? with _ | p
    · unfold DynBook.seek
      rw [List.getElem?_eq_none (by have := List.getElem?_eq_none_iff.mp hi; omega)]
    · obtain ⟨v, hv, hnext, -⟩ := h.linked.links i p hi
      unfold DynBook.seek
      rw [hv, Option.bind_some, hnext, h.seek n (i + 1), Nat.add_right_comm, Nat.add_assoc]

variable {p : ℕ} {u : AbonentNode}

theorem DynInv.prev_mem (h : DynInv b l) (hu : b.heap.read p = some u) {q : ℕ}
    (hq : u.prev = some q) : q ∈ l := by
  obtain ⟨k, hk⟩ := List.mem_iff_getElem?.mp (h.mem_of_read hu)
  obtain ⟨u', hu', -, hb⟩ := h.linked.links k p hk
  cases hu.symm.trans hu'
  rw [hq] at hb
  cases k with
  | zero => cases hb
  | succ k => exact List.mem_of_getElem? hb.symm

theorem DynInv.next_mem (h : DynInv b l) (hu : b.heap.read p = some u) {q : ℕ}
    (hq : u.next = some q) : q ∈ l := by
  obtain ⟨k, hk⟩ := List.mem_iff_getElem?.mp (h.mem_of_read hu)
  obtain ⟨u', hu', hn, -⟩ := h.linked.links k p hk
  cases hu.symm.trans hu'
  exact List.mem_of_getElem? (hn.symm.trans hq)

theorem DynInv.unlinkNext (h : DynInv b l) (hu : b.heap.read p = some u) :
    ∃ b', b.unlinkNext p = some b' ∧ b'.heap.Wf ∧ b'.tail = b.tail ∧
      (b'.head = if u.prev = none then u.next else b.head) ∧
      ∀ q, b'.heap.read q = (b.heap.read q).map fun v =>
        if v.next = some p then { v with next := u.next } else v := by
  have hp := h.mem_of_read hu
  have hiff : ∀ q v, b.heap.read q = some v → (v.next = some p ↔ u.prev = some q) :=
    fun q v hv => h.linked.next_iff hp (h.mem_of_read hv) hu hv
  unfold DynBook.unlinkNext
  rw [hu, Option.bind_some]
  rcases hprev : u.prev with _ | q
  · refine ⟨_, rfl, h.heap, rfl, rfl, Heap.read_where _ fun q v hv => ?_⟩
    rw [hiff q v hv, hprev]
    exact fun hq => by cases hq
  · obtain ⟨vq, hvq⟩ := h.read (h.prev_mem hu hprev)
    obtain ⟨h₁, hm, -, hread⟩ := Heap.modify_where (c := fun v => v.next = some p)
      (fun n : AbonentNode => { n with next := u.next }) hvq fun r v hv => by
        rw [hiff r v hv, hprev, Option.some.injEq, eq_comm]
    simp only [hm, Option.map_some]
    exact ⟨_, rfl, h.heap.modify hm, rfl, rfl, hread⟩

/-- What the two redirections and `free` leave: the links to the node lead where its own lead. -/
theorem DynInv.unlink (h : DynInv b l) (hu : b.heap.read p = some u) :
    ∃ b', ((b.unlinkNext p).bind fun b => (b.unlinkPrev p).bind fun b =>
        (b.heap.free p).map fun h => { b with heap := h }) = some b' ∧ b'.heap.Wf ∧
      (b'.head = if u.prev = none then u.next else b.head) ∧
      (b'.tail = if u.next = none then u.prev else b.tail) ∧
      ∀ q, b'.heap.read q = if q = p then none else (b.heap.read q).map fun v =>
        { v with
          next := if v.next = some p then u.next else v.next
          prev := if v.prev = some p then u.prev else v.prev } := by
  have hp := h.mem_of_read hu
  obtain ⟨b₁, h1, hw₁, ht₁, hh₁, hread₁⟩ := h.unlinkNext hu
  have hread₁' : ∀ q v, b₁.heap.read q = some v → ∃ w, b.heap.read q = some w ∧
      v.prev = w.prev := by
    intro q v hv
    rw [hread₁] at hv
    obtain ⟨w, hw, rfl⟩ := Option.map_eq_some_iff.mp hv
    refine ⟨w, hw, ?_⟩
    split_ifs <;> rfl
  have hu₁ : b₁.heap.read p = some u := by
    rw [hread₁, hu, Option.map_some, if_neg (h.linked.next_ne hp hu)]
  have hiff : ∀ q v, b₁.heap.read q = some v → (v.prev = some p ↔ u.next = some q) := by
    intro q v hv
    obtain ⟨w, hw, hvw⟩ := hread₁' q v hv
    rw [hvw, h.linked.next_iff (h.mem_of_read hw) hp hw hu]
  obtain ⟨b₂, h2, hw₂, hh₂, ht₂, hread₂⟩ : ∃ b₂, b₁.unlinkPrev p = some b₂ ∧ b₂.heap.Wf ∧
      b₂.head = b₁.head ∧ (b₂.tail = if u.next = none then u.prev else b₁.tail) ∧
      ∀ q, b₂.heap.read q = (b₁.heap.read q).map fun v =>
        if v.prev = some p then { v with prev := u.prev } else v := by
    unfold DynBook.unlinkPrev
    rw [hu₁, Option.bind_some]
    rcases hnext : u.next with _ | q
    · refine ⟨_, rfl, hw₁, rfl, rfl, Heap.read_where _ fun q v hv => ?_⟩
      rw [hiff q v hv, hnext]
      exact fun hq => by cases hq
    · obtain ⟨w, hw⟩ := h.read (h.next_mem hu hnext)
      have hq₁ := hread₁ q
      rw [hw, Option.map_some] at hq₁
      obtain ⟨h₂, hm, -, hread⟩ := Heap.modify_where (c := fun v => v.prev = some p)
        (fun n : AbonentNode => { n with prev := u.prev }) hq₁ fun r v hv => by
          rw [hiff r v hv, hnext, Option.some.injEq, eq_comm]
      simp only [hm, Option.map_some]
      exact ⟨_, rfl, hw₁.modify hm, rfl, rfl, hread⟩
  have hu₂ : b₂.heap.read p = some u := by
    rw [hread₂, hu₁, Option.map_some, if_neg (h.linked.prev_ne hp hu)]
  obtain ⟨h₃, hf, -, hread₃⟩ := Heap.free_of_read hu₂
  rw [h1, Option.bind_some, h2, Option.bind_some, hf]
  refine ⟨_, rfl, hw₂.free hf, hh₂.trans hh₁, ht₂.trans (by rw [ht₁]), fun q => ?_⟩
  show h₃.read q = _
  rw [hread₃]
  split_ifs with hq
  · rfl
  · rw [hread₂, hread₁, Option.map_map]
    congr 1
    funext v
    by_cases hn : v.next = some p <;> by_cases hpv : v.prev = some p <;> simp [hn, hpv]

theorem DynInv.eraseIdx (h : DynInv b l) {k : ℕ} (hk : l[k]? = some p)
    (hu : b.heap.read p = some u) (hheap : b'.heap.Wf)
    (hhead : b'.head = if u.prev = none then u.next else b.head)
    (htail : b'.tail = if u.next = none then u.prev else b.tail)
    (hread : ∀ q, b'.heap.read q = if q = p then none else (b.heap.read q).map fun v =>
      { v with
        next := if v.next = some p then u.next else v.next
        prev := if v.prev = some p then u.prev else v.prev }) :
    DynInv b' (l.eraseIdx k) ∧
      recordsAt b'.heap (l.eraseIdx k) = (recordsAt b.heap l).eraseIdx k := by
  have hlt := (List.getElem?_eq_some_iff.mp hk).1
  obtain ⟨u', hu', hunext, huprev⟩ := h.linked.links k p hk
  cases hu.symm.trans hu'
  have hmem : ∀ q, q ∈ l.eraseIdx k ↔ q ∈ l ∧ q ≠ p := by
    intro q
    rw [List.mem_eraseIdx_iff_getElem?]
    constructor
    · rintro ⟨i, hik, hi⟩
      exact ⟨List.mem_of_getElem? hi, fun hq => hik (h.linked.at_unique hi (hq ▸ hk))⟩
    · rintro ⟨hq, hqp⟩
      obtain ⟨i, hi⟩ := List.mem_iff_getElem?.mp hq
      refine ⟨i, fun hik => hqp ?_, hi⟩
      rw [hik, hk] at hi
      exact (Option.some.inj hi).symm
  refine ⟨⟨?_, ?_, ?_, fun q => ?_, hheap⟩, ?_⟩
  · refine h.linked.eraseIdx hk hu fun q v hq hqp hv => ?_
    have hq' := hread q
    rw [if_neg hqp, hv, Option.map_some] at hq'
    exact ⟨_, hq', rfl, rfl⟩
  · rw [hhead, Linked.head_eraseIdx hlt, hunext, huprev, h.head]
  · rw [htail, Linked.getLast?_eraseIdx hlt, hunext, huprev, h.tail]
  · rw [Heap.live_iff, hmem, hread]
    by_cases hq : q = p
    · simp [hq]
    · rw [if_neg hq, ← h.live, Heap.live_iff]
      simp [hq]
  · unfold recordsAt
    rw [List.eraseIdx_map]
    refine List.map_congr_left fun q hq => ?_
    rw [hread, if_neg ((hmem q).mp hq).2]
    obtain ⟨v, hv⟩ := h.read ((hmem q).mp hq).1
    rw [hv]
    rfl

/-- A removal takes out the node of the number, if there is one; the first for a negative one. -/
theorem DynInv.remove (h : DynInv b l) (number : ℤ) :
    ∃ b', b.removeAbonent number = some b' ∧ DynInv b' (l.eraseIdx number.toNat) ∧
      recordsAt b'.heap (l.eraseIdx number.toNat) =
        (recordsAt b.heap l).eraseIdx number.toNat := by
  have hnone : l[number.toNat]? = none → DynInv b (l.eraseIdx number.toNat) ∧
      recordsAt b.heap (l.eraseIdx number.toNat)
        = (recordsAt b.heap l).eraseIdx number.toNat := by
    intro hn
    have hle := List.getElem?_eq_none_iff.mp hn
    rw [List.eraseIdx_of_length_le hle, List.eraseIdx_of_length_le (by simpa [recordsAt])]
    exact ⟨h, rfl⟩
  unfold DynBook.removeAbonent
  rcases hhead : b.head with _ | first
  · refine ⟨b, rfl, hnone ?_⟩
    have hle := List.getElem?_eq_none_iff.mp (h.head.symm.trans hhead)
    exact List.getElem?_eq_none (by omega)
  · simp only []
    rw [← hhead, h.head, h.seek, Nat.zero_add, Option.bind_some]
    rcases hk : l[number.toNat]? with _ | p
    · exact ⟨b, rfl, hnone hk⟩
    · obtain ⟨u, hu⟩ := h.read (List.mem_of_getElem? hk)
      obtain ⟨b', hb, hw, hh, ht, hread⟩ := h.unlink hu
      exact ⟨b', hb, h.eraseIdx hk hu hw hh ht hread⟩

end Removing

section Freeing

/-- The loop frees what is walked, and the fuel lasts. -/
theorem freeFrom_walk {h : Heap AbonentNode} {a : Option ℕ}
    (hwalk : Walk h.read AbonentNode.next a l) : ∀ {fuel : ℕ} {h' : Heap AbonentNode},
      l.Nodup → l.length ≤ fuel → h'.Wf → (∀ p ∈ l, h'.read p = h.read p) →
      ∃ h'', DynBook.freeFrom fuel h' a = some h'' ∧ h''.Wf ∧
        ∀ q, h''.read q = if q ∈ l then none else h'.read q := by
  induction hwalk with
  | null =>
    intro fuel h' _ _ hw _
    unfold DynBook.freeFrom
    exact ⟨h', rfl, hw, fun q => by simp⟩
  | @node p v l hv _ ih =>
    intro fuel h' hnodup hlen hw hsame
    obtain ⟨hpl, hnodup⟩ := List.nodup_cons.mp hnodup
    obtain ⟨fuel, rfl⟩ : ∃ n, fuel = n + 1 := ⟨fuel - 1, by rw [List.length_cons] at hlen; omega⟩
    have hv' : h'.read p = some v := (hsame p List.mem_cons_self).trans hv
    obtain ⟨h₁, hf, -, hread⟩ := Heap.free_of_read hv'
    have hsame₁ : ∀ q ∈ l, h₁.read q = h.read q := by
      intro q hq
      rw [hread, if_neg (by rintro rfl; exact hpl hq), hsame q (List.mem_cons_of_mem _ hq)]
    have hlen' : l.length ≤ fuel := Nat.le_of_succ_le_succ hlen
    obtain ⟨h₂, hloop, hw₂, hread₂⟩ := ih hnodup hlen' (hw.free hf) hsame₁
    unfold DynBook.freeFrom
    rw [hv', Option.bind_some, hf, Option.bind_some]
    refine ⟨h₂, hloop, hw₂, fun q => ?_⟩
    rw [hread₂, hread]
    by_cases hq : q = p
    · simp [hq]
    · simp [hq]

theorem DynInv.freeAll (h : DynInv b l) : ∃ b', b.freeAll = some b' ∧ DynInv b' [] := by
  have hlen : l.length ≤ b.heap.allocs :=
    h.heap.length_le h.linked.nodup fun p hp => (h.live p).mpr hp
  obtain ⟨h', hloop, hw, hread⟩ :=
    freeFrom_walk h.linked.forward h.linked.nodup hlen h.heap fun _ _ => rfl
  unfold DynBook.freeAll
  rw [h.head, hloop]
  refine ⟨_, rfl, .nil, rfl, rfl, fun p => ?_, hw⟩
  refine iff_of_false (Heap.not_live.mpr ?_) List.not_mem_nil
  show h'.read p = none
  rw [hread]
  split_ifs with hp
  · rfl
  · exact h.read_none hp

end Freeing

section Runs

theorem DynInv.run (h : DynInv b l) {op : DynOp} (hf : op.Fresh b) :
    ∃ b' l', b.run op = some b' ∧ DynInv b' l' := by
  cases op with
  | add new name second_name tel =>
    rcases new with _ | ⟨p, junk⟩
    · exact ⟨b, l, rfl, h⟩
    · obtain ⟨b', hb, hl, -⟩ := h.add (hf p junk rfl) junk name second_name tel
      exact ⟨b', _, hb, hl⟩
  | remove number =>
    obtain ⟨b', hb, hl, -⟩ := h.remove number
    exact ⟨b', _, hb, hl⟩
  | freeAll =>
    obtain ⟨b', hb, hl⟩ := h.freeAll
    exact ⟨b', _, hb, hl⟩

theorem DynInv.nodes (h : DynInv b l) : b.Nodes l where
  forward := h.head ▸ h.linked.forward
  last := h.tail
  backward := h.tail ▸ h.linked.backward
  distinct := h.linked.nodup
  live p hp := by
    obtain ⟨v, hv⟩ := h.read hp
    obtain ⟨n, hc⟩ := Heap.read_eq_some.mp hv
    exact ⟨n, v, hc, h.heap.lt_allocs p n v hc, h.heap.not_freed p n v hc⟩
  all n hn hnf := by
    rcases h.heap.accounted n hn with hf | ⟨p, v, hc⟩
    · exact absurd hf hnf
    · exact ⟨p, (h.live p).mp (by rw [Heap.Live, hc]; exact Option.some_ne_none _), v, hc⟩

/-- The nodes are those the walk along `next` meets. -/
theorem DynInv.unique {l' : List ℕ} (h : DynInv b l) (h' : DynInv b l') : l = l' :=
  h.nodes.forward.unique h'.nodes.forward

theorem DynInv.intact (h : DynInv b l) : b.Intact where
  ends := by
    rw [h.head, h.tail, List.getLast?_eq_none_iff, List.getElem?_eq_none_iff]
    exact ⟨fun hle => List.length_eq_zero_iff.mp (by omega), fun hl => by simp [hl]⟩
  nodes := ⟨l, h.nodes⟩
  freed_once := h.heap.freed_nodup

end Runs

end EltexSystems
