import EltexSystems.Proofs.ClientTable
import EltexSystems.TableHeap

/-!
# The client table in memory is the abstract one

The cells in use are the table, its array and the nodes of 1024 chains that share none (`CtRep`).
Each call walks one chain and changes only that one, so it does not fault and returns what it
returns on the lists (`ct_refines`), and `rawudp_ct_destroy` frees every allocation, each once
(`ct_destroyed`).
-/

namespace EltexSystems

open SinglyLinked

def addrs (l : List (ℕ × Node)) : List ℕ := l.map Prod.fst

section Walks

variable {h : Heap CtCell} {key : ClientKey}

theorem bumpChain_split {l₁ l₂ : List Node} {v : Node} (hv : v.key = key)
    (hl : ∀ x ∈ l₁, x.key ≠ key) :
    bumpChain key (l₁ ++ v :: l₂)
      = some (l₁ ++ { v with counter := v.counter + 1 } :: l₂, v.counter + 1) := by
  induction l₁ with
  | nil =>
    unfold bumpChain
    simp [keyEq_iff.mpr hv]
  | cons x l₁ ih =>
    have hx : keyEq x.key key = false := by
      rw [← Bool.not_eq_true, keyEq_iff]
      exact hl x List.mem_cons_self
    rw [List.cons_append, bumpChain, ih fun y hy => hl y (List.mem_cons_of_mem _ hy)]
    simp [hx]

theorem unlinkChain_split {l₁ l₂ : List Node} {v : Node} (hv : v.key = key)
    (hl : ∀ x ∈ l₁, x.key ≠ key) : unlinkChain key (l₁ ++ v :: l₂) = l₁ ++ l₂ := by
  induction l₁ with
  | nil => exact if_pos (keyEq_iff.mpr hv)
  | cons x l₁ ih =>
    have hx : ¬ keyEq x.key key = true := by
      rw [keyEq_iff]
      exact hl x List.mem_cons_self
    rw [List.cons_append, unlinkChain, if_neg hx,
      ih fun y hy => hl y (List.mem_cons_of_mem _ hy)]
    rfl

theorem unlinkChain_absent {l : List Node} (hl : ∀ x ∈ l, x.key ≠ key) :
    unlinkChain key l = l := by
  induction l with
  | nil => rfl
  | cons x l ih =>
    have hx : ¬ keyEq x.key key = true := by
      rw [keyEq_iff]
      exact hl x List.mem_cons_self
    rw [unlinkChain, if_neg hx, ih fun y hy => hl y (List.mem_cons_of_mem _ hy)]

/-- The walk down a chain finds the first node with the key and the node before it. -/
theorem findFrom_chain {l : List (ℕ × Node)} :
    ∀ {fuel : ℕ} (prev : Option ℕ) {a : Option ℕ}, Chain (nodeAt h) a l → l.length ≤ fuel →
      ((∀ x ∈ l, x.2.key ≠ key) ∧ findFrom key h fuel prev a = some none) ∨
      ∃ l₁ p v l₂, l = l₁ ++ (p, v) :: l₂ ∧ v.key = key ∧ (∀ x ∈ l₁, x.2.key ≠ key) ∧
        findFrom key h fuel prev a = some (some ((l₁.getLast?.map Prod.fst).or prev, p)) := by
  induction l with
  | nil =>
    intro fuel prev a hc _
    cases hc
    exact .inl ⟨by simp, by cases fuel <;> rfl⟩
  | cons x l ih =>
    intro fuel prev a hc hle
    cases hc with
    | @node p v n _ hp hc =>
      obtain ⟨fuel, rfl⟩ : ∃ k, fuel = k + 1 := ⟨fuel - 1, by
        rw [List.length_cons] at hle
        omega⟩
      by_cases hv : v.key = key
      · refine .inr ⟨[], p, v, l, rfl, hv, by simp, ?_⟩
        unfold findFrom
        rw [hp, Option.bind_some, if_pos (keyEq_iff.mpr hv)]
        rfl
      · have hstep : findFrom key h (fuel + 1) prev (some p) = findFrom key h fuel (some p) n := by
          rw [findFrom, hp, Option.bind_some, if_neg (by rw [keyEq_iff]; exact hv)]
        rw [hstep]
        rcases ih (some p) hc (Nat.le_of_succ_le_succ hle) with
          ⟨hno, heq⟩ | ⟨l₁, q, w, l₂, rfl, hw, hl, heq⟩
        · refine .inl ⟨fun x hx => ?_, heq⟩
          rcases List.mem_cons.mp hx with rfl | hx
          · exact hv
          · exact hno x hx
        · refine .inr ⟨(p, v) :: l₁, q, w, l₂, rfl, hw, fun x hx => ?_, ?_⟩
          · rcases List.mem_cons.mp hx with rfl | hx
            · exact hv
            · exact hl x hx
          · rw [heq]
            rcases l₁.eq_nil_or_concat with rfl | ⟨l₀, y, rfl⟩
            · rfl
            · simp [List.concat_eq_append, List.getLast?_cons]

end Walks

section Representation

/-- The cells in use: the table at `p`, its array at `q` and the nodes of the chains. -/
structure CtRep (h : Heap CtCell) (p q : ℕ) (heads : List (Option ℕ))
    (chain : ℕ → List (ℕ × Node)) (T : ClientTable) : Prop where
  table : h.read p = some (.table (some q) 1024)
  array : h.read q = some (.array heads)
  length : heads.length = 1024
  chains : ∀ i < 1024, Chain (nodeAt h) (heads.getD i none) (chain i)
  apart : ∀ i j a, i < 1024 → j < 1024 → a ∈ addrs (chain i) → a ∈ addrs (chain j) → i = j
  live : ∀ a, h.Live a ↔ a = p ∨ a = q ∨ ∃ i < 1024, a ∈ addrs (chain i)
  wf : h.Wf
  nb : T.nb = 1024
  buckets : T.buckets.length = 1024
  abs : ∀ i < 1024, T.buckets.getD i [] = (chain i).map Prod.snd

variable {h h' : Heap CtCell} {p q i idx a : ℕ} {heads heads' : List (Option ℕ)}
  {chain : ℕ → List (ℕ × Node)} {T : ClientTable} {l : List (ℕ × Node)}

/-- A node is no other cell of the table. -/
theorem CtRep.ne_of_mem (hR : CtRep h p q heads chain T) (hi : i < 1024)
    (ha : a ∈ addrs (chain i)) : a ≠ p ∧ a ≠ q := by
  obtain ⟨⟨a, b⟩, hm, rfl⟩ := List.mem_map.mp ha
  obtain ⟨n, hn⟩ := (hR.chains i hi).get_of_mem hm
  constructor
  · rintro rfl
    simp only [nodeAt, cellAt, hR.table] at hn
    cases hn
  · rintro rfl
    simp only [nodeAt, cellAt, hR.array] at hn
    cases hn

theorem CtRep.p_ne_q (hR : CtRep h p q heads chain T) : p ≠ q := by
  rintro rfl
  exact nomatch hR.table.symm.trans hR.array

theorem CtRep.length_le (hR : CtRep h p q heads chain T) (hi : i < 1024) :
    (chain i).length ≤ h.allocs := by
  have hle := hR.wf.length_le (hR.chains i hi).nodup fun a ha =>
    (hR.live a).mpr (.inr (.inr ⟨i, hi, ha⟩))
  rwa [List.length_map] at hle

theorem CtRep.bucketsOf (hR : CtRep h p q heads chain T) :
    bucketsOf h p = some (q, heads, 1024) := by
  unfold EltexSystems.bucketsOf
  rw [hR.table]
  simp only [Option.bind_some, CtCell.asTable]
  rw [hR.array]
  rfl

theorem CtRep.head (hR : CtRep h p q heads chain T) (hi : i < 1024) :
    heads[i]? = some (heads.getD i none) := by
  have hlt : i < heads.length := by rw [hR.length]; exact hi
  rw [List.getD_eq_getElem?_getD, List.getElem?_eq_getElem hlt]
  rfl

/-- One chain is replaced by another, and what is beside it stays. -/
theorem CtRep.update (hR : CtRep h p q heads chain T) (hidx : idx < 1024)
    (htable : h'.read p = h.read p) (harray : h'.read q = some (.array heads'))
    (hlen : heads'.length = 1024) (hheads : ∀ i, i ≠ idx → heads'.getD i none = heads.getD i none)
    (hchain : Chain (nodeAt h') (heads'.getD idx none) l)
    (hother : ∀ i < 1024, i ≠ idx → ∀ a ∈ addrs (chain i), h'.read a = h.read a)
    (hnew : ∀ a ∈ addrs l, a ∈ addrs (chain idx) ∨ ¬ h.Live a)
    (hlive : ∀ a, h'.Live a ↔ a = p ∨ a = q ∨ a ∈ addrs l ∨
      ∃ i < 1024, i ≠ idx ∧ a ∈ addrs (chain i)) (hwf : h'.Wf) :
    CtRep h' p q heads' (Function.update chain idx l)
      { T with buckets := T.buckets.set idx (l.map Prod.snd) } := by
  -- an address of the new chain is in no other
  have hsep : ∀ i a, i < 1024 → i ≠ idx → a ∈ addrs l → a ∉ addrs (chain i) := by
    intro i a hi hne ha hm
    rcases hnew a ha with hold | hdead
    · exact hne (hR.apart i idx a hi hidx hm hold)
    · exact hdead ((hR.live a).mpr (.inr (.inr ⟨i, hi, hm⟩)))
  refine ⟨htable.trans hR.table, harray, hlen, fun i hi => ?_, fun i j a hi hj ha hb => ?_,
    fun a => ?_, hwf, hR.nb, by rw [List.length_set]; exact hR.buckets, fun i hi => ?_⟩
  · by_cases hne : i = idx
    · rw [hne, Function.update_self]
      exact hchain
    · rw [Function.update_of_ne hne, hheads i hne]
      refine (hR.chains i hi).congr fun a ha => ?_
      unfold nodeAt cellAt
      rw [hother i hi hne a ha]
  · by_cases hii : i = idx <;> by_cases hjj : j = idx
    · rw [hii, hjj]
    · rw [hii, Function.update_self] at ha
      rw [Function.update_of_ne hjj] at hb
      exact absurd hb (hsep j a hj hjj ha)
    · rw [Function.update_of_ne hii] at ha
      rw [hjj, Function.update_self] at hb
      exact absurd ha (hsep i a hi hii hb)
    · rw [Function.update_of_ne hii] at ha
      rw [Function.update_of_ne hjj] at hb
      exact hR.apart i j a hi hj ha hb
  · rw [hlive]
    refine or_congr_right (or_congr_right ⟨fun hm => ?_, fun ⟨i, hi, hm⟩ => ?_⟩)
    · rcases hm with hm | ⟨i, hi, hne, hm⟩
      · exact ⟨idx, hidx, by rw [Function.update_self]; exact hm⟩
      · exact ⟨i, hi, by rw [Function.update_of_ne hne]; exact hm⟩
    · by_cases hne : i = idx
      · rw [hne, Function.update_self] at hm
        exact .inl hm
      · rw [Function.update_of_ne hne] at hm
        exact .inr ⟨i, hi, hne, hm⟩
  · rw [Chained.getD_set]
    by_cases hne : i = idx
    · rw [if_pos ⟨hne.symm, by rw [hR.buckets]; exact hidx⟩, hne, Function.update_self]
    · rw [if_neg fun hc => hne hc.1.symm, Function.update_of_ne hne]
      exact hR.abs i hi

/-- A call that changes nothing. -/
theorem CtRep.same (hR : CtRep h p q heads chain T) (hidx : idx < 1024) :
    CtRep h p q heads chain
      { T with buckets := T.buckets.set idx (T.buckets.getD idx []) } := by
  have hlt : idx < T.buckets.length := by rw [hR.buckets]; exact hidx
  have hset : T.buckets.set idx (T.buckets.getD idx []) = T.buckets := by
    rw [List.getD_eq_getElem?_getD, List.getElem?_eq_getElem hlt]
    exact List.set_getElem_self hlt
  rw [hset]
  exact hR

theorem CtRep.live_split (hR : CtRep h p q heads chain T) (hidx : idx < 1024) (a : ℕ) :
    h.Live a ↔ a = p ∨ a = q ∨ a ∈ addrs (chain idx) ∨
      ∃ i < 1024, i ≠ idx ∧ a ∈ addrs (chain i) := by
  rw [hR.live]
  refine or_congr_right (or_congr_right ⟨fun ⟨i, hi, hm⟩ => ?_, fun hm => ?_⟩)
  · by_cases hne : i = idx
    · exact .inl (hne ▸ hm)
    · exact .inr ⟨i, hi, hne, hm⟩
  · rcases hm with hm | ⟨i, hi, -, hm⟩
    · exact ⟨idx, hidx, hm⟩
    · exact ⟨i, hi, hm⟩

theorem getD_set_head {x : Option ℕ} (hidx : idx < heads.length) (i : ℕ) :
    (heads.set idx x).getD i none = if i = idx then x else heads.getD i none := by
  simp only [List.getD_eq_getElem?_getD, List.getElem?_set]
  by_cases hi : i = idx
  · simp [hi, hidx]
  · simp [hi, Ne.symm hi]

/-- A node found is a cell that is read as it. -/
theorem CtRep.node (hR : CtRep h p q heads chain T) (hi : i < 1024) {v : Node}
    (hm : (a, v) ∈ chain i) : ∃ n, nodeAt h a = some (v, n) ∧ h.read a = some (.node ⟨v, n⟩) := by
  obtain ⟨n, hn⟩ := (hR.chains i hi).get_of_mem hm
  refine ⟨n, hn, ?_⟩
  obtain ⟨c, hc, hview⟩ := Option.bind_eq_some_iff.mp hn
  rw [hc]
  unfold CtCell.asNode at hview
  split at hview
  · cases hview
    rfl
  · cases hview

theorem live_of_modify {c c' : CtCell} (ha : h.read a = some c)
    (hread : ∀ r, h'.read r = if r = a then some c' else h.read r) (r : ℕ) :
    h'.Live r ↔ h.Live r := by
  rw [Heap.live_iff, Heap.live_iff, hread]
  by_cases hr : r = a
  · rw [if_pos hr, hr]
    exact iff_of_true ⟨_, rfl⟩ ⟨_, ha⟩
  · rw [if_neg hr]

/-- The counter of a node is written. -/
theorem CtRep.bump (hR : CtRep h p q heads chain T) (hidx : idx < 1024)
    {l₁ l₂ : List (ℕ × Node)} {v w : Node} {n : Option ℕ}
    (hl : chain idx = l₁ ++ (a, v) :: l₂) (hn : nodeAt h a = some (v, n)) :
    ∃ h', h.modify a (fun _ => .node ⟨w, n⟩) = some h' ∧
      CtRep h' p q heads (Function.update chain idx (l₁ ++ (a, w) :: l₂))
        { T with buckets := T.buckets.set idx ((l₁ ++ (a, w) :: l₂).map Prod.snd) } := by
  have hm : (a, v) ∈ chain idx := hl ▸ by simp
  have hmem : a ∈ addrs (chain idx) := List.mem_map.mpr ⟨_, hm, rfl⟩
  obtain ⟨n', hn', hread⟩ := hR.node hidx hm
  cases hn.symm.trans hn'
  obtain ⟨hap, haq⟩ := hR.ne_of_mem hidx hmem
  obtain ⟨h', hmod, -, hread'⟩ :=
    Heap.modify_of_read (fun _ : CtCell => CtCell.node ⟨w, n⟩) hread
  have haddrs : addrs (l₁ ++ (a, w) :: l₂) = addrs (chain idx) := by
    rw [hl]
    simp [addrs]
  refine ⟨h', hmod, hR.update hidx ?_ ?_ hR.length (fun _ _ => rfl) ?_ (fun i hi hne b hb => ?_)
    (fun b hb => .inl (haddrs ▸ hb)) (fun b => ?_) (hR.wf.modify hmod)⟩
  · rw [hread', if_neg (Ne.symm hap)]
  · rw [hread', if_neg (Ne.symm haq)]
    exact hR.array
  · have hchain := hR.chains idx hidx
    rw [hl] at hchain
    refine hchain.set hn ?_ fun r hr => ?_
    · unfold nodeAt cellAt
      rw [hread', if_pos rfl]
      rfl
    · unfold nodeAt cellAt
      rw [hread', if_neg hr]
  · rw [hread', if_neg]
    rintro rfl
    exact hne (hR.apart i idx b hi hidx hb hmem)
  · rw [live_of_modify hread hread', hR.live_split hidx, haddrs]

/-- A node is put in front of a chain. -/
theorem CtRep.prepend (hR : CtRep h p q heads chain T) (hidx : idx < 1024)
    (hfresh : ¬ h.Live a) (key : ClientKey) :
    ∃ h', CtHeap.prepend h key q heads idx (heads.getD idx none) a = some h' ∧
      CtRep h' p q (heads.set idx (some a)) (Function.update chain idx ((a, ⟨key, 1⟩) :: chain idx))
        { T with
          buckets := T.buckets.set idx (((a, ⟨key, 1⟩) :: chain idx).map Prod.snd) } := by
  have hne : ∀ b, h.Live b → b ≠ a := fun b hb heq => hfresh (heq ▸ hb)
  have hpa := hne p ((hR.live p).mpr (.inl rfl))
  have hqa := hne q ((hR.live q).mpr (.inr (.inl rfl)))
  have hlt : idx < heads.length := by rw [hR.length]; exact hidx
  have hnew : (h.malloc a (.node ⟨⟨⟨0, 0⟩, 0⟩, none⟩)).read a
      = some (.node ⟨⟨⟨0, 0⟩, 0⟩, none⟩) := by rw [Heap.read_malloc, if_pos rfl]
  obtain ⟨h₂, hmod, -, hread₂⟩ := Heap.modify_of_read
    (fun _ : CtCell => CtCell.node ⟨⟨key, 1⟩, heads.getD idx none⟩) hnew
  have hq₂ : h₂.read q = some (.array heads) := by
    rw [hread₂, if_neg hqa, Heap.read_malloc, if_neg hqa]
    exact hR.array
  obtain ⟨h₃, hset, -, hread₃⟩ := Heap.modify_of_read
    (fun _ : CtCell => CtCell.array (heads.set idx (some a))) hq₂
  have hread : ∀ r, r ≠ a → r ≠ q → h₃.read r = h.read r := by
    intro r hra hrq
    rw [hread₃, if_neg hrq, hread₂, if_neg hra, Heap.read_malloc, if_neg hra]
  have hkeep : ∀ i < 1024, ∀ b ∈ addrs (chain i), h₃.read b = h.read b := fun i hi b hb =>
    hread b (hne b ((hR.live b).mpr (.inr (.inr ⟨i, hi, hb⟩)))) (hR.ne_of_mem hi hb).2
  refine ⟨h₃, ?_,
    hR.update hidx (hread p hpa hR.p_ne_q) ?_ (by rw [List.length_set]; exact hR.length)
    (fun i hi => ?_) ?_ (fun i hi _ b hb => hkeep i hi b hb) (fun b hb => ?_) (fun b => ?_)
    (((hR.wf.malloc hfresh _).modify hmod).modify hset)⟩
  · unfold CtHeap.prepend
    rw [hmod, Option.bind_some]
    exact hset
  · rw [hread₃, if_pos rfl]
  · rw [getD_set_head hlt, if_neg hi]
  · rw [getD_set_head hlt, if_pos rfl]
    refine .node ?_ ((hR.chains idx hidx).congr fun b hb => ?_)
    · unfold nodeAt cellAt
      rw [hread₃, if_neg (Ne.symm hqa), hread₂, if_pos rfl]
      rfl
    · unfold nodeAt cellAt
      rw [hkeep idx hidx b hb]
  · rcases List.mem_cons.mp hb with rfl | hb
    · exact .inr hfresh
    · exact .inl hb
  · rw [live_of_modify hq₂ hread₃, live_of_modify hnew hread₂, Heap.live_iff, Heap.read_malloc]
    by_cases hb : b = a
    · rw [if_pos hb]
      exact iff_of_true ⟨_, rfl⟩ (.inr (.inr (.inl (hb ▸ List.mem_cons_self))))
    · rw [if_neg hb, ← Heap.live_iff, hR.live_split hidx]
      refine or_congr_right (or_congr_right (or_congr_left ?_))
      exact ⟨List.mem_cons_of_mem a, fun hm => (List.mem_cons.mp hm).resolve_left hb⟩

/-- A node is taken out of its chain and freed. -/
theorem CtRep.remove (hR : CtRep h p q heads chain T) (hidx : idx < 1024)
    {l₁ l₂ : List (ℕ × Node)} {v : Node} {n : Option ℕ}
    (hl : chain idx = l₁ ++ (a, v) :: l₂) (hn : nodeAt h a = some (v, n)) :
    ∃ h₁ h' heads', CtHeap.unlink h q heads idx (l₁.getLast?.map Prod.fst) n = some h₁ ∧
      h₁.free a = some h' ∧
      CtRep h' p q heads' (Function.update chain idx (l₁ ++ l₂))
        { T with buckets := T.buckets.set idx ((l₁ ++ l₂).map Prod.snd) } := by
  have hm : (a, v) ∈ chain idx := hl ▸ by simp
  have hmem : a ∈ addrs (chain idx) := List.mem_map.mpr ⟨_, hm, rfl⟩
  obtain ⟨hap, haq⟩ := hR.ne_of_mem hidx hmem
  obtain ⟨n', hn', hreada⟩ := hR.node hidx hm
  cases hn.symm.trans hn'
  have hlt : idx < heads.length := by rw [hR.length]; exact hidx
  have hchain := hR.chains idx hidx
  have hnd := hchain.nodup
  rw [hl] at hchain hnd
  have hsub : ∀ b, b ∈ addrs (l₁ ++ l₂) → b ∈ addrs (chain idx) ∧ b ≠ a := by
    intro b hb
    rw [List.map_append, List.map_cons] at hnd
    have ha := (List.nodup_middle.mp hnd)
    rw [List.nodup_cons] at ha
    rw [addrs, List.map_append] at hb
    refine ⟨?_, fun h => ha.1 (h ▸ hb)⟩
    rw [hl, addrs, List.map_append, List.map_cons]
    rcases List.mem_append.mp hb with hb | hb
    · exact List.mem_append_left _ hb
    · exact List.mem_append_right _ (List.mem_cons_of_mem _ hb)
  have hmemiff : ∀ b, b ≠ a → (b ∈ addrs (chain idx) ↔ b ∈ addrs (l₁ ++ l₂)) := by
    intro b hb
    rw [hl]
    simp [addrs, hb]
  -- the rest is the same whether the bucket or a node is led behind it
  have hfinish : ∀ (h₁ : Heap CtCell) (heads' : List (Option ℕ)), h₁.Wf →
      h₁.read p = h.read p → h₁.read q = some (.array heads') → heads'.length = 1024 →
      (∀ i, i ≠ idx → heads'.getD i none = heads.getD i none) →
      (∀ i < 1024, i ≠ idx → ∀ b ∈ addrs (chain i), h₁.read b = h.read b) →
      (∀ b, h₁.Live b ↔ h.Live b) → h₁.read a = h.read a →
      (∀ h', (∀ r, r ≠ a → nodeAt h' r = nodeAt h₁ r) →
        Chain (nodeAt h') (heads'.getD idx none) (l₁ ++ l₂)) →
      ∃ h', h₁.free a = some h' ∧ CtRep h' p q heads' (Function.update chain idx (l₁ ++ l₂))
        { T with buckets := T.buckets.set idx ((l₁ ++ l₂).map Prod.snd) } := by
    intro h₁ heads' hw hp hq hlen hheads hother hlive hreada₁ hc
    obtain ⟨h', hfree, -, hread'⟩ := Heap.free_of_read (hreada₁.trans hreada)
    refine ⟨h', hfree, hR.update hidx ?_ ?_ hlen hheads ?_ (fun i hi hne b hb => ?_)
      (fun b hb => .inl (hsub b hb).1) (fun b => ?_) (hw.free hfree)⟩
    · rw [hread', if_neg (Ne.symm hap)]
      exact hp
    · rw [hread', if_neg (Ne.symm haq)]
      exact hq
    · refine hc h' fun r hr => ?_
      unfold nodeAt cellAt
      rw [hread', if_neg hr]
    · have hba : b ≠ a := by
        rintro rfl
        exact hne (hR.apart i idx b hi hidx hb hmem)
      rw [hread', if_neg hba]
      exact hother i hi hne b hb
    · by_cases hb : b = a
      · have hdead : ¬ h'.Live b := by rw [Heap.not_live, hread', if_pos hb]
        refine iff_of_false hdead ?_
        rintro (rfl | rfl | hm | ⟨i, hi, hne, hm⟩)
        · exact hap hb.symm
        · exact haq hb.symm
        · exact (hsub b hm).2 hb
        · exact hne (hR.apart i idx b hi hidx hm (hb ▸ hmem))
      · rw [Heap.live_iff, hread', if_neg hb, ← Heap.live_iff, hlive, hR.live_split hidx,
          hmemiff b hb]
  rcases l₁.eq_nil_or_concat' with rfl | ⟨l₀, ⟨m, c⟩, rfl⟩
  · -- the bucket leads to the node
    have hrest : Chain (nodeAt h) n l₂ := by
      rw [List.nil_append] at hchain
      generalize heads.getD idx none = first at hchain
      cases hchain with
      | node hx hc =>
        cases hn.symm.trans hx
        exact hc
    obtain ⟨h₁, hset, -, hread₁⟩ := Heap.modify_of_read
      (fun _ : CtCell => CtCell.array (heads.set idx n)) hR.array
    have hkeep : ∀ r, r ≠ q → h₁.read r = h.read r := fun r hr => by rw [hread₁, if_neg hr]
    obtain ⟨h', hfree, hrep⟩ := hfinish h₁ (heads.set idx n) (hR.wf.modify hset)
      (hkeep p hR.p_ne_q) (by rw [hread₁, if_pos rfl]) (by rw [List.length_set]; exact hR.length)
      (fun i hi => by rw [getD_set_head hlt, if_neg hi])
      (fun i hi _ b hb => hkeep b (hR.ne_of_mem hi hb).2)
      (live_of_modify hR.array hread₁) (hkeep a haq) fun h' hh' => by
        rw [getD_set_head hlt, if_pos rfl]
        refine hrest.congr fun b hb => ?_
        obtain ⟨hbi, hba⟩ := hsub b hb
        rw [hh' b hba]
        unfold nodeAt cellAt
        rw [hkeep b (hR.ne_of_mem hidx hbi).2]
    exact ⟨h₁, h', _, hset, hfree, hrep⟩
  · -- the node before it leads to it
    rw [List.append_assoc, List.singleton_append] at hchain
    have hmc : (m, c) ∈ chain idx := hl ▸ by simp
    have hmmem : m ∈ addrs (chain idx) := List.mem_map.mpr ⟨_, hmc, rfl⟩
    obtain ⟨k, hk, hreadm⟩ := hR.node hidx hmc
    obtain ⟨hmp, hmq⟩ := hR.ne_of_mem hidx hmmem
    have hma : m ≠ a := (hsub m (by simp [addrs])).2
    obtain ⟨h₁, hmod, -, hread₁⟩ :=
      Heap.modify_of_read (fun _ : CtCell => CtCell.node ⟨c, n⟩) hreadm
    have hkeep : ∀ r, r ≠ m → h₁.read r = h.read r := fun r hr => by rw [hread₁, if_neg hr]
    obtain ⟨h', hfree, hrep⟩ := hfinish h₁ heads (hR.wf.modify hmod)
      (hkeep p (Ne.symm hmp)) ((hkeep q (Ne.symm hmq)).trans hR.array) hR.length (fun _ _ => rfl)
      (fun i hi hne b hb => hkeep b fun hbm =>
        hne (hR.apart i idx b hi hidx hb (hbm ▸ hmmem)))
      (live_of_modify hreadm hread₁) (hkeep a (Ne.symm hma)) fun h' hh' => by
        rw [List.append_assoc, List.singleton_append]
        refine hchain.unlink hn ?_ fun r hrm hra => ?_
        · rw [hh' m hma]
          unfold nodeAt cellAt
          rw [hread₁, if_pos rfl]
          rfl
        · rw [hh' r hra]
          unfold nodeAt cellAt
          rw [hkeep r hrm]
    refine ⟨h₁, h', _, ?_, hfree, hrep⟩
    rw [List.getLast?_concat]
    unfold CtHeap.unlink
    simp only [Option.map_some, hk, Option.bind_some]
    exact hmod

end Representation

section Calls

variable {s s' : CtHeap} {T : Option ClientTable} {newTable newBuckets : Option ℕ}

/-- The memory holds the abstract table, or `NULL` stands for none and nothing is in use. -/
def Represents (s : CtHeap) (T : Option ClientTable) : Prop :=
  match s.t, T with
  | none, none => s.heap.Wf ∧ ∀ a, ¬ s.heap.Live a
  | some p, some T => ∃ q heads chain, CtRep s.heap p q heads chain T
  | _, _ => False

theorem bumpChain_absent {key : ClientKey} {l : List (ℕ × Node)} (hl : ∀ x ∈ l, x.2.key ≠ key) :
    bumpChain key (l.map Prod.snd) = none := by
  rw [bumpChain_none]
  intro n hn
  obtain ⟨x, hx, rfl⟩ := List.mem_map.mp hn
  exact hl x hx

variable {h : Heap CtCell} {p q : ℕ} {heads : List (Option ℕ)} {chain : ℕ → List (ℕ × Node)}
  {T₁ : ClientTable}

theorem next_rep (hR : CtRep h p q heads chain T₁) (key : ClientKey) (old : UInt32)
    {new : Option ℕ} (hfresh : ∀ a, new = some a → ¬ h.Live a) :
    ∃ r s', CtHeap.next ⟨h, some p⟩ key (some old) new = some (r, s') ∧
      r = (rawudpCtNext (some T₁) key (some old) new.isSome).1 ∧
      s'.2 = (rawudpCtNext (some T₁) key (some old) new.isSome).2.2 ∧
      Represents s'.1 (rawudpCtNext (some T₁) key (some old) new.isSome).2.1 := by
  have hidx := bucketOf_lt key
  have habs := hR.abs _ hidx
  have hbucket : bucketOf T₁.nb key = bucketOf 1024 key := by rw [hR.nb]
  unfold CtHeap.next rawudpCtNext
  simp only [hR.bucketsOf, Option.bind_some, hR.head hidx, hbucket]
  rcases findFrom_chain none (hR.chains _ hidx) (hR.length_le hidx) with
    ⟨hno, hfind⟩ | ⟨l₁, a, v, l₂, hl, hv, hl₁, hfind⟩
  · rw [hfind, habs, bumpChain_absent hno]
    rcases new with _ | a
    · exact ⟨_, _, rfl, rfl, rfl, q, heads, chain, hR⟩
    · obtain ⟨h', hpre, hrep⟩ := hR.prepend hidx (hfresh a rfl) key
      simp only [Option.bind_some, hpre, Option.map_some, Option.isSome_some, if_true]
      exact ⟨_, _, rfl, rfl, rfl, q, _, _, hrep⟩
  · have hm : (a, v) ∈ chain (bucketOf 1024 key) := hl ▸ by simp
    obtain ⟨n, hn, -⟩ := hR.node hidx hm
    obtain ⟨h', hmod, hrep⟩ :=
      hR.bump hidx (w := { v with counter := v.counter + 1 }) hl hn
    have hbump : bumpChain key (l₁.map Prod.snd ++ v :: l₂.map Prod.snd) = _ :=
      bumpChain_split hv fun x hx => by
        obtain ⟨y, hy, rfl⟩ := List.mem_map.mp hx
        exact hl₁ y hy
    rw [hfind, habs, hl, List.map_append, List.map_cons, hbump]
    simp only [Option.bind_some, hn, hmod, Option.map_some]
    rw [List.map_append, List.map_cons] at hrep
    exact ⟨_, _, rfl, rfl, rfl, q, _, _, hrep⟩

theorem reset_rep (hR : CtRep h p q heads chain T₁) (key : ClientKey) :
    ∃ s', CtHeap.reset ⟨h, some p⟩ key = some s' ∧
      Represents s' (rawudpCtReset (some T₁) key) := by
  have hidx := bucketOf_lt key
  have habs := hR.abs _ hidx
  have hbucket : bucketOf T₁.nb key = bucketOf 1024 key := by rw [hR.nb]
  unfold CtHeap.reset rawudpCtReset
  simp only [hR.bucketsOf, Option.bind_some, hR.head hidx, hbucket]
  rcases findFrom_chain none (hR.chains _ hidx) (hR.length_le hidx) with
    ⟨hno, hfind⟩ | ⟨l₁, a, v, l₂, hl, hv, hl₁, hfind⟩
  · rw [hfind, habs, unlinkChain_absent fun x hx => by
      obtain ⟨y, hy, rfl⟩ := List.mem_map.mp hx
      exact hno y hy, ← habs]
    exact ⟨_, rfl, q, heads, chain, hR.same hidx⟩
  · have hm : (a, v) ∈ chain (bucketOf 1024 key) := hl ▸ by simp
    obtain ⟨n, hn, -⟩ := hR.node hidx hm
    obtain ⟨h₁, h', heads', hun, hfree, hrep⟩ := hR.remove hidx hl hn
    rw [hfind, habs, hl, List.map_append, List.map_cons,
      unlinkChain_split hv fun x hx => by
        obtain ⟨y, hy, rfl⟩ := List.mem_map.mp hx
        exact hl₁ y hy, ← List.map_append]
    simp only [Option.bind_some, Option.or_none, hn, hun, hfree, Option.map_some]
    exact ⟨_, rfl, q, heads', _, hrep⟩

/-- A call on the memory does what it does on the lists. -/
theorem call_rep (hR : Represents s T) {c : CtCall} (hf : c.Fresh s) :
    ∃ r, c.run s = some r ∧ r.1 = (c.op.call T).1 ∧ r.2.2 = (c.op.call T).2.2 ∧
      Represents r.2.1 (c.op.call T).2.1 := by
  obtain ⟨h, t⟩ := s
  rcases t with _ | p <;> rcases T with _ | T
  · cases c with
    | next key out new =>
      cases out <;> exact ⟨_, rfl, rfl, rfl, hR⟩
    | reset key => exact ⟨_, rfl, rfl, rfl, hR⟩
  · exact hR.elim
  · exact hR.elim
  · obtain ⟨q, heads, chain, hR⟩ := hR
    cases c with
    | next key out new =>
      rcases out with _ | old
      · exact ⟨_, rfl, rfl, rfl, q, heads, chain, hR⟩
      · obtain ⟨r, s', hrun, hret, hout, hrep⟩ := next_rep hR key old hf
        exact ⟨_, hrun, hret, hout, hrep⟩
    | reset key =>
      obtain ⟨s', hrun, hrep⟩ := reset_rep hR key
      exact ⟨(0, s', none), Option.map_eq_some_iff.mpr ⟨s', hrun, rfl⟩, rfl, rfl, hrep⟩

theorem create_rep (hne : ∀ p, newTable = some p → newBuckets ≠ some p)
    (hs : CtHeap.create .empty newTable newBuckets = some s) :
    Represents s (rawudpCtCreate newTable.isSome newBuckets.isSome) := by
  have hdead : ∀ a, ¬ Heap.Live (.empty : Heap CtCell) a := fun a hl => hl rfl
  unfold CtHeap.create at hs
  rcases newTable with _ | p
  · cases hs
    exact ⟨.empty, hdead⟩
  have hnew : (Heap.malloc (.empty : Heap CtCell) p (.table none 0)).read p
      = some (.table none 0) := by rw [Heap.read_malloc, if_pos rfl]
  obtain ⟨h₁, hmod, -, hread₁⟩ := Heap.modify_of_read (fun _ : CtCell => .table none 1024) hnew
  have hw₁ : h₁.Wf := (Heap.Wf.empty.malloc (hdead p) _).modify hmod
  have hnone : ∀ r, r ≠ p → h₁.read r = none := by
    intro r hr
    rw [hread₁, if_neg hr, Heap.read_malloc, if_neg hr]
    rfl
  simp only [hmod, Option.bind_some] at hs
  rcases newBuckets with _ | q
  · obtain ⟨h₂, hfree, -, hread₂⟩ := Heap.free_of_read ((hread₁ p).trans (if_pos rfl))
    simp only [hfree, Option.map_some, Option.some.injEq] at hs
    subst hs
    refine ⟨hw₁.free hfree, fun a => ?_⟩
    rw [Heap.not_live, hread₂]
    split_ifs with ha
    · rfl
    · exact hnone a ha
  · have hqp : q ≠ p := fun heq => hne p rfl (heq ▸ rfl)
    have hqdead : ¬ h₁.Live q := Heap.not_live.mpr (hnone q hqp)
    have hp₂ : (h₁.malloc q (.array (List.replicate 1024 none))).read p
        = some (.table none 1024) := by
      rw [Heap.read_malloc, if_neg (Ne.symm hqp), hread₁, if_pos rfl]
    obtain ⟨h₃, hmod₃, -, hread₃⟩ :=
      Heap.modify_of_read (fun _ : CtCell => .table (some q) 1024) hp₂
    simp only [hmod₃, Option.map_some, Option.some.injEq] at hs
    subst hs
    have hq₃ : h₃.read q = some (.array (List.replicate 1024 none)) := by
      rw [hread₃, if_neg hqp, Heap.read_malloc, if_pos rfl]
    refine ⟨q, _, fun _ => [], by rw [hread₃, if_pos rfl], hq₃, List.length_replicate,
      fun i hi => ?_, fun i j a _ _ ha => absurd ha List.not_mem_nil, fun a => ?_,
      (hw₁.malloc hqdead _).modify hmod₃, rfl, List.length_replicate,
      fun i _ => Chained.getD_replicate_nil 1024 i⟩
    · rw [show (List.replicate 1024 (none : Option ℕ)).getD i none = none by
        rw [List.getD_eq_getElem?_getD, List.getElem?_replicate]
        split <;> rfl]
      exact .null
    · rw [live_of_modify hp₂ hread₃, Heap.live_iff, Heap.read_malloc]
      by_cases haq : a = q
      · rw [if_pos haq]
        exact iff_of_true ⟨_, rfl⟩ (.inr (.inl haq))
      · rw [if_neg haq]
        by_cases hap : a = p
        · rw [hap, hread₁, if_pos rfl]
          exact iff_of_true ⟨_, rfl⟩ (.inl rfl)
        · rw [hnone a hap]
          refine iff_of_false (fun h => nomatch h.choose_spec) ?_
          rintro (h | h | ⟨i, -, hm⟩)
          · exact hap h
          · exact haq h
          · exact List.not_mem_nil hm

theorem runOps_snoc (T : Option ClientTable) (ops : List TableOp) (op : TableOp) :
    runOps T (ops ++ [op]) = (op.call (runOps T ops)).2.1 := by
  unfold runOps
  rw [List.foldl_append]
  rfl

theorem represents_run {tr : List (CtHeap × CtCall)} (h : (ctLts newTable newBuckets).Run tr s) :
    Represents s (abstractTable newTable newBuckets tr) := by
  refine h.induction (P := fun tr s => Represents s (abstractTable newTable newBuckets tr)) ?_
    fun tr s c s' _ hR hst => ?_
  · rintro s ⟨hne, hs⟩
    exact create_rep hne hs
  obtain ⟨hf, r, hrun, rfl⟩ := hst
  obtain ⟨r', hrun', -, -, hrep⟩ := call_rep hR hf
  cases hrun.symm.trans hrun'
  unfold abstractTable
  rw [List.map_append, List.map_singleton, runOps_snoc]
  exact hrep

/-- In every state that calls on a new table lead to, a further call touches no cell that is not
live, returns what it returns on the lists and leaves a table that holds the same. -/
theorem ct_refines {tr : List (CtHeap × CtCall)} (h : (ctLts newTable newBuckets).Run tr s)
    {c : CtCall} (hf : c.Fresh s) :
    ∃ r, c.run s = some r ∧
      r.1 = (c.op.call (abstractTable newTable newBuckets tr)).1 ∧
      r.2.2 = (c.op.call (abstractTable newTable newBuckets tr)).2.2 ∧
      Represents r.2.1 (abstractTable newTable newBuckets (tr ++ [(s, c)])) := by
  obtain ⟨r, hrun, hret, hout, hrep⟩ := call_rep (represents_run h) hf
  refine ⟨r, hrun, hret, hout, ?_⟩
  unfold abstractTable
  rw [List.map_append, List.map_singleton, runOps_snoc]
  exact hrep

/-- A table is created, and a client is counted. -/
theorem run_created : ∃ s, (ctLts (some 0) (some 1)).Run [] s ∧
    (CtCall.next ⟨5, 9⟩ (some 0) (some 2)).Fresh s := by
  have hne : ∀ p, some 0 = some p → some 1 ≠ some p := by
    rintro p ⟨⟩
    decide
  refine ⟨_, ⟨_, ⟨hne, rfl⟩, .nil _⟩, ?_⟩
  rintro a ⟨⟩
  rw [Heap.not_live]
  rfl

/-- A client is counted a second time, by the node that its first call put in the bucket. -/
theorem ct_refines_second : ∃ s tr, (ctLts (some 0) (some 1)).Run tr s ∧ tr.length = 1 ∧
    ∃ r, (CtCall.next ⟨5, 9⟩ (some 0) none).run s = some r ∧ r.1 = 0 ∧ r.2.2 = some 2 := by
  obtain ⟨s, hrun, hf⟩ := run_created
  obtain ⟨r₁, hr₁, -⟩ := call_rep (represents_run hrun) hf
  have hone := hrun.snoc ⟨hf, r₁, hr₁, rfl⟩
  obtain ⟨r, hr, hret, hout, -⟩ := ct_refines hone (c := .next ⟨5, 9⟩ (some 0) none) nofun
  obtain ⟨t, ht, hcounts⟩ := countsAre_created
  obtain ⟨-, t₁, hnext, hcounts₁⟩ | ⟨hcalloc, -⟩ := next_spec hcounts ⟨5, 9⟩ 0 true
  · obtain ⟨-, t₂, hnext₂, -⟩ | ⟨-, hzero, -⟩ := next_spec hcounts₁ ⟨5, 9⟩ 0 false
    · have habs : abstractTable (some 0) (some 1) [(s, .next ⟨5, 9⟩ (some 0) (some 2))]
          = some t₁ := by
        simp only [abstractTable, runOps, List.map_cons, List.map_nil, List.foldl_cons,
          List.foldl_nil, CtCall.op, TableOp.call, Option.isSome_some, ht, hnext]
      rw [List.nil_append, habs] at hret hout
      simp only [CtCall.op, TableOp.call, Option.isSome_none, hnext₂, Function.update_self]
        at hret hout
      exact ⟨_, _, hone, rfl, r, hr, hret, hout⟩
    · rw [Function.update_self] at hzero
      exact absurd hzero (Nat.succ_ne_zero 0)
  · cases hcalloc

end Calls

section Destroying

variable {h : Heap CtCell} {p q k : ℕ} {heads : List (Option ℕ)} {chain : ℕ → List (ℕ × Node)}
  {s : CtHeap} {T : Option ClientTable} {newTable newBuckets : Option ℕ}

/-- The chains before the `k`-th bucket have been freed. -/
structure FreedTo (h : Heap CtCell) (p q k : ℕ) (heads : List (Option ℕ))
    (chain : ℕ → List (ℕ × Node)) : Prop where
  table : h.read p = some (.table (some q) 1024)
  array : h.read q = some (.array heads)
  length : heads.length = 1024
  chains : ∀ i, k ≤ i → i < 1024 → Chain (nodeAt h) (heads.getD i none) (chain i)
  apart : ∀ i j a, i < 1024 → j < 1024 → a ∈ addrs (chain i) → a ∈ addrs (chain j) → i = j
  live : ∀ a, h.Live a ↔ a = p ∨ a = q ∨ ∃ i, k ≤ i ∧ i < 1024 ∧ a ∈ addrs (chain i)
  wf : h.Wf

theorem FreedTo.step (hF : FreedTo h p q k heads chain) (hk : k < 1024) :
    ∃ h', freeFrom CtCell.asNode h.allocs h (heads.getD k none) = some h' ∧
      FreedTo h' p q (k + 1) heads chain := by
  have hchain := hF.chains k (Nat.le_refl k) hk
  have hlive : ∀ a ∈ (chain k).map Prod.fst, h.Live a := fun a ha =>
    (hF.live a).mpr (.inr (.inr ⟨k, Nat.le_refl k, hk, ha⟩))
  have hlen := hF.wf.length_le hchain.nodup hlive
  rw [List.length_map] at hlen
  obtain ⟨h', hfree, hw, -, hread⟩ := freeFrom_chain hchain hlen hF.wf
  have hnot : ∀ a ∈ addrs (chain k), a ≠ p ∧ a ≠ q := by
    intro a ha
    obtain ⟨⟨a, b⟩, hm, rfl⟩ := List.mem_map.mp ha
    obtain ⟨n, hn⟩ := hchain.get_of_mem hm
    constructor
    · rintro rfl
      simp only [nodeAt, cellAt, hF.table] at hn
      cases hn
    · rintro rfl
      simp only [nodeAt, cellAt, hF.array] at hn
      cases hn
  have hkeep : ∀ a, a ∉ addrs (chain k) → h'.read a = h.read a := fun a ha =>
    (hread a).trans (if_neg ha)
  refine ⟨h', hfree, ⟨(hkeep p fun hm => (hnot p hm).1 rfl).trans hF.table,
    (hkeep q fun hm => (hnot q hm).2 rfl).trans hF.array, hF.length, fun i hki hi => ?_, hF.apart,
    fun a => ?_, hw⟩⟩
  · refine (hF.chains i (Nat.le_of_succ_le hki) hi).congr fun a ha => ?_
    unfold nodeAt cellAt
    rw [hkeep a fun hm => Nat.ne_of_gt hki (hF.apart i k a hi hk ha hm)]
  · by_cases ha : a ∈ addrs (chain k)
    · have hdead : ¬ h'.Live a := by
        rw [Heap.not_live, hread]
        exact if_pos ha
      refine iff_of_false hdead ?_
      rintro (rfl | rfl | ⟨i, hki, hi, hm⟩)
      · exact (hnot a ha).1 rfl
      · exact (hnot a ha).2 rfl
      · exact Nat.ne_of_gt hki (hF.apart i k a hi hk hm ha)
    · rw [Heap.live_iff, hkeep a ha, ← Heap.live_iff, hF.live]
      refine or_congr_right (or_congr_right ⟨fun ⟨i, hki, hi, hm⟩ => ?_,
        fun ⟨i, hki, hi, hm⟩ => ⟨i, Nat.le_of_succ_le hki, hi, hm⟩⟩)
      have hne : k ≠ i := by
        rintro rfl
        exact ha hm
      exact ⟨i, by omega, hi, hm⟩

theorem FreedTo.bucketsOf (hF : FreedTo h p q k heads chain) :
    bucketsOf h p = some (q, heads, 1024) := by
  unfold EltexSystems.bucketsOf
  rw [hF.table]
  simp only [Option.bind_some, CtCell.asTable]
  rw [hF.array]
  rfl

theorem FreedTo.loop : ∀ (n : ℕ) {h : Heap CtCell} {k : ℕ}, FreedTo h p q k heads chain →
    k + n = 1024 → ∃ h', CtHeap.freeBuckets p (List.range' k n) h = some h' ∧
      FreedTo h' p q 1024 heads chain
  | 0, h, k, hF, hn => ⟨h, rfl, hn ▸ hF⟩
  | n + 1, h, k, hF, hn => by
    have hk : k < 1024 := by omega
    obtain ⟨h₁, hfree, hF₁⟩ := hF.step hk
    obtain ⟨h', hrest, hF'⟩ := FreedTo.loop n hF₁ (by omega)
    refine ⟨h', ?_, hF'⟩
    have hget : heads[k]? = some (heads.getD k none) := by
      have hlt : k < heads.length := by rw [hF.length]; exact hk
      rw [List.getD_eq_getElem?_getD, List.getElem?_eq_getElem hlt]
      rfl
    rw [List.range'_succ, CtHeap.freeBuckets, hF.bucketsOf]
    simp only [Option.bind_some, hget, hfree]
    exact hrest

/-- Nothing is in use any more. -/
theorem destroy_rep (hR : Represents s T) :
    ∃ h', s.destroy = some h' ∧ h'.Wf ∧ ∀ a, ¬ h'.Live a := by
  obtain ⟨h, t⟩ := s
  rcases t with _ | p <;> rcases T with _ | T
  · exact ⟨h, rfl, hR⟩
  · exact hR.elim
  · exact hR.elim
  · obtain ⟨q, heads, chain, hR⟩ := hR
    have hF : FreedTo h p q 0 heads chain :=
      ⟨hR.table, hR.array, hR.length, fun i _ hi => hR.chains i hi, hR.apart, fun a => by
        rw [hR.live]
        simp, hR.wf⟩
    obtain ⟨h₁, hrun, hF₁⟩ := hF.loop 1024 rfl
    obtain ⟨h₂, hfree₂, -, hread₂⟩ := Heap.free_of_read hF₁.array
    have hpq : p ≠ q := hR.p_ne_q
    obtain ⟨h₃, hfree₃, -, hread₃⟩ :=
      Heap.free_of_read ((hread₂ p).trans ((if_neg hpq).trans hF₁.table))
    refine ⟨h₃, ?_, (hF₁.wf.free hfree₂).free hfree₃, fun a => ?_⟩
    · unfold CtHeap.destroy
      simp only [hR.table, Option.bind_some, CtCell.asTable, List.range_eq_range', hrun,
        hF₁.bucketsOf, hfree₂, hfree₃]
    · rw [Heap.not_live, hread₃, hread₂]
      split_ifs with hap haq
      · rfl
      · rfl
      · rw [← Heap.not_live, hF₁.live]
        rintro (h | h | ⟨i, hi, hlt, -⟩)
        · exact hap h
        · exact haq h
        · exact absurd hlt (Nat.not_lt_of_le hi)

/-- Whatever calls were made on a new table, `rawudp_ct_destroy` frees every allocation of the
table, none of them twice. -/
theorem ct_destroyed {tr : List (CtHeap × CtCall)} (h : (ctLts newTable newBuckets).Run tr s) :
    ∃ h', s.destroy = some h' ∧ h'.freed.Nodup ∧ ∀ n, n ∈ h'.freed ↔ n < h'.allocs := by
  obtain ⟨h', hrun, hw, hdead⟩ := destroy_rep (represents_run h)
  refine ⟨h', hrun, hw.freed_nodup, fun n => ⟨hw.freed_lt n, fun hn => ?_⟩⟩
  rcases hw.accounted n hn with hf | ⟨p, v, hc⟩
  · exact hf
  · exact absurd (show h'.Live p by rw [Heap.Live, hc]; exact Option.some_ne_none _) (hdead p)

/-- A client was counted, and its node is freed with the table. -/
theorem ct_destroyed_one : ∃ tr s, (ctLts (some 0) (some 1)).Run tr s ∧ tr.length = 1 ∧
    ∃ h', s.destroy = some h' ∧ h'.freed.Nodup := by
  obtain ⟨s, hrun, hf⟩ := run_created
  obtain ⟨r, hr, -⟩ := call_rep (represents_run hrun) hf
  have hrun' := hrun.snoc ⟨hf, r, hr, rfl⟩
  obtain ⟨h', hd, hnd, -⟩ := ct_destroyed hrun'
  exact ⟨_, _, hrun', rfl, h', hd, hnd⟩

end Destroying

end EltexSystems
