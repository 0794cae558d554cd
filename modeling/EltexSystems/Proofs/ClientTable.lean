import EltexSystems.ClientTable
import EltexSystems.Lib.Chained
import Mathlib.Algebra.Group.Nat.Defs
import Mathlib.Logic.Function.Basic

/-!
# The client table is a map of counters

`CountsAre t c` ties a table to the map it stands for: every key is stored in one node at most, in
the bucket its hash selects, exactly when `c` counts at least one request for it, with that count
modulo `2 ^ 32`.  A successful `next` adds one to the count of its key and hands it out, a failed
one changes nothing, and a `reset` makes the count of its key zero; so over a run the count is
`nextsSince`.
-/

namespace EltexSystems

theorem keyEq_iff {a b : ClientKey} : keyEq a b = true ↔ a = b := by
  rcases a with ⟨ip, port⟩
  rcases b with ⟨ip', port'⟩
  simp [keyEq]

section Chains

theorem bumpChain_none {key : ClientKey} :
    ∀ {l : List Node}, bumpChain key l = none ↔ ∀ n ∈ l, n.key ≠ key
  | [] => by simp [bumpChain]
  | n :: rest => by
    simp only [bumpChain, keyEq_iff]
    split_ifs with h
    · simp [h]
    · simp [h, bumpChain_none (l := rest)]

/-- A chain whose walk ends at a node with the key is split by that node, incremented in place. -/
theorem bumpChain_some {key : ClientKey} :
    ∀ {l l' : List Node} {c : UInt32}, bumpChain key l = some (l', c) →
      ∃ l₁ v l₂, l = l₁ ++ ⟨key, v⟩ :: l₂ ∧ l' = l₁ ++ ⟨key, c⟩ :: l₂ ∧ c = v + 1
  | [], l', c, h => by simp [bumpChain] at h
  | n :: rest, l', c, h => by
    simp only [bumpChain, keyEq_iff] at h
    split_ifs at h with hk
    · simp only [Option.some.injEq, Prod.mk.injEq] at h
      obtain ⟨rfl, rfl⟩ := h
      subst hk
      exact ⟨[], n.counter, rest, rfl, rfl, rfl⟩
    · obtain ⟨⟨r, c'⟩, hr, he⟩ := Option.map_eq_some_iff.mp h
      simp only [Prod.mk.injEq] at he
      obtain ⟨rfl, rfl⟩ := he
      obtain ⟨l₁, v, l₂, rfl, rfl, rfl⟩ := bumpChain_some hr
      exact ⟨n :: l₁, v, l₂, rfl, rfl, rfl⟩

theorem mem_unlinkChain {key : ClientKey} :
    ∀ {l : List Node}, (l.map Node.key).Nodup →
      ∀ {n : Node}, n ∈ unlinkChain key l ↔ n.key ≠ key ∧ n ∈ l
  | [], _, n => by simp [unlinkChain]
  | m :: rest, h, n => by
    simp only [List.map_cons, List.nodup_cons, List.mem_map, not_exists, not_and] at h
    simp only [unlinkChain, keyEq_iff]
    split_ifs with hm
    · subst hm
      constructor
      · exact fun hn => ⟨h.1 n hn, List.mem_cons_of_mem _ hn⟩
      · rintro ⟨hne, hn⟩
        rcases List.mem_cons.mp hn with rfl | hn
        · exact absurd rfl hne
        · exact hn
    · rw [List.mem_cons, List.mem_cons, mem_unlinkChain h.2]
      constructor
      · rintro (rfl | hn)
        · exact ⟨hm, .inl rfl⟩
        · exact ⟨hn.1, .inr hn.2⟩
      · rintro ⟨hne, rfl | hn⟩
        · exact .inl rfl
        · exact .inr ⟨hne, hn⟩

theorem unlinkChain_sublist (key : ClientKey) :
    ∀ l : List Node, (unlinkChain key l).Sublist l
  | [] => List.Sublist.refl _
  | n :: rest => by
    simp only [unlinkChain]
    split_ifs
    · exact List.sublist_cons_self _ _
    · exact (unlinkChain_sublist key rest).cons_cons n

/-- Keys being distinct, incrementing a node replaces the one with the key. -/
theorem mem_bumped {key : ClientKey} {v c : UInt32} {l₁ l₂ : List Node}
    (h : ((l₁ ++ ⟨key, v⟩ :: l₂).map Node.key).Nodup) {n : Node} :
    n ∈ l₁ ++ ⟨key, c⟩ :: l₂ ↔ n.key ≠ key ∧ n ∈ l₁ ++ ⟨key, v⟩ :: l₂ ∨ n = ⟨key, c⟩ := by
  simp only [List.map_append, List.map_cons, List.nodup_append, List.nodup_cons, List.mem_map,
    List.mem_cons, not_exists, not_and] at h
  obtain ⟨-, ⟨h2, -⟩, h1⟩ := h
  have h1' : ∀ m ∈ l₁, m.key ≠ key := fun m hm => h1 _ ⟨m, hm, rfl⟩ _ (.inl rfl)
  simp only [List.mem_append, List.mem_cons]
  constructor
  · rintro (hn | rfl | hn)
    · exact .inl ⟨h1' n hn, .inl hn⟩
    · exact .inr rfl
    · exact .inl ⟨h2 n hn, .inr (.inr hn)⟩
  · rintro (⟨hne, hn | rfl | hn⟩ | rfl)
    · exact .inl hn
    · exact absurd rfl hne
    · exact .inr (.inr hn)
    · exact .inr (.inl rfl)

end Chains

/-- What every table reached keeps: 1024 buckets, each key in one node at most, that node in the
bucket its hash selects. -/
structure ClientTable.Wf (t : ClientTable) : Prop where
  nb : t.nb = 1024
  length : t.buckets.length = 1024
  chained : Chained.Inv Node.key (bucketOf 1024) t.buckets

theorem bucketOf_lt (key : ClientKey) : bucketOf 1024 key < 1024 := by
  have h : (UInt32.ofNat 1024).toNat = 1024 := rfl
  rw [bucketOf, UInt32.toNat_mod, h]
  exact Nat.mod_lt _ (by omega)

/-- The table stands for the map `c`. -/
structure CountsAre (t : ClientTable) (c : ClientKey → ℕ) : Prop where
  wf : t.Wf
  counts : ∀ n : Node, n ∈ t.nodes ↔ 0 < c n.key ∧ n.counter = UInt32.ofNat (c n.key)

theorem countsAre_create {c₁ c₂ : Bool} {t : ClientTable} (h : rawudpCtCreate c₁ c₂ = some t) :
    CountsAre t fun _ => 0 := by
  simp only [rawudpCtCreate] at h
  split_ifs at h
  obtain rfl := (Option.some.inj h).symm
  refine ⟨⟨rfl, List.length_replicate, Chained.inv_replicate 1024⟩, fun n => ?_⟩
  rw [ClientTable.nodes, List.flatten_replicate_nil]
  simp

theorem countsAre_created :
    ∃ t, rawudpCtCreate true true = some t ∧ CountsAre t fun _ => 0 :=
  ⟨_, rfl, countsAre_create (by rfl : rawudpCtCreate true true = some _)⟩

section Step

variable {t : ClientTable} {c : ClientKey → ℕ}

theorem mem_bucket_iff (h : t.Wf) {key : ClientKey} {n : Node} (hk : n.key = key) :
    n ∈ t.buckets.getD (bucketOf t.nb key) [] ↔ n ∈ t.nodes := by
  subst hk
  rw [h.nb, ClientTable.nodes, h.chained.mem_flatten_iff]

/-- Replacing the chain of `key` by one that changes only what is stored for `key`. -/
theorem set_chain (h : CountsAre t c) {key : ClientKey} {l : List Node} {m : ℕ}
    (hnd : (l.map Node.key).Nodup)
    (hl : ∀ n, n ∈ l ↔ n.key ≠ key ∧ n ∈ t.buckets.getD (bucketOf t.nb key) []
      ∨ n.key = key ∧ 0 < m ∧ n.counter = UInt32.ofNat m) :
    CountsAre { t with buckets := t.buckets.set (bucketOf t.nb key) l }
      (Function.update c key m) := by
  obtain ⟨⟨hnb, hlen, hch⟩, hc⟩ := h
  rw [hnb] at hl
  have hplace : ∀ n ∈ l, bucketOf 1024 n.key = bucketOf 1024 key := by
    intro n hn
    rcases (hl n).mp hn with ⟨-, hn⟩ | ⟨hk, -⟩
    · exact hch.placed _ n hn
    · rw [hk]
  refine ⟨⟨hnb, by simpa using hlen, ?_⟩, fun n => ?_⟩
  · rw [hnb]
    exact hch.set hplace hnd
  · simp only [ClientTable.nodes, hnb]
    rw [hch.mem_flatten_set (by rw [hlen]; exact bucketOf_lt key) hplace hnd]
    by_cases hk : n.key = key
    · rw [if_pos (by rw [hk]), hl, hk, Function.update_self]
      simp
    · rw [Function.update_of_ne hk, ← hc n]
      split_ifs with hb
      · rw [hl, ClientTable.nodes, hch.mem_flatten_iff, hb]
        simp [hk]
      · rfl

/-- A `next` on a table that stands for `c` either counts one more request of its key and hands out
the new count, or, only for a key not stored yet and `calloc` failing, returns -1 and leaves table
and cell as they are. -/
theorem next_spec (h : CountsAre t c) (key : ClientKey) (old : UInt32) (calloc : Bool) :
    ((calloc = true ∨ 0 < c key) ∧ ∃ t', rawudpCtNext (some t) key (some old) calloc
          = (0, some t', some (UInt32.ofNat (c key + 1)))
        ∧ CountsAre t' (Function.update c key (c key + 1)))
      ∨ (calloc = false ∧ c key = 0
        ∧ rawudpCtNext (some t) key (some old) calloc = (-1, some t, some old)) := by
  have hnd := h.wf.chained.nodup (bucketOf 1024 key)
  rw [← h.wf.nb] at hnd
  have hstored : ∀ n : Node, n.key = key → (n ∈ t.buckets.getD (bucketOf t.nb key) []
      ↔ 0 < c key ∧ n.counter = UInt32.ofNat (c key)) := by
    rintro n rfl
    rw [mem_bucket_iff h.wf rfl, h.counts]
  rcases hb : bumpChain key (t.buckets.getD (bucketOf t.nb key) []) with _ | ⟨l, v⟩
  · have hnone := bumpChain_none.mp hb
    have h0 : c key = 0 := by
      by_contra hne
      exact hnone ⟨key, UInt32.ofNat (c key)⟩ ((hstored _ rfl).mpr ⟨by omega, rfl⟩) rfl
    rcases hcalloc : calloc with _ | _
    · right
      exact ⟨rfl, h0, by simp only [rawudpCtNext, hb, Bool.false_eq_true, if_false]⟩
    · left
      refine ⟨.inl rfl, _, by simp only [rawudpCtNext, hb, h0]; rfl, ?_⟩
      refine set_chain h ?_ fun n => ?_
      · simp only [List.map_cons, List.nodup_cons, List.mem_map, not_exists, not_and]
        exact ⟨hnone, hnd⟩
      · rw [h0, List.mem_cons]
        constructor
        · rintro (rfl | hn)
          · exact .inr ⟨rfl, by omega, rfl⟩
          · exact .inl ⟨hnone n hn, hn⟩
        · rintro (⟨-, hn⟩ | ⟨hk, -, hv⟩)
          · exact .inr hn
          · left
            rcases n with ⟨k', v'⟩
            simp only at hk hv
            subst hk hv
            rfl
  · left
    obtain ⟨l₁, v₀, l₂, hl, rfl, rfl⟩ := bumpChain_some hb
    have hmem : (⟨key, v₀⟩ : Node) ∈ t.buckets.getD (bucketOf t.nb key) [] := by
      rw [hl]
      simp
    obtain ⟨hpos, hv⟩ := (hstored _ rfl).mp hmem
    simp only at hv
    have hv1 : v₀ + 1 = UInt32.ofNat (c key + 1) := by
      rw [hv, UInt32.ofNat_add]
      rfl
    rw [hl] at hnd
    refine ⟨.inr hpos, _, by simp only [rawudpCtNext, hb, hv1]; rfl,
      set_chain h ?_ fun n => ?_⟩
    · simpa using hnd
    · rw [← hv1, mem_bumped hnd, hl]
      refine or_congr Iff.rfl ?_
      rcases n with ⟨k', v'⟩
      simp only [Node.mk.injEq]
      rw [hv1]
      constructor
      · rintro ⟨rfl, rfl⟩
        exact ⟨rfl, by omega, rfl⟩
      · rintro ⟨rfl, -, rfl⟩
        exact ⟨rfl, rfl⟩

theorem reset_spec (h : CountsAre t c) (key : ClientKey) :
    ∃ t', rawudpCtReset (some t) key = some t' ∧ CountsAre t' (Function.update c key 0) := by
  have hnd := h.wf.chained.nodup (bucketOf 1024 key)
  rw [← h.wf.nb] at hnd
  refine ⟨_, rfl, set_chain h ?_ fun n => ?_⟩
  · exact hnd.sublist ((unlinkChain_sublist _ _).map _)
  · rw [mem_unlinkChain hnd]
    simp

end Step

section Runs

/-- The pointer is `NULL` or points at a table that stands for `c`. -/
def PointsTo (t : Option ClientTable) (c : ClientKey → ℕ) : Prop :=
  ∀ t₁, t = some t₁ → CountsAre t₁ c

theorem pointsTo_create (c₁ c₂ : Bool) : PointsTo (rawudpCtCreate c₁ c₂) fun _ => 0 :=
  fun _ h => countsAre_create h

theorem update_count (c : ClientKey → ℕ) (key : ClientKey) (m : ℕ) :
    (fun k => if key = k then m else c k) = Function.update c key m := by
  funext k
  simp only [Function.update_apply, eq_comm]

/-- One call counts as its return value says. -/
theorem pointsTo_call {t : Option ClientTable} {c : ClientKey → ℕ} (h : PointsTo t c)
    (op : TableOp) :
    PointsTo (op.call t).2.1 fun k => countOp k (c k) (op, (op.call t).1) := by
  rcases t with _ | t
  · rcases op with ⟨key, out, calloc⟩ | ⟨key⟩ <;> rintro t₁ ⟨⟩
  have ht := h t rfl
  rcases op with ⟨key, out, calloc⟩ | ⟨key⟩
  · rcases out with _ | old
    · simpa [TableOp.call, rawudpCtNext, countOp] using h
    · rcases next_spec ht key old calloc with ⟨-, t', he, ht'⟩ | ⟨-, -, he⟩
      · simp only [TableOp.call, he, countOp, and_true]
        rintro _ ⟨⟩
        convert ht' using 1
        rw [← update_count]
        funext k
        split_ifs with hk
        · rw [hk]
        · rfl
      · simpa [TableOp.call, he, countOp] using h
  · obtain ⟨t', he, ht'⟩ := reset_spec ht key
    simp only [TableOp.call, he, countOp, update_count]
    rintro _ ⟨⟩
    exact ht'

theorem pointsTo_runOps : ∀ (ops : List TableOp) {t : Option ClientTable} {c : ClientKey → ℕ},
    PointsTo t c →
      PointsTo (runOps t ops) fun k => (opHistory t ops).foldl (countOp k) (c k)
  | [], _, _, h => h
  | op :: ops, t, c, h => by
    simp only [runOps, opHistory, List.foldl_cons]
    exact pointsTo_runOps ops (pointsTo_call h op)

theorem CountsAre.counter_eq_none {t : ClientTable} {c : ClientKey → ℕ} (h : CountsAre t c)
    {key : ClientKey} : t.counter key = none ↔ c key = 0 := by
  simp only [ClientTable.counter, Option.map_eq_none_iff, List.find?_eq_none, keyEq_iff]
  constructor
  · intro hn
    by_contra hne
    obtain ⟨node, hk, hv⟩ : ∃ node : Node, node.key = key ∧ node.counter = UInt32.ofNat (c key) :=
      ⟨⟨key, UInt32.ofNat (c key)⟩, rfl, rfl⟩
    have hmem : node ∈ t.nodes := (h.counts node).mpr ⟨by rw [hk]; omega, by rw [hk, hv]⟩
    exact hn node ((mem_bucket_iff h.wf hk).mpr hmem) hk
  · intro h0 n hn hk
    have := (h.counts n).mp ((mem_bucket_iff h.wf hk).mp hn)
    rw [hk] at this
    omega

theorem CountsAre.counter_getD {t : ClientTable} {c : ClientKey → ℕ} (h : CountsAre t c)
    (key : ClientKey) : (t.counter key).getD 0 = UInt32.ofNat (c key) := by
  rcases hv : t.counter key with _ | v
  · rw [h.counter_eq_none.mp hv]
    rfl
  · obtain ⟨n, hf, rfl⟩ := Option.map_eq_some_iff.mp hv
    have hk : n.key = key := keyEq_iff.mp (by simpa using List.find?_some hf)
    have hc := (h.counts n).mp ((mem_bucket_iff h.wf hk).mp (List.mem_of_find?_eq_some hf))
    rw [hk] at hc
    exact hc.2

theorem CountsAre.counter_isSome {t : ClientTable} {c : ClientKey → ℕ} (h : CountsAre t c)
    {key : ClientKey} : (t.counter key).isSome ↔ 0 < c key := by
  rw [Option.isSome_iff_ne_none, Ne, h.counter_eq_none]
  omega

/-- After any calls from creation on, a successful `next` hands out the number of successful `next`
calls on its key since the last `reset` of it, one that fails (no table, or no memory for a key not
stored) changes nothing, a `reset` takes out its key and nothing else, and every key is stored in
one node at most, in the bucket of its hash. -/
theorem table_refines_counts (callocTable callocBuckets : Bool) (ops : List TableOp) :
    let t := runOps (rawudpCtCreate callocTable callocBuckets) ops
    let n := fun k => nextsSince k (opHistory (rawudpCtCreate callocTable callocBuckets) ops)
    (∀ key old calloc,
      let r := rawudpCtNext t key (some old) calloc
      (r.1 = 0 → ∃ v, r.2.2 = some v ∧ v.toNat = (n key + 1) % 2 ^ 32)
        ∧ (r.1 ≠ 0 → r = (-1, t, some old) ∧ (t = none ∨ calloc = false ∧ n key = 0)))
    ∧ (∀ t₁, t = some t₁ → ∀ key, ∃ t₂, rawudpCtReset t key = some t₂ ∧ t₂.counter key = none
        ∧ ∀ node, node ∈ t₂.nodes ↔ node.key ≠ key ∧ node ∈ t₁.nodes)
    ∧ (∀ t₁, t = some t₁ → (t₁.nodes.map Node.key).Nodup
        ∧ ∀ i, ∀ node ∈ t₁.buckets.getD i [], i = (hashKey node.key % 1024).toNat) := by
  intro t n
  have hrep : PointsTo t n := pointsTo_runOps ops (pointsTo_create callocTable callocBuckets)
  refine ⟨fun key old calloc => ?_, fun t₁ h₁ key => ?_, fun t₁ h₁ => ⟨?_, fun i node hn => ?_⟩⟩
  · rcases ht : t with _ | t₁
    · exact ⟨fun h => by simp [rawudpCtNext] at h, fun _ => ⟨rfl, .inl rfl⟩⟩
    · rcases next_spec (hrep t₁ ht) key old calloc with ⟨-, t', he, -⟩ | ⟨hc, h0, he⟩
      · simp only [he]
        exact ⟨fun _ => ⟨_, rfl, UInt32.toNat_ofNat'⟩, fun h => absurd rfl h⟩
      · simp only [he]
        exact ⟨fun h => by simp at h, fun _ => ⟨trivial, .inr ⟨hc, h0⟩⟩⟩
  · have hc := hrep t₁ h₁
    obtain ⟨t₂, he, ht₂⟩ := reset_spec hc key
    refine ⟨t₂, by rw [h₁, he], ht₂.counter_eq_none.mpr (by simp), fun node => ?_⟩
    rw [ht₂.counts, hc.counts]
    by_cases hk : node.key = key
    · simp [hk]
    · simp [hk]
  · exact (hrep t₁ h₁).wf.chained.nodup_flatten
  · exact ((hrep t₁ h₁).wf.chained.placed i node hn).symm

end Runs

end EltexSystems
