import EltexSystems.DynBytes
import EltexSystems.Proofs.DynMem

/-!
# What a long word does to the list

Stores to one node leave the bytes of the others, which lie apart, so every operation does to the
bytes what it does to the nodes (`Sim`), as long as the words typed stay inside their nodes: then
the list stays intact (`list_intact`).  A longer word is written over the pointers of the node
behind (`long_word_breaks`).
-/

namespace EltexSystems

open CStr FlatMem DoublyLinked

namespace ByteBook

variable {b b' : ByteBook} {mem mem' : ℕ → UInt8} {p q offset : ℕ} {v : Option ℕ}

section Nodes

theorem live_nodes : b.nodes.Live p ↔ b.heap.Live p := by
  unfold Heap.Live nodes
  simp

theorem cell_nodes (b : ByteBook) (p : ℕ) :
    b.nodes.cell p = (b.heap.cell p).map fun c => (c.1, node b.mem p) := rfl

theorem live_of_cell {c : ℕ × Unit} (h : b.heap.cell p = some c) : b.heap.Live p := by
  rw [Heap.Live, h]
  exact Option.some_ne_none _

theorem node_next (mem : ℕ → UInt8) (p : ℕ) :
    (node mem p).next = loadPtr mem (p + nextOffset) := by
  simp only [node]

theorem node_prev (mem : ℕ → UInt8) (p : ℕ) :
    (node mem p).prev = loadPtr mem (p + prevOffset) := by
  simp only [node]

theorem node_congr (h : ∀ a, q ≤ a → a < q + nodeSize → mem' a = mem a) :
    node mem' q = node mem q := by
  have hblock : ∀ k n, k + n ≤ nodeSize → block mem' (q + k) n = block mem (q + k) n :=
    fun k n hk => block_congr fun i hi => h _ (by omega) (by omega)
  have hptr : ∀ k, k + 8 ≤ nodeSize → loadPtr mem' (q + k) = loadPtr mem (q + k) :=
    fun k hk => loadPtr_congr fun i hi => h _ (by omega) (by omega)
  unfold node
  rw [hblock _ _ (by decide), hblock _ _ (by decide), hblock _ _ (by decide),
    hptr _ (by decide), hptr _ (by decide)]

/-- A write outside a node leaves it. -/
theorem node_write (bytes : List UInt8) (h : q + nodeSize ≤ p ∨ p + bytes.length ≤ q) :
    node (write mem p bytes) q = node mem q := by
  refine node_congr fun a hlo hhi => ?_
  rcases h with h | h
  · exact write_of_lt (by omega)
  · exact write_of_ge (by omega)

theorem block_write_ptr {k n : ℕ} (h : k + n ≤ offset ∨ offset + 8 ≤ k) :
    block (write mem (p + offset) (ptrBytes v)) (p + k) n = block mem (p + k) n := by
  refine block_write_of_disjoint ?_
  rw [length_ptrBytes]
  omega

theorem node_store_next (hv : IsPtr v) : node (write mem (p + nextOffset) (ptrBytes v)) p =
    { node mem p with next := v } := by
  have hprev : loadPtr (write mem (p + nextOffset) (ptrBytes v)) (p + prevOffset)
      = loadPtr mem (p + prevOffset) := by
    unfold loadPtr
    rw [block_write_ptr (.inr (by decide))]
  unfold node
  rw [loadPtr_write hv, hprev, block_write_ptr (.inl (by decide)),
    block_write_ptr (.inl (by decide)), block_write_ptr (.inl (by decide))]

theorem node_store_prev (hv : IsPtr v) : node (write mem (p + prevOffset) (ptrBytes v)) p =
    { node mem p with prev := v } := by
  have hnext : loadPtr (write mem (p + prevOffset) (ptrBytes v)) (p + nextOffset)
      = loadPtr mem (p + nextOffset) := by
    unfold loadPtr
    rw [block_write_ptr (.inl (by decide))]
  unfold node
  rw [loadPtr_write hv, hnext, block_write_ptr (.inl (by decide)),
    block_write_ptr (.inl (by decide)), block_write_ptr (.inl (by decide))]

/-- Words inside a node are written nowhere else. -/
theorem scanned_of_outside {word : AbonentField → Option (List UInt8)}
    (hin : ∀ f w, word f = some w → f.offset + w.length < nodeSize) {a : ℕ}
    (ha : a < p ∨ p + nodeSize ≤ a) : scanned p word mem a = mem a := by
  have hfield : ∀ (mem : ℕ → UInt8) f, scanField p word mem f a = mem a := by
    intro mem f
    unfold scanField
    cases hw : word f with
    | none => rfl
    | some w =>
      have hlt := hin f w hw
      rcases ha with ha | ha
      · exact write_of_lt (by omega)
      · refine write_of_ge ?_
        rw [List.length_append, List.length_singleton]
        omega
  unfold scanned
  simp only [List.foldl_cons, List.foldl_nil, hfield]

end Nodes

/-- The live nodes lie apart, at addresses that 64 bits hold. -/
structure Apart (b : ByteBook) : Prop where
  bounds : ∀ p, b.heap.Live p → 0 < p ∧ p + nodeSize ≤ 2 ^ 64
  apart : ∀ p q, b.heap.Live p → b.heap.Live q → p ≠ q → p + nodeSize ≤ q ∨ q + nodeSize ≤ p

theorem Apart.isPtr (h : b.Apart) (hp : b.heap.Live p) : IsPtr (some p) := by
  rintro n hn
  obtain rfl := Option.some.inj hn
  obtain ⟨hpos, hle⟩ := h.bounds p hp
  exact ⟨hpos, by unfold nodeSize at hle; omega⟩

/-- An operation on the bytes that does to the nodes what another does. -/
structure Sim (x : Option ByteBook) (y : Option DynBook) : Prop where
  view : x.map view = y
  apart : ∀ b, x = some b → b.Apart

namespace Sim

variable {x : Option ByteBook} {y : Option DynBook}

theorem some (h : b.Apart) : Sim (some b) (some b.view) :=
  ⟨rfl, fun _ hb => Option.some.inj hb ▸ h⟩

theorem none : Sim none none := ⟨rfl, fun _ hb => absurd hb.symm (Option.some_ne_none _)⟩

theorem bind {f : ByteBook → Option ByteBook} {g : DynBook → Option DynBook} (h : Sim x y)
    (hf : ∀ b, b.Apart → x = .some b → Sim (f b) (g b.view)) : Sim (x.bind f) (y.bind g) := by
  obtain ⟨rfl, hx⟩ := h
  rcases x with _ | b
  · exact .none
  · exact hf b (hx b rfl) rfl

theorem of_some {d : DynBook} (h : Sim x (.some d)) : ∃ b, x = .some b ∧ b.view = d ∧ b.Apart := by
  obtain ⟨b, hx, hd⟩ := Option.map_eq_some_iff.mp h.view
  exact ⟨b, hx, hd, h.apart b hx⟩

end Sim

section Operations

theorem store_eq_some (h : b.store p offset v = some b') :
    b.heap.Live p ∧ b' = { b with mem := write b.mem (p + offset) (ptrBytes v) } := by
  obtain ⟨u, hu, rfl⟩ := Option.map_eq_some_iff.mp h
  exact ⟨Heap.live_iff.mpr ⟨u, hu⟩, rfl⟩

/-- A pointer that is stored in a node changes that node, and no other. -/
theorem sim_store (hs : b.Apart) (hoffset : offset + 8 ≤ nodeSize) {f : AbonentNode → AbonentNode}
    (hnode : node (write b.mem (p + offset) (ptrBytes v)) p = f (node b.mem p)) :
    Sim (b.store p offset v) ((b.nodes.modify p f).map fun h => { b.view with heap := h }) := by
  refine ⟨?_, fun b' hb => ?_⟩
  · rcases hp : b.heap.cell p with _ | c
    · rw [store, Heap.read, Heap.modify, cell_nodes, hp]
      rfl
    · rw [store, Heap.read, Heap.modify, cell_nodes, hp]
      refine congrArg some (congrArg (fun h => DynBook.mk h b.head b.tail)
        (congrArg (fun cell => Heap.mk cell b.heap.allocs b.heap.freed) (funext fun q => ?_)))
      by_cases hq : q = p
      · rw [hq, Function.update_self, hp, Option.map_some, hnode]
      · rw [Function.update_of_ne hq, cell_nodes]
        rcases hc : b.heap.cell q with _ | d
        · rfl
        · have hapart := hs.apart q p (live_of_cell hc) (live_of_cell hp) hq
          rw [Option.map_some, Option.map_some,
            node_write _ (by rw [length_ptrBytes]; omega)]
  · obtain ⟨-, rfl⟩ := store_eq_some hb
    exact ⟨hs.bounds, hs.apart⟩

theorem sim_store_next (hs : b.Apart) (p : ℕ) (hv : IsPtr v) : Sim (b.store p nextOffset v)
    ((b.nodes.modify p fun n => { n with next := v }).map fun h => { b.view with heap := h }) :=
  sim_store hs (by decide) (node_store_next hv)

theorem sim_store_prev (hs : b.Apart) (p : ℕ) (hv : IsPtr v) : Sim (b.store p prevOffset v)
    ((b.nodes.modify p fun n => { n with prev := v }).map fun h => { b.view with heap := h }) :=
  sim_store hs (by decide) (node_store_prev hv)

theorem sim_free (hs : b.Apart) (p : ℕ) :
    Sim (b.free p) ((b.nodes.free p).map fun h => { b.view with heap := h }) := by
  refine ⟨?_, fun b' hb => ?_⟩
  · rcases hp : b.heap.cell p with _ | c
    · rw [free, Heap.free, Heap.free, cell_nodes, hp]
      rfl
    · rw [free, Heap.free, Heap.free, cell_nodes, hp]
      refine congrArg some (congrArg (fun h => DynBook.mk h b.head b.tail)
        (congrArg (fun cell => Heap.mk cell b.heap.allocs (b.heap.freed ++ [c.1]))
          (funext fun q => ?_)))
      show (Function.update b.heap.cell p none q).map _ = Function.update b.nodes.cell p none q
      by_cases hq : q = p
      · rw [hq, Function.update_self, Function.update_self, Option.map_none]
      · rw [Function.update_of_ne hq, Function.update_of_ne hq, cell_nodes]
  · obtain ⟨h, hf, rfl⟩ := Option.map_eq_some_iff.mp hb
    have hlive : ∀ q, h.Live q → b.heap.Live q := by
      intro q hq
      obtain ⟨u, hu⟩ := Heap.live_iff.mp hq
      obtain ⟨c, hc⟩ : ∃ c, b.heap.read p = some c := by
        obtain ⟨c, hc, -⟩ := Option.map_eq_some_iff.mp hf
        exact Heap.live_iff.mp (live_of_cell hc)
      obtain ⟨h', hf', -, hread⟩ := Heap.free_of_read hc
      cases hf.symm.trans hf'
      rw [hread] at hu
      split_ifs at hu
      exact Heap.live_iff.mpr ⟨u, hu⟩
    exact ⟨fun q hq => hs.bounds q (hlive q hq),
      fun q r hq hr => hs.apart q r (hlive q hq) (hlive r hr)⟩

theorem isPtr_of_read {u : AbonentNode} (h : b.nodes.read p = some u) :
    IsPtr u.next ∧ IsPtr u.prev := by
  obtain ⟨n, hc⟩ := Heap.read_eq_some.mp h
  obtain ⟨c, -, hcu⟩ := Option.map_eq_some_iff.mp hc
  obtain rfl : node b.mem p = u := congrArg Prod.snd hcu
  rw [node_next, node_prev]
  exact ⟨isPtr_loadPtr b.mem _, isPtr_loadPtr b.mem _⟩

theorem sim_unlinkNext (hs : b.Apart) (p : ℕ) : Sim (b.unlinkNext p) (b.view.unlinkNext p) := by
  unfold unlinkNext DynBook.unlinkNext
  rcases hu : b.nodes.read p with _ | u
  · rw [show b.view.heap.read p = none from hu]
    exact Sim.none
  · rw [show b.view.heap.read p = some u from hu, Option.bind_some, Option.bind_some]
    rcases hprev : u.prev with _ | q
    · exact Sim.some (b := { b with head := u.next }) ⟨hs.bounds, hs.apart⟩
    · exact sim_store_next hs q (isPtr_of_read hu).1

theorem sim_unlinkPrev (hs : b.Apart) (p : ℕ) : Sim (b.unlinkPrev p) (b.view.unlinkPrev p) := by
  unfold unlinkPrev DynBook.unlinkPrev
  rcases hu : b.nodes.read p with _ | u
  · rw [show b.view.heap.read p = none from hu]
    exact Sim.none
  · rw [show b.view.heap.read p = some u from hu, Option.bind_some, Option.bind_some]
    rcases hnext : u.next with _ | q
    · exact Sim.some (b := { b with tail := u.prev }) ⟨hs.bounds, hs.apart⟩
    · exact sim_store_prev hs q (isPtr_of_read hu).2

theorem sim_removeAbonent (hs : b.Apart) (number : ℤ) :
    Sim (b.removeAbonent number) (b.view.removeAbonent number) := by
  unfold removeAbonent DynBook.removeAbonent
  rcases hhead : b.head with _ | first
  · rw [show b.view.head = none from hhead]
    exact Sim.some hs
  · rw [show b.view.head = some first from hhead]
    simp only []
    rcases hseek : DynBook.seek b.nodes number.toNat (some first) with _ | ⟨_ | p⟩
    · rw [show DynBook.seek b.view.heap number.toNat (some first) = none from hseek]
      exact Sim.none
    · rw [show DynBook.seek b.view.heap number.toNat (some first) = some none from hseek]
      exact Sim.some hs
    · rw [show DynBook.seek b.view.heap number.toNat (some first) = some (some p) from hseek]
      exact (sim_unlinkNext hs p).bind fun b₁ hs₁ _ =>
        (sim_unlinkPrev hs₁ p).bind fun b₂ hs₂ _ => sim_free hs₂ p

theorem sim_freeFrom (fuel : ℕ) : ∀ {b : ByteBook}, b.Apart → ∀ a, Sim (freeFrom fuel b a)
    ((DynBook.freeFrom fuel b.nodes a).map fun h => { b.view with heap := h }) := by
  induction fuel with
  | zero =>
    intro b hs a
    rcases a with _ | p
    · exact Sim.some hs
    · exact Sim.none
  | succ fuel ih =>
    intro b hs a
    rcases a with _ | p
    · exact Sim.some hs
    · unfold freeFrom DynBook.freeFrom
      rcases hu : b.nodes.read p with _ | u
      · exact Sim.none
      · rw [Option.bind_some, Option.bind_some]
        have hfree := sim_free hs p
        rcases hb : b.free p with _ | b₁
        · rw [hb] at hfree
          rw [Option.map_eq_none_iff.mp hfree.view.symm]
          exact Sim.none
        · have hsome : some b₁.view = _ := hb ▸ hfree.view
          obtain ⟨h₁, hh, hview⟩ := Option.map_eq_some_iff.mp hsome.symm
          rw [hh, Option.bind_some, Option.bind_some, show h₁ = b₁.nodes from
            congrArg DynBook.heap hview]
          have hends : b₁.head = b.head ∧ b₁.tail = b.tail :=
            ⟨congrArg DynBook.head hview.symm, congrArg DynBook.tail hview.symm⟩
          have hrest := ih (hfree.apart b₁ hb) u.next
          rw [view, hends.1, hends.2] at hrest
          exact hrest

theorem sim_freeAll (hs : b.Apart) : Sim b.freeAll b.view.freeAll := by
  have hfrom := sim_freeFrom b.heap.allocs hs b.head
  unfold freeAll DynBook.freeAll
  refine ⟨?_, fun b' hb => ?_⟩
  · have hview := congrArg (Option.map fun d : DynBook => DynBook.mk d.heap none none) hfrom.view
    rw [Option.map_map, Option.map_map] at hview
    rw [Option.map_map]
    exact hview
  · obtain ⟨b₁, hb₁, rfl⟩ := Option.map_eq_some_iff.mp hb
    have h := hfrom.apart b₁ hb₁
    exact ⟨h.bounds, h.apart⟩

/-- A node put on bytes of no live node, with whatever is written there. -/
theorem malloc_apart (hs : b.Apart) (hpos : 0 < p) (hle : p + nodeSize ≤ 2 ^ 64)
    (hfree : ∀ q, b.heap.Live q → p + nodeSize ≤ q ∨ q + nodeSize ≤ p)
    (hmem : ∀ a, a < p ∨ p + nodeSize ≤ a → mem' a = b.mem a) :
    Apart { b with mem := mem', heap := b.heap.malloc p () } ∧
      nodes { b with mem := mem', heap := b.heap.malloc p () }
        = b.nodes.malloc p (node mem' p) := by
  have hlive : ∀ q, (b.heap.malloc p ()).Live q → q = p ∨ b.heap.Live q := by
    intro q hq
    by_cases hqp : q = p
    · exact .inl hqp
    · obtain ⟨u, hu⟩ := Heap.live_iff.mp hq
      rw [Heap.read_malloc, if_neg hqp] at hu
      exact .inr (Heap.live_iff.mpr ⟨u, hu⟩)
  refine ⟨⟨fun q hq => ?_, fun q r hq hr hqr => ?_⟩, ?_⟩
  · rcases hlive q hq with rfl | hq
    · exact ⟨hpos, hle⟩
    · exact hs.bounds q hq
  · rcases hlive q hq with hqp | hq' <;> rcases hlive r hr with hrp | hr'
    · exact absurd (hqp.trans hrp.symm) hqr
    · exact hqp ▸ hfree r hr'
    · exact hrp ▸ (hfree q hq').symm
    · exact hs.apart q r hq' hr' hqr
  · refine congrArg (fun cell => Heap.mk cell (b.heap.allocs + 1) b.heap.freed)
      (funext fun q => ?_)
    show (Function.update b.heap.cell p (some (b.heap.allocs, ())) q).map _
      = Function.update b.nodes.cell p (some (b.heap.allocs, node mem' p)) q
    by_cases hq : q = p
    · rw [hq, Function.update_self, Function.update_self, Option.map_some]
    · rw [Function.update_of_ne hq, Function.update_of_ne hq, cell_nodes]
      rcases hc : b.heap.cell q with _ | c
      · rfl
      · have hqfree := hfree q (live_of_cell hc)
        have hnode : node mem' q = node b.mem q :=
          node_congr fun a hlo hhi => hmem a (by omega)
        rw [Option.map_some, Option.map_some, hnode]

theorem Sim.map {x : Option ByteBook} {y : Option DynBook} {f : ByteBook → ByteBook}
    {g : DynBook → DynBook} (h : Sim x y)
    (hf : ∀ b, b.Apart → (f b).view = g b.view ∧ (f b).Apart) : Sim (x.map f) (y.map g) := by
  rw [Option.map_eq_bind, Option.map_eq_bind]
  refine h.bind fun b hb _ => ?_
  obtain ⟨hview, hapart⟩ := hf b hb
  exact ⟨congrArg Option.some hview, fun b' hb' => Option.some.inj hb' ▸ hapart⟩

/-- What follows a change of the nodes alone. -/
theorem Sim.bind_heap {x : Option ByteBook} {y : Option (Heap AbonentNode)} {d : DynBook}
    {f : ByteBook → Option ByteBook} {g : DynBook → Option DynBook}
    (h : Sim x (y.map fun h => { d with heap := h }))
    (hf : ∀ b, b.Apart → Sim (f b) (g b.view)) :
    Sim (x.bind f) (y.bind fun h => g { d with heap := h }) := by
  have hbind := h.bind fun b hb _ => hf b hb
  rwa [Option.bind_map] at hbind

theorem sim_putLast (hs : b.Apart) (hp : IsPtr (some p)) :
    Sim (b.putLast p) (b.view.putLast p) := by
  unfold putLast DynBook.putLast
  rcases ht : b.tail with _ | t
  · rw [show b.view.tail = none from ht]
    exact Sim.some (b := { b with head := some p, tail := some p }) ⟨hs.bounds, hs.apart⟩
  · rw [show b.view.tail = some t from ht]
    have hmap := (sim_store_next hs t hp).map (f := fun b => { b with tail := some p })
      (g := fun d => { d with tail := some p }) fun b hb => ⟨rfl, hb.bounds, hb.apart⟩
    rwa [Option.map_map] at hmap

/-- A node is written and put behind the last. -/
theorem sim_link (hs : b.Apart) (hp : IsPtr (some p)) {t : Option ℕ} (ht : IsPtr t) :
    Sim ((b.store p nextOffset none).bind fun b =>
        (b.store p prevOffset t).bind fun b => b.putLast p)
      ((b.nodes.modify p fun n => { n with next := none, prev := t }).bind fun h =>
        { b.view with heap := h }.putLast p) := by
  have hmodify := Heap.modify_modify b.nodes p (fun n => { n with next := none })
    (fun n => { n with prev := t })
  rw [← hmodify, Option.bind_assoc]
  refine (sim_store_next hs p isPtr_none).bind_heap
    (g := fun d => (d.heap.modify p fun n => { n with prev := t }).bind fun h =>
      { d with heap := h }.putLast p) fun b₁ hs₁ => ?_
  exact (sim_store_prev hs₁ p ht).bind_heap (g := fun d => d.putLast p) fun b₂ hs₂ =>
    sim_putLast hs₂ hp

/-- An addition puts in a node that holds what the words left there. -/
theorem sim_add (hs : b.Apart) {junk : List UInt8} {word : AbonentField → Option (List UInt8)}
    (hf : (ByteOp.add (some (p, junk)) word).Fresh b)
    (hin : (ByteOp.add (some (p, junk)) word).Inside) (ht : IsPtr b.tail) :
    Sim (b.addAbonent (some (p, junk)) word)
      (b.view.link p (node (scanned p word (write b.mem p junk)) p) fun n =>
        { n with next := none, prev := b.tail }) := by
  obtain ⟨hpos, hle, hlen, hfree⟩ := hf p junk rfl
  have hmem : ∀ a, a < p ∨ p + nodeSize ≤ a →
      scanned p word (write b.mem p junk) a = b.mem a := by
    intro a ha
    rw [scanned_of_outside hin ha]
    rcases ha with ha | ha
    · exact write_of_lt ha
    · exact write_of_ge (by rw [hlen]; exact ha)
  obtain ⟨hs₁, hnodes⟩ := malloc_apart hs hpos hle hfree hmem
  have hp : IsPtr (some p) := hs₁.isPtr (by rw [Heap.Live]; simp [Heap.malloc])
  have hlink := sim_link hs₁ hp ht
  rw [hnodes] at hlink
  exact hlink

end Operations

end ByteBook

/-- The nodes behind an operation. -/
def ByteOp.leaves (l : List ℕ) : ByteOp → List ℕ
  | .add none _ => l
  | .add (some (p, _)) _ => l ++ [p]
  | .remove number => l.eraseIdx number.toNat
  | .freeAll => []

/-- The nodes `l` are the list, and lie apart. -/
structure ByteInv (b : ByteBook) (l : List ℕ) : Prop where
  dyn : DynInv b.view l
  apart : b.Apart

section Runs

variable {b : ByteBook} {l : List ℕ} {op : ByteOp} {p : ℕ}

theorem ByteInv.live (h : ByteInv b l) : b.heap.Live p ↔ p ∈ l :=
  ByteBook.live_nodes.symm.trans (h.dyn.live p)

theorem ByteInv.isPtr_tail (h : ByteInv b l) : IsPtr b.tail := by
  rcases ht : b.tail with _ | t
  · exact isPtr_none
  · exact h.apart.isPtr (h.live.mpr (List.mem_of_getLast? (h.dyn.tail.symm.trans ht)))

theorem ByteInv.of_init (h : byteLts.init b) : ByteInv b [] := by
  obtain ⟨hheap, hhead, htail⟩ := h
  have hlive : ∀ p, ¬ b.heap.Live p := fun p => by rw [hheap]; exact not_not.mpr rfl
  have hnodes : b.nodes = .empty := by
    unfold ByteBook.nodes
    rw [hheap]
    rfl
  have hview : b.view = .start := by
    unfold ByteBook.view
    rw [hnodes, hhead, htail]
    rfl
  exact ⟨hview ▸ .start, fun p hp => absurd hp (hlive p), fun p _ hp => absurd hp (hlive p)⟩

/-- An operation whose words stay inside their node does not fault and keeps the list. -/
theorem ByteInv.run (h : ByteInv b l) (hf : op.Fresh b) (hin : op.Inside) :
    ∃ b', b.run op = some b' ∧ ByteInv b' (op.leaves l) := by
  cases op with
  | add new word =>
    rcases new with _ | ⟨p, junk⟩
    · exact ⟨b, rfl, h⟩
    · have hp : ¬ b.view.heap.Live p := by
        intro hp
        obtain ⟨-, -, -, hfree⟩ := hf p junk rfl
        have hself := hfree p (ByteBook.live_nodes.mp hp)
        unfold nodeSize at hself
        omega
      have hsim := ByteBook.sim_add h.apart hf hin h.isPtr_tail
      obtain ⟨d, hd, hdyn, -⟩ := h.dyn.link hp
        (ByteBook.node (ByteBook.scanned p word (write b.mem p junk)) p)
        (f := fun n => { n with next := none, prev := b.tail }) rfl rfl
      obtain ⟨b', hb, rfl, hs⟩ := ByteBook.Sim.of_some (hd ▸ hsim)
      exact ⟨b', hb, hdyn, hs⟩
  | remove number =>
    obtain ⟨d, hd, hdyn, -⟩ := h.dyn.remove number
    have hsim := ByteBook.sim_removeAbonent h.apart number
    obtain ⟨b', hb, rfl, hs⟩ := ByteBook.Sim.of_some (hd ▸ hsim)
    exact ⟨b', hb, hdyn, hs⟩
  | freeAll =>
    obtain ⟨d, hd, hdyn⟩ := h.dyn.freeAll
    obtain ⟨b', hb, rfl, hs⟩ := ByteBook.Sim.of_some (hd ▸ ByteBook.sim_freeAll h.apart)
    exact ⟨b', hb, hdyn, hs⟩

theorem byteInv_run {tr : List (ByteBook × ByteOp)} (h : byteLts.Run tr b)
    (hin : ∀ p ∈ tr, p.2.Inside) : ∃ l, ByteInv b l := by
  refine h.inv_when (I := fun b => ∃ l, ByteInv b l) (C := fun _ op => op.Inside) ?_ ?_ hin
  · exact fun b hb => ⟨[], .of_init hb⟩
  · rintro b op b' ⟨l, hl⟩ hin ⟨hf, hst⟩
    obtain ⟨b'', hb, hl'⟩ := hl.run hf hin
    cases hst.symm.trans hb
    exact ⟨_, hl'⟩

end Runs

section Intact

variable {b : ByteBook} {l : List ℕ} {p : ℕ}

/-- In every state that additions, removals and `free_all` reach the list is intact, and there no
operation faults, as long as no word typed runs past the end of its node. -/
theorem list_intact {tr : List (ByteBook × ByteOp)} (h : byteLts.Run tr b)
    (hin : ∀ p ∈ tr, p.2.Inside) :
    b.view.Intact ∧ ∀ op : ByteOp, op.Fresh b → op.Inside → b.run op ≠ none := by
  obtain ⟨l, hl⟩ := byteInv_run h hin
  refine ⟨hl.dyn.intact, fun op hf hop => ?_⟩
  obtain ⟨b', hb, -⟩ := hl.run hf hop
  rw [hb]
  exact Option.some_ne_none _

/-- The words typed for a record. -/
def annWith (tel : List UInt8) : AbonentField → Option (List UInt8)
  | .name => some (ascii "ann")
  | .second_name => some (ascii "ann")
  | .tel => some tel

/-- An addition for which `malloc` returns the address. -/
def putAt (p : ℕ) (tel : List UInt8) : ByteOp :=
  .add (some (p, List.replicate nodeSize 0)) (annWith tel)

theorem fresh_putAt (h : ByteInv b l) (tel : List UInt8) (hp : 0 < p ∧ p + nodeSize ≤ 2 ^ 64)
    (hfree : ∀ q ∈ l, p + nodeSize ≤ q ∨ q + nodeSize ≤ p) : (putAt p tel).Fresh b := by
  rintro q junk hq
  cases hq
  exact ⟨hp.1, hp.2, List.length_replicate, fun q hq => hfree q (h.live.mp hq)⟩

theorem inside_putAt (p : ℕ) : (putAt p (ascii "1")).Inside := by
  rintro (_ | _ | _) w hw <;> cases hw <;> decide

def ByteBook.blank : ByteBook := ⟨fun _ => 0, .empty, none, none⟩

def ByteBook.after (b : ByteBook) (op : ByteOp) : ByteBook := (b.run op).getD b

theorem ByteInv.after (h : ByteInv b l) {op : ByteOp} (hf : op.Fresh b) (hin : op.Inside) :
    byteLts.step b op (b.after op) ∧ ByteInv (b.after op) (op.leaves l) := by
  obtain ⟨b', hb, hl⟩ := h.run hf hin
  have hafter : b.after op = b' := by rw [ByteBook.after, hb, Option.getD_some]
  rw [hafter]
  exact ⟨⟨hf, hb⟩, hl⟩

/-- Two nodes, of which the first is removed again. -/
def twoPut : List ByteOp := [putAt 4096 (ascii "1"), putAt 4160 (ascii "1"), .remove 0]

theorem run_twoPut : ∃ tr, byteLts.Run tr (twoPut.foldl ByteBook.after .blank) ∧
    (∀ p ∈ tr, p.2.Inside) ∧ ByteInv (twoPut.foldl ByteBook.after .blank) [4160] := by
  have hinit : byteLts.init .blank := ⟨rfl, rfl, rfl⟩
  have h0 : ByteInv .blank [] := .of_init hinit
  obtain ⟨hst1, h1⟩ := h0.after (fresh_putAt h0 (p := 4096) (ascii "1") (by decide) (by decide))
    (inside_putAt _)
  obtain ⟨hst2, h2⟩ := h1.after (fresh_putAt h1 (p := 4160) (ascii "1") (by decide) (by decide))
    (inside_putAt _)
  obtain ⟨hst3, h3⟩ := h2.after (show (ByteOp.remove 0).Fresh _ from trivial) trivial
  refine ⟨_, ⟨.blank, hinit, .cons hst1 (.cons hst2 (.single hst3))⟩, ?_, h3⟩
  simp only [List.mem_cons, List.not_mem_nil, or_false, forall_eq_or_imp, forall_eq]
  exact ⟨inside_putAt _, inside_putAt _, trivial⟩

/-- Two records are added and the first is removed. -/
theorem list_intact_two : ∃ (tr : _) (b : ByteBook), byteLts.Run tr b ∧ b.head = some 4160 ∧
    b.heap.freed = [0] ∧ b.view.Intact := by
  obtain ⟨tr, h, hin, hl⟩ := run_twoPut
  exact ⟨tr, _, h, hl.dyn.head, by decide +kernel, (list_intact h hin).1⟩

/-- A third record, in the place of the one removed, with a telephone number of 90 characters. -/
def overrun : ByteBook :=
  (twoPut.foldl ByteBook.after .blank).after (putAt 4096 (List.replicate 90 120))

theorem run_overrun : ∃ tr, byteLts.Run tr overrun := by
  obtain ⟨tr, h, -, hl⟩ := run_twoPut
  have hf := fresh_putAt hl (p := 4096) (List.replicate 90 120) (by decide) (by decide)
  have hsome : ((twoPut.foldl ByteBook.after .blank).run
      (putAt 4096 (List.replicate 90 120))).isSome := by decide +kernel
  obtain ⟨b, hb⟩ := Option.isSome_iff_exists.mp hsome
  have hoverrun : overrun = b := by rw [overrun, ByteBook.after, hb, Option.getD_some]
  exact ⟨_, h.snoc ⟨hf, hoverrun ▸ hb⟩⟩

/-- The number is written over the node behind, whose pointer back then leads to no node. -/
theorem long_word_breaks : ∃ (tr : _) (b : ByteBook), byteLts.Run tr b ∧ ¬ b.view.Intact := by
  obtain ⟨tr, h⟩ := run_overrun
  refine ⟨tr, overrun, h, fun hintact => ?_⟩
  obtain ⟨l, hnodes⟩ := hintact.nodes
  have hback := hnodes.backward
  rw [show overrun.view.tail = some 4096 by decide +kernel] at hback
  obtain ⟨l₁, h₁⟩ := hback.onward (q := 4160) (by decide +kernel)
  obtain ⟨l₂, h₂⟩ := h₁.onward (q := 0x787878787878) (by decide +kernel)
  have hnone : overrun.view.heap.read 0x787878787878 = none := by decide +kernel
  cases h₂ with
  | node hv _ => cases hnone.symm.trans hv

end Intact

end EltexSystems
