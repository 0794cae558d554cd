import EltexSystems.Panels

/-!
# The file manager's entries are live as long as directories open

A panel that is freed and loaded from a directory that opens owns the strings of its new entries and
no others (`Inv.load`), a key keeps each string with its one owner (`Inv.key`), and a directory that
does not open leaves a panel with entries that are gone (`not_sound_load`).  So no entry dangles and
no string is freed twice exactly in the runs in which every directory opens and every name is copied
(`panels_sound_iff`).
-/

namespace EltexSystems.Panels

open CStr

section Strings

variable {h : Heap (List UInt8)} {alloc : ℕ → Option ℕ}

/-- A path that leaves room for the name is not cut. -/
theorem joinPath_eq {path name : List UInt8} (hname : 0 ∉ name)
    (hlen : (path ++ ascii "/" ++ name).length < PATH_MAX) :
    joinPath path name = path ++ ascii "/" ++ name := by
  rw [joinPath, cstr_of_ne_zero fun b hb h => hname (h ▸ hb)]
  exact List.take_of_length_le (Nat.le_sub_one_of_lt hlen)

/-- Entries at addresses that are live, each once, are freed, and nothing else is. -/
theorem freeEntries_spec (hw : h.Wf) {es : List Entry} {l : List ℕ}
    (hes : es.map Entry.file = l.map some) (hnd : l.Nodup) (hl : ∀ a ∈ l, h.Live a) :
    ∃ h', freeEntries h es = some h' ∧ h'.Wf ∧ ∀ a, h'.Live a ↔ h.Live a ∧ a ∉ l := by
  induction es generalizing h l with
  | nil =>
    obtain rfl : l = [] := List.map_eq_nil_iff.mp hes.symm
    exact ⟨h, rfl, hw, fun a => (and_iff_left List.not_mem_nil).symm⟩
  | cons e es ih =>
    rcases l with _ | ⟨a, l⟩
    · cases hes
    obtain ⟨he, hes⟩ := List.cons.inj hes
    obtain ⟨hal, hnd⟩ := List.nodup_cons.mp hnd
    obtain ⟨v, hv⟩ := Heap.live_iff.mp (hl a List.mem_cons_self)
    obtain ⟨h₁, hf, -, hread⟩ := Heap.free_of_read hv
    have hlive : ∀ b, h₁.Live b ↔ h.Live b ∧ b ≠ a := fun b => by
      rw [Heap.live_iff, hread, Heap.live_iff]
      by_cases hb : b = a
      · simp [hb]
      · simp [hb]
    obtain ⟨h₂, hf₂, hw₂, hlive₂⟩ := ih (hw.free hf) hes hnd fun b hb =>
      (hlive b).mpr ⟨hl b (List.mem_cons_of_mem _ hb), fun hba => hal (hba ▸ hb)⟩
    refine ⟨h₂, ?_, hw₂, fun b => ?_⟩
    · unfold freeEntries
      rw [he]
      simp only [hf, Option.bind_some]
      exact hf₂
    · rw [hlive₂, hlive, List.mem_cons, not_or, and_assoc]

/-- Entries for some names, one behind the other. -/
def addNames (fs : FileSys) (alloc : ℕ → Option ℕ) (path : List UInt8) :
    Heap (List UInt8) × List Entry → List (List UInt8) → Heap (List UInt8) × List Entry :=
  List.foldl fun r name => addEntry alloc r name (fs.isDir (joinPath path name))

@[simp] theorem length_addEntry (alloc : ℕ → Option ℕ) (r : Heap (List UInt8) × List Entry)
    (name : List UInt8) (isDir : Bool) :
    (addEntry alloc r name isDir).2.length = r.2.length + 1 := by
  simp [addEntry]

/-- The loop over `readdir` adds the names that are no dots, as far as there is room. -/
theorem readEntries_eq (fs : FileSys) (alloc : ℕ → Option ℕ) (path : List UInt8)
    (names : List (List UInt8)) (r : Heap (List UInt8) × List Entry) :
    readEntries fs alloc path names r = addNames fs alloc path r
      ((names.filter fun name => !dotName name).take (MAX_FILES - r.2.length)) := by
  induction names generalizing r with
  | nil => rw [List.filter_nil, List.take_nil]; rfl
  | cons name names ih =>
    unfold readEntries
    by_cases hlt : r.2.length < MAX_FILES
    · rw [if_pos hlt]
      by_cases hd : dotName name = true
      · rw [if_pos hd, ih, List.filter_cons_of_neg (by simp [hd])]
      · obtain ⟨n, hn⟩ : ∃ n, MAX_FILES - r.2.length = n + 1 :=
          ⟨MAX_FILES - r.2.length - 1, by omega⟩
        rw [if_neg hd, ih, List.filter_cons_of_pos (by simp [hd]), length_addEntry, hn,
          show MAX_FILES - (r.2.length + 1) = n by omega, List.take_succ_cons]
        rfl
    · rw [if_neg hlt, show MAX_FILES - r.2.length = 0 by omega, List.take_zero]
      rfl

theorem files_addNames (fs : FileSys) (alloc : ℕ → Option ℕ) (path : List UInt8)
    (names : List (List UInt8)) (r : Heap (List UInt8) × List Entry) :
    (addNames fs alloc path r names).2.map Entry.file
      = r.2.map Entry.file ++ (List.range' r.2.length names.length).map alloc := by
  induction names generalizing r with
  | nil => exact (List.append_nil _).symm
  | cons name names ih =>
    have hcons : addNames fs alloc path r (name :: names)
        = addNames fs alloc path (addEntry alloc r name (fs.isDir (joinPath path name))) names :=
      rfl
    rw [hcons, ih, length_addEntry, List.length_cons, List.range'_succ]
    simp [addEntry]

/-- The allocator's addresses are distinct, and nothing is live there. -/
def FreshFor (h : Heap (List UInt8)) (alloc : ℕ → Option ℕ) : Prop :=
  (∀ k a, alloc k = some a → ¬ h.Live a) ∧ ∀ j k a, alloc j = some a → alloc k = some a → j = k

/-- What `load_dir` has allocated so far. -/
structure Loaded (h : Heap (List UInt8)) (alloc : ℕ → Option ℕ)
    (r : Heap (List UInt8) × List Entry) : Prop where
  nodup : (r.2.filterMap Entry.file).Nodup
  wf : r.1.Wf
  live : ∀ a, r.1.Live a ↔ h.Live a ∨ a ∈ r.2.filterMap Entry.file
  addr : ∀ a ∈ r.2.filterMap Entry.file, ∃ k < r.2.length, alloc k = some a

/-- The next address is one at which nothing is live. -/
theorem Loaded.dead (hf : FreshFor h alloc) {r : Heap (List UInt8) × List Entry}
    (hr : Loaded h alloc r) {a : ℕ} (ha : alloc r.2.length = some a) :
    a ∉ r.2.filterMap Entry.file ∧ ¬ r.1.Live a := by
  have hnew : a ∉ r.2.filterMap Entry.file := fun hm => by
    obtain ⟨k, hk, hka⟩ := hr.addr a hm
    exact absurd (hf.2 _ _ a hka ha) (Nat.ne_of_lt hk)
  exact ⟨hnew, fun hl => ((hr.live a).mp hl).elim (hf.1 _ a ha) hnew⟩

theorem Loaded.add (hf : FreshFor h alloc) {r : Heap (List UInt8) × List Entry}
    (hr : Loaded h alloc r) (name : List UInt8) (isDir : Bool) :
    Loaded h alloc (addEntry alloc r name isDir) := by
  obtain ⟨h1, h2, h3, h4⟩ := hr
  rcases ha : alloc r.2.length with _ | a
  · have hfiles : (addEntry alloc r name isDir).2.filterMap Entry.file
        = r.2.filterMap Entry.file := by
      simp [addEntry, ha]
    have hheap : (addEntry alloc r name isDir).1 = r.1 := by simp [addEntry, strdup, ha]
    refine ⟨hfiles ▸ h1, hheap ▸ h2, fun b => ?_, fun b hb => ?_⟩
    · rw [hheap, hfiles]
      exact h3 b
    · rw [hfiles] at hb
      obtain ⟨k, hk, hkb⟩ := h4 b hb
      exact ⟨k, hk.trans_le (by simp [addEntry]), hkb⟩
  · have hfiles : (addEntry alloc r name isDir).2.filterMap Entry.file
        = r.2.filterMap Entry.file ++ [a] := by
      simp [addEntry, ha]
    have hheap : (addEntry alloc r name isDir).1 = r.1.malloc a (cstr name) := by
      simp [addEntry, strdup, ha]
    obtain ⟨hnew, hdead⟩ := Loaded.dead hf ⟨h1, h2, h3, h4⟩ ha
    refine ⟨?_, hheap ▸ h2.malloc hdead _, fun b => ?_, fun b hb => ?_⟩
    · rw [hfiles, List.nodup_append]
      exact ⟨h1, List.nodup_singleton a, fun b hb c hc hbc =>
        hnew (List.mem_singleton.mp hc ▸ hbc ▸ hb)⟩
    · rw [hheap, hfiles, List.mem_append, List.mem_singleton, Heap.live_iff, Heap.read_malloc]
      by_cases hb : b = a
      · simp [hb]
      · rw [if_neg hb, ← Heap.live_iff, h3 b, or_iff_left hb]
    · rw [hfiles, List.mem_append, List.mem_singleton] at hb
      rw [length_addEntry]
      rcases hb with hb | rfl
      · obtain ⟨k, hk, hkb⟩ := h4 b hb
        exact ⟨k, by omega, hkb⟩
      · exact ⟨_, Nat.lt_succ_self _, ha⟩

theorem Loaded.addNames (hf : FreshFor h alloc) (fs : FileSys) (path : List UInt8)
    (names : List (List UInt8)) {r : Heap (List UInt8) × List Entry} (hr : Loaded h alloc r) :
    Loaded h alloc (addNames fs alloc path r names) := by
  induction names generalizing r with
  | nil => exact hr
  | cons name names ih => exact ih (hr.add hf _ _)

theorem Loaded.nil (hw : h.Wf) : Loaded h alloc (h, []) :=
  ⟨List.nodup_nil, hw, fun _ => (or_iff_left List.not_mem_nil).symm,
    fun _ ha => absurd ha List.not_mem_nil⟩

theorem length_listed_lt (names : List (List UInt8)) : (listed names).length < MAX_FILES :=
  Nat.lt_succ_of_le (List.length_take_le _ _)

/-- A directory that opens gives an entry for its parent and, behind it, its names. -/
theorem loadDir_eq (alloc : ℕ → Option ℕ) {fs : FileSys} {path : List UInt8}
    {names : List (List UInt8)} (hopen : fs.opendir path = some names) (h : Heap (List UInt8))
    (p : Option Panel) (own : Bool) :
    ∃ r, r = addNames fs alloc (if own then fs.realpath path else path)
        (addEntry alloc (h, []) (ascii "..") true) (listed names) ∧
      loadDir fs alloc h p path own = (r.1, some ⟨r.2, 0, fs.realpath path⟩) := by
  refine ⟨_, rfl, ?_⟩
  unfold loadDir
  rw [hopen]
  simp only [readEntries_eq]
  rfl

/-- The entries of a directory that opens lie at the addresses the allocator gives, in order. -/
theorem loadDir_files (alloc : ℕ → Option ℕ) {fs : FileSys} {path : List UInt8}
    {names : List (List UInt8)} (hopen : fs.opendir path = some names) (h : Heap (List UInt8))
    (p : Option Panel) (own : Bool) :
    ∃ h' q, loadDir fs alloc h p path own = (h', some q) ∧ q.selected = 0 ∧
      q.entries.map Entry.file = (List.range' 0 ((listed names).length + 1)).map alloc := by
  obtain ⟨r, hr, hload⟩ := loadDir_eq alloc hopen h p own
  refine ⟨_, _, hload, rfl, ?_⟩
  rw [hr, files_addNames, List.range'_succ]
  rfl

theorem files_eq_some : ∀ {es : List Entry}, (∀ e ∈ es, e.file ≠ none) →
    es.map Entry.file = (es.filterMap Entry.file).map some
  | [], _ => rfl
  | e :: es, he => by
    obtain ⟨a, ha⟩ := Option.ne_none_iff_exists'.mp (he e List.mem_cons_self)
    rw [List.filterMap_cons_some ha, List.map_cons, List.map_cons, ha,
      files_eq_some fun e' he' => he e' (List.mem_cons_of_mem _ he')]

/-- A directory that opens and whose names are copied gives a panel the strings it owns. -/
theorem loadDir_spec {fs : FileSys} {path : List UInt8} {names : List (List UInt8)}
    (hopen : fs.opendir path = some names) (hall : ∀ k ≤ (listed names).length, alloc k ≠ none)
    (hw : h.Wf) (hf : FreshFor h alloc) (p : Option Panel) (own : Bool) :
    ∃ (h' : Heap (List UInt8)) (q : Panel) (l : List ℕ),
      loadDir fs alloc h p path own = (h', some q) ∧ q.selected < l.length ∧
      q.entries.map Entry.file = l.map some ∧ l.Nodup ∧ (∀ a ∈ l, ¬ h.Live a) ∧ h'.Wf ∧
      ∀ a, h'.Live a ↔ h.Live a ∨ a ∈ l := by
  obtain ⟨h', q, hload, hsel, hfiles⟩ := loadDir_files alloc hopen h p own
  have hloaded : Loaded h alloc (h', q.entries) := by
    obtain ⟨r, hr, hload'⟩ := loadDir_eq alloc hopen h p own
    rw [hload, Prod.mk.injEq, Option.some.injEq] at hload'
    obtain ⟨rfl, rfl⟩ := hload'
    rw [hr]
    exact ((Loaded.nil hw).add hf (ascii "..") true).addNames hf fs _ _
  have hmap : q.entries.map Entry.file = (q.entries.filterMap Entry.file).map some := by
    refine files_eq_some fun e he => ?_
    have hm := List.mem_map_of_mem (f := Entry.file) he
    rw [hfiles] at hm
    obtain ⟨k, hk, hka⟩ := List.mem_map.mp hm
    rw [← hka]
    exact hall k (by rw [List.mem_range'_1] at hk; omega)
  refine ⟨h', q, q.entries.filterMap Entry.file, hload, ?_, hmap, hloaded.nodup, ?_, hloaded.wf,
    hloaded.live⟩
  · have hlen := congrArg List.length hmap
    have hlen' := congrArg List.length hfiles
    simp only [List.length_map, List.length_range'] at hlen hlen'
    omega
  · intro a ha
    obtain ⟨k, -, hk⟩ := hloaded.addr a ha
    exact hf.1 k a hk

end Strings

section Owners

variable {s t : Manager} {right : Bool}

/-- The panel has the strings at these addresses, and one of its entries is selected. -/
def Holds (p : Option Panel) (l : List ℕ) : Prop :=
  ∃ q, p = some q ∧ q.entries.map Entry.file = l.map some ∧ q.selected < l.length

/-- Which strings belong to which panel: those that are live, each to one. -/
structure Owns (s : Manager) (f : Bool → List ℕ) : Prop where
  shown : ∀ right, s.Shows right → Holds (s.panel right) (f right)
  hidden : ∀ right, ¬ s.Shows right → f right = []
  nodup : ∀ right, (f right).Nodup
  apart : ∀ r r' a, a ∈ f r → a ∈ f r' → r = r'
  live : ∀ a, s.heap.Live a ↔ ∃ right, a ∈ f right

/-- A `load_dir` is what comes next. -/
def Manager.Loading (s : Manager) : Prop := s.pc ≠ .loop ∧ s.pc ≠ .exited

structure Inv (s : Manager) : Prop where
  wf : s.heap.Wf
  owns : ∃ f, Owns s f
  /-- What a panel that is still to be loaded has are no live strings. -/
  due : s.Loading → ¬ s.Listing s.side
  uninitialised : s.pc = .loadLeft → s.right = none

theorem Inv.start : Inv .start where
  wf := .empty
  owns := ⟨fun _ => [], fun _ h => False.elim h, fun _ _ => rfl, fun _ => List.nodup_nil,
    fun _ _ _ ha => absurd ha List.not_mem_nil,
    fun a => by simp [Manager.start, Heap.Live, Heap.empty]⟩
  due _ h := by
    obtain ⟨q, hq, -⟩ := h
    cases hq
  uninitialised _ := rfl

theorem Holds.file {p : Option Panel} {l : List ℕ} (h : Holds p l) :
    ∃ q, p = some q ∧ ∀ e ∈ q.entries, ∃ a ∈ l, e.file = some a := by
  obtain ⟨q, rfl, hq, -⟩ := h
  refine ⟨q, rfl, fun e he => ?_⟩
  have hm := List.mem_map_of_mem (f := Entry.file) he
  rw [hq] at hm
  obtain ⟨a, ha, hea⟩ := List.mem_map.mp hm
  exact ⟨a, ha, hea.symm⟩

theorem Holds.entry {p : Option Panel} {l : List ℕ} (h : Holds p l) {a : ℕ} (ha : a ∈ l) :
    ∃ q, p = some q ∧ ∃ e ∈ q.entries, e.file = some a := by
  obtain ⟨q, rfl, hq, -⟩ := h
  have hm : some a ∈ q.entries.map Entry.file := hq ▸ List.mem_map_of_mem ha
  obtain ⟨e, he, hea⟩ := List.mem_map.mp hm
  exact ⟨q, rfl, e, he, hea⟩

theorem Owns.listing {f : Bool → List ℕ} (h : Owns s f) (hs : s.Shows right) :
    s.Listing right := by
  obtain ⟨q, hq, hfile⟩ := (h.shown right hs).file
  refine ⟨q, hq, fun e he => ?_⟩
  obtain ⟨a, ha, hea⟩ := hfile e he
  obtain ⟨v, hv⟩ := Heap.live_iff.mp ((h.live a).mpr ⟨right, ha⟩)
  exact ⟨a, v, hea, hv⟩

theorem Owns.held {f : Bool → List ℕ} (h : Owns s f) (hs : s.Shows right) {p : Panel}
    (hp : s.panel right = some p) :
    p.entries.map Entry.file = (f right).map some ∧ p.selected < p.entries.length := by
  obtain ⟨q, hq, hfiles, hsel⟩ := h.shown right hs
  obtain rfl : p = q := Option.some.inj (hp.symm.trans hq)
  refine ⟨hfiles, ?_⟩
  rw [← List.length_map (f := Entry.file), hfiles, List.length_map]
  exact hsel

/-- The strings of one panel are replaced by others that no panel has. -/
theorem Owns.update {f : Bool → List ℕ} (h : Owns s f) {side : Bool} {l : List ℕ} (hnd : l.Nodup)
    (hnew : ∀ r, r ≠ side → ∀ a ∈ f r, a ∉ l)
    (hother : ∀ r, r ≠ side → (t.Shows r ↔ s.Shows r) ∧ t.panel r = s.panel r)
    (hshown : t.Shows side → Holds (t.panel side) l) (hhidden : ¬ t.Shows side → l = [])
    (hlive : ∀ a, t.heap.Live a ↔ (∃ r, r ≠ side ∧ a ∈ f r) ∨ a ∈ l) :
    Owns t (Function.update f side l) := by
  have hself : Function.update f side l side = l := Function.update_self ..
  have hold : ∀ r, r ≠ side → Function.update f side l r = f r := fun r hr =>
    Function.update_of_ne hr ..
  refine ⟨fun r hr => ?_, fun r hr => ?_, fun r => ?_, fun r r' a ha ha' => ?_, fun a => ?_⟩
  · by_cases hrs : r = side
    · subst hrs
      exact hself.symm ▸ hshown hr
    · rw [hold r hrs, (hother r hrs).2]
      exact h.shown r ((hother r hrs).1.mp hr)
  · by_cases hrs : r = side
    · subst hrs
      exact hself.trans (hhidden hr)
    · rw [hold r hrs]
      exact h.hidden r fun hs => hr ((hother r hrs).1.mpr hs)
  · by_cases hrs : r = side
    · rwa [hrs, hself]
    · rw [hold r hrs]
      exact h.nodup r
  · by_cases hr : r = side
    · by_cases hr' : r' = side
      · rw [hr, hr']
      · rw [hr, hself] at ha
        rw [hold r' hr'] at ha'
        exact absurd ha (hnew r' hr' a ha')
    · by_cases hr' : r' = side
      · rw [hold r hr] at ha
        rw [hr', hself] at ha'
        exact absurd ha' (hnew r hr a ha)
      · rw [hold r hr] at ha
        rw [hold r' hr'] at ha'
        exact h.apart r r' a ha ha'
  · rw [hlive]
    constructor
    · rintro (⟨r, hr, ha⟩ | ha)
      · exact ⟨r, by rwa [hold r hr]⟩
      · exact ⟨side, by rwa [hself]⟩
    · rintro ⟨r, ha⟩
      by_cases hr : r = side
      · rw [hr, hself] at ha
        exact .inr ha
      · rw [hold r hr] at ha
        exact .inl ⟨r, hr, ha⟩

@[simp] theorem panel_setPanel (s : Manager) (r r' : Bool) (p : Option Panel) :
    (s.setPanel r p).panel r' = if r' = r then p else s.panel r' := by
  cases r <;> cases r' <;> rfl

@[simp] theorem heap_setPanel (s : Manager) (r : Bool) (p : Option Panel) :
    (s.setPanel r p).heap = s.heap := by
  cases r <;> rfl

@[simp] theorem pc_setPanel (s : Manager) (r : Bool) (p : Option Panel) :
    (s.setPanel r p).pc = s.pc := by
  cases r <;> rfl

@[simp] theorem active_setPanel (s : Manager) (r : Bool) (p : Option Panel) :
    (s.setPanel r p).active = s.active := by
  cases r <;> rfl

theorem not_shows_side (h : s.Loading) : ¬ s.Shows s.side := by
  obtain ⟨h1, h2⟩ := h
  unfold Manager.Shows Manager.side
  cases hpc : s.pc with
  | loadLeft => exact id
  | loadRight => simp
  | loop => exact absurd hpc h1
  | reload _ => simp
  | exited => exact absurd hpc h2

theorem side_reload {path : Option (List UInt8)} (h : s.pc = .reload path) :
    s.side = s.active := by
  unfold Manager.side
  rw [h]

section Load

variable {fs : FileSys} {alloc : ℕ → Option ℕ}

theorem panel_load : (s.load fs alloc).panel right =
    if right = s.side then (loadDir fs alloc s.heap (s.panel s.side) s.target
      (s.pc == .reload none)).2 else s.panel right := by
  show ((s.setPanel s.side _).panel right) = _
  exact panel_setPanel _ _ _ _

theorem heap_load : (s.load fs alloc).heap = (loadDir fs alloc s.heap (s.panel s.side) s.target
    (s.pc == .reload none)).1 := rfl

theorem pc_load_reload {path : Option (List UInt8)} (h : s.pc = .reload path) :
    (s.load fs alloc).pc = .loop := by
  refine if_neg fun hpc => ?_
  rw [h] at hpc
  cases hpc

/-- After a `load_dir` one more panel is shown. -/
theorem shows_load (h : s.Loading) :
    (s.load fs alloc).Shows right ↔ s.Shows right ∨ right = s.side := by
  obtain ⟨h1, h2⟩ := h
  have hpc : (s.load fs alloc).pc = s.pcAfterLoad := rfl
  unfold Manager.Shows Manager.side
  rw [hpc, Manager.pcAfterLoad]
  cases hs : s.pc with
  | loadLeft => simp
  | loadRight => cases right <;> simp
  | loop => exact absurd hs h1
  | reload path => cases right <;> cases s.active <;> simp
  | exited => exact absurd hs h2

theorem Inv.load (h : Inv s) (hl : s.Loading) (hf : FreshFor s.heap alloc)
    (hc : Careful s (.load fs alloc)) : Inv (s.load fs alloc) := by
  obtain ⟨names, hopen, hall⟩ := hc
  obtain ⟨f, hown⟩ := h.owns
  obtain ⟨h', q, l, hload, hsel, hfiles, hnd, hnew, hw, hlive⟩ :=
    loadDir_spec hopen hall h.wf hf (s.panel s.side) (s.pc == .reload none)
  have hheap : (s.load fs alloc).heap = h' := by rw [heap_load, hload]
  have hpanel : ∀ r, (s.load fs alloc).panel r = if r = s.side then some q else s.panel r :=
    fun r => by rw [panel_load, hload]
  have hside := hown.hidden _ (not_shows_side hl)
  refine ⟨hheap ▸ hw, ⟨Function.update f s.side l, hown.update hnd ?_ ?_ ?_ ?_ ?_⟩, ?_, ?_⟩
  · -- nothing that was live is at a new address
    exact fun r _ a ha hal => hnew a hal ((hown.live a).mpr ⟨r, ha⟩)
  · intro r hr
    rw [shows_load hl, hpanel, if_neg hr]
    exact ⟨or_iff_left hr, rfl⟩
  · intro _
    rw [hpanel, if_pos rfl]
    exact ⟨q, rfl, hfiles, hsel⟩
  · exact fun hn => absurd ((shows_load hl).mpr (.inr rfl)) hn
  · intro a
    rw [hheap, hlive, hown.live]
    refine or_congr_left ⟨?_, ?_⟩
    · rintro ⟨r, ha⟩
      refine ⟨r, fun hr => ?_, ha⟩
      rw [hr, hside] at ha
      cases ha
    · rintro ⟨r, -, ha⟩
      exact ⟨r, ha⟩
  · rintro ⟨hloop, -⟩ ⟨p, hp, -⟩
    have hpc : s.pc = .loadLeft := by
      by_contra hne
      exact hloop (if_neg hne)
    have ht : (s.load fs alloc).side = true := by
      unfold Manager.side
      rw [show (s.load fs alloc).pc = .loadRight from if_pos hpc]
    have hs : s.side = false := by
      unfold Manager.side
      rw [hpc]
    rw [ht, hpanel, hs, if_neg (by decide), show s.panel true = s.right from rfl,
      h.uninitialised hpc] at hp
    cases hp
  · intro hpc
    rw [show (s.load fs alloc).pc = s.pcAfterLoad from rfl, Manager.pcAfterLoad] at hpc
    split_ifs at hpc

/-- A directory that does not open, or a name that is not copied, leaves a panel whose entries are
not all live strings. -/
theorem not_sound_load (h : Inv s) (hl : s.Loading) (hc : ¬ Careful s (.load fs alloc)) :
    ¬ Sound (s.load fs alloc) := by
  intro hs
  have hlist := hs.live s.side ((shows_load hl).mpr (.inr rfl))
  obtain ⟨p, hp, hlive⟩ := hlist
  rw [panel_load, if_pos rfl] at hp
  rcases hopen : fs.opendir s.target with _ | names
  · have hsame : loadDir fs alloc s.heap (s.panel s.side) s.target (s.pc == .reload none)
        = (s.heap, s.panel s.side) := by
      unfold loadDir
      rw [hopen]
    rw [heap_load, hsame] at hlive
    rw [hsame] at hp
    exact h.due hl ⟨p, hp, hlive⟩
  · obtain ⟨h', q, hload, -, hfiles⟩ :=
      loadDir_files alloc hopen s.heap (s.panel s.side) (s.pc == .reload none)
    rw [hload] at hp
    obtain rfl : q = p := Option.some.inj hp
    refine hc ⟨names, hopen, fun k hk hnone => ?_⟩
    have hm : none ∈ q.entries.map Entry.file := by
      rw [hfiles, ← hnone]
      exact List.mem_map_of_mem (List.mem_range'_1.mpr (by omega))
    obtain ⟨e, he, hfile⟩ := List.mem_map.mp hm
    obtain ⟨a, v, ha, -⟩ := hlive e he
    rw [hfile] at ha
    cases ha

end Load

section Keys

theorem drawEntries_ok {h : Heap (List UInt8)} (selected : ℕ) (active : Bool) :
    ∀ {es : List Entry}, (∀ e ∈ es, ∃ a v, e.file = some a ∧ h.read a = some v) →
      ∀ i n, ∃ lines, drawEntries h selected active es i n = some lines
  | [], _, _, _ => ⟨[], rfl⟩
  | e :: es, _, _, 0 => ⟨[], rfl⟩
  | e :: es, hl, i, n + 1 => by
    obtain ⟨a, v, ha, hv⟩ := hl e List.mem_cons_self
    obtain ⟨lines, hd⟩ := drawEntries_ok selected active
      (fun e' he' => hl e' (List.mem_cons_of_mem _ he')) (i + 1) n
    rw [drawEntries, ha, Option.bind_some, hv, Option.bind_some, hd]
    exact ⟨_, rfl⟩

theorem drawPanel_ok {p : Option Panel} (hl : s.Listing right) (hp : s.panel right = p) (rows : ℕ)
    (active : Bool) : ∃ d, drawPanel s.heap rows p active = some d := by
  obtain ⟨q, hq, hlive⟩ := hl
  rw [← hp, hq]
  obtain ⟨lines, hd⟩ := drawEntries_ok q.selected active hlive 0 (rows - 2)
  rw [drawPanel, Option.bind_some, hd]
  exact ⟨_, rfl⟩

theorem shows_loop (h : s.pc = .loop) (right : Bool) : s.Shows right := by
  unfold Manager.Shows
  rw [h]
  trivial

/-- In the loop both panels are drawn, and the key is taken by the active one. -/
theorem step_key (h : Inv s) (hpc : s.pc = .loop) (rows : ℕ) (k : Key) :
    ∃ p, s.panel s.active = some p ∧ s.step (.key rows k) = s.press p k := by
  obtain ⟨f, hown⟩ := h.owns
  have hlist := fun right => hown.listing (shows_loop hpc right)
  obtain ⟨dl, hl⟩ := drawPanel_ok (hlist false) rfl rows (!s.active)
  obtain ⟨dr, hr⟩ := drawPanel_ok (hlist true) rfl rows s.active
  obtain ⟨p, hp, -⟩ := hlist s.active
  refine ⟨p, hp, ?_⟩
  change drawPanel s.heap rows s.left _ = _ at hl
  change drawPanel s.heap rows s.right _ = _ at hr
  unfold Manager.step
  simp only [if_pos hpc, hl, hr, hp, Option.bind_some]

/-- A key is taken in the loop, by the active panel. -/
theorem step_press {rows : ℕ} {k : Key} (hst : s.step (.key rows k) = some t) :
    s.pc = .loop ∧ ∃ p, s.panel s.active = some p ∧ s.press p k = some t := by
  have hpc : s.pc = .loop := by
    by_contra hpc
    rw [show s.step (.key rows k) = none from if_neg hpc] at hst
    cases hst
  simp only [Manager.step, if_pos hpc] at hst
  obtain ⟨_, -, hst⟩ := Option.bind_eq_some_iff.mp hst
  obtain ⟨_, -, hst⟩ := Option.bind_eq_some_iff.mp hst
  obtain ⟨p, hp, hst⟩ := Option.bind_eq_some_iff.mp hst
  exact ⟨hpc, p, hp, hst⟩

/-- The panel's strings are freed before the next `load_dir`. -/
theorem Inv.freed (h : Inv s) (hpc : s.pc = .loop) {p q : Panel} {path : Option (List UInt8)}
    (hp : s.panel s.active = some p) (hq : t.panel s.active = some q)
    (hes : q.entries = p.entries) (hother : ∀ r, r ≠ s.active → t.panel r = s.panel r)
    (hact : t.active = s.active) (ht : t.pc = .reload path)
    (hfree : freeEntries s.heap p.entries = some t.heap) : Inv t := by
  obtain ⟨f, hown⟩ := h.owns
  obtain ⟨hfiles, hsel⟩ := hown.held (shows_loop hpc _) hp
  obtain ⟨h', hfree', hw, hlive⟩ := freeEntries_spec h.wf hfiles (hown.nodup _) fun a ha =>
    (hown.live a).mpr ⟨_, ha⟩
  obtain rfl : t.heap = h' := Option.some.inj (hfree.symm.trans hfree')
  have hshows : ∀ r, t.Shows r ↔ r ≠ s.active := fun r => by
    unfold Manager.Shows
    rw [ht, hact]
  have hside : t.side = s.active := (side_reload ht).trans hact
  refine ⟨hw, ⟨Function.update f s.active [], hown.update List.nodup_nil ?_ ?_ ?_ ?_ ?_⟩, ?_, ?_⟩
  · exact fun _ _ _ _ => List.not_mem_nil
  · exact fun r hr => ⟨iff_of_true ((hshows r).mpr hr) (shows_loop hpc r), hother r hr⟩
  · exact fun hs => absurd rfl ((hshows _).mp hs)
  · exact fun _ => rfl
  · intro a
    rw [hlive, hown.live, or_iff_left List.not_mem_nil]
    constructor
    · rintro ⟨⟨r, ha⟩, hna⟩
      exact ⟨r, fun hr => hna (hr ▸ ha), ha⟩
    · rintro ⟨r, hr, ha⟩
      exact ⟨⟨r, ha⟩, fun ha' => hr (hown.apart r s.active a ha ha')⟩
  · -- the selected entry's string is gone
    rintro - ⟨q', hq', hl⟩
    rw [hside, hq] at hq'
    obtain rfl := Option.some.inj hq'
    have he : p.entries.get ⟨p.selected, hsel⟩ ∈ p.entries := List.get_mem _ _
    have hm := List.mem_map_of_mem (f := Entry.file) he
    rw [hfiles] at hm
    obtain ⟨a, ha, hea⟩ := List.mem_map.mp hm
    obtain ⟨a', v, hea', hv⟩ := hl _ (by rw [hes]; exact he)
    obtain rfl : a = a' := Option.some.inj (hea.trans hea')
    exact ((hlive a).mp (Heap.live_iff.mpr ⟨v, hv⟩)).2 ha
  · intro hl
    rw [ht] at hl
    cases hl

theorem Inv.selected (h : Inv s) (hpc : s.pc = .loop) {p q : Panel}
    (hp : s.panel s.active = some p) (hes : q.entries = p.entries)
    (hsel : q.selected < p.entries.length) : Inv (s.setPanel s.active (some q)) := by
  obtain ⟨f, hown⟩ := h.owns
  have hpc' : (s.setPanel s.active (some q)).pc = .loop := (pc_setPanel _ _ _).trans hpc
  refine ⟨by rw [heap_setPanel]; exact h.wf, ⟨f, fun r _ => ?_, fun r hr => ?_, hown.nodup,
    hown.apart, fun a => ?_⟩, fun hl => absurd hpc' hl.1, fun hl => ?_⟩
  · rw [panel_setPanel]
    by_cases hr : r = s.active
    · subst hr
      obtain ⟨hfiles, -⟩ := hown.held (shows_loop hpc _) hp
      rw [if_pos rfl]
      refine ⟨q, rfl, hes ▸ hfiles, ?_⟩
      rwa [← List.length_map (f := Entry.file), hfiles, List.length_map] at hsel
    · rw [if_neg hr]
      exact hown.shown r (shows_loop hpc r)
  · exact absurd (shows_loop hpc' r) hr
  · rw [heap_setPanel]
    exact hown.live a
  · rw [hpc'] at hl
    cases hl

theorem Inv.quit (h : Inv s) (hpc : s.pc = .loop) (p : Panel) :
    ∃ t, s.press p .quit = some t ∧ Inv t := by
  obtain ⟨f, hown⟩ := h.owns
  obtain ⟨l, hl, hfl, -⟩ := hown.shown false (shows_loop hpc _)
  obtain ⟨r, hr, hfr, -⟩ := hown.shown true (shows_loop hpc _)
  obtain ⟨h₁, hfree₁, hw₁, hlive₁⟩ := freeEntries_spec h.wf hfl (hown.nodup _) fun a ha =>
    (hown.live a).mpr ⟨_, ha⟩
  obtain ⟨h₂, hfree₂, hw₂, hlive₂⟩ := freeEntries_spec hw₁ hfr (hown.nodup _) fun a ha =>
    (hlive₁ a).mpr ⟨(hown.live a).mpr ⟨_, ha⟩, fun ha' =>
      Bool.false_ne_true (hown.apart false true a ha' ha)⟩
  change s.left = some l at hl
  change s.right = some r at hr
  refine ⟨{ s with heap := h₂, pc := .exited }, ?_, hw₂, ⟨fun _ => [], fun _ hs => False.elim hs,
    fun _ _ => rfl, fun _ => List.nodup_nil, fun _ _ _ ha => absurd ha List.not_mem_nil,
    fun a => ?_⟩, fun hl => absurd rfl hl.2, fun hl => by cases hl⟩
  · simp only [Manager.press, freePanel, hl, hr, Option.bind_some, hfree₁, hfree₂,
      Option.map_some]
  · show h₂.Live a ↔ _
    rw [hlive₂, hlive₁, hown.live]
    constructor
    · rintro ⟨⟨⟨side, ha⟩, h1⟩, h2⟩
      cases side
      · exact absurd ha h1
      · exact absurd ha h2
    · rintro ⟨-, ha⟩
      cases ha

/-- Enter frees the panel before a directory is loaded, and does nothing to a file. -/
theorem Inv.enter (h : Inv s) (hpc : s.pc = .loop) {p : Panel} (hp : s.panel s.active = some p) :
    ∃ t, s.enter p = some t ∧ Inv t := by
  obtain ⟨f, hown⟩ := h.owns
  obtain ⟨hfiles, hsel⟩ := hown.held (shows_loop hpc _) hp
  obtain ⟨h', hfree, -, -⟩ := freeEntries_spec h.wf hfiles (hown.nodup _) fun a ha =>
    (hown.live a).mpr ⟨_, ha⟩
  obtain ⟨e, he⟩ : ∃ e, p.entries[p.selected]? = some e := ⟨_, List.getElem?_eq_getElem hsel⟩
  obtain ⟨p₀, hp₀, hlive⟩ := hown.listing (shows_loop hpc s.active)
  obtain rfl : p = p₀ := Option.some.inj (hp.symm.trans hp₀)
  obtain ⟨a, name, ha, hname⟩ := hlive e (List.mem_of_getElem? he)
  unfold Manager.enter
  rw [he, Option.bind_some, ha, Option.bind_some, hname, Option.bind_some, hfree]
  by_cases hup : name = ascii ".."
  · rw [if_pos hup]
    refine ⟨_, rfl, h.freed hpc hp (q := { p with path := parentPath p.path }) ?_ rfl
      (fun r hr => ?_) ?_ rfl hfree⟩
    · exact (panel_setPanel ..).trans (if_pos rfl)
    · exact (panel_setPanel ..).trans (if_neg hr)
    · exact active_setPanel ..
  · rw [if_neg hup]
    by_cases hdir : e.isDir = true
    · rw [if_pos hdir]
      exact ⟨_, rfl, h.freed hpc hp hp rfl (fun _ _ => rfl) rfl rfl hfree⟩
    · rw [if_neg hdir]
      exact ⟨s, rfl, h⟩

/-- Every key in the loop has a result, and keeps each string with its owner. -/
theorem Inv.key (h : Inv s) (hpc : s.pc = .loop) (rows : ℕ) (k : Key) :
    ∃ t, s.step (.key rows k) = some t ∧ Inv t := by
  obtain ⟨p, hp, hstep⟩ := step_key h hpc rows k
  obtain ⟨f, hown⟩ := h.owns
  have hsel := (hown.held (shows_loop hpc _) hp).2
  rw [hstep]
  cases k with
  | quit => exact h.quit hpc p
  | tab =>
    refine ⟨_, rfl, h.wf, ⟨f, fun r _ => hown.shown r (shows_loop hpc r), fun r hr => ?_,
      hown.nodup, hown.apart, hown.live⟩, fun hl => absurd hpc hl.1, h.uninitialised⟩
    exact absurd (shows_loop (s := { s with active := !s.active }) hpc r) hr
  | up =>
    refine ⟨_, rfl, ?_⟩
    split_ifs
    · exact h.selected hpc hp rfl (show p.selected - 1 < _ by omega)
    · exact h
  | down =>
    refine ⟨_, rfl, ?_⟩
    split_ifs with hlt
    · exact h.selected hpc hp rfl hlt
    · exact h
  | enter => exact h.enter hpc hp
  | other => exact ⟨s, rfl, h⟩

end Keys

theorem Inv.sound (h : Inv s) : Sound s := by
  obtain ⟨f, hown⟩ := h.owns
  refine ⟨fun right hs => hown.listing hs, fun hpc rows k => ?_, h.wf.freed_nodup,
    fun n hn hnf => ?_⟩
  · obtain ⟨t, ht, -⟩ := h.key hpc rows k
    rw [ht]
    exact Option.some_ne_none t
  · obtain ⟨a, v, hc⟩ := (h.wf.accounted n hn).resolve_left hnf
    have hlive : s.heap.Live a := by
      rw [Heap.Live, hc]
      exact Option.some_ne_none _
    obtain ⟨right, ha⟩ := (hown.live a).mp hlive
    have hs : s.Shows right := by
      by_contra hs
      rw [hown.hidden right hs] at ha
      cases ha
    obtain ⟨q, hq, e, he, hea⟩ := (hown.shown right hs).entry ha
    exact ⟨right, q, e, a, v, hs, hq, he, hea, hc⟩

theorem step_load {fs : FileSys} {alloc : ℕ → Option ℕ}
    (hst : s.step (.load fs alloc) = some t) : s.Loading ∧ t = s.load fs alloc := by
  by_cases h : s.pc = .loop ∨ s.pc = .exited
  · rw [show s.step (.load fs alloc) = none from if_pos h] at hst
    cases hst
  · rw [show s.step (.load fs alloc) = some (s.load fs alloc) from if_neg h] at hst
    exact ⟨not_or.mp h, (Option.some.inj hst).symm⟩

theorem Inv.step {l : Label} (h : Inv s) (hst : panelsLts.step s l t) (hc : Careful s l) :
    Inv t := by
  obtain ⟨hf, hst⟩ := hst
  cases l with
  | load fs alloc =>
    obtain ⟨hl, rfl⟩ := step_load hst
    exact h.load hl hf hc
  | key rows k =>
    obtain ⟨t', ht', hinv⟩ := h.key (step_press hst).1 rows k
    rw [Option.some.inj (hst.symm.trans ht')]
    exact hinv

theorem careful_of_sound {l : Label} (h : Inv s) (hst : panelsLts.step s l t) (ht : Sound t) :
    Careful s l := by
  cases l with
  | load fs alloc =>
    obtain ⟨hl, rfl⟩ := step_load hst.2
    by_contra hc
    exact not_sound_load h hl hc ht
  | key rows k => trivial

theorem sound_path {tr : List (Manager × Label)} (hpath : panelsLts.Path s tr t) (h : Inv s) :
    (∀ v ∈ Lts.visited tr t, Sound v) ↔ ∀ p ∈ tr, Careful p.1 p.2 := by
  induction hpath with
  | nil s =>
    refine ⟨fun _ p hp => absurd hp List.not_mem_nil, fun _ v hv => ?_⟩
    rw [List.mem_singleton.mp hv]
    exact h.sound
  | @cons s u t l tr hst hp ih =>
    constructor
    · intro hall
      have hu := hall u (List.mem_cons_of_mem _ hp.mem_visited)
      have hc := careful_of_sound h hst hu
      have ihc := (ih (h.step hst hc)).mp fun v hv => hall v (List.mem_cons_of_mem _ hv)
      intro p hm
      rcases List.mem_cons.mp hm with rfl | hm
      · exact hc
      · exact ihc p hm
    · intro hall v hv
      rcases List.mem_cons.mp hv with rfl | hv
      · exact h.sound
      · refine (ih (h.step hst (hall _ List.mem_cons_self))).mpr (fun p hm => ?_) v hv
        exact hall p (List.mem_cons_of_mem _ hm)

end Owners

/-- No entry dangles, no string is freed twice or lost, and a directory that does not open leaves
its panel as it was, exactly in the runs in which every directory opens and every name is copied. -/
theorem panels_sound_iff {tr : List (Manager × Label)} {s : Manager} (h : panelsLts.Run tr s) :
    ((∀ v ∈ Lts.visited tr s, Sound v) ∧ Steady tr) ↔ ∀ p ∈ tr, Careful p.1 p.2 := by
  obtain ⟨s₀, rfl, hpath⟩ := h
  have hiff := sound_path hpath .start
  refine ⟨fun hall => hiff.mp hall.1, fun hall => ⟨hiff.mpr hall, ?_⟩⟩
  rintro tr₁ tr₂ u v t rows fs alloc rfl hfail -
  obtain ⟨names, hopen, -⟩ := hall (v, .load fs alloc)
    (List.mem_append_right _ (List.mem_cons_of_mem _ List.mem_cons_self))
  rw [hfail] at hopen
  cases hopen

section Runs

/-- Every directory opens and is empty, and the working directory is `/a/b`. -/
def emptyDirs : FileSys where
  opendir _ := some []
  realpath path := if path = ascii "." then ascii "/a/b" else path
  isDir _ := true

/-- No directory opens. -/
def noDirs : FileSys := { emptyDirs with opendir := fun _ => none }

/-- One string, at the address. -/
def allocAt (a k : ℕ) : Option ℕ := if k = 0 then some a else none

theorem fresh_allocAt {s : Manager} {a : ℕ} (h : s.heap.read a = none) (fs : FileSys) :
    (Label.load fs (allocAt a)).Fresh s := by
  have hat : ∀ k b, allocAt a k = some b → k = 0 ∧ a = b := fun k b hk => by
    unfold allocAt at hk
    split_ifs at hk with h0
    exact ⟨h0, Option.some.inj hk⟩
  refine ⟨fun k b hk => ?_, fun j k b hj hk => (hat j b hj).1.trans (hat k b hk).1.symm⟩
  rw [← (hat k b hk).2]
  exact Heap.not_live.mpr h

/-- Both panels loaded from the working directory. -/
def loadedTwice : Manager := (Manager.start.load emptyDirs (allocAt 0)).load emptyDirs (allocAt 1)

theorem run_loadedTwice : panelsLts.Run [(.start, .load emptyDirs (allocAt 0)),
    (Manager.start.load emptyDirs (allocAt 0), .load emptyDirs (allocAt 1))] loadedTwice :=
  ⟨.start, rfl, .cons ⟨fresh_allocAt rfl _, rfl⟩ (.single ⟨fresh_allocAt rfl _, rfl⟩)⟩

/-- Enter on the first entry of the left panel, up to the `load_dir`. -/
def leftParent : Manager := (loadedTwice.step (.key 24 .enter)).getD loadedTwice

theorem run_leftParent : panelsLts.Run ([(.start, .load emptyDirs (allocAt 0)),
    (Manager.start.load emptyDirs (allocAt 0), .load emptyDirs (allocAt 1))] ++
      [(loadedTwice, .key 24 .enter)]) leftParent :=
  run_loadedTwice.snoc ⟨trivial, rfl⟩

/-- The parent directory opens, and then the file manager is left. -/
theorem panels_sound_iff_parent : ∃ tr s, panelsLts.Run tr s ∧ s.pc = .exited ∧
    s.heap.freed = [0, 2, 1] ∧ ∀ v ∈ Lts.visited tr s, Sound v := by
  obtain ⟨s, hs⟩ : ∃ s, (leftParent.load emptyDirs (allocAt 2)).step (.key 24 .quit) = some s :=
    ⟨_, rfl⟩
  have hend : s.pc = .exited ∧ s.heap.freed = [0, 2, 1] := by
    have hsome : ((leftParent.load emptyDirs (allocAt 2)).step (.key 24 .quit)).map (fun s =>
        (s.pc, s.heap.freed)) = some (.exited, [0, 2, 1]) := rfl
    rw [hs] at hsome
    exact Prod.mk.inj (Option.some.inj hsome)
  have hquit : panelsLts.step (leftParent.load emptyDirs (allocAt 2)) (.key 24 .quit) s :=
    ⟨trivial, hs⟩
  have hrun := (run_leftParent.snoc (l := .load emptyDirs (allocAt 2))
    ⟨fresh_allocAt rfl _, rfl⟩).snoc hquit
  refine ⟨_, s, hrun, hend.1, hend.2, ((panels_sound_iff hrun).mpr ?_).1⟩
  have hall : ∀ (v : Manager) a, Careful v (.load emptyDirs (allocAt a)) := fun v a =>
    ⟨[], rfl, fun k hk => by rw [Nat.le_zero.mp hk]; exact Option.some_ne_none a⟩
  simp only [List.mem_append, List.mem_cons, List.not_mem_nil, or_false]
  rintro p ((((rfl | rfl) | rfl) | rfl) | rfl)
  · exact hall _ 0
  · exact hall _ 1
  · trivial
  · exact hall _ 2
  · trivial

/-- The parent directory does not open: the left panel's path is cut and the string of its entry is
freed, so that the program reads it at the next key and would free it again. -/
theorem stale_panel : ∃ tr s p, panelsLts.Run tr s ∧ s.pc = .loop ∧
    loadedTwice.panel false = some ⟨[⟨some 0, true⟩], 0, ascii "/a/b"⟩ ∧
    (∃ v, (v, Label.load noDirs (allocAt 2)) ∈ tr ∧ noDirs.opendir v.target = none) ∧
    (loadedTwice, Label.key 24 .enter) ∈ tr ∧ s.panel false = some p ∧
    p = ⟨[⟨some 0, true⟩], 0, ascii "/a"⟩ ∧ ¬ s.heap.Live 0 ∧
    s.step (.key 24 .other) = none ∧ freePanel s.heap s.left = none := by
  have hrun := run_leftParent.snoc (l := .load noDirs (allocAt 2)) ⟨fresh_allocAt rfl _, rfl⟩
  refine ⟨_, _, _, hrun, rfl, rfl, ⟨leftParent, ?_, rfl⟩, ?_, rfl, rfl, Heap.not_live.mpr rfl, rfl,
    rfl⟩
  · exact List.mem_append_right _ (List.mem_singleton_self _)
  · exact List.mem_append_left _ (List.mem_append_right _ (List.mem_singleton_self _))

end Runs

end EltexSystems.Panels
