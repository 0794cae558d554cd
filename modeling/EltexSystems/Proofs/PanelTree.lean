import EltexSystems.PanelTree
import EltexSystems.Proofs.Panels

/-!
# The panels show the directories of their paths

A load that finds the tree leaves the rows of its directory in new strings and every other string as
it was (`loadDir_shows`).  The path of a subdirectory, and the path cut at its last slash, denote
the place entered (`loads_join`, `parentPath_canonical`), so each panel goes on showing the
directory of its path (`Nav.step`), and the parent of what has been entered is where it was entered
from.
-/

namespace EltexSystems.Panels

open CStr PathTree

section Strings

variable {h : Heap (List UInt8)} {alloc : ℕ → Option ℕ}

/-- Strings that are not the panel's are not freed with it. -/
theorem freeEntries_read : ∀ {es : List Entry} {h h' : Heap (List UInt8)} {a : ℕ},
    freeEntries h es = some h' → (∀ e ∈ es, e.file ≠ some a) → h'.read a = h.read a
  | [], h, h', a, hfree, _ => by rw [Option.some.inj hfree]
  | e :: es, h, h', a, hfree, ha => by
    have hrest : ∀ e ∈ es, e.file ≠ some a := fun e he => ha e (List.mem_cons_of_mem _ he)
    unfold freeEntries at hfree
    rcases hfile : e.file with _ | b
    · rw [hfile] at hfree
      exact freeEntries_read hfree hrest
    · rw [hfile] at hfree
      obtain ⟨h₁, hb, hfree⟩ := Option.bind_eq_some_iff.mp hfree
      have hne : a ≠ b := by
        rintro rfl
        exact ha e List.mem_cons_self hfile
      obtain ⟨v, hv⟩ : ∃ v, h.read b = some v := by
        rw [← Heap.live_iff]
        intro hnone
        rw [Heap.free, hnone] at hb
        cases hb
      obtain ⟨h₂, hb', -, hread⟩ := Heap.free_of_read hv
      rw [freeEntries_read hfree hrest, ← Option.some.inj (hb'.symm.trans hb), hread, if_neg hne]

theorem Shown.mono {h h' : Heap (List UInt8)} {e : Entry} {row : List UInt8 × Bool}
    (hread : ∀ a, e.file = some a → h.Live a → h'.read a = h.read a) (hs : Shown h e row) :
    Shown h' e row := by
  obtain ⟨a, hfile, hname, hdir⟩ := hs
  exact ⟨a, hfile, (hread a hfile (Heap.live_iff.mpr ⟨_, hname⟩)).trans hname, hdir⟩

theorem addEntry_shown (hf : FreshFor h alloc) {r : Heap (List UInt8) × List Entry}
    {rows : List (List UInt8 × Bool)} (hr : Loaded h alloc r)
    (hrows : List.Forall₂ (Shown r.1) r.2 rows) (halloc : alloc r.2.length ≠ none)
    (name : List UInt8) (isDir : Bool) :
    List.Forall₂ (Shown (addEntry alloc r name isDir).1) (addEntry alloc r name isDir).2
        (rows ++ [(cstr name, isDir)])
      ∧ ∀ a, r.1.Live a → (addEntry alloc r name isDir).1.read a = r.1.read a := by
  obtain ⟨a, ha⟩ := Option.ne_none_iff_exists'.mp halloc
  have hdead := (hr.dead hf ha).2
  have hheap : (addEntry alloc r name isDir).1 = r.1.malloc a (cstr name) := by
    simp [addEntry, strdup, ha]
  have hframe : ∀ b, r.1.Live b → (r.1.malloc a (cstr name)).read b = r.1.read b := by
    intro b hb
    rw [Heap.read_malloc, if_neg]
    rintro rfl
    exact hdead hb
  rw [hheap]
  have hold := hrows.imp fun _ _ => Shown.mono fun a _ => hframe a
  refine ⟨List.rel_append hold (.cons ?_ .nil), hframe⟩
  exact ⟨a, ha, by rw [Heap.read_malloc, if_pos rfl], rfl⟩

/-- Each name that is added is shown behind the rows shown already. -/
theorem addNames_shown (fs : FileSys) (hf : FreshFor h alloc)
    (hall : ∀ k < MAX_FILES, alloc k ≠ none) (path : List UInt8) (names : List (List UInt8))
    {r : Heap (List UInt8) × List Entry} {rows : List (List UInt8 × Bool)} (hr : Loaded h alloc r)
    (hrows : List.Forall₂ (Shown r.1) r.2 rows) (hroom : r.2.length + names.length ≤ MAX_FILES) :
    List.Forall₂ (Shown (addNames fs alloc path r names).1) (addNames fs alloc path r names).2
        (rows ++ names.map fun n => (cstr n, fs.isDir (joinPath path n)))
      ∧ ∀ a, r.1.Live a → (addNames fs alloc path r names).1.read a = r.1.read a := by
  induction names generalizing r rows with
  | nil =>
    rw [List.map_nil, List.append_nil]
    exact ⟨hrows, fun _ _ => rfl⟩
  | cons name names ih =>
    rw [List.length_cons] at hroom
    obtain ⟨hrows', hframe⟩ := addEntry_shown hf hr hrows (hall _ (by omega)) name
      (fs.isDir (joinPath path name))
    have hadd := hr.add hf name (fs.isDir (joinPath path name))
    obtain ⟨hrest, hframe'⟩ := ih hadd hrows' (by rw [length_addEntry]; omega)
    rw [List.append_assoc] at hrest
    refine ⟨hrest, fun a ha => (hframe' a ?_).trans (hframe a ha)⟩
    exact (hadd.live a).mpr (((hr.live a).mp ha).imp id fun hm => by
      rw [addEntry, List.filterMap_append]
      exact List.mem_append_left _ hm)

end Strings

section Directories

variable {T : Tree} {cwd cs : List (List UInt8)} {path n : List UInt8}

theorem joinPath_name (hn : ValidName n) (hlen : (path ++ 47 :: n).length < PATH_MAX) :
    joinPath path n = path ++ 47 :: n := by
  have htext : path ++ ascii "/" ++ n = path ++ 47 :: n := by
    rw [List.append_assoc]
    rfl
  rw [joinPath_eq hn.nul (htext ▸ hlen), htext]

theorem lastSlash_append (path : List UInt8) (hn : 47 ∉ n) :
    lastSlash (path ++ 47 :: n) = some path.length := by
  have hnone : n.reverse.findIdx? (· == 47) = none := by
    rw [List.findIdx?_eq_none_iff]
    intro b hb
    rw [beq_eq_false_iff_ne]
    rintro rfl
    exact hn (List.mem_reverse.mp hb)
  have hsplit : (path ++ 47 :: n).reverse = n.reverse ++ 47 :: path.reverse := by simp
  rw [lastSlash, hsplit, List.findIdx?_append, hnone, List.findIdx?_cons]
  simp

/-- The path of a place, cut at its last slash, is the path of the place above, and that of the root
stays. -/
theorem parentPath_canonical (hcs : T.dir cs = true) :
    parentPath (canonical cs) = canonical cs.dropLast := by
  rcases cs.eq_nil_or_concat' with rfl | ⟨cs, n, rfl⟩
  · decide
  · obtain ⟨hdir, hn⟩ := T.parent cs n hcs
    rw [List.dropLast_concat, canonical_concat, parentPath,
      lastSlash_append _ (T.valid cs hdir n hn).slash]
    split_ifs with hnil
    · rw [hnil]
      rfl
    · obtain ⟨b, p, hp⟩ := List.exists_cons_of_ne_nil (canonical_ne_nil cs)
      rw [hp, List.length_cons]
      exact List.take_left' rfl

theorem dir_dropLast (hcs : T.dir cs = true) : T.dir cs.dropLast = true := by
  rcases cs.eq_nil_or_concat' with rfl | ⟨cs, n, rfl⟩
  · exact hcs
  · rw [List.dropLast_concat]
    exact (T.parent cs n hcs).1

/-- The path leads to a directory, and there is room behind it for each of its names. -/
structure Loads (T : Tree) (cwd : List (List UInt8)) (path : List UInt8)
    (cs : List (List UInt8)) : Prop where
  dir : T.dir cs = true
  resolves : T.resolve cwd path = some cs
  lt : path.length < PATH_MAX
  room : ∀ n ∈ T.children cs, (path ++ 47 :: n).length < PATH_MAX

theorem Loads.ne_nil (h : Loads T cwd path cs) : path ≠ [] := by
  rintro rfl
  cases h.resolves

theorem loads_dot (hcwd : T.dir cwd = true) : Loads T cwd (ascii ".") cwd where
  dir := hcwd
  resolves := T.resolve_dot hcwd
  lt := by decide
  room n hn := by
    have hlen := (T.valid cwd hcwd n hn).length
    have hdot : (ascii ".").length = 1 := by decide
    rw [List.length_append, List.length_cons, hdot, PATH_MAX]
    omega

theorem loads_canonical (cwd : List (List UInt8)) (hfits : Fits T) (hcs : T.dir cs = true) :
    Loads T cwd (canonical cs) cs where
  dir := hcs
  resolves := Tree.resolve_canonical cwd hcs
  lt := by
    rcases cs.eq_nil_or_concat' with rfl | ⟨cs, n, rfl⟩
    · decide
    · obtain ⟨hdir, hn⟩ := T.parent cs n hcs
      exact hfits cs hdir n hn
  room n hn := by
    have hfit := hfits cs hcs n hn
    rw [canonical_concat] at hfit
    split_ifs at hfit with hnil
    · -- two slashes behind the root
      have hlen := (T.valid cs hcs n hn).length
      have hroot : (canonical []).length = 1 := rfl
      rw [hnil, List.length_append, List.length_cons, hroot, PATH_MAX]
      omega
    · exact hfit

/-- The path of a panel and the name of a subdirectory lead there, from the root by two slashes. -/
theorem loads_join (hfits : Fits T) (hdir : T.dir (cs ++ [n]) = true) :
    Loads T cwd (canonical cs ++ 47 :: n) (cs ++ [n]) := by
  obtain ⟨hcs, hn⟩ := T.parent cs n hdir
  by_cases hnil : cs = []
  · have hlen := (T.valid cs hcs n hn).length
    have hroot : (canonical cs).length = 1 := by
      rw [hnil]
      rfl
    refine ⟨hdir, Tree.resolve_join (canonical_ne_nil cs) (Tree.resolve_canonical cwd hcs) hcs hn,
      (loads_canonical cwd hfits hcs).room n hn, fun m hm => ?_⟩
    have hlen' := (T.valid _ hdir m hm).length
    rw [List.length_append, List.length_append, List.length_cons, List.length_cons, hroot, PATH_MAX]
    omega
  · have h := loads_canonical cwd hfits hdir
    rwa [canonical_concat, if_neg hnil] at h

end Directories

section Listings

variable {T : Tree} {cwd cs : List (List UInt8)} {h h' : Heap (List UInt8)} {p : Panel}

theorem ShowsDir.mono (hread : ∀ e ∈ p.entries, ∀ a, e.file = some a → h.Live a →
    h'.read a = h.read a) (hs : ShowsDir T h p cs) : ShowsDir T h' p cs := by
  obtain ⟨names, hperm, hrows⟩ := hs.entries
  refine ⟨hs.dir, hs.path, ⟨names, hperm, ?_⟩, hs.selected⟩
  exact ((List.forall₂_and_left _ _).mpr ⟨hread, hrows⟩).imp fun _ _ hr => hr.2.mono hr.1

theorem ShowsDir.select (hs : ShowsDir T h p cs) {i : ℕ} (hi : i < p.entries.length) :
    ShowsDir T h { p with selected := i } cs :=
  ⟨hs.dir, hs.path, hs.entries, hi⟩

theorem ShowsDir.first (hs : ShowsDir T h p cs) :
    ∃ a, p.entries[0]? = some ⟨some a, true⟩ ∧ h.read a = some (ascii "..") := by
  obtain ⟨names, -, hrows⟩ := hs.entries
  obtain ⟨e, es, he, -, hp⟩ := List.forall₂_cons_right_iff.mp hrows
  obtain ⟨a, hfile, hname, hdir⟩ := he
  have hentry : e = ⟨some a, true⟩ := by rw [← hfile, ← show e.isDir = true from hdir]
  refine ⟨a, ?_, hname⟩
  rw [hp, List.getElem?_cons_zero, hentry]

theorem ShowsDir.count (hs : ShowsDir T h p cs) :
    1 ≤ p.entries.length ∧ p.entries.length ≤ MAX_FILES := by
  obtain ⟨names, -, hrows⟩ := hs.entries
  have hlen := hrows.length_eq
  rw [dirRows, List.length_cons, List.length_map, List.length_take] at hlen
  have hmax : MAX_FILES = 1024 := rfl
  omega

/-- What is selected is the way up or one of the directory's names. -/
theorem ShowsDir.entry (hs : ShowsDir T h p cs) :
    ∃ e name, p.entries[p.selected]? = some e ∧ e.file.bind h.read = some name ∧
      (name = ascii ".." ∨
        name ≠ ascii ".." ∧ name ∈ T.children cs ∧ e.isDir = T.dir (cs ++ [name])) := by
  obtain ⟨names, hperm, hrows⟩ := hs.entries
  obtain ⟨hlen, hget⟩ := List.forall₂_iff_get.mp hrows
  have hshown := hget p.selected hs.selected (hlen ▸ hs.selected)
  generalize hrow : (dirRows T cs names).get ⟨p.selected, hlen ▸ hs.selected⟩ = row at hshown
  obtain ⟨a, hfile, hname, hdir⟩ := hshown
  refine ⟨_, row.1, List.getElem?_eq_getElem hs.selected, ?_, ?_⟩
  · exact (congrArg (·.bind h.read) hfile).trans hname
  · have hm : row ∈ dirRows T cs names := hrow ▸ List.get_mem _ _
    rcases List.mem_cons.mp hm with rfl | hm
    · exact .inl rfl
    · obtain ⟨n, hn, rfl⟩ := List.mem_map.mp hm
      have hchild := hperm.mem_iff.mp (List.mem_of_mem_take hn)
      exact .inr ⟨(T.valid cs hs.dir n hchild).dotDot, hchild, hdir⟩

variable {fs : FileSys} {alloc : ℕ → Option ℕ} {path : List UInt8}

/-- A `load_dir` of a path that leads to a directory shows it. -/
theorem loadDir_shows (hw : h.Wf) (hf : FreshFor h alloc)
    (hserved : Serves T cwd fs ∧ ∀ k < MAX_FILES, alloc k ≠ none) (hl : Loads T cwd path cs)
    {own : Bool} (hown : own = true → path = canonical cs) (p : Option Panel) :
    ∃ h' q, loadDir fs alloc h p path own = (h', some q) ∧ ShowsDir T h' q cs ∧
      ∀ a, h.Live a → h'.read a = h.read a := by
  obtain ⟨hs, halloc⟩ := hserved
  obtain ⟨names, hopen, hperm⟩ := hs.opendir path cs hl.lt hl.resolves hl.dir
  have hreal := hs.realpath path cs hl.lt hl.resolves hl.dir
  have hpath : (if own then fs.realpath path else path) = path := by
    split_ifs with ho
    · rw [hreal, hown ho]
    · rfl
  -- the entry for the parent, and behind it the names
  have hnil : List.Forall₂ (Shown h) [] [] := .nil
  obtain ⟨hup, hframe⟩ := addEntry_shown hf (Loaded.nil hw) hnil (halloc 0 (by decide))
    (ascii "..") true
  have hadd := (Loaded.nil hw).add hf (ascii "..") true
  have hroom : 1 + (listed names).length ≤ MAX_FILES := by
    rw [Nat.add_comm]
    exact length_listed_lt names
  obtain ⟨hrows, hframe'⟩ := addNames_shown fs hf halloc path (listed names) hadd hup hroom
  have hmap : (listed names).map (fun n => (cstr n, fs.isDir (joinPath path n)))
      = (listed names).map fun n => (n, T.dir (cs ++ [n])) := by
    refine List.map_congr_left fun n hn => ?_
    have hchild := hperm.mem_iff.mp (List.mem_of_mem_take hn)
    have hvalid := T.valid cs hl.dir n hchild
    rw [hvalid.cstr_eq, joinPath_name hvalid (hl.room n hchild), hs.isDir _ _ (hl.room n hchild)
      (Tree.resolve_join hl.ne_nil hl.resolves hl.dir hchild)]
  obtain ⟨r, hr, hload⟩ := loadDir_eq alloc hopen h p own
  rw [hpath] at hr
  rw [hmap, ← hr] at hrows
  rw [← hr] at hframe'
  refine ⟨_, _, hload, ⟨hl.dir, hreal, ⟨_, hperm, hrows⟩, ?_⟩, fun a ha => ?_⟩
  · show 0 < r.2.length
    rw [hrows.length_eq]
    exact Nat.succ_pos _
  · exact (hframe' a ((hadd.live a).mpr (.inl ha))).trans (hframe a ha)

end Listings

section Keys

variable {s t : Manager} {right : Bool} {p : Panel} {rows : ℕ} {k : Key}

/-- A key frees everything, is an Enter, or at most selects another entry of the active panel. -/
theorem press_cases (hp : s.panel s.active = some p) (hst : s.press p k = some t) :
    (k = .quit ∧ ∃ h, t = { s with heap := h, pc := .exited }) ∨
      (k = .enter ∧ s.enter p = some t) ∨
      (k ≠ .enter ∧ t.pc = s.pc ∧ t.heap = s.heap ∧ ∃ i,
        (p.selected < p.entries.length → i < p.entries.length) ∧
        ∀ r, t.panel r = if r = s.active then some { p with selected := i } else s.panel r) := by
  have hsame : ∀ r, s.panel r = if r = s.active then some p else s.panel r := fun r => by
    split_ifs with hr
    · rw [hr, hp]
    · rfl
  cases k with
  | quit =>
    obtain ⟨h, -, hst⟩ := Option.bind_eq_some_iff.mp hst
    obtain ⟨h', -, rfl⟩ := Option.map_eq_some_iff.mp hst
    exact .inl ⟨rfl, h', rfl⟩
  | tab =>
    obtain rfl := Option.some.inj hst
    exact .inr (.inr ⟨by decide, rfl, rfl, p.selected, id, hsame⟩)
  | up =>
    obtain rfl := Option.some.inj hst
    refine .inr (.inr ⟨by decide, ?_⟩)
    split_ifs
    · exact ⟨pc_setPanel .., heap_setPanel .., p.selected - 1, by omega,
        fun r => panel_setPanel ..⟩
    · exact ⟨rfl, rfl, p.selected, id, hsame⟩
  | down =>
    obtain rfl := Option.some.inj hst
    refine .inr (.inr ⟨by decide, ?_⟩)
    split_ifs with hlt
    · exact ⟨pc_setPanel .., heap_setPanel .., p.selected + 1, fun _ => hlt,
        fun r => panel_setPanel ..⟩
    · exact ⟨rfl, rfl, p.selected, id, hsame⟩
  | enter => exact .inr (.inl ⟨rfl, hst⟩)
  | other =>
    obtain rfl := Option.some.inj hst
    exact .inr (.inr ⟨by decide, rfl, rfl, p.selected, id, hsame⟩)

/-- An Enter has freed its panel, and a `load_dir` of a path is due. -/
structure Opens (s : Manager) (p : Panel) (path : List UInt8) (t : Manager) : Prop where
  free : freeEntries s.heap p.entries = some t.heap
  active : t.active = s.active
  pc : ∃ newpath, t.pc = .reload newpath
  other : ∀ r, r ≠ s.active → t.panel r = s.panel r
  target : t.target = path

/-- An Enter cuts the path, goes on to a subdirectory, or leaves a file alone. -/
theorem enter_cases (hst : s.enter p = some t) :
    ∃ e name, p.entries[p.selected]? = some e ∧ e.file.bind s.heap.read = some name ∧
      ((name = ascii ".." ∧ Opens s p (parentPath p.path) t) ∨
        (name ≠ ascii ".." ∧ e.isDir = true ∧ t.pc ≠ .reload none ∧
          Opens s p (joinPath p.path name) t) ∨
        (name ≠ ascii ".." ∧ e.isDir = false ∧ t = s)) := by
  obtain ⟨e, he, hst⟩ := Option.bind_eq_some_iff.mp hst
  obtain ⟨name, hname, hst⟩ := Option.bind_eq_some_iff.mp hst
  refine ⟨e, name, he, hname, ?_⟩
  split_ifs at hst with hup hdir
  · obtain ⟨h, hfree, rfl⟩ := Option.map_eq_some_iff.mp hst
    refine .inl ⟨hup, hfree, active_setPanel .., ⟨_, rfl⟩, fun r hr => ?_, ?_⟩
    · exact (panel_setPanel ..).trans (if_neg hr)
    · show ((s.setPanel s.active _).panel (s.setPanel s.active _).active).elim [] Panel.path = _
      rw [active_setPanel, panel_setPanel, if_pos rfl]
      rfl
  · obtain ⟨h, hfree, rfl⟩ := Option.map_eq_some_iff.mp hst
    refine .inr (.inl ⟨hup, hdir, fun hpc => ?_, hfree, rfl, ⟨_, rfl⟩, fun _ _ => rfl, rfl⟩)
    cases hpc
  · exact .inr (.inr ⟨hup, Bool.eq_false_of_not_eq_true hdir, (Option.some.inj hst).symm⟩)

theorem enter_opens (hst : s.enter p = some t) : (∃ path, Opens s p path t) ∨ t = s := by
  obtain ⟨e, name, -, -, ⟨-, ho⟩ | ⟨-, -, -, ho⟩ | ⟨-, -, rfl⟩⟩ := enter_cases hst
  · exact .inl ⟨_, ho⟩
  · exact .inl ⟨_, ho⟩
  · exact .inr rfl

/-- The strings of the other panel are read as before once one panel's are freed. -/
theorem Inv.freed_read (h : Inv s) (hpc : s.pc = .loop) {q : Panel} (hr : right ≠ s.active)
    (hp : s.panel s.active = some p) (hq : s.panel right = some q) {h' : Heap (List UInt8)}
    (hfree : freeEntries s.heap p.entries = some h') :
    ∀ e ∈ q.entries, ∀ a, e.file = some a → h'.read a = s.heap.read a := by
  obtain ⟨f, hown⟩ := h.owns
  have hmem : ∀ {r q}, s.panel r = some q → ∀ e ∈ q.entries, ∀ a, e.file = some a → a ∈ f r := by
    intro r q hq e he a hea
    have hm := List.mem_map_of_mem (f := Entry.file) he
    rw [(hown.held (shows_loop hpc r) hq).1, hea] at hm
    obtain ⟨b, hb, hab⟩ := List.mem_map.mp hm
    exact Option.some.inj hab ▸ hb
  refine fun e he a hea => freeEntries_read hfree fun e' he' hea' => hr ?_
  exact hown.apart _ _ a (hmem hq e he a hea) (hmem hp e' he' a hea')

end Keys

section Navigation

variable {T : Tree} {cwd cs : List (List UInt8)} {s t : Manager} {right : Bool} {p : Panel}
  {fs : FileSys} {alloc : ℕ → Option ℕ} {path : List UInt8}

/-- The panels that have been loaded show directories, and a `load_dir` that is due leads to one. -/
structure Nav (T : Tree) (cwd : List (List UInt8)) (s : Manager) : Prop where
  inv : Inv s
  shown : ∀ right, s.Shows right → ∃ p cs, s.panel right = some p ∧ ShowsDir T s.heap p cs
  due : s.Loading → ∃ cs, Loads T cwd s.target cs ∧
    (s.pc = .reload none → s.target = canonical cs)

theorem Nav.start (hcwd : T.dir cwd = true) : Nav T cwd .start where
  inv := .start
  shown _ h := False.elim h
  due _ := ⟨cwd, loads_dot hcwd, fun h => by cases h⟩

theorem Nav.careful (h : Nav T cwd s) (hl : s.Loading) (hs : Served T cwd (.load fs alloc)) :
    Careful s (.load fs alloc) := by
  obtain ⟨cs, hcs, -⟩ := h.due hl
  obtain ⟨names, hopen, -⟩ := hs.1.opendir _ cs hcs.lt hcs.resolves hcs.dir
  exact ⟨names, hopen, fun k hk => hs.2 k (Nat.lt_of_le_of_lt hk (length_listed_lt names))⟩

/-- A `load_dir` shows the place its path leads to, and leaves the other strings. -/
theorem Nav.load_shows (h : Nav T cwd s) (hf : FreshFor s.heap alloc)
    (hs : Served T cwd (.load fs alloc)) (hcs : Loads T cwd s.target cs)
    (hown : s.pc = .reload none → s.target = canonical cs) :
    (∃ q, (s.load fs alloc).panel s.side = some q ∧ ShowsDir T (s.load fs alloc).heap q cs) ∧
      ∀ a, s.heap.Live a → (s.load fs alloc).heap.read a = s.heap.read a := by
  obtain ⟨h', q, hload, hq, hread⟩ := loadDir_shows h.inv.wf hf hs hcs
    (fun ho => hown (beq_iff_eq.mp ho)) (s.panel s.side)
  rw [heap_load, panel_load, if_pos rfl, hload]
  exact ⟨⟨q, rfl, hq⟩, hread⟩

theorem Nav.load (h : Nav T cwd s) (hcwd : T.dir cwd = true) (hl : s.Loading)
    (hf : FreshFor s.heap alloc) (hs : Served T cwd (.load fs alloc)) :
    Nav T cwd (s.load fs alloc) := by
  obtain ⟨cs, hcs, hown⟩ := h.due hl
  obtain ⟨hside, hread⟩ := h.load_shows hf hs hcs hown
  refine ⟨h.inv.load hl hf (h.careful hl hs), fun right hright => ?_, fun hl' => ?_⟩
  · by_cases hr : right = s.side
    · obtain ⟨q, hq, hshows⟩ := hside
      exact ⟨q, cs, hr ▸ hq, hshows⟩
    · obtain ⟨p, cs', hp, hshows⟩ := h.shown right (((shows_load hl).mp hright).resolve_right hr)
      refine ⟨p, cs', ?_, hshows.mono fun e _ a _ => hread a⟩
      rw [panel_load, if_neg hr, hp]
  · -- the other panel's first load
    have hpc : (s.load fs alloc).pc = .loadRight := by
      refine if_pos ?_
      by_contra hne
      exact hl'.1 (if_neg hne)
    have htarget : (s.load fs alloc).target = ascii "." := by
      unfold Manager.target
      rw [hpc]
    rw [htarget, hpc]
    exact ⟨cwd, loads_dot hcwd, fun hr => by cases hr⟩

/-- The place behind a name that is selected. -/
def place (cs : List (List UInt8)) (name : List UInt8) : List (List UInt8) :=
  if name = ascii ".." then cs.dropLast else cs ++ [name]

/-- Where an Enter leads, unless to a file. -/
theorem ShowsDir.enter (cwd : List (List UInt8)) (hfits : Fits T) (hs : ShowsDir T s.heap p cs)
    (hst : s.enter p = some t) :
    ∃ name, selectedName s.heap p = some name ∧
      ((∃ path, Opens s p path t ∧ Loads T cwd path (place cs name) ∧
        (t.pc = .reload none → path = canonical (place cs name))) ∨ t = s) := by
  obtain ⟨e, name, he, hname, hentry⟩ := hs.entry
  obtain ⟨e', name', he', hname', hcases⟩ := enter_cases hst
  obtain rfl : e = e' := Option.some.inj (he.symm.trans he')
  obtain rfl : name = name' := Option.some.inj (hname.symm.trans hname')
  refine ⟨name, by rw [selectedName, he, Option.bind_some, hname], ?_⟩
  rcases hcases with ⟨hup, ho⟩ | ⟨hne, hdir, hpc, ho⟩ | ⟨-, -, rfl⟩
  · have hpath : parentPath p.path = canonical (place cs name) := by
      rw [place, if_pos hup, hs.path, parentPath_canonical hs.dir]
    refine .inl ⟨_, ho, ?_, fun _ => hpath⟩
    rw [hpath, place, if_pos hup]
    exact loads_canonical cwd hfits (dir_dropLast hs.dir)
  · obtain ⟨-, hchild, hisDir⟩ := hentry.resolve_left hne
    have hloads : Loads T cwd (canonical cs ++ 47 :: name) (cs ++ [name]) :=
      loads_join hfits (hisDir ▸ hdir)
    have hpath : joinPath p.path name = canonical cs ++ 47 :: name := by
      rw [hs.path, joinPath_name (T.valid cs hs.dir name hchild) hloads.lt]
    refine .inl ⟨_, ho, ?_, fun h => absurd h hpc⟩
    rw [hpath, place, if_neg hne]
    exact hloads
  · exact .inr rfl

/-- The other panel waits for the load, which is of a directory. -/
theorem Nav.opens (h : Nav T cwd s) (hpc : s.pc = .loop) (hp : s.panel s.active = some p)
    (ho : Opens s p path t) (ht : Inv t) (hcs : Loads T cwd path cs)
    (hown : t.pc = .reload none → path = canonical cs) : Nav T cwd t := by
  obtain ⟨newpath, hreload⟩ := ho.pc
  refine ⟨ht, fun right hright => ?_, fun _ => ⟨cs, ho.target.symm ▸ hcs, fun hr =>
    ho.target.trans (hown hr)⟩⟩
  have hr : right ≠ s.active := by
    unfold Manager.Shows at hright
    rwa [hreload, ho.active] at hright
  obtain ⟨q, cs', hq, hshows⟩ := h.shown right (shows_loop hpc right)
  exact ⟨q, cs', (ho.other right hr).trans hq, hshows.mono fun e he a hea _ =>
    h.inv.freed_read hpc hr hp hq ho.free e he a hea⟩

theorem Nav.key (h : Nav T cwd s) (hfits : Fits T) {rows : ℕ} {k : Key}
    (hst : s.step (.key rows k) = some t) (ht : Inv t) : Nav T cwd t := by
  obtain ⟨hpc, p, hp, hst⟩ := step_press hst
  obtain ⟨p', cs, hp', hshows⟩ := h.shown s.active (shows_loop hpc _)
  obtain rfl : p = p' := Option.some.inj (hp.symm.trans hp')
  rcases press_cases hp hst with ⟨-, h', rfl⟩ | ⟨-, hst⟩ | ⟨-, hpc', hheap, i, hi, hpanel⟩
  · exact ⟨ht, fun _ hright => False.elim hright, fun hl => absurd rfl hl.2⟩
  · obtain ⟨name, -, ⟨path, ho, hcs, hown⟩ | rfl⟩ := hshows.enter cwd hfits hst
    · exact h.opens hpc hp ho ht hcs hown
    · exact h
  · refine ⟨ht, fun right _ => ?_, fun hl => absurd (hpc'.trans hpc) hl.1⟩
    rw [hpanel, hheap]
    split_ifs with hr
    · exact ⟨_, cs, rfl, hshows.select (hi hshows.selected)⟩
    · exact h.shown right (shows_loop hpc right)

theorem Nav.step (h : Nav T cwd s) (hcwd : T.dir cwd = true) (hfits : Fits T) {l : Label}
    (hst : panelsLts.step s l t) (hs : Served T cwd l) : Nav T cwd t := by
  cases l with
  | load fs alloc =>
    obtain ⟨hl, rfl⟩ := step_load hst.2
    exact h.load hcwd hl hst.1 hs
  | key rows k => exact h.key hfits hst.2 (h.inv.step hst trivial)

/-- Where an Enter that is followed by a load leads: the place above, or one below. -/
theorem Nav.enters (h : Nav T cwd s) (hcwd : T.dir cwd = true) (hfits : Fits T)
    (hp : s.panel s.active = some p) (hent : Enters T cwd s t) :
    Nav T cwd t ∧ t.pc = .loop ∧ t.active = s.active ∧ ∃ name q, selectedName s.heap p = some name ∧
      t.panel s.active = some q ∧ (name = ascii ".." → q.path = parentPath p.path) ∧
      (name ≠ ascii ".." → parentPath q.path = p.path) := by
  obtain ⟨rows, fs, alloc, v, hkey, hserved, hload⟩ := hent
  obtain ⟨hpc, p', hp', hst⟩ := step_press hkey.2
  obtain rfl : p = p' := Option.some.inj (hp.symm.trans hp')
  change s.enter p = some v at hst
  obtain ⟨p', cs, hp', hshows⟩ := h.shown s.active (shows_loop hpc _)
  obtain rfl : p = p' := Option.some.inj (hp.symm.trans hp')
  obtain ⟨hl, rfl⟩ := step_load hload.2
  obtain ⟨name, hname, ⟨path, ho, hcs, hown⟩ | rfl⟩ := hshows.enter cwd hfits hst
  · have hv := h.key hfits hkey.2 (h.inv.step hkey trivial)
    obtain ⟨⟨q, hq, hq'⟩, -⟩ := hv.load_shows hload.1 hserved (ho.target.symm ▸ hcs) fun hr =>
      ho.target.trans (hown hr)
    obtain ⟨newpath, hreload⟩ := ho.pc
    have hside : v.side = s.active := (side_reload hreload).trans ho.active
    refine ⟨hv.load hcwd hl hload.1 hserved, pc_load_reload hreload,
      (active_setPanel ..).trans ho.active, name, q, hname, hside ▸ hq, fun hup => ?_,
      fun hne => ?_⟩
    · rw [hq'.path, place, if_pos hup, hshows.path, parentPath_canonical hshows.dir]
    · rw [hq'.path, parentPath_canonical hq'.dir, place, if_neg hne, List.dropLast_concat,
        hshows.path]
  · exact absurd hpc hl.1

/-- The panel has the path, and no `load_dir` of it is due. -/
def Rests (right : Bool) (path : List UInt8) (s : Manager) : Prop :=
  (∃ q, s.panel right = some q ∧ q.path = path) ∧
    (s.Loading → (∃ newpath, s.pc = .reload newpath) ∧ s.active ≠ right)

theorem Rests.step {l : Label} (h : Rests right path s) (hst : panelsLts.step s l t)
    (hkeep : ∀ rows, l = .key rows .enter → s.active ≠ right) : Rests right path t := by
  obtain ⟨⟨q, hq, hpath⟩, hdue⟩ := h
  cases l with
  | load fs alloc =>
    obtain ⟨hl, rfl⟩ := step_load hst.2
    obtain ⟨⟨newpath, hreload⟩, hact⟩ := hdue hl
    refine ⟨⟨q, ?_, hpath⟩, fun hl' => absurd (pc_load_reload hreload) hl'.1⟩
    rw [panel_load, side_reload hreload, if_neg hact.symm, hq]
  | key rows k =>
    obtain ⟨hpc, p, hp, hpress⟩ := step_press hst.2
    rcases press_cases hp hpress with ⟨-, h', rfl⟩ | ⟨rfl, henter⟩ | ⟨-, hpc', -, i, -, hpanel⟩
    · exact ⟨⟨q, hq, hpath⟩, fun hl => absurd rfl hl.2⟩
    · have hact := hkeep rows rfl
      obtain ⟨newpath, ho⟩ | rfl := enter_opens henter
      · exact ⟨⟨q, (ho.other right hact.symm).trans hq, hpath⟩,
          fun _ => ⟨ho.pc, ho.active.symm ▸ hact⟩⟩
      · exact ⟨⟨q, hq, hpath⟩, hdue⟩
    · refine ⟨?_, fun hl => absurd (hpc'.trans hpc) hl.1⟩
      rw [hpanel]
      split_ifs with hr
      · rw [hr, hp] at hq
        exact ⟨_, rfl, (congrArg Panel.path (Option.some.inj hq)).trans hpath⟩
      · exact ⟨q, hq, hpath⟩

/-- A step leaves the panel that is not active, and its strings. -/
theorem Nav.inactive (h : Nav T cwd s) {l : Label} (hst : panelsLts.step s l t)
    (hs : Served T cwd l) (hleft : s.pc ≠ .loadLeft) (hright : s.pc ≠ .loadRight) :
    t.panel (!s.active) = s.panel (!s.active) ∧
      (t.pc ≠ .exited → ∀ p, s.panel (!s.active) = some p → ∀ e ∈ p.entries, ∀ a,
        e.file = some a → t.heap.read a = s.heap.read a) := by
  have hne : (!s.active) ≠ s.active := Bool.not_ne_self _
  cases l with
  | load fs alloc =>
    obtain ⟨hl, rfl⟩ := step_load hst.2
    obtain ⟨newpath, hreload⟩ : ∃ newpath, s.pc = .reload newpath := by
      cases hpc : s.pc with
      | loadLeft => exact absurd hpc hleft
      | loadRight => exact absurd hpc hright
      | loop => exact absurd hpc hl.1
      | reload newpath => exact ⟨newpath, rfl⟩
      | exited => exact absurd hpc hl.2
    refine ⟨by rw [panel_load, side_reload hreload, if_neg hne], fun _ p hp e he a hea => ?_⟩
    obtain ⟨cs, hcs, hown⟩ := h.due hl
    obtain ⟨f, hf⟩ := h.inv.owns
    have hshows : s.Shows (!s.active) := by
      unfold Manager.Shows
      rwa [hreload]
    obtain ⟨p', hp', hlive⟩ := hf.listing hshows
    obtain rfl : p = p' := Option.some.inj (hp.symm.trans hp')
    obtain ⟨b, v, hb, hv⟩ := hlive e he
    obtain rfl : a = b := Option.some.inj (hea.symm.trans hb)
    exact (h.load_shows hst.1 hs hcs hown).2 a (Heap.live_iff.mpr ⟨v, hv⟩)
  | key rows k =>
    obtain ⟨hpc, p, hp, hpress⟩ := step_press hst.2
    rcases press_cases hp hpress with ⟨-, h', rfl⟩ | ⟨-, henter⟩ | ⟨-, -, hheap, i, -, hpanel⟩
    · exact ⟨rfl, fun hexit => absurd rfl hexit⟩
    · obtain ⟨path, ho⟩ | rfl := enter_opens henter
      · exact ⟨ho.other _ hne, fun _ q hq => h.inv.freed_read hpc hne hp hq ho.free⟩
      · exact ⟨rfl, fun _ _ _ _ _ _ _ => rfl⟩
    · exact ⟨by rw [hpanel, if_neg hne], fun _ _ _ _ _ a _ => by rw [hheap]⟩

theorem Nav.navigates (h : Nav T cwd s) (hcwd : T.dir cwd = true) (hfits : Fits T) :
    Navigates T cwd s := by
  have hshown : s.pc = .loop → ∀ right p, s.panel right = some p →
      ∃ cs, ShowsDir T s.heap p cs := by
    intro hpc right p hp
    obtain ⟨p', cs, hp', hs⟩ := h.shown right (shows_loop hpc right)
    obtain rfl : p = p' := Option.some.inj (hp.symm.trans hp')
    exact ⟨cs, hs⟩
  refine ⟨fun hpc right => h.shown right (shows_loop hpc right), fun hpc right p hp => ?_,
    fun hpc right p hp => ?_, h.inv.sound.runs, fun l t hst hs h1 h2 => h.inactive hst hs h1 h2,
    ?_, fun p t hp hroot hup hent => ?_⟩
  · obtain ⟨cs, hs⟩ := hshown hpc right p hp
    exact hs.first
  · obtain ⟨cs, hs⟩ := hshown hpc right p hp
    exact ⟨hs.count.1, hs.count.2, hs.selected⟩
  · intro p t hp hdown hent tr u q hpath hserved hkeep hact hq hup v hent'
    obtain ⟨ht, hloop, -, name, r, hname, hr, -, hback⟩ := h.enters hcwd hfits hp hent
    have hne : name ≠ ascii ".." := by
      rintro rfl
      exact hdown hname
    -- nothing changes the path until the way up is chosen
    have hrests : Rests s.active r.path u := by
      refine hpath.inv_when (C := fun v l => ∀ rows, l = .key rows .enter → v.active ≠ s.active)
        (fun _ _ _ hI hC hst => hI.step hst hC) (fun x hx rows => hkeep x hx rows)
        ⟨⟨r, hr, rfl⟩, fun hl => absurd hloop hl.1⟩
    obtain ⟨⟨q', hq', hqr⟩, -⟩ := hrests
    obtain rfl : q = q' := Option.some.inj (hq.symm.trans hq')
    have hu : Nav T cwd u := hpath.inv_when (C := fun _ l => Served T cwd l)
      (fun _ _ _ hI hC hst => hI.step hcwd hfits hst hC) hserved ht
    obtain ⟨-, -, -, name', w, hname', hw, hcut, -⟩ := hu.enters hcwd hfits (hact ▸ hq) hent'
    refine ⟨w, hact ▸ hw, ?_⟩
    rw [hcut (Option.some.inj (hname'.symm.trans hup)), hqr, hback hne]
  · obtain ⟨-, -, -, name, q, hname, hq, hpath, -⟩ := h.enters hcwd hfits hp hent
    refine ⟨q, hq, ?_⟩
    rw [hpath (Option.some.inj (hname.symm.trans hup)), hroot]
    decide

end Navigation

theorem serves_treeFiles (T : Tree) (cwd : List (List UInt8)) : Serves T cwd (treeFiles T cwd) where
  opendir path cs _ hres hcs := by
    refine ⟨T.children cs, by simp [treeFiles, hres, hcs], ?_⟩
    rw [List.filter_eq_self.mpr fun n hn => ?_]
    have hn := T.valid cs hcs n hn
    simp [dotName, hn.cstr_eq, hn.dot, hn.dotDot]
  realpath path cs _ hres _ := by simp [treeFiles, hres]
  isDir path cs _ hres := by simp [treeFiles, hres]

/-- Over a tree whose paths are shorter than `PATH_MAX`, each panel shows the directory of its path
whatever keys are pressed, and the way up leads back to where a subdirectory was entered. -/
theorem panels_navigate {T : Tree} {cwd : List (List UInt8)} (hcwd : T.dir cwd = true)
    (hfits : Fits T) {tr : List (Manager × Label)} {s : Manager} (h : panelsLts.Run tr s)
    (hserved : ∀ p ∈ tr, Served T cwd p.2) : Navigates T cwd s := by
  have hnav : Nav T cwd s := h.inv_when (C := fun _ l => Served T cwd l)
    (fun _ hs => hs ▸ .start hcwd) (fun _ _ _ hI hC hst => hI.step hcwd hfits hst hC) hserved
  exact hnav.navigates hcwd hfits

/-- A directory and a file in the root. -/
def smallTree : Tree where
  dir cs := cs == [] || cs == [ascii "a"]
  children cs := if cs = [] then [ascii "a", ascii "f"] else []
  root := by decide
  parent cs n h := by
    rcases cs with _ | ⟨c, cs⟩
    · have hn : n = ascii "a" := by simpa using h
      exact ⟨rfl, by simp [hn]⟩
    · simp at h
  valid cs _ n hn := by
    split_ifs at hn
    · rcases List.mem_pair.mp hn with rfl | rfl
      · exact ⟨by decide, by decide, by decide, by decide, by decide, by decide⟩
      · exact ⟨by decide, by decide, by decide, by decide, by decide, by decide⟩
    · cases hn

def allocFrom (n k : ℕ) : Option ℕ := some (k + n)

theorem served_small (cwd : List (List UInt8)) (n : ℕ) :
    Served smallTree cwd (.load (treeFiles smallTree cwd) (allocFrom n)) :=
  ⟨serves_treeFiles smallTree cwd, fun k _ => Option.some_ne_none (k + n)⟩

theorem fresh_allocFrom {s : Manager} {n : ℕ} (h : ∀ k, s.heap.read (k + n) = none) (fs : FileSys) :
    (Label.load fs (allocFrom n)).Fresh s := by
  refine ⟨fun k a hk => ?_, fun j k a hj hk => ?_⟩
  · rw [← Option.some.inj hk]
    exact Heap.not_live.mpr (h k)
  · have hjk := Option.some.inj (hj.trans hk.symm)
    omega

theorem fits_small : Fits smallTree := by
  intro cs hcs n hn
  have hroot : cs = [] := by
    by_contra hne
    simp [smallTree, hne] at hn
  subst hroot
  rcases List.mem_pair.mp hn with rfl | rfl
  · decide
  · decide

/-- Both panels loaded from the root. -/
def rootTwice : Manager := (Manager.start.load (treeFiles smallTree []) (allocFrom 0)).load
  (treeFiles smallTree []) (allocFrom 3)

/-- The left panel's second entry is selected, and then Enter pressed. -/
def secondSelected : Manager := (rootTwice.step (.key 24 .down)).getD rootTwice

def secondEntered : Manager := (secondSelected.step (.key 24 .enter)).getD secondSelected

/-- From the root, the subdirectory is entered. -/
theorem panels_navigate_small : ∃ tr s p, panelsLts.Run tr s ∧ s.pc = .loop ∧
    s.panel false = some p ∧ p.path = ascii "/a" ∧ Navigates smallTree [] s := by
  have hrun : panelsLts.Run [(.start, .load (treeFiles smallTree []) (allocFrom 0)),
      (Manager.start.load (treeFiles smallTree []) (allocFrom 0),
        .load (treeFiles smallTree []) (allocFrom 3)),
      (rootTwice, .key 24 .down), (secondSelected, .key 24 .enter),
      (secondEntered, .load (treeFiles smallTree []) (allocFrom 6))]
      (secondEntered.load (treeFiles smallTree []) (allocFrom 6)) :=
    ⟨.start, rfl, .cons ⟨fresh_allocFrom (fun _ => rfl) _, rfl⟩
      (.cons ⟨fresh_allocFrom (fun _ => rfl) _, rfl⟩ (.cons ⟨trivial, rfl⟩
        (.cons ⟨trivial, rfl⟩ (.single ⟨fresh_allocFrom (fun _ => rfl) _, rfl⟩))))⟩
  refine ⟨_, _, _, hrun, rfl, rfl, rfl, panels_navigate (by decide) fits_small hrun ?_⟩
  rintro p hp
  simp only [List.mem_cons, List.not_mem_nil, or_false] at hp
  rcases hp with rfl | rfl | rfl | rfl | rfl
  · exact served_small [] 0
  · exact served_small [] 3
  · trivial
  · trivial
  · exact served_small [] 6

end EltexSystems.Panels
