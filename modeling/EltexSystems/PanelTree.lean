import EltexSystems.Lib.PathTree
import EltexSystems.Panels

/-!
# The panels over a directory tree

What `load_dir` finds when every path it is given is looked up in one tree of directories, what a
panel then shows of a directory, and what holds of the panels along the keys.
-/

namespace EltexSystems.Panels

open CStr PathTree

/-- The calls answer from the tree: `readdir` gives the names of a directory in some order and the
dots between them, `realpath` the canonical path, and `stat` knows the directories. -/
structure Serves (T : Tree) (cwd : List (List UInt8)) (fs : FileSys) : Prop where
  opendir : ∀ path cs, path.length < PATH_MAX → T.resolve cwd path = some cs → T.dir cs = true →
    ∃ names, fs.opendir path = some names ∧ (names.filter (!dotName ·)).Perm (T.children cs)
  realpath : ∀ path cs, path.length < PATH_MAX → T.resolve cwd path = some cs → T.dir cs = true →
    fs.realpath path = canonical cs
  isDir : ∀ path cs, path.length < PATH_MAX → T.resolve cwd path = some cs →
    fs.isDir path = T.dir cs

/-- The calls over the tree, names in the order it has them. -/
def treeFiles (T : Tree) (cwd : List (List UInt8)) : FileSys where
  opendir path := (T.resolve cwd path).bind fun cs =>
    if T.dir cs then some (T.children cs) else none
  realpath path := ((T.resolve cwd path).map canonical).getD path
  isDir path := (T.resolve cwd path).any T.dir

/-- All paths of the tree are shorter than `PATH_MAX`. -/
def Fits (T : Tree) : Prop :=
  ∀ cs, T.dir cs = true → ∀ n ∈ T.children cs, (canonical (cs ++ [n])).length < PATH_MAX

/-- A `load_dir` finds the tree, and each `strdup` in it succeeds. -/
def Served (T : Tree) (cwd : List (List UInt8)) : Label → Prop
  | .load fs alloc => Serves T cwd fs ∧ ∀ k < MAX_FILES, alloc k ≠ none
  | .key _ _ => True

/-- An entry has a name, and is marked as a directory or not. -/
def Shown (h : Heap (List UInt8)) (e : Entry) (row : List UInt8 × Bool) : Prop :=
  ∃ a, e.file = some a ∧ h.read a = some row.1 ∧ e.isDir = row.2

/-- The rows of a directory whose names come in an order. -/
def dirRows (T : Tree) (cs : List (List UInt8)) (names : List (List UInt8)) :
    List (List UInt8 × Bool) :=
  (ascii "..", true) :: (names.take (MAX_FILES - 1)).map fun n => (n, T.dir (cs ++ [n]))

/-- The panel has the path of a directory and shows what it holds, as far as there is room, behind
an entry for the parent. -/
structure ShowsDir (T : Tree) (h : Heap (List UInt8)) (p : Panel) (cs : List (List UInt8)) :
    Prop where
  dir : T.dir cs = true
  path : p.path = canonical cs
  entries : ∃ names, names.Perm (T.children cs) ∧
    List.Forall₂ (Shown h) p.entries (dirRows T cs names)
  selected : p.selected < p.entries.length

/-- The name of the panel's selected entry. -/
def selectedName (h : Heap (List UInt8)) (p : Panel) : Option (List UInt8) :=
  (p.entries[p.selected]?).bind fun e => e.file.bind h.read

/-- An Enter and the `load_dir` behind it. -/
def Enters (T : Tree) (cwd : List (List UInt8)) (s t : Manager) : Prop :=
  ∃ rows fs alloc v, panelsLts.step s (.key rows .enter) v ∧ Served T cwd (.load fs alloc) ∧
    panelsLts.step v (.load fs alloc) t

/-- Keys and loads in which no Enter is pressed for one of the panels. -/
def Untouched (right : Bool) (tr : List (Manager × Label)) : Prop :=
  ∀ p ∈ tr, ∀ rows, p.2 = .key rows .enter → p.1.active ≠ right

/-- What holds of the panels in a state and from it on. -/
structure Navigates (T : Tree) (cwd : List (List UInt8)) (s : Manager) : Prop where
  shows : s.pc = .loop → ∀ right, ∃ p cs, s.panel right = some p ∧ ShowsDir T s.heap p cs
  first : s.pc = .loop → ∀ right p, s.panel right = some p →
    ∃ a, p.entries[0]? = some ⟨some a, true⟩ ∧ s.heap.read a = some (ascii "..")
  count : s.pc = .loop → ∀ right p, s.panel right = some p →
    1 ≤ p.entries.length ∧ p.entries.length ≤ MAX_FILES ∧ p.selected < p.entries.length
  runs : s.pc = .loop → ∀ rows k, s.step (.key rows k) ≠ none
  inactive : ∀ l t, panelsLts.step s l t → Served T cwd l → s.pc ≠ .loadLeft → s.pc ≠ .loadRight →
    t.panel (!s.active) = s.panel (!s.active) ∧
      (t.pc ≠ .exited → ∀ p, s.panel (!s.active) = some p → ∀ e ∈ p.entries, ∀ a,
        e.file = some a → t.heap.read a = s.heap.read a)
  /-- A subdirectory is entered, and later its parent chosen in the same panel. -/
  returns : ∀ p t, s.panel s.active = some p → selectedName s.heap p ≠ some (ascii "..") →
    Enters T cwd s t → ∀ tr u q, panelsLts.Path t tr u → (∀ r ∈ tr, Served T cwd r.2) →
    Untouched s.active tr → u.active = s.active → u.panel s.active = some q →
    selectedName u.heap q = some (ascii "..") → ∀ v, Enters T cwd u v →
    ∃ q', v.panel s.active = some q' ∧ q'.path = p.path
  root : ∀ p t, s.panel s.active = some p → p.path = ascii "/" →
    selectedName s.heap p = some (ascii "..") → Enters T cwd s t →
    ∃ q, t.panel s.active = some q ∧ q.path = ascii "/"

end EltexSystems.Panels
