import EltexSystems.Lib.CString
import EltexSystems.Lib.Heap
import EltexSystems.Lib.Lts

/-!
# The file manager of `virtual_fs/nedomc.c`

Two panels of entries whose names are strings from `strdup`, over the heap's faults: a key at which
the program would read or free a string that is not live, or an indeterminate one, has no result.  A
directory that is opened, the first ones included, is loaded in a step of its own, in which
`opendir` and every `strdup` may fail.  `less` and the screen's colours are left out.
-/

namespace EltexSystems.Panels

open CStr

def MAX_FILES : ℕ := 1024

def PATH_MAX : ℕ := 4096

/-- `files[i]`, `none` for `NULL`, and `is_dir[i]`. -/
structure Entry where
  file : Option ℕ
  isDir : Bool
  deriving DecidableEq

/-- The entries below `count`, the selected one and the path. -/
structure Panel where
  entries : List Entry
  selected : ℕ
  path : List UInt8
  deriving DecidableEq

/-- What the calls of `load_dir` find: the names `readdir` returns of a directory that opens, what
`realpath` leaves in the buffer, and whether `stat` finds a directory. -/
structure FileSys where
  opendir : List UInt8 → Option (List (List UInt8))
  realpath : List UInt8 → List UInt8
  isDir : List UInt8 → Bool

/-- `strdup`, the address it is given being `none` where it fails. -/
def strdup (h : Heap (List UInt8)) (addr : Option ℕ) (s : List UInt8) : Heap (List UInt8) :=
  match addr with
  | none => h
  | some a => h.malloc a (cstr s)

/-- One more entry, at the address the allocator gives it. -/
def addEntry (alloc : ℕ → Option ℕ) (r : Heap (List UInt8) × List Entry) (name : List UInt8)
    (isDir : Bool) : Heap (List UInt8) × List Entry :=
  (strdup r.1 (alloc r.2.length) name, r.2 ++ [⟨alloc r.2.length, isDir⟩])

def dotName (name : List UInt8) : Bool := cstr name == ascii "." || cstr name == ascii ".."

/-- `snprintf` of `"%s/%s"` into a path. -/
def joinPath (path name : List UInt8) : List UInt8 :=
  snprintf PATH_MAX (path ++ ascii "/" ++ cstr name)

/-- The loop over `readdir`, `path` being the one the caller gave. -/
def readEntries (fs : FileSys) (alloc : ℕ → Option ℕ) (path : List UInt8) :
    List (List UInt8) → Heap (List UInt8) × List Entry → Heap (List UInt8) × List Entry
  | [], r => r
  | name :: names, r =>
    if r.2.length < MAX_FILES then
      if dotName name then readEntries fs alloc path names r
      else readEntries fs alloc path names (addEntry alloc r name (fs.isDir (joinPath path name)))
    else r

/-- `load_dir`; an uninitialised panel is `none`.  `own` is whether the argument is the panel's own
path, which `realpath` overwrites. -/
def loadDir (fs : FileSys) (alloc : ℕ → Option ℕ) (h : Heap (List UInt8)) (p : Option Panel)
    (path : List UInt8) (own : Bool) : Heap (List UInt8) × Option Panel :=
  match fs.opendir path with
  | none => (h, p)
  | some names =>
    let real := fs.realpath path
    let r := readEntries fs alloc (if own then real else path) names
      (addEntry alloc (h, []) (ascii "..") true)
    (r.1, some ⟨r.2, 0, real⟩)

/-- The loop of `free_panel`; `free(NULL)` does nothing. -/
def freeEntries : Heap (List UInt8) → List Entry → Option (Heap (List UInt8))
  | h, [] => some h
  | h, e :: es =>
    match e.file with
    | none => freeEntries h es
    | some a => (h.free a).bind fun h => freeEntries h es

def freePanel (h : Heap (List UInt8)) (p : Option Panel) : Option (Heap (List UInt8)) :=
  p.bind fun p => freeEntries h p.entries

/-- A line drawn: its text, whether it is bold and whether it is reversed. -/
structure DrawnLine where
  text : List UInt8
  bold : Bool
  reverse : Bool
  deriving DecidableEq

/-- The loop of `draw_panel` from the entry `i` on, `n` rows being left. -/
def drawEntries (h : Heap (List UInt8)) (selected : ℕ) (active : Bool) :
    List Entry → ℕ → ℕ → Option (List DrawnLine)
  | e :: es, i, n + 1 =>
    (e.file.bind h.read).bind fun name =>
      (drawEntries h selected active es (i + 1) n).map fun lines =>
        ⟨if e.isDir then name ++ ascii "/" else name, e.isDir, i == selected && active⟩ :: lines
  | _, _, _ => some []

/-- `draw_panel` on a screen of `rows` rows: the lines of the entries and the path. -/
def drawPanel (h : Heap (List UInt8)) (rows : ℕ) (p : Option Panel) (active : Bool) :
    Option (List DrawnLine × List UInt8) :=
  p.bind fun p => (drawEntries h p.selected active p.entries 0 (rows - 2)).map fun lines =>
    (lines, p.path)

/-- Where `main` is: before the two first `load_dir`s, at the top of its loop, before the
`load_dir` behind an Enter (`none` is the panel's own path), and behind the loop. -/
inductive Pc where
  | loadLeft
  | loadRight
  | loop
  | reload (newpath : Option (List UInt8))
  | exited
  deriving DecidableEq

structure Manager where
  pc : Pc
  heap : Heap (List UInt8)
  left : Option Panel
  right : Option Panel
  active : Bool

inductive Key where
  | quit
  | tab
  | up
  | down
  | enter
  | other
  deriving DecidableEq

inductive Label where
  | load (fs : FileSys) (alloc : ℕ → Option ℕ)
  | key (rows : ℕ) (k : Key)

namespace Manager

def start : Manager := ⟨.loadLeft, .empty, none, none, false⟩

/-- The left panel or the right one. -/
def panel (s : Manager) (right : Bool) : Option Panel := if right then s.right else s.left

def setPanel (s : Manager) (right : Bool) (p : Option Panel) : Manager :=
  if right then { s with right := p } else { s with left := p }

end Manager

/-- `strrchr(path, '/')` as an index. -/
def lastSlash (path : List UInt8) : Option ℕ :=
  (path.reverse.findIdx? (· == 47)).map fun i => path.length - 1 - i

/-- The path cut at its last slash, `/` at the top. -/
def parentPath (path : List UInt8) : List UInt8 :=
  match lastSlash path with
  | some (i + 1) => path.take (i + 1)
  | _ => ascii "/"

namespace Manager

/-- Enter on the selected entry, up to the `load_dir`. -/
def enter (s : Manager) (p : Panel) : Option Manager :=
  (p.entries[p.selected]?).bind fun e => (e.file.bind s.heap.read).bind fun name =>
    if name = ascii ".." then
      (freeEntries s.heap p.entries).map fun h =>
        { s.setPanel s.active (some { p with path := parentPath p.path }) with
          heap := h, pc := .reload none }
    else if e.isDir then
      (freeEntries s.heap p.entries).map fun h =>
        { s with heap := h, pc := .reload (some (joinPath p.path name)) }
    else some s

/-- A key, once both panels are drawn. -/
def press (s : Manager) (p : Panel) : Key → Option Manager
  | .quit =>
    (freePanel s.heap s.left).bind fun h => (freePanel h s.right).map fun h =>
      { s with heap := h, pc := .exited }
  | .tab => some { s with active := !s.active }
  | .up =>
    some (if 0 < p.selected then
      s.setPanel s.active (some { p with selected := p.selected - 1 }) else s)
  | .down =>
    some (if p.selected + 1 < p.entries.length then
      s.setPanel s.active (some { p with selected := p.selected + 1 }) else s)
  | .enter => s.enter p
  | .other => some s

/-- The panel a `load_dir` is due for. -/
def side (s : Manager) : Bool :=
  match s.pc with
  | .loadLeft => false
  | .loadRight => true
  | _ => s.active

/-- The path a `load_dir` that is due is given. -/
def target (s : Manager) : List UInt8 :=
  match s.pc with
  | .reload (some newpath) => newpath
  | .reload none => (s.panel s.side).elim [] Panel.path
  | _ => ascii "."

def pcAfterLoad (s : Manager) : Pc := if s.pc = .loadLeft then .loadRight else .loop

def load (s : Manager) (fs : FileSys) (alloc : ℕ → Option ℕ) : Manager :=
  let r := loadDir fs alloc s.heap (s.panel s.side) s.target (s.pc == .reload none)
  { s.setPanel s.side r.2 with heap := r.1, pc := s.pcAfterLoad }

/-- A turn of the loop or a `load_dir`; without a result where the program would access a string
that is not live. -/
def step (s : Manager) : Label → Option Manager
  | .load fs alloc => if s.pc = .loop ∨ s.pc = .exited then none else some (s.load fs alloc)
  | .key rows k =>
    if s.pc = .loop then
      (drawPanel s.heap rows s.left (!s.active)).bind fun _ =>
        (drawPanel s.heap rows s.right s.active).bind fun _ =>
          (s.panel s.active).bind fun p => s.press p k
    else none

end Manager

/-- `strdup` hands out distinct addresses at which nothing is live. -/
def Label.Fresh (s : Manager) : Label → Prop
  | .load _ alloc => (∀ k a, alloc k = some a → ¬ s.heap.Live a) ∧
      ∀ j k a, alloc j = some a → alloc k = some a → j = k
  | .key _ _ => True

def panelsLts : Lts Manager Label where
  init s := s = .start
  step s l t := l.Fresh s ∧ s.step l = some t

/-- The names `load_dir` lists behind the first entry. -/
def listed (names : List (List UInt8)) : List (List UInt8) :=
  (names.filter fun name => !dotName name).take (MAX_FILES - 1)

/-- The directory that is loaded opens, and each of its names can be copied. -/
def Careful (s : Manager) : Label → Prop
  | .load fs alloc => ∃ names, fs.opendir s.target = some names ∧
      ∀ k ≤ (listed names).length, alloc k ≠ none
  | .key _ _ => True

/-- The panel's entries are those of a directory: they are drawn, or its turn is to come. -/
def Manager.Shows (s : Manager) (right : Bool) : Prop :=
  match s.pc with
  | .loadLeft => False
  | .loadRight => right = false
  | .loop => True
  | .reload _ => right ≠ s.active
  | .exited => False

/-- Each entry of the panel is a live string. -/
def Manager.Listing (s : Manager) (right : Bool) : Prop :=
  ∃ p, s.panel right = some p ∧
    ∀ e ∈ p.entries, ∃ a v, e.file = some a ∧ s.heap.read a = some v

/-- No access to a string that is not live, no string freed twice, and none lost. -/
structure Sound (s : Manager) : Prop where
  live : ∀ right, s.Shows right → s.Listing right
  runs : s.pc = .loop → ∀ rows k, s.step (.key rows k) ≠ none
  once : s.heap.freed.Nodup
  kept : ∀ n < s.heap.allocs, n ∉ s.heap.freed → ∃ right p e a v, s.Shows right ∧
    s.panel right = some p ∧ e ∈ p.entries ∧ e.file = some a ∧ s.heap.cell a = some (n, v)

/-- An Enter whose directory does not open leaves the panel as it was, its entries live. -/
def Steady (tr : List (Manager × Label)) : Prop :=
  ∀ {tr₁ tr₂ : List (Manager × Label)} {u v t : Manager} {rows : ℕ} {fs : FileSys}
    {alloc : ℕ → Option ℕ}, tr = tr₁ ++ (u, .key rows .enter) :: (v, .load fs alloc) :: tr₂ →
    fs.opendir v.target = none → v.step (.load fs alloc) = some t →
      t.panel u.active = u.panel u.active ∧ t.Listing u.active

end EltexSystems.Panels
