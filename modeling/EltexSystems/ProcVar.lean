import EltexSystems.Lib.CString
import EltexSystems.Lib.Lts

/-!
# The variable of `modules/proc_sys_var.c`

`/proc/myvar` read piece by piece by one process while others write it there and through sysfs.  The
kernel's functions are a parameter.  A read formats the variable under the mutex into an array of
its own, so all it does is one step; so is a write, which changes the variable under the mutex.
-/

namespace EltexSystems.ProcVar

open CStr

/-- What the module uses of the kernel: `strim`, `kstrtoint` with base 10, and the bytes
`simple_read_from_buffer` serves, by which it advances `*ppos`. -/
structure KernelLib where
  strim : List UInt8 → List UInt8
  kstrtoint : List UInt8 → Option Int32
  simpleReadFromBuffer : ℕ → ℕ → List UInt8 → List UInt8
  serves : ∀ count pos from_, simpleReadFromBuffer count pos from_ = (from_.drop pos).take count

def EINVAL : ℤ := 22

def EFAULT : ℤ := 14

/-- `sizeof(tmp)`. -/
def tmpSize : ℕ := 32

/-- What `scnprintf` leaves in `tmp`. -/
def procText (v : Int32) : List UInt8 := snprintf tmpSize (decimalInt v.toInt ++ ascii "\n")

/-- The variable and one open file: its `*ppos`, the bytes read from it so far, the values that the
variable has held since the first read, and whether a read of at least one byte has returned
none. -/
structure VarState where
  myvar : Int32
  pos : ℕ
  got : List UInt8
  held : List Int32
  done : Bool
  deriving DecidableEq

inductive Label where
  | read (count : ℕ)
  | write (buf : List UInt8) (fault : Bool)
  | store (buf : List UInt8)
  deriving DecidableEq

variable (L : KernelLib)

/-- `myvar_proc_read`: the bytes it returns. -/
def procRead (s : VarState) (count : ℕ) : List UInt8 :=
  L.simpleReadFromBuffer count s.pos (procText s.myvar)

/-- `myvar_proc_write`: the value it sets and what it returns; `fault` is whether `copy_from_user`
fails. -/
def procWrite (buf : List UInt8) (fault : Bool) : Option Int32 × ℤ :=
  if tmpSize ≤ buf.length then (none, -EINVAL)
  else if fault then (none, -EFAULT)
  else
    match L.kstrtoint (L.strim (cstr buf)) with
    | none => (none, -EINVAL)
    | some val => (some val, buf.length)

/-- `myvar_sysfs_store`. -/
def sysfsStore (buf : List UInt8) : Option Int32 × ℤ :=
  match L.kstrtoint (L.strim (cstr buf)) with
  | none => (none, -EINVAL)
  | some val => (some val, buf.length)

/-- The value a step sets. -/
def written : Label → Option Int32
  | .read _ => none
  | .write buf fault => (procWrite L buf fault).1
  | .store buf => (sysfsStore L buf).1

namespace VarState

/-- The reader is between its first read and the end of the file. -/
def Reading (s : VarState) : Prop := s.held ≠ [] ∧ s.done = false

instance (s : VarState) : Decidable s.Reading := inferInstanceAs (Decidable (_ ∧ _))

def afterRead (s : VarState) (count : ℕ) : VarState where
  myvar := s.myvar
  pos := s.pos + (procRead L s count).length
  got := s.got ++ procRead L s count
  held := if s.held = [] then [s.myvar] else s.held
  done := decide (0 < count ∧ procRead L s count = [])

def afterSet (s : VarState) : Option Int32 → VarState
  | none => s
  | some val => { s with myvar := val, held := if s.Reading then s.held ++ [val] else s.held }

end VarState

/-- The reader reads until the end of the file; the others write at any time. -/
def step (s : VarState) : Label → Option VarState
  | .read count => if s.done then none else some (s.afterRead L count)
  | .write buf fault => some (s.afterSet (written L (.write buf fault)))
  | .store buf => some (s.afterSet (written L (.store buf)))

def varLts : Lts VarState Label where
  init s := s.pos = 0 ∧ s.got = [] ∧ s.held = [] ∧ s.done = false
  step s l t := step L s l = some t

/-- The texts of two values agree in the bytes that a read of some size takes from an offset on. -/
def Agree (v w : Int32) (pos count : ℕ) : Prop :=
  ((procText v).drop pos).take count = ((procText w).drop pos).take count

/-- At every read the text of the variable's value agrees with that of `w` where the read takes its
bytes. -/
def ReadsAs (w : Int32) (tr : List (VarState × Label)) : Prop :=
  ∀ s count, (s, .read count) ∈ tr → Agree s.myvar w s.pos count

end EltexSystems.ProcVar
