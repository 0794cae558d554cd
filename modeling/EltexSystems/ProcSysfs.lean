import EltexSystems.Proofs.ProcVar

/-!
# Two ways to one variable

`/proc/myvar` beside `/sys/kernel/myvar/myvar`: what the kernel documents of the functions that both
parse with, the other interface's read, and what the two have in common in any run.
-/

namespace EltexSystems.ProcVar

open CStr

def PAGE_SIZE : ℕ := 4096

/-- `myvar_sysfs_show`: the bytes of the whole file. -/
def sysfsShow (v : Int32) : List UInt8 := snprintf PAGE_SIZE (decimalInt v.toInt ++ ascii "\n")

/-- `isspace` of the kernel, which counts the no-break space. -/
def isspaceK (b : UInt8) : Bool := isspace b || b == 160

/-- A text without the white space around it. -/
def trim (s : List UInt8) : List UInt8 :=
  ((s.dropWhile isspaceK).reverse.dropWhile isspaceK).reverse

/-- A text without the one newline it may end in. -/
def withoutNewline (s : List UInt8) : List UInt8 := if s.getLast? = some 10 then s.dropLast else s

/-- The kernel's functions do what is documented: one removes white space on both sides, the other
takes an optional sign, digits and an optional newline, within an `int`. -/
structure Documented (L : KernelLib) : Prop where
  strim : ∀ s, L.strim s = trim s
  kstrtoint : ∀ s, L.kstrtoint s = parseInt (withoutNewline s)

/-- The `int` that a text is, white space aside. -/
def intText (buf : List UInt8) : Option Int32 := parseInt (trim (cstr buf))

/-- The value that a step is to set. -/
def accepted : Label → Option Int32
  | .read _ => none
  | .write buf fault => if buf.length < tmpSize ∧ fault = false then intText buf else none
  | .store buf => intText buf

/-- `/proc/myvar` opened by a process that has read nothing. -/
def VarState.reopened (s : VarState) : VarState := ⟨s.myvar, 0, [], [], false⟩

/-- What the two interfaces have in common, after some steps. -/
structure Interchangeable (L : KernelLib) (s : VarState) (tr : List (VarState × Label))
    (t : VarState) : Prop where
  stores : ∀ buf, sysfsStore L buf
    = ((intText buf), if (intText buf).isSome then (buf.length : ℤ) else -EINVAL)
  writes : ∀ buf, buf.length < tmpSize → procWrite L buf false = sysfsStore L buf
  refuses : ∀ buf fault, tmpSize ≤ buf.length → procWrite L buf fault = (none, -EINVAL)
  last : t.myvar = ((tr.filterMap fun p => accepted p.2).getLast?).getD s.myvar
  shows : sysfsShow t.myvar = decimalInt t.myvar.toInt ++ ascii "\n"
  reads : ∀ tr' u, (varLts L).Path t.reopened tr' u → (∀ p ∈ tr', ∃ count, p.2 = .read count) →
    u.done = true → u.got = sysfsShow t.myvar
  restores : (procWrite L (sysfsShow t.myvar) false).1 = some t.myvar
    ∧ (sysfsStore L (sysfsShow t.myvar)).1 = some t.myvar

end EltexSystems.ProcVar
