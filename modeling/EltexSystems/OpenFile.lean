import EltexSystems.Lib.Shell
import EltexSystems.Panels

/-!
# The pager of `nedomc`

The command that `main` passes to `system` for a file, and the shell's reading of it.
-/

namespace EltexSystems.Panels

open CStr

/-- `snprintf(cmd, sizeof(cmd), "less \"%s\"", newpath)`. -/
def lessCommand (path name : List UInt8) : List UInt8 :=
  snprintf (PATH_MAX + 10) (ascii "less \"" ++ cstr (joinPath path name) ++ ascii "\"")

/-- The path of a file in a directory. -/
def fullPath (path name : List UInt8) : List UInt8 := path ++ ascii "/" ++ name

/-- A shell runs the pager on the file and does nothing else. -/
def RunsPager (path name : List UInt8) : Prop :=
  Shell.read (lessCommand path name) = some [ascii "less", fullPath path name]

end EltexSystems.Panels
