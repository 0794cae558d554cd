import EltexSystems.OpenFile
import EltexSystems.Proofs.Panels

/-!
# Which files the pager is run on

The command fits its buffer (`lessCommand_eq`), so what the shell makes of it is decided by what it
makes of the path between double quotes (`runs_pager_iff`).
-/

namespace EltexSystems.Panels

open CStr

variable {path name : List UInt8}

theorem lessCommand_eq (hpath : 0 ∉ path) (hname : 0 ∉ name)
    (hlen : (fullPath path name).length < PATH_MAX) :
    lessCommand path name = ascii "less " ++ 34 :: (fullPath path name ++ [34]) := by
  have hfull : ∀ b ∈ fullPath path name, b ≠ 0 := by
    rintro b hb rfl
    rcases List.mem_append.mp hb with hb | hb
    · rcases List.mem_append.mp hb with hb | hb
      · exact hpath hb
      · exact absurd hb (by decide)
    · exact hname hb
  have hjoin : joinPath path name = fullPath path name := joinPath_eq hname hlen
  have htext : ascii "less \"" ++ fullPath path name ++ ascii "\""
      = ascii "less " ++ 34 :: (fullPath path name ++ [34]) := by
    have hquote : ascii "less \"" = ascii "less " ++ [34] := by decide
    rw [hquote, List.append_assoc, List.append_assoc]
    rfl
  rw [lessCommand, hjoin, cstr_of_ne_zero hfull, htext]
  refine List.take_of_length_le ?_
  have hless : (ascii "less ").length = 5 := by decide
  rw [List.length_append, List.length_cons, List.length_append, List.length_singleton, hless]
  omega

/-- The shell runs the pager on the file, and nothing else, exactly when the path has no quote or
backquote, no dollar before a byte that begins an expansion, and no backslash at its end or before a
backslash, a dollar or a newline. -/
theorem runs_pager_iff (hpath : 0 ∉ path) (hname : 0 ∉ name)
    (hlen : (fullPath path name).length < PATH_MAX) :
    RunsPager path name ↔ Shell.Verbatim (fullPath path name) := by
  have hpre : (ascii "less ").foldlM Shell.step Shell.start
      = some ⟨.plain, [ascii "less"], none, false⟩ := by decide
  rw [RunsPager, lessCommand_eq hpath hname hlen]
  exact Shell.read_quoted_iff hpre (by decide) (by decide)

theorem runs_pager_notes : RunsPager (ascii "/home") (ascii "my $.txt") ↔
    Shell.Verbatim (fullPath (ascii "/home") (ascii "my $.txt")) :=
  runs_pager_iff (by decide) (by decide) (by decide)

/-- A file name that the shell expands. -/
theorem pager_of_command : ¬ RunsPager (ascii "/home") (ascii "$(reboot)") := by
  unfold RunsPager
  decide

end EltexSystems.Panels
