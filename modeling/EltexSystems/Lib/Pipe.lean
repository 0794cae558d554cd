import Mathlib.Data.List.Basic

/-!
# Pipes

A pipe with what was ever written to it and read from it.  Nothing is lost or reordered between a
write and a read (`Pipe.Wf`).
-/

/-- The bytes in a pipe, and a record of all that were written to it and read from it. -/
structure Pipe (α : Type*) where
  buf : List α
  written : List α
  taken : List α

namespace Pipe

variable {α : Type*}

def empty : Pipe α := ⟨[], [], []⟩

def write (p : Pipe α) (bs : List α) : Pipe α :=
  { p with buf := p.buf ++ bs, written := p.written ++ bs }

/-- What a read with room for `n` elements gives. -/
def read (p : Pipe α) (n : ℕ) : List α × Pipe α :=
  (p.buf.take n, { p with buf := p.buf.drop n, taken := p.taken ++ p.buf.take n })

/-- What was written was read or is still there. -/
def Wf (p : Pipe α) : Prop := p.taken ++ p.buf = p.written

theorem Wf.empty : (Pipe.empty : Pipe α).Wf := rfl

variable {p : Pipe α}

theorem Wf.write (h : p.Wf) (bs : List α) : (p.write bs).Wf := by
  unfold Wf Pipe.write at *
  rw [← List.append_assoc, h]

theorem Wf.read (h : p.Wf) (n : ℕ) : (p.read n).2.Wf := by
  unfold Wf Pipe.read at *
  rw [List.append_assoc, List.take_append_drop, h]

/-- When a pipe is empty, all that was written was read. -/
theorem Wf.taken_eq (h : p.Wf) (hnil : p.buf = []) : p.taken = p.written := by
  rwa [Wf, hnil, List.append_nil] at h

end Pipe
