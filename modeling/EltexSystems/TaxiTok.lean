import EltexSystems.Lib.CheckedMem
import EltexSystems.Lib.Strtok

/-!
# `next_tok` of `taxi_control/main.c`

The calls that cut a command line up, over the memory the line lies in: `next_tok` moves its
caller's cursor and writes a `NUL` behind the token it returns.  Every access is to an index of the
memory, and a call lists the indices it has accessed.
-/

namespace EltexSystems.LineCursor

open CStr CheckedMem Strtok Runs

/-- A call: the pointer it returns, `none` for `NULL`, the memory and the cursor it leaves, and what
it has read and written. -/
structure Call where
  token : Option ℕ
  after : Tokenizer
  accessed : List ℕ
  deriving DecidableEq

/-- `while (*s && p(*s)) s++` over the memory from `s` on: where it stops, and the indices read. -/
def advance (p : UInt8 → Bool) : ℕ → List UInt8 → Option (ℕ × List ℕ)
  | _, [] => none
  | s, b :: mem =>
    if b ≠ 0 ∧ p b then (advance p (s + 1) mem).map fun r => (r.1, s :: r.2) else some (s, [s])

/-- `next_tok`; `none` where it leaves the memory. -/
def nextTok (ps : Tokenizer) : Option Call :=
  (advance isspace ps.save (ps.buf.drop ps.save)).bind fun (st, skipped) =>
    (load8 ps.buf st).bind fun b =>
      if b = 0 then some ⟨none, { ps with save := st }, skipped ++ [st]⟩
      else
        (advance (!isspace ·) st (ps.buf.drop st)).bind fun (s, read) =>
          (load8 ps.buf s).bind fun b =>
            if b ≠ 0 then
              (store8 ps.buf s 0).map fun buf =>
                ⟨some st, ⟨buf, s + 1⟩, skipped ++ st :: (read ++ [s, s])⟩
            else some ⟨some st, { ps with save := s }, skipped ++ st :: (read ++ [s])⟩

/-- Some calls on one cursor. -/
def calls : ℕ → Tokenizer → Option (List Call)
  | 0, _ => some []
  | n + 1, ps => (nextTok ps).bind fun r => (calls n r.after).map (r :: ·)

/-- The words, with the pointers to them, are the maximal runs of the line in order.  The calls
return one after the other and then `NULL`, those returned stay as they are, and no call leaves the
line and its terminator. -/
structure Tokenises (line : List UInt8) (base : ℕ) (words : List (ℕ × List UInt8))
    (rs : List Call) : Prop where
  runs : ∀ j w, (j, w) ∈ words ↔ ∃ k, j = base + k ∧ IsRun isspace line k w
  sorted : (words.map Prod.fst).Pairwise (· < ·)
  returned : ∀ (k : ℕ) (r : Call), rs[k]? = some r → r.token = words[k]?.map Prod.fst
  kept : ∀ (k : ℕ) (r : Call), rs[k]? = some r → ∀ q ∈ words.take (k + 1),
    q.2 ++ [0] <+: r.after.buf.drop q.1
  inside : ∀ r ∈ rs, ∀ i ∈ r.accessed, base ≤ i ∧ i ≤ base + line.length

end EltexSystems.LineCursor
