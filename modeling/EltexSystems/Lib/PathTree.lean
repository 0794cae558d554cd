import Mathlib.Data.List.Induction
import EltexSystems.Lib.CString

/-!
# Paths in a directory tree

A tree of directories without links, the canonical path of a place in it, and what a path denotes
that is walked from the root or from a working directory, with its empty components, dots and double
dots.  A name behind a path is one step more (`resolve_join`), and a canonical path denotes its
place (`resolve_canonical`).
-/

namespace PathTree

open CStr

/-- A name a directory can hold: any bytes but `NUL` and the slash, at most `NAME_MAX` of them. -/
structure ValidName (n : List UInt8) : Prop where
  ne_nil : n ≠ []
  nul : 0 ∉ n
  slash : 47 ∉ n
  dot : n ≠ ascii "."
  dotDot : n ≠ ascii ".."
  length : n.length ≤ 255

theorem ValidName.cstr_eq {n : List UInt8} (h : ValidName n) : cstr n = n :=
  cstr_of_ne_zero fun _ hb h0 => h.nul (h0 ▸ hb)

/-- The places that are directories, each a list of names from the root on, and what they hold. -/
structure Tree where
  dir : List (List UInt8) → Bool
  children : List (List UInt8) → List (List UInt8)
  root : dir [] = true
  parent : ∀ cs n, dir (cs ++ [n]) = true → dir cs = true ∧ n ∈ children cs
  valid : ∀ cs, dir cs = true → ∀ n ∈ children cs, ValidName n

/-- The absolute path of a place. -/
def canonical (cs : List (List UInt8)) : List UInt8 :=
  if cs = [] then [47] else cs.flatMap (47 :: ·)

namespace Tree

variable (T : Tree)

/-- One component of a path. -/
def walk (cs : List (List UInt8)) (c : List UInt8) : Option (List (List UInt8)) :=
  if T.dir cs = false then none
  else if c = [] ∨ c = ascii "." then some cs
  else if c = ascii ".." then some cs.dropLast
  else if (T.children cs).contains c then some (cs ++ [c])
  else none

/-- The place a path denotes for a process in a working directory. -/
def resolve (cwd : List (List UInt8)) (path : List UInt8) : Option (List (List UInt8)) :=
  if path = [] then none
  else (path.splitOn 47).foldlM T.walk (if path.head? = some 47 then [] else cwd)

variable {T} {cs cwd : List (List UInt8)} {n path : List UInt8}

theorem walk_child (hcs : T.dir cs = true) (hn : n ∈ T.children cs) :
    T.walk cs n = some (cs ++ [n]) := by
  have hvalid := T.valid cs hcs n hn
  rw [walk, if_neg (by rw [hcs]; decide), if_neg fun h => h.elim hvalid.ne_nil hvalid.dot,
    if_neg hvalid.dotDot, if_pos (List.elem_iff.mpr hn)]

theorem walk_nil (hcs : T.dir cs = true) : T.walk cs [] = some cs := by
  rw [walk, if_neg (by rw [hcs]; decide), if_pos (.inl rfl)]

/-- A name behind a path is looked up where the path leads. -/
theorem resolve_join (hne : path ≠ []) (hpath : T.resolve cwd path = some cs)
    (hcs : T.dir cs = true) (hn : n ∈ T.children cs) :
    T.resolve cwd (path ++ 47 :: n) = some (cs ++ [n]) := by
  have hhead : (path ++ 47 :: n).head? = path.head? := List.head?_append_of_ne_nil _ hne
  rw [resolve, if_neg hne] at hpath
  rw [resolve, if_neg (by simp), hhead, List.splitOn_append_cons_self,
    List.splitOn_eq_singleton (T.valid cs hcs n hn).slash, List.foldlM_append, hpath]
  show (T.walk cs n).bind some = _
  rw [walk_child hcs hn]
  rfl

theorem resolve_root (cwd : List (List UInt8)) : T.resolve cwd [47] = some [] := by
  have hsplit : ([47] : List UInt8).splitOn 47 = [[], []] := by decide
  rw [resolve, if_neg (List.cons_ne_nil _ _), hsplit]
  show (T.walk [] []).bind (fun cs => (T.walk cs []).bind some) = _
  rw [walk_nil T.root, Option.bind_some, walk_nil T.root]
  rfl

theorem resolve_top (hn : n ∈ T.children []) (cwd : List (List UInt8)) :
    T.resolve cwd (47 :: n) = some [n] := by
  have hsplit : (47 :: n).splitOn 47 = [[], n] := by
    have h := List.splitOn_append_cons_self (a := (47 : UInt8)) [] n
    rwa [List.nil_append, List.splitOn_eq_singleton (T.valid [] T.root n hn).slash] at h
  rw [resolve, if_neg (List.cons_ne_nil _ _), hsplit]
  show (T.walk [] []).bind (fun cs => (T.walk cs n).bind some) = _
  rw [walk_nil T.root, Option.bind_some, walk_child T.root hn]
  rfl

theorem resolve_dot (hcwd : T.dir cwd = true) : T.resolve cwd (ascii ".") = some cwd := by
  have hsplit : (ascii ".").splitOn 47 = [ascii "."] := by decide
  rw [resolve, if_neg (by decide), hsplit, if_neg (by decide)]
  show (T.walk cwd (ascii ".")).bind some = _
  rw [walk, if_neg (by rw [hcwd]; decide), if_pos (.inr rfl)]
  rfl

end Tree

theorem canonical_concat (cs : List (List UInt8)) (n : List UInt8) :
    canonical (cs ++ [n]) = (if cs = [] then [] else canonical cs) ++ 47 :: n := by
  have hne : cs ++ [n] ≠ [] := by simp
  rw [canonical, if_neg hne, List.flatMap_append]
  by_cases hcs : cs = []
  · rw [hcs]
    simp
  · rw [if_neg hcs, canonical, if_neg hcs]
    simp

theorem canonical_ne_nil (cs : List (List UInt8)) : canonical cs ≠ [] := by
  rcases cs.eq_nil_or_concat' with rfl | ⟨cs, n, rfl⟩
  · exact List.cons_ne_nil _ _
  · rw [canonical_concat]
    simp

/-- A canonical path denotes its place, from any working directory. -/
theorem Tree.resolve_canonical {T : Tree} (cwd : List (List UInt8)) :
    ∀ {cs : List (List UInt8)}, T.dir cs = true → T.resolve cwd (canonical cs) = some cs := by
  intro cs
  induction cs using List.reverseRecOn with
  | nil => exact fun _ => Tree.resolve_root cwd
  | append_singleton cs n ih =>
    intro hdir
    obtain ⟨hcs, hn⟩ := T.parent cs n hdir
    rw [canonical_concat]
    split_ifs with hnil
    · subst hnil
      exact Tree.resolve_top hn cwd
    · exact Tree.resolve_join (canonical_ne_nil cs) (ih hcs) hcs hn

end PathTree
