import EltexSystems.Lib.Lts
import EltexSystems.Lib.Positions

/-!
# Processes that fork and wait

Programs that print, `fork`, `wait` for a child and exit, and the processes that run them in any
order, a `fork` failing at will.  In a program that waits for every child it forks (`Prog.Joins`) no
process outlives its parent (`parent_runs`), so the parent's pid a process prints is that of its
creator (`told_run`), no `wait` blocks for ever, and in the end every process has exited and every
child was waited for (`ends`).

A print goes out at once where the stream is line buffered, else to a buffer that `fork` copies and
`exit` writes out.  Where no `fork` fails, `Prog.due` tells how often a name is then printed
(`printed`).
-/

namespace ForkJoin

/-- A program; `fork` names the child, and `wait` may print the pid and the status of the
child under a name. -/
inductive Prog (ν : Type*) where
  | exit (code : ℕ)
  | print (name : ν) (rest : Prog ν)
  | fork (who : ν) (child rest failed : Prog ν)
  | wait (tell : Option ν) (rest : Prog ν)

/-- A line printed: a name with the process's number and its parent's, `none` for a parent that is
gone or outside, or the status of a child. -/
inductive Line (ν : Type*) where
  | info (name : ν) (pid : ℕ) (ppid : Option ℕ)
  | exited (name : ν) (child code : ℕ)

/-- A process, its number, which stands for its pid, being its place in the list of all; `buf` is
what it printed and did not write yet. -/
structure Proc (ν : Type*) where
  name : ν
  prog : Prog ν
  parent : Option ℕ
  status : Option ℕ
  reaped : Bool
  buf : List (Line ν)

structure System (ν : Type*) where
  procs : List (Proc ν)
  out : List (Line ν)

inductive Label where
  | run (k : ℕ)
  | fails (k : ℕ)
  | reaps (k j : ℕ)

variable {ν : Type*}

namespace System

variable (s : System ν)

/-- `getppid()` of a process. -/
def ppid (p : Proc ν) : Option ℕ :=
  p.parent.filter fun j => s.procs[j]?.any fun q => q.status.isNone

/-- A process prints some lines and goes on. -/
def say (lb : Bool) (k : ℕ) (p : Proc ν) (rest : Prog ν) (lines : List (Line ν)) : System ν where
  procs := s.procs.set k { p with prog := rest, buf := p.buf ++ if lb then [] else lines }
  out := s.out ++ if lb then lines else []

end System

/-- One step of one process, the stream line buffered or not. -/
inductive Step (lb : Bool) : System ν → Label → System ν → Prop where
  | print {s : System ν} {k : ℕ} {p : Proc ν} {name : ν} {rest : Prog ν} :
      s.procs[k]? = some p → p.status = none → p.prog = .print name rest →
      Step lb s (.run k) (s.say lb k p rest [.info name k (s.ppid p)])
  | fork {s : System ν} {k : ℕ} {p : Proc ν} {who : ν} {child rest failed : Prog ν} :
      s.procs[k]? = some p → p.status = none → p.prog = .fork who child rest failed →
      Step lb s (.run k)
        { s with
          procs := s.procs.set k { p with prog := rest }
            ++ [⟨who, child, some k, none, false, p.buf⟩] }
  | forkFails {s : System ν} {k : ℕ} {p : Proc ν} {who : ν} {child rest failed : Prog ν} :
      s.procs[k]? = some p → p.status = none → p.prog = .fork who child rest failed →
      Step lb s (.fails k) { s with procs := s.procs.set k { p with prog := failed } }
  | wait {s : System ν} {k j code : ℕ} {p c : Proc ν} {tell : Option ν} {rest : Prog ν} :
      s.procs[k]? = some p → p.status = none → p.prog = .wait tell rest →
      s.procs[j]? = some c → c.parent = some k → c.status = some code → c.reaped = false →
      Step lb s (.reaps k j)
        (({ s with procs := s.procs.set j { c with reaped := true } } : System ν).say lb k p rest
          (tell.map fun name => .exited name j code).toList)
  | waitNone {s : System ν} {k : ℕ} {p : Proc ν} {tell : Option ν} {rest : Prog ν} :
      s.procs[k]? = some p → p.status = none → p.prog = .wait tell rest →
      (∀ c ∈ s.procs, c.parent = some k → c.reaped = true) →
      Step lb s (.run k) { s with procs := s.procs.set k { p with prog := rest } }
  | exit {s : System ν} {k code : ℕ} {p : Proc ν} :
      s.procs[k]? = some p → p.status = none → p.prog = .exit code →
      Step lb s (.run k)
        { procs := s.procs.set k { p with status := some code, buf := [] }, out := s.out ++ p.buf }

/-- The step a label stands for, if it can be taken. -/
def next (lb : Bool) (s : System ν) : Label → Option (System ν)
  | .run k => do
    let p ← s.procs[k]?.filter fun p => p.status.isNone
    match p.prog with
    | .print name rest => some (s.say lb k p rest [.info name k (s.ppid p)])
    | .fork who child rest _ =>
      some { s with
        procs := s.procs.set k { p with prog := rest }
          ++ [⟨who, child, some k, none, false, p.buf⟩] }
    | .wait _ rest =>
      if s.procs.all fun c => c.parent != some k || c.reaped then
        some { s with procs := s.procs.set k { p with prog := rest } }
      else none
    | .exit code =>
      some
        { procs := s.procs.set k { p with status := some code, buf := [] }, out := s.out ++ p.buf }
  | .fails k => do
    let p ← s.procs[k]?.filter fun p => p.status.isNone
    match p.prog with
    | .fork _ _ _ failed => some { s with procs := s.procs.set k { p with prog := failed } }
    | _ => none
  | .reaps k j => do
    let p ← s.procs[k]?.filter fun p => p.status.isNone
    let c ← s.procs[j]?.filter fun c => c.parent == some k && !c.reaped
    match p.prog, c.status with
    | .wait tell rest, some code =>
      some (({ s with procs := s.procs.set j { c with reaped := true } } : System ν).say lb k p rest
        (tell.map fun name => .exited name j code).toList)
    | _, _ => none

theorem next_step {lb : Bool} {s s' : System ν} {a : Label} (h : next lb s a = some s') :
    Step lb s a s' := by
  cases a with
  | run k =>
    obtain ⟨p, hp, h⟩ := Option.bind_eq_some_iff.mp h
    obtain ⟨hk, hst⟩ := Option.filter_eq_some_iff.mp hp
    have hst := Option.isNone_iff_eq_none.mp hst
    rcases hprog : p.prog with code | ⟨name, rest⟩ | ⟨who, child, rest, failed⟩ | ⟨tell, rest⟩ <;>
      rw [hprog] at h
    · cases h
      have hstep : Step lb s _ _ := .exit hk hst hprog
      rwa [hprog] at hstep
    · cases h
      exact .print hk hst hprog
    · cases h
      exact .fork hk hst hprog
    · obtain ⟨hall, h⟩ := Option.ite_none_right_eq_some.mp h
      cases h
      refine .waitNone hk hst hprog fun c hc hpar => ?_
      have := List.all_eq_true.mp hall c hc
      simpa [hpar] using this
  | fails k =>
    obtain ⟨p, hp, h⟩ := Option.bind_eq_some_iff.mp h
    obtain ⟨hk, hst⟩ := Option.filter_eq_some_iff.mp hp
    rcases hprog : p.prog with code | ⟨name, rest⟩ | ⟨who, child, rest, failed⟩ | ⟨tell, rest⟩ <;>
      rw [hprog] at h <;> cases h
    exact .forkFails hk (Option.isNone_iff_eq_none.mp hst) hprog
  | reaps k j =>
    obtain ⟨p, hp, h⟩ := Option.bind_eq_some_iff.mp h
    obtain ⟨c, hc, h⟩ := Option.bind_eq_some_iff.mp h
    obtain ⟨hk, hst⟩ := Option.filter_eq_some_iff.mp hp
    obtain ⟨hj, hpar⟩ := Option.filter_eq_some_iff.mp hc
    simp only [Bool.and_eq_true, beq_iff_eq, Bool.not_eq_true'] at hpar
    rcases hprog : p.prog with code | ⟨name, rest⟩ | ⟨who, child, rest, failed⟩ | ⟨tell, rest⟩ <;>
      rcases hcode : c.status with _ | code <;> rw [hprog, hcode] at h <;> cases h
    have hstep : Step lb s _ _ :=
      .wait hk (Option.isNone_iff_eq_none.mp hst) hprog hj hpar.1 hcode hpar.2
    rwa [hcode] at hstep

/-- A program started from outside, under a name. -/
def lts (lb : Bool) (name : ν) (root : Prog ν) : Lts (System ν) Label where
  init s := s = ⟨[⟨name, root, none, none, false, []⟩], []⟩
  step := Step lb

namespace Prog

/-- With `n` children not waited for, the program waits for them and for all it forks, and prints a
status only of a child there is. -/
def Joins : ℕ → Prog ν → Prop
  | n, .exit _ => n = 0
  | n, .print _ rest => Joins n rest
  | n, .fork _ child rest failed => Joins 0 child ∧ Joins (n + 1) rest ∧ Joins n failed
  | n, .wait tell rest => (tell ≠ none → 0 < n) ∧ Joins (n - 1) rest

/-- Every process prints its own name and exits with a code that goes with it, and its children have
names that the tree puts under its own. -/
def Named (tree : ν → Option ν) (codes : ν → ℕ → Prop) : ν → Prog ν → Prop
  | m, .exit code => codes m code
  | m, .print name rest => name = m ∧ Named tree codes m rest
  | m, .fork who child rest failed =>
    tree who = some m ∧ Named tree codes who child ∧ Named tree codes m rest ∧
      Named tree codes m failed
  | m, .wait tell rest => (∀ name, tell = some name → name = m) ∧ Named tree codes m rest

/-- A bound on the steps of a program and its children. -/
def size : Prog ν → ℕ
  | .exit _ => 1
  | .print _ rest => size rest + 1
  | .fork _ child rest failed => size child + size rest + size failed + 1
  | .wait _ rest => size rest + 1

theorem size_pos (p : Prog ν) : 0 < p.size := by
  cases p <;> exact Nat.succ_pos _

end Prog

open Lts Positions

section Kids

variable {l : List (Proc ν)} {k : ℕ} {p q : Proc ν}

/-- The number of children of a process that it has not waited for. -/
def kids (l : List (Proc ν)) (k : ℕ) : ℕ :=
  (l.map fun q => if q.parent = some k ∧ q.reaped = false then 1 else 0).sum

theorem kids_append (l : List (Proc ν)) (q : Proc ν) (k : ℕ) :
    kids (l ++ [q]) k = kids l k + if q.parent = some k ∧ q.reaped = false then 1 else 0 := by
  simp [kids]

theorem kids_set (hk : l[k]? = some p) (i : ℕ) :
    kids (l.set k q) i + (if p.parent = some i ∧ p.reaped = false then 1 else 0)
      = kids l i + if q.parent = some i ∧ q.reaped = false then 1 else 0 :=
  sum_map_set (fun q : Proc ν => if q.parent = some i ∧ q.reaped = false then 1 else 0) hk

theorem kids_set_same (hk : l[k]? = some p) (hpar : q.parent = p.parent)
    (hre : q.reaped = p.reaped) (i : ℕ) : kids (l.set k q) i = kids l i := by
  have h := kids_set (q := q) hk i
  rw [hpar, hre] at h
  omega

theorem kids_pos (hq : q ∈ l) (hpar : q.parent = some k) (hre : q.reaped = false) :
    0 < kids l k := by
  obtain ⟨l₁, l₂, rfl⟩ := List.append_of_mem hq
  simp only [kids, List.map_append, List.map_cons, List.sum_append, List.sum_cons, hpar, hre,
    and_self, if_true]
  omega

theorem kids_eq_zero (h : ∀ q ∈ l, q.parent = some k → q.reaped = true) : kids l k = 0 := by
  induction l with
  | nil => rfl
  | cons x l ih =>
    have hx : ¬ (x.parent = some k ∧ x.reaped = false) := by
      rintro ⟨hpar, hre⟩
      rw [h x List.mem_cons_self hpar] at hre
      cases hre
    have hrest := ih fun q hq => h q (List.mem_cons_of_mem _ hq)
    unfold kids at hrest ⊢
    rw [List.map_cons, List.sum_cons, if_neg hx, hrest]

end Kids

section Invariant

variable {l : List (Proc ν)} {k : ℕ} {p q : Proc ν}

/-- What holds of the processes of a program that waits for its children. -/
structure Inv (l : List (Proc ν)) : Prop where
  joins : ∀ (k : ℕ) (p : Proc ν), l[k]? = some p → p.status = none → p.prog.Joins (kids l k)
  done : ∀ (k : ℕ) (p : Proc ν), l[k]? = some p → p.status ≠ none → kids l k = 0
  older : ∀ (k j : ℕ) (p : Proc ν), l[k]? = some p → p.parent = some j → j < k
  waited : ∀ (k : ℕ) (p : Proc ν), l[k]? = some p → p.reaped = true → p.status ≠ none

/-- A process goes on with a program that waits for its children. -/
theorem Inv.put (h : Inv l) (hk : l[k]? = some p) (hp : p.status = none) (hq : q.status = none)
    (hpar : q.parent = p.parent) (hre : q.reaped = p.reaped) (hjoins : q.prog.Joins (kids l k)) :
    Inv (l.set k q) := by
  have hkids : ∀ i, kids (l.set k q) i = kids l i := kids_set_same hk hpar hre
  refine ⟨fun i x hi hx => ?_, fun i x hi hx => ?_, fun i j x hi hj => ?_, fun i x hi hx => ?_⟩
  · rw [hkids]
    rcases getElem?_set_cases hi with ⟨rfl, rfl⟩ | ⟨-, hi⟩
    · exact hjoins
    · exact h.joins i x hi hx
  · rw [hkids]
    rcases getElem?_set_cases hi with ⟨rfl, rfl⟩ | ⟨-, hi⟩
    · exact absurd hq hx
    · exact h.done i x hi hx
  · rcases getElem?_set_cases hi with ⟨rfl, rfl⟩ | ⟨-, hi⟩
    · exact h.older i j p hk (hpar.symm.trans hj)
    · exact h.older i j x hi hj
  · rcases getElem?_set_cases hi with ⟨rfl, rfl⟩ | ⟨-, hi⟩
    · exact absurd hp (h.waited i p hk (hre.symm.trans hx))
    · exact h.waited i x hi hx

/-- A process forks a child that waits for its own. -/
theorem Inv.fork {c : Proc ν} (h : Inv l) (hk : l[k]? = some p) (hp : p.status = none)
    {rest : Prog ν} (hrest : rest.Joins (kids l k + 1)) (hpar : c.parent = some k)
    (hst : c.status = none) (hre : c.reaped = false) (hchild : c.prog.Joins 0) :
    Inv (l.set k { p with prog := rest } ++ [c]) := by
  have hlen : (l.set k { p with prog := rest }).length = l.length := List.length_set
  have hklt : k < l.length := (List.getElem?_eq_some_iff.mp hk).1
  have hkids : ∀ i, kids (l.set k { p with prog := rest } ++ [c]) i
      = kids l i + if k = i then 1 else 0 := by
    intro i
    rw [kids_append, kids_set_same (q := { p with prog := rest }) hk rfl rfl]
    simp [hpar, hre]
  -- the new process has no child, being younger than all
  have hnone : kids l l.length = 0 := by
    refine kids_eq_zero fun x hx hpar => ?_
    obtain ⟨i, hi⟩ := List.mem_iff_getElem?.mp hx
    have := h.older i _ x hi hpar
    have := (List.getElem?_eq_some_iff.mp hi).1
    omega
  refine ⟨fun i x hi hx => ?_, fun i x hi hx => ?_, fun i j x hi hj => ?_, fun i x hi hx => ?_⟩
  · rw [hkids]
    rcases getElem?_concat_iff.mp hi with hi | ⟨rfl, rfl⟩
    · rcases getElem?_set_cases hi with ⟨rfl, rfl⟩ | ⟨hne, hi⟩
      · rw [if_pos rfl]
        exact hrest
      · rw [if_neg (Ne.symm hne), Nat.add_zero]
        exact h.joins i x hi hx
    · rw [hlen, hnone, if_neg (by omega)]
      exact hchild
  · rw [hkids]
    rcases getElem?_concat_iff.mp hi with hi | ⟨rfl, rfl⟩
    · rcases getElem?_set_cases hi with ⟨rfl, rfl⟩ | ⟨hne, hi⟩
      · exact absurd hp hx
      · rw [if_neg (Ne.symm hne), Nat.add_zero]
        exact h.done i x hi hx
    · exact absurd hst hx
  · rcases getElem?_concat_iff.mp hi with hi | ⟨rfl, rfl⟩
    · rcases getElem?_set_cases hi with ⟨rfl, rfl⟩ | ⟨-, hi⟩
      · exact h.older i j p hk hj
      · exact h.older i j x hi hj
    · cases hpar.symm.trans hj
      rw [hlen]
      exact hklt
  · rcases getElem?_concat_iff.mp hi with hi | ⟨rfl, rfl⟩
    · rcases getElem?_set_cases hi with ⟨rfl, rfl⟩ | ⟨-, hi⟩
      · exact h.waited i p hk hx
      · exact h.waited i x hi hx
    · cases hre.symm.trans hx

/-- A process that a `wait` is told of is another than the one that waits. -/
theorem getElem?_reaped {j code : ℕ} {c : Proc ν} (hk : l[k]? = some p) (hp : p.status = none)
    (hj : l[j]? = some c) (hc : c.status = some code) :
    (l.set j { c with reaped := true })[k]? = some p := by
  refine (List.getElem?_set_ne ?_).trans hk
  rintro rfl
  rw [Option.some.inj (hk.symm.trans hj), hc] at hp
  cases hp

/-- A child that has exited is waited for. -/
theorem Inv.reap {j code : ℕ} {c : Proc ν} (h : Inv l) (hk : l[k]? = some p)
    (hp : p.status = none) (hj : l[j]? = some c) (hcpar : c.parent = some k)
    (hc : c.status = some code) (hcre : c.reaped = false) (hq : q.status = none)
    (hpar : q.parent = p.parent) (hre : q.reaped = p.reaped)
    (hjoins : q.prog.Joins (kids l k - 1)) :
    Inv ((l.set j { c with reaped := true }).set k q) := by
  have hk' := getElem?_reaped hk hp hj hc
  have hkids : ∀ i, kids ((l.set j { c with reaped := true }).set k q) i
      + (if k = i then 1 else 0) = kids l i := by
    intro i
    have h1 := kids_set (q := { c with reaped := true }) hj i
    rw [kids_set_same (q := q) hk' hpar hre]
    simpa [hcpar, hcre] using h1
  have hback : ∀ (i : ℕ) (x : Proc ν), ((l.set j { c with reaped := true }).set k q)[i]? = some x →
      (i = k ∧ x = q) ∨ (i = j ∧ x = { c with reaped := true }) ∨ (i ≠ k ∧ l[i]? = some x) := by
    intro i x hi
    rcases getElem?_set_cases hi with ⟨rfl, rfl⟩ | ⟨hne, hi⟩
    · exact .inl ⟨rfl, rfl⟩
    · rcases getElem?_set_cases hi with ⟨rfl, rfl⟩ | ⟨-, hi⟩
      · exact .inr (.inl ⟨rfl, rfl⟩)
      · exact .inr (.inr ⟨hne, hi⟩)
  refine ⟨fun i x hi hx => ?_, fun i x hi hx => ?_, fun i m x hi hm => ?_, fun i x hi hx => ?_⟩
  · have hi' := hkids i
    rcases hback i x hi with ⟨rfl, rfl⟩ | ⟨rfl, rfl⟩ | ⟨hne, hi⟩
    · rw [if_pos rfl] at hi'
      rw [show kids ((l.set j { c with reaped := true }).set i x) i = kids l i - 1 by omega]
      exact hjoins
    · exact nomatch hc.symm.trans hx
    · rw [if_neg (Ne.symm hne), Nat.add_zero] at hi'
      rw [hi']
      exact h.joins i x hi hx
  · have hzero : kids l i = 0 → kids ((l.set j { c with reaped := true }).set k q) i = 0 := by
      intro h0
      have hi' := hkids i
      omega
    rcases hback i x hi with ⟨rfl, rfl⟩ | ⟨rfl, rfl⟩ | ⟨hne, hi⟩
    · exact absurd hq hx
    · exact hzero (h.done i c hj (by rw [hc]; exact Option.some_ne_none _))
    · exact hzero (h.done i x hi hx)
  · rcases hback i x hi with ⟨rfl, rfl⟩ | ⟨rfl, rfl⟩ | ⟨-, hi⟩
    · exact h.older i m p hk (hpar.symm.trans hm)
    · exact h.older i m c hj hm
    · exact h.older i m x hi hm
  · rcases hback i x hi with ⟨rfl, rfl⟩ | ⟨rfl, rfl⟩ | ⟨-, hi⟩
    · exact absurd hp (h.waited i p hk (hre.symm.trans hx))
    · rw [hc]
      exact Option.some_ne_none _
    · exact h.waited i x hi hx

theorem Inv.exit {code : ℕ} (h : Inv l) (hk : l[k]? = some p) (hp : p.status = none)
    (hprog : p.prog = .exit code) : Inv (l.set k { p with status := some code, buf := [] }) := by
  have hzero : kids l k = 0 := by
    have hjoins := h.joins k p hk hp
    rw [hprog] at hjoins
    exact hjoins
  have hkids : ∀ i, kids (l.set k { p with status := some code, buf := [] }) i = kids l i :=
    kids_set_same hk rfl rfl
  refine ⟨fun i q hi hq => ?_, fun i q hi hq => ?_, fun i j q hi hj => ?_, fun i q hi hq => ?_⟩
  · rw [hkids]
    rcases getElem?_set_cases hi with ⟨rfl, rfl⟩ | ⟨-, hi⟩
    · cases hq
    · exact h.joins i q hi hq
  · rw [hkids]
    rcases getElem?_set_cases hi with ⟨rfl, rfl⟩ | ⟨-, hi⟩
    · exact hzero
    · exact h.done i q hi hq
  · rcases getElem?_set_cases hi with ⟨rfl, rfl⟩ | ⟨-, hi⟩
    · exact h.older i j p hk hj
    · exact h.older i j q hi hj
  · rcases getElem?_set_cases hi with ⟨rfl, rfl⟩ | ⟨-, hi⟩
    · exact Option.some_ne_none _
    · exact h.waited i q hi hq

variable {lb : Bool} {s s' : System ν} {m : ν} {root : Prog ν} {tr : List (System ν × Label)}

theorem inv_step {a : Label} (h : Inv s.procs) (hst : Step lb s a s') : Inv s'.procs := by
  cases hst with
  | @print k p name rest hk hp hprog =>
    have hj := h.joins k p hk hp
    rw [hprog] at hj
    exact h.put hk hp hp rfl rfl (show rest.Joins _ from hj)
  | fork hk hp hprog =>
    have hj := h.joins _ _ hk hp
    rw [hprog] at hj
    exact h.fork hk hp hj.2.1 rfl rfl rfl hj.1
  | @forkFails k p who child rest failed hk hp hprog =>
    have hj := h.joins k p hk hp
    rw [hprog] at hj
    exact h.put hk hp hp rfl rfl (show failed.Joins _ from hj.2.2)
  | @wait k j code p c tell rest hk hp hprog hj hpar hc hre =>
    have hjoins := h.joins k p hk hp
    rw [hprog] at hjoins
    exact h.reap hk hp hj hpar hc hre hp rfl rfl (show rest.Joins _ from hjoins.2)
  | @waitNone k p tell rest hk hp hprog hall =>
    have hjoins := h.joins k p hk hp
    rw [hprog, kids_eq_zero hall] at hjoins
    refine h.put hk hp hp rfl rfl (show rest.Joins _ from ?_)
    rw [kids_eq_zero hall]
    exact hjoins.2
  | exit hk hp hprog => exact h.exit hk hp hprog

theorem inv_run (hroot : root.Joins 0) (h : (lts lb m root).Run tr s) : Inv s.procs := by
  refine h.inv (I := fun s => Inv s.procs) ?_ fun s a s' hI hst => inv_step hI hst
  rintro s rfl
  have hone : ∀ (k : ℕ) (p : Proc ν),
      [(⟨m, root, none, none, false, []⟩ : Proc ν)][k]? = some p →
        k = 0 ∧ p = ⟨m, root, none, none, false, []⟩ := by
    intro k p hk
    cases k with
    | zero => exact ⟨rfl, (Option.some.inj hk).symm⟩
    | succ k => cases hk
  refine ⟨fun k p hk hp => ?_, fun k p hk hp => ?_, fun k j p hk hj => ?_, fun k p hk hp => ?_⟩ <;>
    obtain ⟨rfl, rfl⟩ := hone k p hk
  · exact hroot
  · exact absurd rfl hp
  · cases hj
  · cases hp

/-- No process outlives its parent: as long as it was not waited for, the parent runs. -/
theorem parent_runs (h : Inv l) {j k : ℕ} {c : Proc ν} (hj : l[j]? = some c)
    (hre : c.reaped = false) (hpar : c.parent = some k) :
    ∃ p, l[k]? = some p ∧ p.status = none := by
  have hlt : k < l.length :=
    Nat.lt_trans (h.older j k c hj hpar) (List.getElem?_eq_some_iff.mp hj).1
  refine ⟨_, List.getElem?_eq_getElem hlt, ?_⟩
  by_contra hst
  have hzero := h.done k _ (List.getElem?_eq_getElem hlt) hst
  have := kids_pos (List.mem_of_getElem? hj) hpar hre
  omega

theorem ppid_eq (h : Inv s.procs) {k : ℕ} {p : Proc ν} (hk : s.procs[k]? = some p)
    (hp : p.status = none) : s.ppid p = p.parent := by
  unfold System.ppid
  rcases hpar : p.parent with _ | j
  · rfl
  · have hre : p.reaped = false := by
      by_contra hre
      exact h.waited k p hk (by simpa using hre) hp
    obtain ⟨q, hq, hst⟩ := parent_runs h hk hre hpar
    simp [hq, hst]

end Invariant

section Lines

variable {lb : Bool} {l : List (Proc ν)} {s s' : System ν} {root : Prog ν}
  {tr : List (System ν × Label)} {tree : ν → Option ν} {codes : ν → ℕ → Prop} {m : ν}

/-- What stays as it is of a process. -/
structure Kept (p p' : Proc ν) : Prop where
  name : p'.name = p.name
  parent : p'.parent = p.parent
  status : ∀ code, p.status = some code → p'.status = some code
  reaped : p.reaped = true → p'.reaped = true

/-- What stays as it is of all processes. -/
def Keeps (l l' : List (Proc ν)) : Prop :=
  ∀ (k : ℕ) (p : Proc ν), l[k]? = some p → ∃ p', l'[k]? = some p' ∧ Kept p p'

theorem Keeps.trans {l l' l'' : List (Proc ν)} (h : Keeps l l') (h' : Keeps l' l'') :
    Keeps l l'' := by
  intro k p hk
  obtain ⟨p', hp', hkept⟩ := h k p hk
  obtain ⟨p'', hp'', hkept'⟩ := h' k p' hp'
  exact ⟨p'', hp'', hkept'.name.trans hkept.name, hkept'.parent.trans hkept.parent,
    fun code hc => hkept'.status code (hkept.status code hc),
    fun hr => hkept'.reaped (hkept.reaped hr)⟩

theorem keeps_set {i : ℕ} {q q' : Proc ν} (hi : l[i]? = some q) (hq : Kept q q') :
    Keeps l (l.set i q') := by
  intro k p hk
  by_cases hki : k = i
  · subst hki
    cases hi.symm.trans hk
    exact ⟨q', List.getElem?_set_self (List.getElem?_eq_some_iff.mp hi).1, hq⟩
  · exact ⟨p, (List.getElem?_set_ne (Ne.symm hki)).trans hk, rfl, rfl, fun _ h => h, id⟩

theorem keeps_step {a : Label} (hst : Step lb s a s') : Keeps s.procs s'.procs := by
  cases hst with
  | print hk => exact keeps_set hk ⟨rfl, rfl, fun _ h => h, id⟩
  | @fork k p who child rest failed hk =>
    have hp : Kept p { p with prog := rest } := ⟨rfl, rfl, fun _ h => h, id⟩
    intro i q hi
    obtain ⟨q', hq', h⟩ := keeps_set hk hp i q hi
    exact ⟨q', getElem?_concat_iff.mpr (.inl hq'), h⟩
  | forkFails hk => exact keeps_set hk ⟨rfl, rfl, fun _ h => h, id⟩
  | @wait k j code p c tell rest hk hp hprog hj hpar hc =>
    have hmarked : Kept c { c with reaped := true } := ⟨rfl, rfl, fun _ h => h, fun _ => rfl⟩
    exact (keeps_set hj hmarked).trans
      (keeps_set (getElem?_reaped hk hp hj hc) ⟨rfl, rfl, fun _ h => h, id⟩)
  | waitNone hk => exact keeps_set hk ⟨rfl, rfl, fun _ h => h, id⟩
  | exit hk hp => exact keeps_set hk ⟨rfl, rfl, fun _ h => (nomatch hp.symm.trans h), id⟩

/-- What a line says is so: a name and a parent's number are those of the process, and a status is
that of a child the process whose name is printed has waited for. -/
def Line.Right (l : List (Proc ν)) : Line ν → Prop
  | .info name k ppid => ∃ p, l[k]? = some p ∧ p.name = name ∧ p.parent = ppid
  | .exited name j code => ∃ c k p, l[j]? = some c ∧ c.parent = some k ∧
    l[k]? = some p ∧ p.name = name ∧ c.status = some code ∧ c.reaped = true

/-- What holds of a process whose name is in the tree. -/
structure Fits (tree : ν → Option ν) (codes : ν → ℕ → Prop) (l : List (Proc ν)) (p : Proc ν) :
    Prop where
  named : p.status = none → p.prog.Named tree codes p.name
  coded : ∀ code, p.status = some code → codes p.name code
  parent : (p.parent = none ∧ tree p.name = none) ∨
    ∃ j q, p.parent = some j ∧ l[j]? = some q ∧ tree p.name = some q.name
  lines : ∀ line ∈ p.buf, line.Right l

/-- The processes have the names of the tree, and what was printed is right. -/
structure Told (tree : ν → Option ν) (codes : ν → ℕ → Prop) (s : System ν) : Prop where
  procs : ∀ p ∈ s.procs, Fits tree codes s.procs p
  lines : ∀ line ∈ s.out, line.Right s.procs

theorem Line.Right.keep {l' : List (Proc ν)} {line : Line ν} (h : line.Right l)
    (hkeep : Keeps l l') : line.Right l' := by
  cases line with
  | info name k ppid =>
    obtain ⟨p, hp, rfl, rfl⟩ := h
    obtain ⟨p', hp', hkept⟩ := hkeep k p hp
    exact ⟨p', hp', hkept.name, hkept.parent⟩
  | exited name j code =>
    obtain ⟨c, k, p, hc, hpar, hp, rfl, hstatus, hre⟩ := h
    obtain ⟨c', hc', hkept⟩ := hkeep j c hc
    obtain ⟨p', hp', hkept'⟩ := hkeep k p hp
    exact ⟨c', k, p', hc', hkept.parent.trans hpar, hp', hkept'.name, hkept.status code hstatus,
      hkept.reaped hre⟩

theorem Fits.keep {l' : List (Proc ν)} {p : Proc ν} (h : Fits tree codes l p)
    (hkeep : Keeps l l') : Fits tree codes l' p := by
  refine ⟨h.named, h.coded, h.parent.imp_right ?_, fun line hm => (h.lines line hm).keep hkeep⟩
  rintro ⟨j, q, hj, hq, htree⟩
  obtain ⟨q', hq', hkept⟩ := hkeep j q hq
  exact ⟨j, q', hj, hq', hkept.name ▸ htree⟩

/-- What keeps the processes, and has every one fit, keeps all right. -/
theorem Told.keep (h : Told tree codes s) (hkeep : Keeps s.procs s'.procs)
    (hback : ∀ x ∈ s'.procs, Fits tree codes s.procs x) {more : List (Line ν)}
    (hout : s'.out = s.out ++ more) (hmore : ∀ line ∈ more, line.Right s.procs) :
    Told tree codes s' := by
  refine ⟨fun x hx => (hback x hx).keep hkeep, fun line hm => ?_⟩
  rw [hout] at hm
  rcases List.mem_append.mp hm with hm | hm
  · exact (h.lines line hm).keep hkeep
  · exact (hmore line hm).keep hkeep

theorem Told.set (h : Told tree codes s) {k : ℕ} {q : Proc ν} (hq : Fits tree codes s.procs q) :
    ∀ x ∈ s.procs.set k q, Fits tree codes s.procs x := by
  intro x hx
  rcases List.mem_or_eq_of_mem_set hx with hx | rfl
  · exact h.procs x hx
  · exact hq

/-- A process that fits goes on with a program that has its name, after printing. -/
theorem Fits.goOn {p : Proc ν} (h : Fits tree codes l p) {rest : Prog ν}
    (hp : p.status = none) (hrest : rest.Named tree codes p.name) {buf : List (Line ν)}
    (hbuf : ∀ line ∈ buf, line.Right l) : Fits tree codes l { p with prog := rest, buf := buf } :=
  ⟨fun _ => hrest, fun _ hc => (nomatch hp.symm.trans hc), h.parent, hbuf⟩

theorem Told.said (h : Told tree codes s) {k : ℕ} {p : Proc ν} {rest : Prog ν}
    {lines : List (Line ν)} (hk : s.procs[k]? = some p) (hp : p.status = none)
    (hrest : rest.Named tree codes p.name) (hlines : ∀ line ∈ lines, line.Right s.procs) :
    Fits tree codes s.procs { p with prog := rest, buf := p.buf ++ if lb then [] else lines } := by
  have hfit := h.procs p (List.mem_of_getElem? hk)
  refine hfit.goOn hp hrest fun line hm => ?_
  rcases List.mem_append.mp hm with hm | hm
  · exact hfit.lines line hm
  · cases lb
    · exact hlines line hm
    · cases hm

/-- A process prints some lines, all right, and goes on. -/
theorem Told.say (h : Told tree codes s) {k : ℕ} {p : Proc ν} {rest : Prog ν}
    {lines : List (Line ν)} (hk : s.procs[k]? = some p) (hp : p.status = none)
    (hrest : rest.Named tree codes p.name) (hlines : ∀ line ∈ lines, line.Right s.procs) :
    Told tree codes (s.say lb k p rest lines) := by
  refine h.keep (keeps_set hk ⟨rfl, rfl, fun _ h => h, id⟩) (h.set (h.said hk hp hrest hlines)) rfl
    fun line hm => ?_
  cases lb
  · cases hm
  · exact hlines line hm

theorem told_step {a : Label} (hI : Inv s.procs) (h : Told tree codes s)
    (hst : Step lb s a s') : Told tree codes s' := by
  have hnil : ∀ line ∈ ([] : List (Line ν)), line.Right s.procs :=
    fun _ hm => absurd hm List.not_mem_nil
  have hn : ∀ {k : ℕ} {p : Proc ν} {prog : Prog ν}, s.procs[k]? = some p → p.status = none →
      p.prog = prog → Fits tree codes s.procs p ∧ prog.Named tree codes p.name :=
    fun hk hp hprog => ⟨h.procs _ (List.mem_of_getElem? hk),
      hprog ▸ (h.procs _ (List.mem_of_getElem? hk)).named hp⟩
  have hkeep := keeps_step hst
  cases hst with
  | @print k p name rest hk hp hprog =>
    obtain ⟨-, hname, hrest⟩ := hn hk hp hprog
    refine h.say hk hp hrest fun line hm => ?_
    rw [List.mem_singleton.mp hm]
    exact ⟨p, hk, hname.symm, (ppid_eq hI hk hp).symm⟩
  | @fork k p who child rest failed hk hp hprog =>
    obtain ⟨hfit, htree, hchild, hrest, -⟩ := hn hk hp hprog
    refine h.keep hkeep (fun x hx => ?_) (List.append_nil _).symm hnil
    rcases List.mem_append.mp hx with hx | hx
    · exact h.set (hfit.goOn hp hrest hfit.lines) x hx
    · rw [List.mem_singleton.mp hx]
      exact ⟨fun _ => hchild, nofun, .inr ⟨k, p, rfl, hk, htree⟩, hfit.lines⟩
  | @forkFails k p who child rest failed hk hp hprog =>
    obtain ⟨hfit, -, -, -, hfailed⟩ := hn hk hp hprog
    exact h.keep hkeep (h.set (hfit.goOn hp hfailed hfit.lines)) (List.append_nil _).symm hnil
  | @wait k j code p c tell rest hk hp hprog hj hpar hc hre =>
    obtain ⟨-, htell, hrest⟩ := hn hk hp hprog
    have hfit := h.procs c (List.mem_of_getElem? hj)
    have hreap : Fits tree codes s.procs { c with reaped := true } :=
      ⟨hfit.named, hfit.coded, hfit.parent, hfit.lines⟩
    -- the child is marked before the line is printed that tells of it
    have hmarked : Told tree codes { s with procs := s.procs.set j { c with reaped := true } } :=
      h.keep (keeps_set hj ⟨rfl, rfl, fun _ h => h, fun _ => rfl⟩) (h.set hreap)
        (List.append_nil _).symm hnil
    have hk' := getElem?_reaped hk hp hj hc
    refine hmarked.say hk' hp hrest fun line hm => ?_
    rcases tell with _ | name
    · cases hm
    · rw [List.mem_singleton.mp hm]
      exact ⟨_, k, p, List.getElem?_set_self (List.getElem?_eq_some_iff.mp hj).1, hpar, hk',
        (htell name rfl).symm, hc, rfl⟩
  | @waitNone k p tell rest hk hp hprog hall =>
    obtain ⟨hfit, -, hrest⟩ := hn hk hp hprog
    exact h.keep hkeep (h.set (hfit.goOn hp hrest hfit.lines)) (List.append_nil _).symm hnil
  | @exit k code p hk hp hprog =>
    obtain ⟨hfit, hcode⟩ := hn hk hp hprog
    refine h.keep hkeep (h.set ⟨fun hx => (nomatch hx), ?_, hfit.parent, hnil⟩) rfl hfit.lines
    rintro _ ⟨⟩
    exact hcode

/-- Every line of a run is right, and every process's parent is the one the tree names. -/
theorem told_run (hroot : root.Joins 0) (hnamed : root.Named tree codes m) (htree : tree m = none)
    (h : (lts lb m root).Run tr s) : Told tree codes s := by
  have hall : Inv s.procs ∧ Told tree codes s := by
    refine h.inv (I := fun s => Inv s.procs ∧ Told tree codes s) ?_ fun s a s' hI hst =>
      ⟨inv_step hI.1 hst, told_step hI.1 hI.2 hst⟩
    rintro s rfl
    have hinit : (lts lb m root).Run [] _ := ⟨_, rfl, .nil _⟩
    refine ⟨inv_run hroot hinit, fun p hp => ?_, fun line hm => absurd hm List.not_mem_nil⟩
    rw [List.mem_singleton.mp hp]
    exact ⟨fun _ => hnamed, nofun, .inl ⟨rfl, htree⟩, nofun⟩
  exact hall.2

end Lines

section End

variable {lb : Bool} {s s' : System ν} {root : Prog ν} {tr : List (System ν × Label)} {m : ν}
  {l : List (Proc ν)} {k : ℕ} {p : Proc ν}

/-- What a process and its children can still do. -/
def Proc.work (p : Proc ν) : ℕ := if p.status = none then p.prog.size else 0

def work (l : List (Proc ν)) : ℕ := (l.map Proc.work).sum

theorem work_set {q : Proc ν} (hk : l[k]? = some p) :
    work (l.set k q) + p.work = work l + q.work :=
  sum_map_set Proc.work hk

/-- A running process goes on with another program. -/
theorem work_goOn {q : Proc ν} {rest : Prog ν} (hk : l[k]? = some p) (hp : p.status = none)
    (hq : q.status = none) (hrest : q.prog = rest) :
    work (l.set k q) + p.prog.size = work l + rest.size := by
  have h := work_set (q := q) hk
  have hw : p.work = p.prog.size := if_pos hp
  have hw' : q.work = rest.size := (if_pos hq).trans (by rw [hrest])
  rw [hw, hw'] at h
  exact h

theorem work_step {a : Label} (hst : Step lb s a s') : work s'.procs < work s.procs := by
  cases hst with
  | @print k p name rest hk hp hprog =>
    have h := work_goOn (q := { p with prog := rest, buf := p.buf ++
      if lb then [] else [Line.info name k (s.ppid p)] }) hk hp hp (show _ = rest from rfl)
    have hsize : p.prog.size = rest.size + 1 := by rw [hprog, Prog.size]
    show work (s.procs.set k _) < _
    omega
  | @fork k p who child rest failed hk hp hprog =>
    have h := work_goOn (q := { p with prog := rest }) hk hp hp (show _ = rest from rfl)
    have hpos := failed.size_pos
    have hsize : p.prog.size = child.size + rest.size + failed.size + 1 := by
      rw [hprog, Prog.size]
    have hnew : Proc.work ⟨who, child, some k, none, false, p.buf⟩ = child.size := if_pos rfl
    have happ : work (s.procs.set k { p with prog := rest }
        ++ [⟨who, child, some k, none, false, p.buf⟩])
          = work (s.procs.set k { p with prog := rest }) + child.size := by
      rw [work, List.map_append, List.sum_append, List.map_singleton, List.sum_singleton, hnew,
        work]
    show work (s.procs.set k _ ++ [_]) < _
    omega
  | @forkFails k p who child rest failed hk hp hprog =>
    have h := work_goOn (q := { p with prog := failed }) hk hp hp (show _ = failed from rfl)
    have hsize : p.prog.size = child.size + rest.size + failed.size + 1 := by
      rw [hprog, Prog.size]
    show work (s.procs.set k _) < _
    omega
  | @wait k j code p c tell rest hk hp hprog hj hpar hc hre =>
    have h := work_set (q := { c with reaped := true }) hj
    have hw : ({ c with reaped := true } : Proc ν).work = c.work := rfl
    have h' := work_goOn (l := s.procs.set j { c with reaped := true }) (q := { p with
      prog := rest
      buf := p.buf ++ if lb then [] else (tell.map fun name => Line.exited name j code).toList })
      (getElem?_reaped hk hp hj hc) hp hp (show _ = rest from rfl)
    have hsize : p.prog.size = rest.size + 1 := by rw [hprog, Prog.size]
    show work ((s.procs.set j _).set k _) < _
    omega
  | @waitNone k p tell rest hk hp hprog hall =>
    have h := work_goOn (q := { p with prog := rest }) hk hp hp (show _ = rest from rfl)
    have hsize : p.prog.size = rest.size + 1 := by rw [hprog, Prog.size]
    show work (s.procs.set k _) < _
    omega
  | @exit k code p hk hp hprog =>
    have h := work_set (q := { p with status := some code, buf := [] }) hk
    have hw : p.work = p.prog.size := if_pos hp
    have hw' : ({ p with status := some code, buf := [] } : Proc ν).work = 0 := if_neg (by simp)
    have hpos := p.prog.size_pos
    show work (s.procs.set k _) < _
    omega

/-- A process has something to do unless it waits for a child that still runs. -/
theorem step_of_running (hI : Inv s.procs) (hrun : ∃ p ∈ s.procs, p.status = none) :
    ∃ a s', Step lb s a s' := by
  obtain ⟨k, p, hk, hp, hlast⟩ := exists_last hrun
  rcases hprog : p.prog with code | ⟨name, rest⟩ | ⟨who, child, rest, failed⟩ | ⟨tell, rest⟩
  · exact ⟨_, _, .exit hk hp hprog⟩
  · exact ⟨_, _, .print hk hp hprog⟩
  · exact ⟨_, _, .fork hk hp hprog⟩
  · -- the youngest process that runs has no child that runs
    by_cases hall : ∀ c ∈ s.procs, c.parent = some k → c.reaped = true
    · exact ⟨_, _, .waitNone hk hp hprog hall⟩
    · simp only [not_forall] at hall
      obtain ⟨c, hc, hpar, hre⟩ := hall
      obtain ⟨j, hj⟩ := List.mem_iff_getElem?.mp hc
      rcases hstatus : c.status with _ | code
      · exact absurd hstatus (hlast j c (hI.older j k c hj hpar) hj)
      · exact ⟨_, _, .wait hk hp hprog hj hpar hstatus (by simpa using hre)⟩

/-- Every process has exited, and every child was waited for. -/
def System.Over (s : System ν) : Prop :=
  ∀ p ∈ s.procs, p.status ≠ none ∧ (p.parent ≠ none → p.reaped = true)

/-- In the end every process has exited and every child was waited for. -/
theorem ends (hroot : root.Joins 0) (h : (lts lb m root).Run tr s) :
    (lts lb m root).Inevitably System.Over s := by
  refine Inevitably.of_measure (I := fun s => Inv s.procs) (fun s => work s.procs)
    (fun s hI hno => ?_) (fun s a s' hI _ hst => .inr ⟨inv_step hI hst, work_step hst⟩)
    (inv_run hroot h)
  refine step_of_running hI ?_
  by_contra hnone
  have hdone : ∀ p ∈ s.procs, p.status ≠ none := fun p hp hst => hnone ⟨p, hp, hst⟩
  refine hno fun p hp => ⟨hdone p hp, fun hpar => ?_⟩
  obtain ⟨k, hk⟩ := Option.ne_none_iff_exists'.mp hpar
  obtain ⟨j, hj⟩ := List.mem_iff_getElem?.mp hp
  by_contra hre
  obtain ⟨q, hq, hst⟩ := parent_runs hI hj (by simpa using hre) hk
  exact hdone q (List.mem_of_getElem? hq) hst

variable {tree : ν → Option ν} {codes : ν → ℕ → Prop}

/-- And then all that was printed is right, and every exit code goes with the name. -/
theorem ends_told (hroot : root.Joins 0) (hnamed : root.Named tree codes m) (htree : tree m = none)
    (h : (lts lb m root).Run tr s) :
    (lts lb m root).Inevitably (fun s => s.Over ∧ Told tree codes s) s := by
  refine (ends hroot h).bind (I := fun s => Inv s.procs ∧ Told tree codes s) (fun s a t hI hst =>
    ⟨inv_step hI.1 hst, told_step hI.1 hI.2 hst⟩) (fun s hI hover => .now ⟨hover, hI.2⟩) ?_
  exact ⟨inv_run hroot h, told_run hroot hnamed htree h⟩

end End

section Count

variable [DecidableEq ν] {lb : Bool} {s s' : System ν} {root : Prog ν}
  {tr : List (System ν × Label)} {m : ν} {k : ℕ} {p : Proc ν}

/-- Whether a line is a name's. -/
def Line.of (name : ν) : Line ν → Bool
  | .info n _ _ => n == name
  | .exited _ _ _ => false

/-- How often the programs of a process and of its children write a name where no `fork` fails,
with the name so often in the buffer. -/
def Prog.due (lb : Bool) (name : ν) : ℕ → Prog ν → ℕ
  | b, .exit _ => b
  | b, .print n rest => if lb then due lb name b rest + (if n = name then 1 else 0)
    else due lb name (b + if n = name then 1 else 0) rest
  | b, .fork _ child rest _ => due lb name b child + due lb name b rest
  | b, .wait _ rest => due lb name b rest

/-- How often a process and its children will still write a name. -/
def Proc.due (lb : Bool) (name : ν) (p : Proc ν) : ℕ :=
  if p.status = none then p.prog.due lb name (p.buf.countP (Line.of name)) else 0

/-- How often a name was written or still will be. -/
def System.total (lb : Bool) (name : ν) (s : System ν) : ℕ :=
  s.out.countP (Line.of name) + (s.procs.map (Proc.due lb name)).sum

theorem due_set (lb : Bool) {l : List (Proc ν)} {q : Proc ν} (hk : l[k]? = some p) (name : ν) :
    ((l.set k q).map (Proc.due lb name)).sum + p.due lb name
      = (l.map (Proc.due lb name)).sum + q.due lb name :=
  sum_map_set (Proc.due lb name) hk

/-- A process that prints a line has as much less to write as it wrote. -/
theorem due_print (lb : Bool) (name n : ν) (k : ℕ) (ppid : Option ℕ) (hp : p.status = none)
    {rest : Prog ν}
    (hprog : p.prog = .print n rest) :
    p.due lb name = (if lb then [Line.info n k ppid] else []).countP (Line.of name)
      + Proc.due lb name
        { p with prog := rest, buf := p.buf ++ if lb then [] else [Line.info n k ppid] } := by
  cases lb <;> by_cases hn : n = name <;> simp [Proc.due, Prog.due, Line.of, hp, hprog, hn]
  omega

/-- A step without a failed `fork` writes what then is no longer to be written. -/
theorem total_step {a : Label} (hst : Step lb s a s') (ha : ∀ k, a ≠ .fails k) (name : ν) :
    s'.total lb name = s.total lb name := by
  unfold System.total
  cases hst with
  | @print k p n rest hk hp hprog =>
    have h := due_set lb (q := { p with prog := rest, buf := p.buf ++
      if lb then [] else [Line.info n k (s.ppid p)] }) hk name
    have hd := due_print lb name n k (s.ppid p) hp hprog
    show (s.out ++ if lb then [Line.info n k (s.ppid p)] else []).countP _
      + ((s.procs.set k _).map (Proc.due lb name)).sum = _
    rw [List.countP_append]
    omega
  | @fork k p who child rest failed hk hp hprog =>
    have h := due_set lb (q := { p with prog := rest }) hk name
    have hd : p.due lb name = Proc.due lb name ⟨who, child, some k, none, false, p.buf⟩
        + Proc.due lb name { p with prog := rest } := by
      simp [Proc.due, hp, hprog, Prog.due]
    show s.out.countP _ + ((s.procs.set k _ ++ [_]).map (Proc.due lb name)).sum = _
    rw [List.map_append, List.sum_append, List.map_singleton, List.sum_singleton]
    omega
  | forkFails => exact absurd rfl (ha _)
  | @wait k j code p c tell rest hk hp hprog hj hpar hc hre =>
    have h := due_set lb (q := { c with reaped := true }) hj name
    have hw : ({ c with reaped := true } : Proc ν).due lb name = c.due lb name := rfl
    have hnone : ∀ b : Bool, (if b then (tell.map fun n => Line.exited n j code).toList
        else []).countP (Line.of name) = 0 := by
      intro b
      cases b <;> cases tell <;> rfl
    have hbuf : (p.buf ++ if lb then [] else (tell.map fun n => Line.exited n j code).toList).countP
        (Line.of name) = p.buf.countP (Line.of name) := by
      have := hnone (!lb)
      rw [List.countP_append]
      cases lb <;> simp_all
    have h' := @due_set _ _ k p lb (s.procs.set j { c with reaped := true }) { p with
      prog := rest
      buf := p.buf ++ if lb then [] else (tell.map fun n => Line.exited n j code).toList }
      (getElem?_reaped hk hp hj hc) name
    have hd : p.due lb name = Proc.due lb name { p with
        prog := rest
        buf := p.buf ++ if lb then [] else (tell.map fun n => Line.exited n j code).toList } := by
      simp only [Proc.due, hp, hprog, Prog.due, hbuf]
    show (s.out ++ if lb then (tell.map fun n => Line.exited n j code).toList else []).countP _
      + (((s.procs.set j { c with reaped := true }).set k _).map (Proc.due lb name)).sum = _
    rw [List.countP_append, hnone]
    omega
  | @waitNone k p tell rest hk hp hprog hall =>
    have h := due_set lb (q := { p with prog := rest }) hk name
    have hd : p.due lb name = Proc.due lb name { p with prog := rest } := by
      simp only [Proc.due, hp, hprog, Prog.due]
    show s.out.countP _ + ((s.procs.set k _).map (Proc.due lb name)).sum = _
    omega
  | @exit k code p hk hp hprog =>
    have h := due_set lb (q := { p with status := some code, buf := [] }) hk name
    have hd : p.due lb name = p.buf.countP (Line.of name) := by
      simp only [Proc.due, hp, hprog, Prog.due, if_true]
    have hd' : Proc.due lb name { p with status := some code, buf := [] } = 0 := if_neg (by simp)
    show (s.out ++ p.buf).countP _ + ((s.procs.set k _).map (Proc.due lb name)).sum = _
    rw [List.countP_append]
    omega

/-- Where no `fork` failed, a run that is over has written every name as often as the program
does. -/
theorem printed (h : (lts lb m root).Run tr s) (hfork : ∀ p ∈ tr, ∀ k, p.2 ≠ .fails k)
    (hover : s.Over) (name : ν) : s.out.countP (Line.of name) = root.due lb name 0 := by
  have hall := h.inv_when (I := fun s => s.total lb name = root.due lb name 0)
    (C := fun _ a => ∀ k, a ≠ .fails k) ?_
    (fun s a s' hI hC hst => (total_step hst hC name).trans hI) hfork
  · have hzero : (s.procs.map (Proc.due lb name)).sum = 0 := by
      refine List.sum_eq_zero_iff_forall_eq_nat.mpr fun n hn => ?_
      obtain ⟨p, hp, rfl⟩ := List.mem_map.mp hn
      exact if_neg (hover p hp).1
    unfold System.total at hall
    omega
  · rintro s rfl
    simp [System.total, Proc.due]

end Count

end ForkJoin
