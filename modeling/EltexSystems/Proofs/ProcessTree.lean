import EltexSystems.ProcessTree

/-!
# What the process trees print

Whatever the order of the processes and whichever `fork` fails, every line `processes/task2.c`
writes names the process that printed it and the one that created that process, and in the end every
process has exited and was waited for (`task2_tree`).  Where no `fork` fails, each name is written
once to a terminal, and `Process1` three times and `Process2` twice to a file (`task2_printed`).
The status `processes/task1.c` reports is its own child's 42 (`task1_status`).
-/

namespace EltexSystems

open ForkJoin Lts

variable {lb : Bool}

/-- The codes the processes of `processes/task1.c` exit with. -/
def Task1.codes : Task1Name → ℕ → Prop
  | .parent, code => code = 0 ∨ code = 1
  | .child, code => code = 42

def Task1.creator : Task1Name → Option Task1Name
  | .parent => none
  | .child => some .parent

theorem task1_joins : Task1.main.Joins 0 := by
  simp [Task1.main, Prog.Joins]

theorem task1_named : Task1.main.Named Task1.creator Task1.codes .parent := by
  simp [Task1.main, Prog.Named, Task1.codes, Task1.creator]

theorem task2_joins : Task2.main.Joins 0 := by
  simp [Task2.main, Task2.process1, Task2.process2, Task2.forked, Task2.printInfo, Task2.leaf,
    Prog.Joins]

theorem task2_named : Task2.main.Named Task2.creator (fun _ code => code = 0) .parent := by
  simp [Task2.main, Task2.process1, Task2.process2, Task2.forked, Task2.printInfo, Task2.leaf,
    Prog.Named, Task2.creator]

theorem task2_due (name : Task2Name) : Task2.main.due lb name 0 = Task2.copies lb name := by
  cases lb <;> cases name <;> rfl

/-- A status that is written is 42, that of a child for which the process that writes it has waited;
and in the end both processes have exited, the child waited for. -/
theorem task1_status {s : System Task1Name} {tr : List (System Task1Name × Label)}
    (h : (ForkJoin.lts lb .parent Task1.main).Run tr s) :
    (∀ name j code, .exited name j code ∈ s.out → name = .parent ∧ code = 42 ∧
      ∃ c k p, s.procs[j]? = some c ∧ c.name = .child ∧ c.status = some code ∧
        c.reaped = true ∧ c.parent = some k ∧ s.procs[k]? = some p ∧ p.name = .parent) ∧
    (ForkJoin.lts lb .parent Task1.main).Inevitably (fun t => t.Over ∧
      ∀ p ∈ t.procs, ∃ code, p.status = some code ∧ Task1.codes p.name code) s := by
  refine ⟨fun name j code hm => ?_, (ends_told task1_joins task1_named rfl h).mono ?_⟩
  · have htold := told_run task1_joins task1_named rfl h
    obtain ⟨c, k, p, hc, hpar, hp, rfl, hcode, hre⟩ := htold.lines _ hm
    have hfit := htold.procs c (List.mem_of_getElem? hc)
    rcases hfit.parent with ⟨hnone, -⟩ | ⟨k', q, hq, hk', htree⟩
    · exact nomatch hnone.symm.trans hpar
    · cases hpar.symm.trans hq
      cases hp.symm.trans hk'
      have hcoded := hfit.coded code hcode
      rcases hname : c.name with _ | _ <;> rw [hname] at htree hcoded
      · cases htree
      · have hparent : p.name = .parent := (Option.some.inj htree).symm
        exact ⟨hparent, hcoded, c, k, p, hc, hname, hcode, hre, hpar, hp, hparent⟩
  · rintro t ⟨hover, htold⟩
    refine ⟨hover, fun p hp => ?_⟩
    obtain ⟨code, hcode⟩ := Option.ne_none_iff_exists'.mp (hover p hp).1
    exact ⟨code, hcode, (htold.procs p hp).coded code hcode⟩

/-- The parent, its child and the wait. -/
def task1Labels : List Label := [.run 0, .run 1, .run 0, .run 1, .reaps 0 1]

theorem task1_status_waited : ∃ s tr, (ForkJoin.lts true .parent Task1.main).Run tr s ∧
    .exited .parent 1 42 ∈ s.out ∧ ∃ c k p, s.procs[1]? = some c ∧ c.name = .child ∧
      c.status = some 42 ∧ c.reaped = true ∧ c.parent = some k ∧ s.procs[k]? = some p ∧
      p.name = .parent := by
  have hex : (exec (next true) ⟨[⟨.parent, Task1.main, none, none, false, []⟩], []⟩
    task1Labels).isSome = true := by decide
  have hrun : (ForkJoin.lts true .parent Task1.main).Run _ _ :=
    ⟨_, rfl, exec_path (fun _ _ _ => next_step) (Option.some_get hex).symm⟩
  have hout : .exited .parent 1 42 ∈ ((exec (next true)
      ⟨[⟨.parent, Task1.main, none, none, false, []⟩], []⟩ task1Labels).get hex).out :=
    .tail _ (.tail _ (.head _))
  exact ⟨_, _, hrun, hout, ((task1_status hrun).1 _ _ _ hout).2.2⟩

/-- A line names the process that printed it and, but for the root, the process that created that
one, by their numbers; and in the end every process has exited with 0 and was waited for. -/
theorem task2_tree {s : System Task2Name} {tr : List (System Task2Name × Label)}
    (h : (ForkJoin.lts lb .parent Task2.main).Run tr s) :
    (∀ name k ppid, .info name k ppid ∈ s.out → ∃ p, s.procs[k]? = some p ∧ p.name = name ∧
      ((name = .parent ∧ ppid = none) ∨ ∃ j q, ppid = some j ∧ s.procs[j]? = some q ∧
        Task2.creator name = some q.name)) ∧
    (ForkJoin.lts lb .parent Task2.main).Inevitably
      (fun t => t.Over ∧ ∀ p ∈ t.procs, p.status = some 0) s := by
  refine ⟨fun name k ppid hm => ?_, (ends_told task2_joins task2_named rfl h).mono ?_⟩
  · have htold := told_run task2_joins task2_named rfl h
    obtain ⟨p, hp, rfl, rfl⟩ := htold.lines _ hm
    refine ⟨p, hp, rfl, (htold.procs p (List.mem_of_getElem? hp)).parent.imp_left ?_⟩
    rintro ⟨hnone, htree⟩
    refine ⟨?_, hnone⟩
    cases hname : p.name <;> first | rfl | (rw [hname] at htree; cases htree)
  · rintro t ⟨hover, htold⟩
    refine ⟨hover, fun p hp => ?_⟩
    obtain ⟨code, hcode⟩ := Option.ne_none_iff_exists'.mp (hover p hp).1
    rw [hcode, (htold.procs p hp).coded code hcode]

theorem task2_tree_first : ∃ s, (ForkJoin.lts true .parent Task2.main).Run [] s ∧
    (ForkJoin.lts true .parent Task2.main).Inevitably
      (fun t => t.Over ∧ ∀ p ∈ t.procs, p.status = some 0) s :=
  have hrun : (ForkJoin.lts true .parent Task2.main).Run [] _ := ⟨_, rfl, .nil _⟩
  ⟨_, hrun, (task2_tree hrun).2⟩

/-- Where no `fork` failed, the end of a run has every name written as often as `Task2.copies`
says: once to a terminal. -/
theorem task2_printed {s : System Task2Name} {tr : List (System Task2Name × Label)}
    (h : (ForkJoin.lts lb .parent Task2.main).Run tr s)
    (hfork : ∀ p ∈ tr, ∀ k, p.2 ≠ .fails k) (hover : s.Over) (name : Task2Name) :
    s.out.countP (Line.of name) = Task2.copies lb name :=
  (printed h hfork hover name).trans (task2_due name)

/-- The processes one after another, the lines going to a file. -/
def task2Labels : List Label :=
  [.run 0, .run 0, .run 0, .run 1, .run 1, .run 1, .run 3, .run 3, .run 4, .run 4, .reaps 1 3,
    .reaps 1 4, .run 1, .run 2, .run 2, .run 5, .run 5, .reaps 2 5, .run 2, .reaps 0 1,
    .reaps 0 2, .run 0]

def task2End : Option (System Task2Name) :=
  exec (next false) ⟨[⟨.parent, Task2.main, none, none, false, []⟩], []⟩ task2Labels

theorem task2End_isSome : task2End.isSome = true := by decide +kernel

theorem task2End_over : System.Over (task2End.get task2End_isSome) := by
  unfold System.Over
  decide +kernel

theorem task2_printed_file : ∃ s tr, (ForkJoin.lts false .parent Task2.main).Run tr s ∧ s.Over ∧
    s.out.countP (Line.of .process1) = 3 := by
  have hpath := exec_path (T := ForkJoin.lts false .parent Task2.main)
    (fun _ _ _ => next_step) (Option.some_get task2End_isSome).symm
  have hfork : ∀ l ∈ task2Labels, ∀ k, l ≠ .fails k := by simp [task2Labels]
  exact ⟨_, _, ⟨_, rfl, hpath⟩, task2End_over, task2_printed ⟨_, rfl, hpath⟩
    (fun p hp => hfork p.2 (mem_trace hp)) task2End_over .process1⟩

end EltexSystems
