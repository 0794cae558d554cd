import EltexSystems.Pipeline

/-!
# The ends of the pipeline

The second command reads what the first wrote, in order, and sees the end of the file behind it: the
shell and the second command have closed their write ends, so that the pipe is open for writing only
while the first command lives (`pipeline_plumbed`).  Every step before that is one of the shell or
of a child that is set up, so the shell comes back to its prompt or a command runs, whichever `fork`
or `execvp` fails (`pipeline_returns`).
-/

namespace EltexSystems.Pipeline

open Lts

/-- What holds of a child where it is. -/
def Cmd.Ok (c : Cmd) : Prop :=
  match c.pc with
  | .unborn => c.read = false ∧ c.write = false ∧ c.std = false ∧ c.reaped = false
  | .dup => c.write = true ∧ c.std = false ∧ c.reaped = false
  | .close0 => c.write = true ∧ c.std = true ∧ c.reaped = false
  | .close1 => c.read = false ∧ c.write = true ∧ c.std = true ∧ c.reaped = false
  | .exec => c.read = false ∧ c.write = false ∧ c.std = true ∧ c.reaped = false
  | .runs => c.read = false ∧ c.write = false ∧ c.reaped = false
  | .exited => c.read = false ∧ c.write = false ∧ c.std = false

/-- What holds where the shell is. -/
def ShellOk (s : State) : Prop :=
  match s.shell with
  | .pipe => s.eof = false ∧ ∀ i, (s.cmds i).pc = .unborn
  | .fork .first => s.write = true ∧ ∀ i, (s.cmds i).pc = .unborn
  | .fork .second => s.write = true ∧ (s.cmds .second).pc = .unborn
  | .close0 => s.write = true
  | .close1 => s.read = false ∧ s.write = true
  | .wait1 => s.read = false ∧ s.write = false
  | .wait2 => s.read = false ∧ s.write = false ∧ ∃ i, (s.cmds i).Done
  | .prompt => s.read = false ∧ s.write = false ∧ ∀ i, (s.cmds i).Done

structure Inv (s : State) : Prop where
  data : s.pipe.Wf
  cmds : ∀ i, (s.cmds i).Ok
  shell : ShellOk s
  eof : s.eof = true → ¬ s.Writers ∧ s.pipe.buf = []

variable {s s' : State} {i : Side} {c : Cmd}

theorem cmd_ok (h : Inv s) {pc : CmdPc} (hpc : (s.cmds i).pc = pc) :
    Cmd.Ok { s.cmds i with pc := pc } := by
  have hc := h.cmds i
  rwa [show s.cmds i = { s.cmds i with pc := pc } by rw [← hpc]] at hc

theorem shell_ok (h : Inv s) {pc : ShellPc} (hpc : s.shell = pc) :
    ShellOk { s with shell := pc } := by
  have hs := h.shell
  rwa [show s = { s with shell := pc } by rw [← hpc]] at hs

theorem shellOk_of {pc : ShellPc} (hpc : s.shell = pc) (h : ShellOk { s with shell := pc }) :
    ShellOk s := by
  rwa [show s = { s with shell := pc } by rw [← hpc]]

theorem set_self : (s.set i c).cmds i = c := Function.update_self ..

theorem set_other {j : Side} (h : j ≠ i) : (s.set i c).cmds j = s.cmds j :=
  Function.update_of_ne h ..

/-- A child has fewer of the descriptors that are ends for writing. -/
theorem writers_set (hw : c.write = true → (s.cmds i).write = true)
    (hstd : i = .first → c.std = true → (s.cmds i).std = true ∨ (s.cmds i).write = true)
    (h : (s.set i c).Writers) : s.Writers := by
  rcases h with h | ⟨j, hj⟩ | h
  · exact .inl h
  · rcases eq_or_ne j i with rfl | hne
    · rw [set_self] at hj
      exact .inr (.inl ⟨j, hw hj⟩)
    · rw [set_other hne] at hj
      exact .inr (.inl ⟨j, hj⟩)
  · rcases eq_or_ne Side.first i with rfl | hne
    · rw [set_self] at h
      rcases hstd rfl h with h | h
      · exact .inr (.inr h)
      · exact .inr (.inl ⟨_, h⟩)
    · rw [set_other hne] at h
      exact .inr (.inr h)

/-- A child goes on. -/
theorem Inv.child (h : Inv s) (hborn : (s.cmds i).pc ≠ .unborn) (hc : c.Ok)
    (hdone : (s.cmds i).reaped = true → c.reaped = true)
    (hw : c.write = true → (s.cmds i).write = true)
    (hstd : i = .first → c.std = true → (s.cmds i).std = true ∨ (s.cmds i).write = true) :
    Inv (s.set i c) := by
  have hkept : ∀ j, (s.cmds j).Done → ((s.set i c).cmds j).Done := by
    intro j hj
    rcases eq_or_ne j i with rfl | hne
    · rw [set_self]
      exact .inr (hdone (hj.resolve_left hborn))
    · rwa [set_other hne]
  refine ⟨h.data, fun j => ?_, ?_, fun he => ⟨fun hwr => (h.eof he).1 ?_, (h.eof he).2⟩⟩
  · rcases eq_or_ne j i with rfl | hne
    · rwa [set_self]
    · rw [set_other hne]
      exact h.cmds j
  · rcases hpc : s.shell with _ | ⟨_ | _⟩ | _ | _ | _ | _ | _ <;> have hs := shell_ok h hpc <;>
      refine shellOk_of (s := s.set i c) hpc ?_
    · exact absurd (hs.2 i) hborn
    · exact absurd (hs.2 i) hborn
    · have hne : Side.second ≠ i := by
        rintro rfl
        exact hborn hs.2
      exact ⟨hs.1, (congrArg Cmd.pc (set_other hne)).trans hs.2⟩
    · exact hs
    · exact hs
    · exact hs
    · obtain ⟨hr, hw, j, hj⟩ := hs
      exact ⟨hr, hw, j, hkept j hj⟩
    · exact ⟨hs.1, hs.2.1, fun j => hkept j (hs.2.2 j)⟩
  · exact writers_set hw hstd hwr

/-- A child that exits gives up what it holds. -/
theorem Inv.gone (h : Inv s) (hborn : (s.cmds i).pc ≠ .unborn) : Inv (s.gone i) :=
  h.child hborn ⟨rfl, rfl, rfl⟩ id nofun nofun

/-- The shell goes on, without a write end that it did not hold. -/
theorem Inv.shell_step (h : Inv s) {shell : ShellPc} {read write : Bool}
    (hw : write = true → s.write = true)
    (hs : ShellOk { s with shell := shell, read := read, write := write }) :
    Inv { s with shell := shell, read := read, write := write } := by
  refine ⟨h.data, h.cmds, hs, fun he => ⟨fun hwr => (h.eof he).1 ?_, (h.eof he).2⟩⟩
  exact hwr.imp_left hw

theorem inv_fork (h : Inv s) (hpc : s.shell = .fork i) :
    Inv { s.set i ⟨.dup, s.read, s.write, false, false⟩ with shell := afterFork i } := by
  have hwrite : s.write = true ∧ (s.cmds .second).pc = .unborn := by
    cases i
    · have hs := shell_ok h hpc
      exact ⟨hs.1, hs.2 .second⟩
    · exact shell_ok h hpc
  have hnot : s.eof = false := by
    by_contra he
    exact (h.eof (by simpa using he)).1 (.inl hwrite.1)
  refine ⟨h.data, fun j => ?_, ?_, fun he => nomatch hnot.symm.trans he⟩
  · rcases eq_or_ne j i with rfl | hne
    · show Cmd.Ok ((s.set j _).cmds j)
      rw [set_self]
      exact ⟨hwrite.1, rfl, rfl⟩
    · show Cmd.Ok ((s.set i _).cmds j)
      rw [set_other hne]
      exact h.cmds j
  · cases i
    · exact ⟨hwrite.1, hwrite.2⟩
    · exact hwrite.1

/-- A child that has exited is waited for. -/
theorem inv_wait (h : Inv s) (hw : Waits s.shell) (hex : (s.cmds i).pc = .exited)
    (hre : (s.cmds i).reaped = false) :
    Inv { s.set i { s.cmds i with reaped := true } with shell := afterWait s.shell } := by
  have hmid : Inv (s.set i { s.cmds i with reaped := true }) := by
    refine h.child (by rw [hex]; nofun) ?_ (fun _ => rfl) id fun _ => .inl
    have hc := cmd_ok h hex
    show Cmd.Ok { s.cmds i with reaped := true }
    unfold Cmd.Ok
    simp only [hex]
    exact hc
  have hdone : ((s.set i { s.cmds i with reaped := true }).cmds i).Done := by
    rw [set_self]
    exact .inr rfl
  refine hmid.shell_step id ?_
  rcases hw with hpc | hpc
  · have hs := shell_ok h hpc
    rw [hpc]
    exact ⟨hs.1, hs.2, i, hdone⟩
  · -- the other child was waited for before
    obtain ⟨hr, hwr, j, hj⟩ := shell_ok h hpc
    rw [hpc]
    have hji : j ≠ i := by
      rintro rfl
      rcases hj with hj | hj
      · exact nomatch hex.symm.trans hj
      · exact nomatch hre.symm.trans hj
    refine ⟨hr, hwr, fun k => ?_⟩
    rcases eq_or_ne k i with rfl | hki
    · exact hdone
    · have hkj : k = j := by cases k <;> cases j <;> cases i <;> first | rfl | contradiction
      show ((s.set i { s.cmds i with reaped := true }).cmds k).Done
      rwa [set_other hki, hkj]

theorem inv_step {l : Label} (h : Inv s) (hst : Step s l s') : Inv s' := by
  cases hst with
  | pipe hpc =>
    have hs := shell_ok h hpc
    refine ⟨.empty, h.cmds, ⟨rfl, hs.2⟩, fun he => nomatch hs.1.symm.trans he⟩
  | fork hpc => exact inv_fork h hpc
  | @forkFails i hpc =>
    refine h.shell_step id ?_
    cases i
    · have hs := shell_ok h hpc
      exact ⟨hs.1, hs.2 .second⟩
    · exact (shell_ok h hpc).1
  | shellClose0 hpc => exact h.shell_step id ⟨rfl, shell_ok h hpc⟩
  | shellClose1 hpc => exact h.shell_step nofun ⟨(shell_ok h hpc).1, rfl⟩
  | wait hw hex hre => exact inv_wait h hw hex hre
  | waitNone hw hdone =>
    refine h.shell_step id ?_
    rcases hw with hpc | hpc
    · have hs := shell_ok h hpc
      rw [hpc]
      exact ⟨hs.1, hs.2, .first, hdone .first⟩
    · have hs := shell_ok h hpc
      rw [hpc]
      exact ⟨hs.1, hs.2.1, hdone⟩
  | @dup i hpc =>
    have hc := cmd_ok h hpc
    exact h.child (by rw [hpc]; nofun) ⟨hc.1, rfl, hc.2.2⟩ id id fun _ _ => .inr hc.1
  | @close0 i hpc =>
    have hc := cmd_ok h hpc
    exact h.child (by rw [hpc]; nofun) ⟨rfl, hc⟩ id id fun _ => .inl
  | @close1 i hpc =>
    have hc := cmd_ok h hpc
    exact h.child (by rw [hpc]; nofun) ⟨hc.1, rfl, hc.2.2⟩ id nofun fun _ => .inl
  | @exec i hpc =>
    have hc := cmd_ok h hpc
    exact h.child (by rw [hpc]; nofun) ⟨hc.1, hc.2.1, hc.2.2.2⟩ id id fun _ => .inl
  | execFails hpc => exact h.gone (by rw [hpc]; nofun)
  | write hpc hstd =>
    exact ⟨h.data.write _, h.cmds, h.shell, fun he => absurd (.inr (.inr hstd)) (h.eof he).1⟩
  | sigpipe hpc => exact h.gone (by rw [hpc]; nofun)
  | @read n hpc hstd hne =>
    exact ⟨h.data.read _, h.cmds, h.shell, fun he => absurd (h.eof he).2 hne⟩
  | eof hpc hstd hnil hno =>
    refine ⟨h.data, h.cmds, ?_, fun _ => ⟨hno, hnil⟩⟩
    rcases hsh : s.shell with _ | ⟨_ | _⟩ | _ | _ | _ | _ | _ <;> have hs := shell_ok h hsh
    · exact nomatch hpc.symm.trans (hs.2 .second)
    all_goals exact hs
  | @close i hpc =>
    have hc := cmd_ok h hpc
    refine h.child (by rw [hpc]; nofun) ?_ id id nofun
    show Cmd.Ok { s.cmds i with std := false }
    unfold Cmd.Ok
    simp only [hpc]
    exact hc
  | exit hpc => exact h.gone (by rw [hpc]; nofun)

variable {tr : List (State × Label)}

theorem inv_run (h : lts.Run tr s) : Inv s := by
  refine h.inv (I := Inv) ?_ fun _ _ _ hI hst => inv_step hI hst
  rintro _ rfl
  exact ⟨.empty, fun _ => ⟨rfl, rfl, rfl, rfl⟩, ⟨rfl, fun _ => rfl⟩, nofun⟩

/-- A child that holds an end is alive. -/
theorem Inv.alive_of (h : Inv s)
    (hi : (s.cmds i).read = true ∨ (s.cmds i).write = true ∨ (s.cmds i).std = true) :
    (s.cmds i).Alive := by
  have hnone : ¬ ((s.cmds i).read = false ∧ (s.cmds i).write = false ∧ (s.cmds i).std = false) := by
    rintro ⟨hr, hw, hs⟩
    simp [hr, hw, hs] at hi
  constructor <;> intro hpc <;> have hc := cmd_ok h hpc
  · exact hnone ⟨hc.1, hc.2.1, hc.2.2.1⟩
  · exact hnone hc

theorem waits_closed (h : Inv s) (hw : Waits s.shell) : s.read = false ∧ s.write = false := by
  rcases hw with hpc | hpc
  · exact shell_ok h hpc
  · have hs := shell_ok h hpc
    exact ⟨hs.1, hs.2.1⟩

/-- What the second command reads is what the first wrote, in order; it reads the end of the file
only when it has read everything and nobody can write more; and once both children are set up and
the shell waits, a pipe that is open for writing, or for reading, is so because its command lives.
At the prompt the shell holds no end and has waited for both. -/
theorem pipeline_plumbed (h : lts.Run tr s) :
    s.pipe.taken ++ s.pipe.buf = s.pipe.written ∧
    (s.eof = true → s.pipe.taken = s.pipe.written ∧ ¬ s.Writers) ∧
    (Waits s.shell → (s.cmds .second).pc = .runs → s.Writers → (s.cmds .first).Alive) ∧
    (Waits s.shell → (s.cmds .first).pc = .runs → s.Readers → (s.cmds .second).Alive) ∧
    (s.shell = .prompt → s.read = false ∧ s.write = false ∧ ∀ i, (s.cmds i).Done) := by
  have hI := inv_run h
  refine ⟨hI.data, fun he => ⟨hI.data.taken_eq (hI.eof he).2, (hI.eof he).1⟩, fun hw hpc hwr => ?_,
    fun hw hpc hrd => ?_, fun hpc => shell_ok hI hpc⟩
  · have hshell := (waits_closed hI hw).2
    have hsecond := (cmd_ok hI hpc).2.1
    refine hI.alive_of ?_
    rcases hwr with hwr | ⟨i, hi⟩ | hstd
    · exact nomatch hshell.symm.trans hwr
    · cases i
      · exact .inr (.inl hi)
      · exact nomatch hsecond.symm.trans hi
    · exact .inr (.inr hstd)
  · have hshell := (waits_closed hI hw).1
    have hfirst := (cmd_ok hI hpc).1
    refine hI.alive_of ?_
    rcases hrd with hrd | ⟨i, hi⟩ | hstd
    · exact nomatch hshell.symm.trans hrd
    · cases i
      · exact nomatch hfirst.symm.trans hi
      · exact .inl hi
    · exact .inr (.inr hstd)

/-- A byte through the pipe, and the end of the file behind it. -/
theorem pipeline_plumbed_byte : ∃ s tr, lts.Run tr s ∧ s.eof = true ∧ s.pipe.written = [33] ∧
    s.pipe.taken = s.pipe.written := by
  have hstart : lts.Run [] _ := ⟨_, rfl, .nil _⟩
  have hset := ((((hstart.snoc (.pipe rfl)).snoc (.fork rfl)).snoc (.fork rfl)).snoc
    (.shellClose0 rfl)).snoc (.shellClose1 rfl)
  have hfirst := (((hset.snoc (@Step.dup _ .first rfl)).snoc (@Step.close0 _ .first rfl)).snoc
    (@Step.close1 _ .first rfl)).snoc (@Step.exec _ .first rfl)
  have hsecond := (((hfirst.snoc (@Step.dup _ .second rfl)).snoc (@Step.close0 _ .second rfl)).snoc
    (@Step.close1 _ .second rfl)).snoc (@Step.exec _ .second rfl)
  have hsent := (hsecond.snoc (@Step.write _ [33] rfl rfl (.inr (.inr rfl)))).snoc
    (@Step.exit _ .first rfl)
  have hread := hsent.snoc (@Step.read _ 1 rfl rfl (List.cons_ne_nil _ _))
  have hend := hread.snoc (@Step.eof _ 1 rfl rfl rfl (by
    rintro (h | ⟨i, hi⟩ | h)
    · cases h
    · cases i <;> cases hi
    · cases h))
  exact ⟨_, _, hend, rfl, rfl, ((pipeline_plumbed hend).2.1 rfl).1⟩

/-- The shell's steps to its prompt, and for each child that it has yet to fork the calls up to its
`execvp`. -/
def ShellPc.left : ShellPc → ℕ
  | .pipe => 15
  | .fork .first => 14
  | .fork .second => 9
  | .close0 => 4
  | .close1 => 3
  | .wait1 => 2
  | .wait2 => 1
  | .prompt => 0

/-- A child's calls up to its `execvp`. -/
def CmdPc.left : CmdPc → ℕ
  | .dup => 4
  | .close0 => 3
  | .close1 => 2
  | .exec => 1
  | .unborn | .runs | .exited => 0

/-- What is left to do up to the prompt, or to a command that runs. -/
def State.left (s : State) : ℕ :=
  s.shell.left + ((s.cmds .first).pc.left + (s.cmds .second).pc.left)

/-- The shell is at its prompt and has waited for both children. -/
def State.Back (s : State) : Prop := s.shell = .prompt ∧ ∀ i, (s.cmds i).Done

theorem left_set (s : State) (i : Side) (c : Cmd) :
    (s.set i c).left + (s.cmds i).pc.left = s.left + c.pc.left := by
  cases i
  · show s.shell.left + (c.pc.left + (s.cmds .second).pc.left) + _ = _
    unfold State.left
    omega
  · show s.shell.left + ((s.cmds .first).pc.left + c.pc.left) + _ = _
    unfold State.left
    omega

/-- A child that is set up goes on. -/
theorem left_goes {pc : CmdPc} (pc' : CmdPc) (hpc : (s.cmds i).pc = pc) (hc : c.pc = pc')
    (hlt : pc'.left < pc.left) : (s.set i c).left < s.left := by
  have h := left_set s i c
  rw [hpc, hc] at h
  omega

theorem Waits.left {pc : ShellPc} (h : Waits pc) : (afterWait pc).left < pc.left := by
  rcases h with rfl | rfl <;> decide

/-- A step of the shell or of a child that no command takes brings them on. -/
theorem left_step {l : Label} (hno : ∀ i, (s.cmds i).pc ≠ .runs) (hst : Step s l s') :
    s'.left < s.left := by
  have hshell : ∀ {pc : ShellPc} (pc' : ShellPc), s.shell = pc → pc'.left < pc.left →
      pc'.left + ((s.cmds .first).pc.left + (s.cmds .second).pc.left) < s.left := by
    rintro _ pc' rfl hlt
    exact Nat.add_lt_add_right hlt _
  cases hst with
  | pipe hpc => exact hshell (.fork .first) hpc (by decide)
  | @fork i hpc =>
    have hset := left_set { s with shell := afterFork i } i ⟨.dup, s.read, s.write, false, false⟩
    have hfork : (afterFork i).left + CmdPc.dup.left < (ShellPc.fork i).left := by
      cases i <;> decide
    have hs : s.left = (ShellPc.fork i).left
        + ((s.cmds .first).pc.left + (s.cmds .second).pc.left) := by rw [State.left, hpc]
    have hs' : State.left { s with shell := afterFork i } = (afterFork i).left
        + ((s.cmds .first).pc.left + (s.cmds .second).pc.left) := rfl
    have hset' : _ + CmdPc.left _ = _ + CmdPc.dup.left := hset
    show State.left (State.set { s with shell := afterFork i } i _) < _
    omega
  | @forkFails i hpc => exact hshell (afterFork i) hpc (by cases i <;> decide)
  | shellClose0 hpc => exact hshell .close1 hpc (by decide)
  | shellClose1 hpc => exact hshell .wait1 hpc (by decide)
  | @wait i hw hex =>
    have hset := left_set { s with shell := afterWait s.shell } i { s.cmds i with reaped := true }
    have hlt : State.left { s with shell := afterWait s.shell } < s.left :=
      hshell _ rfl hw.left
    exact lt_of_eq_of_lt (Nat.add_right_cancel hset) hlt
  | waitNone hw => exact hshell _ rfl hw.left
  | dup hpc => exact left_goes .close0 hpc rfl (by decide)
  | close0 hpc => exact left_goes .close1 hpc rfl (by decide)
  | close1 hpc => exact left_goes .exec hpc rfl (by decide)
  | exec hpc => exact left_goes .runs hpc rfl (by decide)
  | execFails hpc => exact left_goes .exited hpc rfl (by decide)
  | write hpc | sigpipe hpc | read hpc | eof hpc | close hpc | exit hpc => exact absurd hpc (hno _)

/-- A `wait` returns, or a child goes on that is not waited for yet. -/
theorem wait_enabled (hno : ∀ i, (s.cmds i).pc ≠ .runs) (hw : Waits s.shell) :
    ∃ l t, Step s l t := by
  by_cases hdone : ∀ i, (s.cmds i).Done
  · exact ⟨_, _, .waitNone hw hdone⟩
  · obtain ⟨i, hi⟩ := not_forall.mp hdone
    obtain ⟨hborn, hre⟩ := not_or.mp hi
    rcases hpc : (s.cmds i).pc
    · exact absurd hpc hborn
    · exact ⟨_, _, .dup hpc⟩
    · exact ⟨_, _, .close0 hpc⟩
    · exact ⟨_, _, .close1 hpc⟩
    · exact ⟨_, _, .exec hpc⟩
    · exact absurd hpc (hno i)
    · exact ⟨_, _, .wait hw hpc (by simpa using hre)⟩

/-- No step is missing before the prompt, where the shell has waited for both. -/
theorem step_enabled (hI : Inv s) (hback : ¬ s.Back) (hno : ∀ i, (s.cmds i).pc ≠ .runs) :
    ∃ l t, Step s l t := by
  rcases hpc : s.shell with _ | i | _ | _ | _ | _ | _
  · exact ⟨_, _, .pipe hpc⟩
  · exact ⟨_, _, .fork hpc⟩
  · exact ⟨_, _, .shellClose0 hpc⟩
  · exact ⟨_, _, .shellClose1 hpc⟩
  · exact wait_enabled hno (.inl hpc)
  · exact wait_enabled hno (.inr hpc)
  · exact absurd ⟨hpc, (shell_ok hI hpc).2.2⟩ hback

/-- Past the `fork`s, with no child that could still run a command. -/
structure Childless (s : State) : Prop where
  forked : s.shell ≠ .pipe ∧ ∀ i, s.shell ≠ .fork i
  gone : ∀ i, ¬ (s.cmds i).Alive

theorem Childless.step {l : Label} (h : Childless s) (hst : Step s l s') : Childless s' := by
  have hdead : ∀ {i : Side} {pc : CmdPc}, (s.cmds i).pc = pc → pc ≠ .unborn → pc ≠ .exited →
      False := by
    rintro i pc rfl hborn hex
    exact h.gone i ⟨hborn, hex⟩
  have hforked : ∀ {pc : ShellPc}, Waits pc → afterWait pc ≠ .pipe ∧
      ∀ i, afterWait pc ≠ .fork i := by
    rintro _ (rfl | rfl) <;> exact ⟨nofun, nofun⟩
  cases hst with
  | pipe hpc => exact absurd hpc h.forked.1
  | fork hpc | forkFails hpc => exact absurd hpc (h.forked.2 _)
  | shellClose0 => exact ⟨⟨nofun, nofun⟩, h.gone⟩
  | shellClose1 => exact ⟨⟨nofun, nofun⟩, h.gone⟩
  | @wait i hw hex =>
    refine ⟨hforked hw, fun j => ?_⟩
    show ¬ ((s.set i { s.cmds i with reaped := true }).cmds j).Alive
    rcases eq_or_ne j i with rfl | hne
    · rw [set_self]
      exact fun ha => ha.2 hex
    · rw [set_other hne]
      exact h.gone j
  | waitNone hw => exact ⟨hforked hw, h.gone⟩
  | dup hpc | close0 hpc | close1 hpc | exec hpc | execFails hpc | write hpc | sigpipe hpc
  | read hpc | eof hpc | close hpc | exit hpc => exact (hdead hpc nofun nofun).elim

/-- From every state that is reached, whichever `fork` or `execvp` fails, the shell inevitably gets
back to its prompt, with both children waited for, or a command runs; and once both children are
gone, the shell gets back. -/
theorem pipeline_returns (h : lts.Run tr s) :
    lts.Inevitably (fun t => t.Back ∨ ∃ i, (t.cmds i).pc = .runs) s ∧
    (Childless s → lts.Inevitably State.Back s) := by
  have hsettles : lts.Inevitably (fun t => t.Back ∨ ∃ i, (t.cmds i).pc = .runs) s := by
    refine Inevitably.of_measure (I := Inv) State.left ?_ ?_ (inv_run h)
    · intro t hI hgoal
      obtain ⟨hback, hno⟩ := not_or.mp hgoal
      exact step_enabled hI hback (not_exists.mp hno)
    · intro t l t' hI hgoal hst
      exact .inr ⟨inv_step hI hst, left_step (not_exists.mp (not_or.mp hgoal).2) hst⟩
  refine ⟨hsettles, fun hover => hsettles.bind (I := Childless) (fun t l t' ht => ht.step) ?_ hover⟩
  rintro t ht (hback | ⟨i, hi⟩)
  · exact .now hback
  · exact absurd ⟨by rw [hi]; nofun, by rw [hi]; nofun⟩ (ht.gone i)

/-- The second `fork` and the first child's `execvp` fail. -/
theorem pipeline_returns_failed : ∃ s tr, lts.Run tr s ∧ (s.cmds .first).pc = .exited ∧
    lts.Inevitably State.Back s := by
  have hstart : lts.Run [] _ := ⟨_, rfl, .nil _⟩
  have hset := ((hstart.snoc (.pipe rfl)).snoc (.fork rfl)).snoc (.forkFails rfl)
  have hfirst := (((hset.snoc (@Step.dup _ .first rfl)).snoc (@Step.close0 _ .first rfl)).snoc
    (@Step.close1 _ .first rfl)).snoc (@Step.execFails _ .first rfl)
  refine ⟨_, _, hfirst, rfl, (pipeline_returns hfirst).2 ⟨⟨nofun, nofun⟩, fun i ha => ?_⟩⟩
  cases i
  · exact ha.2 rfl
  · exact ha.1 rfl

end EltexSystems.Pipeline
