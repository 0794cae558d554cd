import EltexSystems.TaxiStdin

/-!
# Command lines through `poll` and `stdio`

No byte is lost or reordered on its way to a command (`StdinInv`), so at `poll` the lines executed
are the complete lines received exactly when each piece executed is a line and no line feed is left
in the buffer of `stdio` (`blocked_iff`).  Both hold while no line is longer than `line` and no line
feed has been read ahead when the kernel's input runs empty (`commands_are_lines`); two lines in one
read leave the second in the buffer, where `poll` does not see it (`second_line_stuck`).
-/

namespace EltexSystems

open CStr Lines

theorem LoopEnv.reads_iff {e : LoopEnv} {line : List UInt8} : e.reads line = true ↔
    e.calloc = true ∧ (∃ revents, e.poll = .ready revents ∧ (revents 0).pollin = true) ∧
      e.line = some line := by
  rw [reads, Bool.and_eq_true, Bool.and_eq_true, beq_iff_eq, and_assoc]
  refine and_congr_right fun _ => and_congr_left fun _ => ?_
  constructor
  · intro h
    rcases hp : e.poll with _ | _ | revents <;> rw [hp] at h
    · cases h
    · cases h
    · exact ⟨revents, rfl, h⟩
  · rintro ⟨revents, hp, hin⟩
    rw [hp]
    exact hin

namespace Stdin

variable {bufSize : ℕ} {s t : Stdin}

/-- What a step can do. -/
inductive Moves (s : Stdin) : StdinLabel → Stdin → Prop where
  | arrive (chunk : List UInt8) : Moves s (.arrive chunk)
      { s with kernel := s.kernel ++ chunk, received := s.received ++ chunk }
  | close : Moves s .close { s with eof := true }
  | idle (e : LoopEnv) : s.pc = .poll → Moves s (.idle e) (s.goOn (mainIter s.cli e))
  | ready : s.pc = .poll → Moves s .ready { s with pc := .fgets }
  | refill (k : ℕ) : s.pc = .fgets → s.stdio = [] →
      Moves s (.refill k) { s with stdio := s.kernel.take k, kernel := s.kernel.drop k }
  | byte (e : LoopEnv) (b : UInt8) (rest : List UInt8) : s.pc = .fgets → s.stdio = b :: rest →
      b ≠ LF → s.acc.length + 1 ≠ MSGSZ - 1 →
      Moves s (.byte e) { s with stdio := rest, acc := s.acc ++ [b] }
  | line (e : LoopEnv) (b : UInt8) (rest : List UInt8) : s.stdio = b :: rest →
      b = LF ∨ s.acc.length + 1 = MSGSZ - 1 →
      Moves s (.byte e) ({ s with stdio := rest }.execute (s.acc ++ [b]) e)
  | exit (e : LoopEnv) : s.eof = true → s.acc = [] →
      Moves s (.endOfInput e) { s with pc := .exited }
  | rest (e : LoopEnv) : s.eof = true → Moves s (.endOfInput e) (s.execute s.acc e)

theorem moves_of_next {l : StdinLabel} (h : s.next bufSize l = some t) : Moves s l t := by
  cases l with
  | arrive chunk =>
    simp only [next] at h
    split_ifs at h
    obtain rfl := Option.some.inj h
    exact .arrive chunk
  | close =>
    obtain rfl := Option.some.inj h
    exact .close
  | idle e =>
    simp only [next] at h
    split_ifs at h with hc
    obtain rfl := Option.some.inj h
    exact .idle e hc.1
  | ready =>
    simp only [next] at h
    split_ifs at h with hc
    obtain rfl := Option.some.inj h
    exact .ready hc.1
  | refill k =>
    simp only [next] at h
    split_ifs at h with hc
    obtain rfl := Option.some.inj h
    exact .refill k hc.1 hc.2.1
  | byte e =>
    rcases hpc : s.pc with _ | _ | _ <;> rcases hstdio : s.stdio with _ | ⟨b, rest⟩ <;>
      simp only [next, hpc, hstdio, reduceCtorEq] at h
    unfold takeByte at h
    split_ifs at h with hline hreads
    · obtain rfl := Option.some.inj h
      exact .line e b rest hstdio hline
    · obtain rfl := Option.some.inj h
      rw [not_or] at hline
      exact .byte e b rest hpc hstdio hline.1 hline.2
  | endOfInput e =>
    simp only [next] at h
    split_ifs at h with hc
    obtain ⟨-, -, -, heof⟩ := hc
    unfold atEnd at h
    split_ifs at h with hacc hreads
    · obtain rfl := Option.some.inj h
      exact .exit e heof hacc
    · obtain rfl := Option.some.inj h
      exact .rest e heof

end Stdin

open Stdin

variable {bufSize : ℕ} {s t : Stdin}

/-- Every byte received has been executed, is in `line`, in the buffer or in the kernel. -/
structure StdinInv (s : Stdin) : Prop where
  bytes : s.received = s.executed.flatten ++ (s.acc ++ (s.stdio ++ s.kernel))
  acc_nil : s.pc ≠ .fgets → s.acc = []

theorem stdinInv_init (h : (stdinLts bufSize).init s) : StdinInv s := by
  obtain rfl := h
  exact ⟨rfl, fun _ => rfl⟩

theorem stdinInv_execute {line : List UInt8}
    (h : s.received = s.executed.flatten ++ (line ++ (s.stdio ++ s.kernel))) (e : LoopEnv) :
    StdinInv (s.execute line e) := by
  refine ⟨?_, fun _ => rfl⟩
  show s.received = (s.executed ++ [line]).flatten ++ ([] ++ (s.stdio ++ s.kernel))
  rw [h, List.flatten_concat, List.append_assoc, List.nil_append]

theorem stdinInv_step {l : StdinLabel} (h : StdinInv s) (hst : (stdinLts bufSize).step s l t) :
    StdinInv t := by
  obtain ⟨hbytes, hacc⟩ := h
  cases moves_of_next hst with
  | arrive chunk =>
    refine ⟨?_, hacc⟩
    show s.received ++ chunk = _
    rw [hbytes]
    simp only [List.append_assoc]
  | close => exact ⟨hbytes, hacc⟩
  | idle e hpc => exact ⟨hbytes, fun _ => hacc (by rw [hpc]; decide)⟩
  | ready hpc => exact ⟨hbytes, fun _ => hacc (by rw [hpc]; decide)⟩
  | refill k hpc hstdio =>
    refine ⟨?_, fun hne => absurd hpc hne⟩
    show s.received = _ ++ (_ ++ (s.kernel.take k ++ s.kernel.drop k))
    rw [hbytes, hstdio, List.take_append_drop, List.nil_append]
  | byte e b rest hpc hstdio hb hlen =>
    refine ⟨?_, fun hne => absurd hpc hne⟩
    show s.received = _ ++ ((s.acc ++ [b]) ++ (rest ++ _))
    rw [hbytes, hstdio, List.append_assoc s.acc]
    rfl
  | line e b rest hstdio hline =>
    refine stdinInv_execute ?_ e
    show s.received = _ ++ ((s.acc ++ [b]) ++ (rest ++ _))
    rw [hbytes, hstdio, List.append_assoc s.acc]
    rfl
  | exit e heof hnil => exact ⟨hbytes, fun _ => hnil⟩
  | rest e heof => exact stdinInv_execute hbytes e

/-- About to block, the loop has executed the lines received exactly when it has executed only whole
lines and no line feed is left in the buffer. -/
theorem blocked_iff {tr : List (Stdin × StdinLabel)} (h : (stdinLts bufSize).Run tr s)
    (hb : s.Blocked) : s.executed = lines LF s.received ↔
      (∀ p ∈ s.executed, IsLine LF p) ∧ LF ∉ s.stdio := by
  obtain ⟨hpc, hkernel, -⟩ := hb
  obtain ⟨hbytes, hacc⟩ := h.inv (fun _ => stdinInv_init) fun _ _ _ h hst => stdinInv_step h hst
  rw [hbytes, hacc (by rw [hpc]; decide), hkernel, List.nil_append, List.append_nil, eq_lines_iff]

/-- What the steps that meet `OneLine` keep while the input is open. -/
structure LineInv (s : Stdin) : Prop where
  executed : ∀ p ∈ s.executed, IsLine LF p
  acc : LF ∉ s.acc
  stdio : s.pc ≠ .fgets → s.kernel = [] → LF ∉ s.stdio

theorem lineInv_init (h : (stdinLts bufSize).init s) : LineInv s := by
  obtain rfl := h
  exact ⟨by simp, by simp, by simp⟩

theorem lineInv_step {l : StdinLabel} (h : s.eof = false → LineInv s) (hone : s.OneLine l)
    (hst : (stdinLts bufSize).step s l t) : t.eof = false → LineInv t := by
  cases moves_of_next hst with
  | arrive chunk =>
    intro heof
    obtain ⟨hexec, hacc, hstdio⟩ := h heof
    exact ⟨hexec, hacc, fun hpc hk => hstdio hpc (List.append_eq_nil_iff.mp hk).1⟩
  | close => exact fun heof => absurd heof (by simp)
  | idle e hpc =>
    intro heof
    obtain ⟨hexec, hacc, hstdio⟩ := h heof
    exact ⟨hexec, hacc, fun _ hk => hstdio (by rw [hpc]; decide) hk⟩
  | ready hpc =>
    intro heof
    obtain ⟨hexec, hacc, -⟩ := h heof
    exact ⟨hexec, hacc, fun hne => absurd rfl hne⟩
  | refill k hpc hstdio =>
    intro heof
    obtain ⟨hexec, hacc, -⟩ := h heof
    exact ⟨hexec, hacc, fun hne => absurd hpc hne⟩
  | byte e b rest hpc hstdio hb hlen =>
    intro heof
    obtain ⟨hexec, hacc, -⟩ := h heof
    refine ⟨hexec, fun hm => ?_, fun hne => absurd hpc hne⟩
    rcases List.mem_append.mp hm with hm | hm
    · exact hacc hm
    · exact hb (List.mem_singleton.mp hm).symm
  | line e b rest hstdio hline =>
    intro heof
    obtain ⟨hexec, hacc, -⟩ := h heof
    obtain ⟨hfits, hbehind⟩ := hone
    rw [hstdio] at hfits hbehind
    obtain rfl : b = LF := hline.elim id fun hlen => Option.some.inj (hfits hlen)
    refine ⟨fun p hp => ?_, by simp [execute, goOn], fun _ hk => hbehind rfl hk⟩
    rcases List.mem_append.mp hp with hp | hp
    · exact hexec p hp
    · exact ⟨s.acc, List.mem_singleton.mp hp, hacc⟩
  | exit e heof' hnil => exact fun heof => absurd (heof'.symm.trans heof) (by decide)
  | rest e heof' => exact fun heof => absurd (heof'.symm.trans heof) (by decide)

/-- In a run in which no line is longer than `line` and none is read ahead as the kernel's input
runs empty, the loop has executed exactly the complete lines received whenever it is about to
block. -/
theorem commands_are_lines {tr : List (Stdin × StdinLabel)} (h : (stdinLts bufSize).Run tr s)
    (hone : ∀ p ∈ tr, p.1.OneLine p.2) :
    ∀ u ∈ Lts.visited tr s, u.Blocked → u.executed = lines LF u.received := by
  intro u hu hb
  obtain ⟨tr₁, tr₂, rfl, hrun⟩ := h.visited hu
  have hinv := hrun.inv_when (I := fun s => s.eof = false → LineInv s)
    (fun _ hs _ => lineInv_init hs) (fun _ _ _ h hone hst => lineInv_step h hone hst)
    fun p hp => hone p (List.mem_append_left _ hp)
  obtain ⟨hpc, hkernel, heof⟩ := hb
  obtain ⟨hexec, -, hstdio⟩ := hinv heof
  exact (blocked_iff hrun ⟨hpc, hkernel, heof⟩).mpr
    ⟨hexec, hstdio (by rw [hpc]; decide) hkernel⟩

section Examples

/-- The loop before its first iteration. -/
def startedCli : Stdin := ⟨⟨[], 0, [], []⟩, .poll, [], [], [], false, [], []⟩

/-- An iteration that reads a line. -/
def readsLine (line : List UInt8) : LoopEnv where
  reaped := []
  calloc := true
  poll := .ready fun _ => ⟨true, false⟩
  line := some line
  spawn := none
  realloc := true
  send _ := .sent
  recv _ := []

theorem reads_readsLine (line : List UInt8) : (readsLine line).reads line = true :=
  LoopEnv.reads_iff.mpr ⟨rfl, ⟨_, rfl, rfl⟩, rfl⟩

/-- Some bytes arrive at once, are read at once, and `fgets` takes a line of them. -/
def oneRead (chunk line : List UInt8) : List StdinLabel :=
  [.arrive chunk, .ready, .refill chunk.length]
    ++ List.replicate line.length (.byte (readsLine line))

theorem run_oneRead {chunk line : List UInt8}
    (h : Lts.exec (Stdin.next 4096) startedCli (oneRead chunk line) = some s) :
    (stdinLts 4096).Run (Lts.trace (Stdin.next 4096) startedCli (oneRead chunk line)) s :=
  ⟨startedCli, rfl, Lts.exec_path (fun _ _ _ hst => hst) h⟩

/-- What is left of a run for `poll`: whether it is about to block, and the lines executed and
received. -/
def outcome (s : Stdin) : StdinPc × List UInt8 × Bool × List (List UInt8) × List (List UInt8) :=
  (s.pc, s.kernel, s.eof, s.executed, lines LF s.received)

def getDriversLine : List UInt8 := ascii "get_drivers\n"

theorem commands_are_lines_one : ∃ tr s, (stdinLts 4096).Run tr s ∧ s.Blocked ∧
    s.executed = lines LF s.received ∧ s.executed = [getDriversLine] := by
  have hout : (Lts.exec (Stdin.next 4096) startedCli
      (oneRead getDriversLine getDriversLine)).map outcome
      = some (.poll, [], false, [getDriversLine], [getDriversLine]) := rfl
  have hone : (Lts.trace (Stdin.next 4096) startedCli (oneRead getDriversLine getDriversLine)).all
      (fun p => p.1.OneLine p.2) = true := rfl
  obtain ⟨s, hs, hout⟩ := Option.map_eq_some_iff.mp hout
  simp only [outcome, Prod.mk.injEq] at hout
  obtain ⟨hpc, hkernel, heof, hexec, -⟩ := hout
  refine ⟨_, s, run_oneRead hs, ⟨hpc, hkernel, heof⟩, ?_, hexec⟩
  exact commands_are_lines (run_oneRead hs)
    (fun p hp => of_decide_eq_true (List.all_eq_true.mp hone p hp)) s
    (List.mem_append_right _ (List.mem_singleton_self s)) ⟨hpc, hkernel, heof⟩

/-- Two lines read at once: the first is executed and the second stays in the buffer while the loop
is about to block. -/
theorem second_line_stuck : ∃ tr s, (stdinLts 4096).Run tr s ∧ s.Blocked ∧
    s.executed = [getDriversLine] ∧ lines LF s.received = [getDriversLine, getDriversLine] := by
  have hout : (Lts.exec (Stdin.next 4096) startedCli
      (oneRead (getDriversLine ++ getDriversLine) getDriversLine)).map outcome
      = some (.poll, [], false, [getDriversLine], [getDriversLine, getDriversLine]) := rfl
  obtain ⟨s, hs, hout⟩ := Option.map_eq_some_iff.mp hout
  simp only [outcome, Prod.mk.injEq] at hout
  obtain ⟨hpc, hkernel, heof, hexec, hlines⟩ := hout
  exact ⟨_, s, run_oneRead hs, ⟨hpc, hkernel, heof⟩, hexec, hlines⟩

end Examples

end EltexSystems
