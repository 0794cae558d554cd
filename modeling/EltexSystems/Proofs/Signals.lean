import EltexSystems.Lib.Latch
import EltexSystems.Lib.Parties
import EltexSystems.Signals

/-!
# No signal goes without an answer

A signal pending at the program's process is a latch that `kill` raises, `sigwait` or the handler
takes and the end of the process loses (`latch_path`).  So there are at most as many lines as
signals, and a signal that was sent is taken afterwards unless it is still pending or the process is
gone (`signals_answered`); once the senders are done, the process waits with nothing pending that it
would take, or is gone (`signals_settle`).
-/

namespace EltexSystems.Signals

open CStr Lts Latch Parties

variable {ι : Type*} [DecidableEq ι] {S : Setting ι} {s s' : State ι} {l : Label ι} {sig : Sig}
  {tr : List (State ι × Label ι)}

/-- What a step does to the latch of a signal. -/
def event (S : Setting ι) (sig : Sig) (s : State ι) : Label ι → Event
  | .take => if sig = .usr1 then .take else .other
  | .kill i => if Sends S sig (s, .kill i) then .raise else .other
  | .exit none | .die none => .lose
  | .exit (some _) | .die (some _) | .step _ => .other

theorem event_raise : event S sig s l = .raise ↔ Sends S sig (s, l) := by
  cases l with
  | take =>
    refine ⟨fun h => ?_, fun h => h.2.elim⟩
    unfold event at h
    split_ifs at h
  | kill i => by_cases h : Sends S sig (s, .kill i) <;> simp [event, h]
  | step p => exact ⟨nofun, fun h => h.2.elim⟩
  | exit p | die p => cases p <;> exact ⟨nofun, fun h => h.2.elim⟩

theorem event_take : event S sig s l = .take ↔ sig = .usr1 ∧ l = .take := by
  cases l with
  | take => by_cases hsig : sig = .usr1 <;> simp [event, hsig]
  | kill i => by_cases h : Sends S sig (s, .kill i) <;> simp [event, h]
  | step p => exact ⟨nofun, nofun⟩
  | exit p | die p => cases p <;> exact ⟨nofun, nofun⟩

theorem event_lose (h : event S sig s l = .lose) : l = .exit none ∨ l = .die none := by
  unfold event at h
  split at h
  · split_ifs at h
  · split_ifs at h
  · exact .inl rfl
  · exact .inr rfl
  all_goals cases h

theorem drop_pending : (s.drop sig).pending none sig = false := by
  unfold State.drop
  simp only [Function.update_self]

theorem drop_pending_other {sig' : Sig} (h : sig' ≠ sig) :
    (s.drop sig).pending none sig' = s.pending none sig' := by
  unfold State.drop
  simp only [Function.update_self, Function.update_of_ne h]

/-- `sigwait` and the handler take `SIGUSR1`. -/
theorem latch_take (hpending : s.pending none .usr1 = true) :
    Latch.Step (s.pending none sig) (event S sig s .take) ((s.drop .usr1).pending none sig) := by
  unfold event
  rcases eq_or_ne sig .usr1 with rfl | hne
  · rw [if_pos rfl, hpending, drop_pending]
    exact .take
  · rw [if_neg hne, drop_pending_other hne]
    exact .other _

theorem latch_kill {i : ι} {n : ℤ} {sent : Sig} (ho : order (S.argv i) = .kill n sent) :
    Latch.Step (s.pending none sig) (event S sig s (.kill i))
      ((s.raise (S.Reaches i n) sent).pending none sig) := by
  have hiff : Sends S sig (s, .kill i) ↔
      S.Reaches i n none ∧ sig = sent ∧ (s.pc none).Runs := by
    unfold Sends
    simp only [ho]
    constructor
    · rintro ⟨hruns, rfl, hreach⟩
      exact ⟨hreach, rfl, hruns⟩
    · rintro ⟨hreach, rfl, hruns⟩
      exact ⟨hruns, rfl, hreach⟩
  show Latch.Step _ (if _ then _ else _) (s.pending none sig || _)
  by_cases hsends : Sends S sig (s, .kill i)
  · rw [if_pos hsends, decide_eq_true (hiff.mp hsends), Bool.or_true]
    exact .raise _
  · rw [if_neg hsends, decide_eq_false fun h => hsends (hiff.mpr h), Bool.or_false]
    exact .other _

/-- With a process goes what is pending there, and at the program's that is lost. -/
theorem latch_ends {p : Option ι} {pc : Pc} (hl : l = .exit p ∨ l = .die p) :
    Latch.Step (s.pending none sig) (event S sig s l) ((s.ends p pc).pending none sig) := by
  rcases p with _ | i
  · have hlost : (s.ends none pc).pending none sig = false := by simp [State.ends]
    rw [hlost]
    rcases hl with rfl | rfl <;> exact .lose _
  · have hkept : (s.ends (some i) pc).pending none sig = s.pending none sig := by simp [State.ends]
    rw [hkept]
    rcases hl with rfl | rfl <;> exact .other _

theorem latch_step (hst : Step S s l s') :
    Latch.Step (s.pending none sig) (event S sig s l) (s'.pending none sig) := by
  cases hst with
  | sigwait _ _ hp => exact latch_take hp
  | handle _ _ _ hp => exact latch_take hp
  | kill _ ho => exact latch_kill ho
  | arm | intro | print | handler => exact Latch.Step.other _
  | armFails | refuse | killFails | report => exact latch_ends (.inl rfl)
  | die => exact latch_ends (.inr rfl)

/-- A run, followed at the latch of a signal. -/
theorem latch_path (h : (lts S).Run tr s) (sig : Sig) :
    latch.Path false (tr.map fun p => (p.1.pending none sig, event S sig p.1 p.2))
      (s.pending none sig) := by
  obtain ⟨s₀, rfl, hp⟩ := h
  exact Lts.Path.map (T := lts S) (U := latch) (f := fun s => s.pending none sig) (g := event S sig)
    (I := fun _ => True) (fun _ _ _ _ _ => trivial) (fun _ _ _ _ hst => latch_step hst) hp trivial

section Answers

/-- The signals that were taken and for which no line was printed yet. -/
def inHand (s : State ι) : ℕ := if s.pc none = .woken ∨ s.handling = true then 1 else 0

def Label.isTake : Label ι → Bool
  | .take => true
  | _ => false

def taken (tr : List (State ι × Label ι)) : ℕ := tr.countP fun p => p.2.isTake

omit [DecidableEq ι] in
theorem taken_take (s : State ι) : taken (tr ++ [(s, .take)]) = taken tr + 1 := by
  simp [taken, Label.isTake]

omit [DecidableEq ι] in
theorem taken_quiet (s : State ι) (hl : l.isTake = false) : taken (tr ++ [(s, l)]) = taken tr := by
  simp [taken, hl]

/-- The lines are those of signals that were taken, all of them while the process runs. -/
structure Printed (S : Setting ι) (tr : List (State ι × Label ι)) (s : State ι) : Prop where
  lines : s.lines = List.replicate s.lines.length Sig.usr1.number
  le : s.lines.length + inHand s ≤ taken tr
  eq : (s.pc none).Runs → s.lines.length + inHand s = taken tr
  woken : s.pc none = .woken → S.program = .sigwaitLoop
  handling : s.handling = true → S.program = .sigusr1Handler

omit [DecidableEq ι] in
/-- A step that neither takes a signal nor prints a line for one. -/
theorem Printed.quiet (h : Printed S tr s) (hl : l.isTake = false) (hlines : s'.lines = s.lines)
    (hhandling : s'.handling = s.handling)
    (hpc : s'.pc none = s.pc none ∨ s'.pc none ≠ .woken ∧ (¬ (s'.pc none).Runs ∨
      (s.pc none).Runs ∧ s.pc none ≠ .woken)) : Printed S (tr ++ [(s, l)]) s' := by
  have htaken : taken (tr ++ [(s, l)]) = taken tr := taken_quiet s hl
  have hle : inHand s' ≤ inHand s := by
    unfold inHand
    rw [hhandling]
    rcases hpc with hpc | ⟨hpc, -⟩
    · rw [hpc]
    · by_cases hh : s.handling = true <;> simp [hpc, hh]
  refine ⟨by rw [hlines]; exact h.lines, ?_, fun hruns => ?_, fun hw => ?_,
    fun hh => h.handling (hhandling ▸ hh)⟩
  · rw [htaken, hlines]
    exact Nat.le_trans (Nat.add_le_add_left hle _) h.le
  · rw [htaken, hlines]
    rcases hpc with hpc | ⟨hpc, hpc' | ⟨hruns', hne⟩⟩
    · rw [← h.eq (hpc ▸ hruns)]
      unfold inHand
      rw [hhandling, hpc]
    · exact absurd hruns hpc'
    · rw [← h.eq hruns']
      unfold inHand
      simp [hhandling, hpc, hne]
  · rcases hpc with hpc | ⟨hpc, -⟩
    · exact h.woken (hpc ▸ hw)
    · exact absurd hw hpc

@[simp] theorem goto_self {pc : Pc} {p : Option ι} : (s.goto p pc).pc p = pc :=
  Function.update_self ..

@[simp] theorem goto_sender {pc : Pc} {i : ι} : (s.goto (some i) pc).pc none = s.pc none := by
  simp [State.goto]

@[simp] theorem goto_program {pc : Pc} {i : ι} : (s.goto none pc).pc (some i) = s.pc (some i) := by
  simp [State.goto]

@[simp] theorem ends_pc {pc : Pc} {p : Option ι} : (s.ends p pc).pc = (s.goto p pc).pc := rfl

theorem ends_sender {pc : Pc} {i : ι} : (s.ends (some i) pc).pc none = s.pc none := by simp

omit [DecidableEq ι] in
@[simp] theorem raise_pc {reached : Option ι → Prop} [DecidablePred reached] :
    (s.raise reached sig).pc = s.pc := rfl

@[simp] theorem goto_handling {pc : Pc} {p : Option ι} : (s.goto p pc).handling = s.handling := rfl

@[simp] theorem drop_pc : (s.drop sig).pc = s.pc := rfl

theorem replicate_snoc {α : Type*} {l : List α} {a : α} (h : l = List.replicate l.length a) :
    l ++ [a] = List.replicate (l ++ [a]).length a := by
  rw [List.length_append, List.length_singleton, List.replicate_succ', ← h]

theorem printed_step (h : Printed S tr s) (hst : Step S s l s') :
    Printed S (tr ++ [(s, l)]) s' := by
  cases hst with
  | arm hpc => exact h.quiet rfl rfl rfl (.inr (by simp [hpc, Pc.Runs]))
  | armFails hpc => exact h.quiet rfl rfl rfl (.inr (by simp [Pc.Runs]))
  | intro hpc => exact h.quiet rfl rfl rfl (.inr (by simp [hpc, Pc.Runs]))
  | sigwait hprog hpc =>
    have hno : s.handling ≠ true := fun hh => nomatch hprog.symm.trans (h.handling hh)
    have hbefore : inHand s = 0 := if_neg (by simp [hpc, hno])
    have hafter : inHand ((s.goto none .woken).drop .usr1) = 1 := if_pos (.inl (by simp))
    have heq := h.eq (by rw [hpc]; trivial)
    refine ⟨h.lines, ?_, fun _ => ?_, fun _ => hprog, h.handling⟩ <;>
      rw [hafter, taken_take, ← heq, hbefore] <;> rfl
  | print hpc =>
    have hno : s.handling ≠ true := fun hh => nomatch (h.woken hpc).symm.trans (h.handling hh)
    have hbefore : inHand s = 1 := if_pos (.inl hpc)
    have hafter : inHand { s.goto none .loop with
        lines := s.lines ++ [Sig.usr1.number] } = 0 := if_neg (by simp [hno])
    have heq := h.eq (by rw [hpc]; trivial)
    refine ⟨replicate_snoc h.lines, ?_, fun _ => ?_, fun hw => ?_, h.handling⟩
    · rw [hafter, taken_quiet s rfl, ← heq, hbefore, List.length_append]
      exact Nat.le_refl _
    · rw [hafter, taken_quiet s rfl, ← heq, hbefore, List.length_append]
      rfl
    · exact absurd hw (by simp)
  | handle hprog hpc hnot =>
    have hne : s.pc none ≠ .woken := fun hw => nomatch hprog.symm.trans (h.woken hw)
    have hbefore : inHand s = 0 := if_neg (by simp [hne, hnot])
    have hafter : inHand { s.drop .usr1 with handling := true } = 1 := if_pos (.inr rfl)
    have heq := h.eq (by rcases hpc with hpc | hpc <;> rw [hpc] <;> trivial)
    refine ⟨h.lines, ?_, fun _ => ?_, fun hw => absurd hw hne, fun _ => hprog⟩ <;>
      rw [hafter, taken_take, ← heq, hbefore] <;> rfl
  | handler hh hruns =>
    have hne : s.pc none ≠ .woken := fun hw => nomatch (h.handling hh).symm.trans (h.woken hw)
    have hbefore : inHand s = 1 := if_pos (.inr hh)
    have hafter : inHand { s with
        handling := false
        lines := s.lines ++ [Sig.usr1.number] } = 0 := if_neg (by simp [hne])
    have heq := h.eq hruns
    refine ⟨replicate_snoc h.lines, ?_, fun _ => ?_, fun hw => absurd hw hne, nofun⟩
    · rw [hafter, taken_quiet s rfl, ← heq, hbefore, List.length_append]
      exact Nat.le_refl _
    · rw [hafter, taken_quiet s rfl, ← heq, hbefore, List.length_append]
      rfl
  | refuse | killFails | report => exact h.quiet rfl rfl rfl (.inl ends_sender)
  | kill => exact h.quiet rfl rfl rfl (.inl goto_sender)
  | @die p =>
    rcases p with _ | i
    · exact h.quiet rfl rfl rfl (.inr (by simp [Pc.Runs]))
    · exact h.quiet rfl rfl rfl (.inl ends_sender)

theorem printed_run (h : (lts S).Run tr s) : Printed S tr s := by
  refine h.induction (P := Printed S) ?_ fun _ _ _ _ _ hP hst => printed_step hP hst
  rintro _ rfl
  exact ⟨rfl, Nat.le_refl _, fun _ => rfl, nofun, nofun⟩

/-- The lines' signals and the one that is pending were all sent. -/
theorem sent_le (h : (lts S).Run tr s) :
    taken tr + (s.pending none .usr1).toNat ≤ tr.countP fun p => Sends S .usr1 p := by
  have hle := taken_le (latch_path h .usr1)
  have htake : count .take (tr.map fun p => (p.1.pending none .usr1, event S .usr1 p.1 p.2))
      = taken tr := by
    rw [count, List.countP_map]
    refine List.countP_congr fun p _ => ?_
    simp only [Function.comp_apply, decide_eq_true_eq, event_take, true_and]
    cases p.2 <;> simp [Label.isTake]
  have hraise : count .raise (tr.map fun p => (p.1.pending none .usr1, event S .usr1 p.1 p.2))
      = tr.countP fun p => Sends S .usr1 p := by
    rw [count, List.countP_map]
    refine List.countP_congr fun p _ => ?_
    simp only [Function.comp_apply, decide_eq_true_eq, event_raise]
  rwa [htake, hraise] at hle

/-- A signal is not pending that was not sent. -/
theorem sent_of_pending (h : (lts S).Run tr s) (hp : s.pending none sig = true) :
    ∃ p ∈ tr, Sends S sig p := by
  have hle := taken_le (latch_path h sig)
  rw [hp] at hle
  have hpos : 0 < count .raise (tr.map fun p => (p.1.pending none sig, event S sig p.1 p.2)) :=
    Nat.lt_of_lt_of_le (Nat.lt_of_lt_of_le Nat.one_pos (Nat.le_add_left _ _)) hle
  obtain ⟨q, hq, he⟩ := List.countP_pos_iff.mp hpos
  obtain ⟨p, hmem, rfl⟩ := List.mem_map.mp hq
  exact ⟨p, hmem, event_raise.mp (of_decide_eq_true he)⟩

/-- What a step does to where the program's process is. -/
theorem none_step (hst : Step S s l s') : s'.pc none = s.pc none ∨
    s'.pc none ≠ .start ∧ ∀ sig, s'.pc none = .killed sig → s.Deadly S none sig := by
  cases hst with
  | arm | armFails | intro | print => exact .inr (by simp)
  | sigwait => exact .inr (by simp)
  | handle | handler => exact .inl rfl
  | refuse | killFails | report => exact .inl ends_sender
  | kill => exact .inl goto_sender
  | @die p sig _ hd =>
    rcases p with _ | i
    · refine .inr ⟨by simp, fun sig' he => ?_⟩
      rw [ends_pc, goto_self] at he
      cases he
      exact hd
    · exact .inl ends_sender

theorem killed_run (h : (lts S).Run tr s) :
    (s.pc none = .start → ∀ p ∈ tr, p.1.pc none = .start) ∧
    ∀ sig, s.pc none = .killed sig →
      ∃ p ∈ tr, Sends S sig p ∧ (sig = S.program.shields → p.1.pc none = .start) := by
  refine h.induction (P := fun tr s => (s.pc none = .start → ∀ p ∈ tr, p.1.pc none = .start) ∧
    ∀ sig, s.pc none = .killed sig →
      ∃ p ∈ tr, Sends S sig p ∧ (sig = S.program.shields → p.1.pc none = .start)) ?_ ?_
  · rintro _ rfl
    exact ⟨fun _ => nofun, nofun⟩
  · intro tr s l t hrun ⟨hstart, hkilled⟩ hst
    rcases none_step hst with hpc | ⟨hpc, hdeadly⟩
    · rw [hpc]
      refine ⟨fun hs p hp => ?_, fun sig hk => ?_⟩
      · rcases List.mem_append.mp hp with hp | hp
        · exact hstart hs p hp
        · rw [List.mem_singleton.mp hp]
          exact hs
      · obtain ⟨p, hp, hsends, hs⟩ := hkilled sig hk
        exact ⟨p, List.mem_append_left _ hp, hsends, hs⟩
    · refine ⟨fun hs => absurd hs hpc, fun sig hk => ?_⟩
      obtain ⟨hpending, hshield⟩ := hdeadly sig hk
      obtain ⟨p, hp, hsends⟩ := sent_of_pending hrun hpending
      exact ⟨p, List.mem_append_left _ hp, hsends, fun he => hstart (hshield rfl he) p hp⟩

/-- A process that is gone stays so. -/
theorem gone_step (h : ¬ (s.pc none).Runs) (hst : Step S s l s') : ¬ (s'.pc none).Runs := by
  have hat : ∀ {pc : Pc}, s.pc none = pc → pc.Runs → False := fun hpc hruns => h (hpc ▸ hruns)
  cases hst with
  | arm hpc | armFails hpc | intro hpc | sigwait _ hpc | print hpc => exact (hat hpc trivial).elim
  | handle _ hpc => rcases hpc with hpc | hpc <;> exact (hat hpc trivial).elim
  | handler _ hruns => exact absurd hruns h
  | refuse | killFails | report | kill => simpa using h
  | @die p _ hruns =>
    rcases p with _ | i
    · exact absurd hruns h
    · simpa using h

theorem gone_of_lost (h : (lts S).Run tr s) (hlost : ∃ p ∈ tr, event S sig p.1 p.2 = .lose) :
    ¬ (s.pc none).Runs := by
  obtain ⟨⟨u, l⟩, hp, he⟩ := hlost
  obtain ⟨tr₁, tr₂, rfl⟩ := List.append_of_mem hp
  obtain ⟨t, -, hst, hpath⟩ := h.through
  have hgone : ¬ (t.pc none).Runs := by
    rcases event_lose he with rfl | rfl <;> cases hst <;> simp [Pc.Runs]
  exact hpath.inv (I := fun t => ¬ (t.pc none).Runs) (fun _ _ _ => gone_step) hgone

/-- A line for every signal taken, and no more of them than signals were sent; a signal that was
sent is taken afterwards or still pending, or the process is gone; and the process is killed only by
a signal that was sent, and by the one it blocks or handles only if that was sent before it did
so. -/
theorem signals_answered (h : (lts S).Run tr s) :
    (∃ n, s.lines = List.replicate n Sig.usr1.number ∧
      n + inHand s + (s.pending none .usr1).toNat ≤ tr.countP (fun p => Sends S .usr1 p) ∧
      ((s.pc none).Runs → n + inHand s = taken tr)) ∧
    (∀ sig tr₁ u l tr₂, tr = tr₁ ++ (u, l) :: tr₂ → Sends S sig (u, l) →
      s.pending none sig = true ∨ (sig = .usr1 ∧ ∃ v, (v, .take) ∈ tr₂) ∨
        ¬ (s.pc none).Runs) ∧
    ∀ sig, s.pc none = .killed sig →
      ∃ p ∈ tr, Sends S sig p ∧ (sig = S.program.shields → p.1.pc none = .start) := by
  have hP := printed_run h
  refine ⟨⟨_, hP.lines, ?_, hP.eq⟩, ?_, (killed_run h).2⟩
  · exact Nat.le_trans (Nat.add_le_add_right hP.le _) (sent_le h)
  · rintro sig tr₁ u l tr₂ rfl hsends
    have hpath := latch_path h sig
    rw [List.map_append, List.map_cons, event_raise.mpr hsends] at hpath
    refine (answered hpath).imp_right ?_
    rintro (⟨b, hb⟩ | ⟨b, hb⟩) <;> obtain ⟨p, hp, heq⟩ := List.mem_map.mp hb
    · obtain ⟨hsig, hl⟩ := event_take.mp (Prod.ext_iff.mp heq).2
      exact .inl ⟨hsig, p.1, hl ▸ hp⟩
    · have hp' : p ∈ tr₁ ++ (u, l) :: tr₂ := List.mem_append_right _ (List.mem_cons_of_mem _ hp)
      exact .inr (gone_of_lost h ⟨p, hp', (Prod.ext_iff.mp heq).2⟩)

/-- `sigwait_loop.c` as process 5, and `sender 5 USR1`. -/
def oneSender : Setting Unit where
  program := .sigwaitLoop
  pid p := if p = none then 5 else 6
  pgrp p := if p = none then 5 else 6
  argv _ := [ascii "sender", ascii "5", ascii "USR1"]

/-- The signal is sent and its line printed. -/
theorem signals_answered_one : ∃ s tr, (lts oneSender).Run tr s ∧ s.lines = [10] ∧
    ∃ n, s.lines = List.replicate n Sig.usr1.number ∧
      n + inHand s + (s.pending none .usr1).toNat
        ≤ tr.countP fun p => Sends oneSender .usr1 p := by
  have hstart : (lts oneSender).Run [] _ := ⟨_, rfl, .nil _⟩
  have hloop := (hstart.snoc (.arm rfl)).snoc (.intro rfl rfl)
  have hsent := hloop.snoc (@Step.kill _ _ oneSender _ () 5 .usr1 rfl (by decide))
  have hline := (hsent.snoc (.sigwait rfl rfl rfl)).snoc (.print rfl)
  obtain ⟨⟨n, hlines, hle, -⟩, -⟩ := signals_answered hline
  exact ⟨_, _, hline, rfl, n, hlines, hle⟩

end Answers

section Settles

/-- Where the processes can be, and that a sender that has sent a signal to itself has one. -/
structure Placed (s : State ι) : Prop where
  program : s.pc none ≠ .dying ∧ s.pc none ≠ .sent
  senders : ∀ i, s.pc (some i) ≠ .intro ∧ s.pc (some i) ≠ .loop ∧ s.pc (some i) ≠ .woken
  dying : ∀ i, s.pc (some i) = .dying → ∃ sig, s.pending (some i) sig = true

omit [DecidableEq ι] in
/-- The program's process goes on. -/
theorem Placed.program_step (h : Placed s) (hpc : s'.pc none ≠ .dying ∧ s'.pc none ≠ .sent)
    (hothers : ∀ i, s'.pc (some i) = s.pc (some i))
    (hpending : ∀ i sig, s'.pending (some i) sig = s.pending (some i) sig) : Placed s' where
  program := hpc
  senders i := by
    rw [hothers]
    exact h.senders i
  dying i hd := by
    obtain ⟨sig, hsig⟩ := h.dying i ((hothers i).symm.trans hd)
    exact ⟨sig, (hpending i sig).trans hsig⟩

/-- A sender goes on. -/
theorem Placed.sender_step (h : Placed s) {i : ι} {pc : Pc}
    (hothers : s'.pc = Function.update s.pc (some i) pc)
    (hpc : pc ≠ .intro ∧ pc ≠ .loop ∧ pc ≠ .woken)
    (hdying : pc = .dying → ∃ sig, s'.pending (some i) sig = true)
    (hpending : ∀ j ≠ i, ∀ sig, s.pending (some j) sig = true → s'.pending (some j) sig = true) :
    Placed s' where
  program := by
    rw [hothers, Function.update_of_ne (by simp)]
    exact h.program
  senders j := by
    rw [hothers]
    rcases eq_or_ne j i with rfl | hne
    · rwa [Function.update_self]
    · rw [Function.update_of_ne (by simpa using hne)]
      exact h.senders j
  dying j hd := by
    rw [hothers] at hd
    rcases eq_or_ne j i with rfl | hne
    · rw [Function.update_self] at hd
      exact hdying hd
    · rw [Function.update_of_ne (by simpa using hne)] at hd
      obtain ⟨sig, hsig⟩ := h.dying j hd
      exact ⟨sig, hpending j hne sig hsig⟩

theorem ends_pending {p q : Option ι} {pc : Pc} (h : q ≠ p) :
    (s.ends p pc).pending q sig = s.pending q sig := by
  simp [State.ends, h]

theorem placed_step (h : Placed s) (hst : Step S s l s') : Placed s' := by
  cases hst with
  | arm | intro | print => exact h.program_step (by simp) (fun _ => by simp) fun _ _ => rfl
  | armFails =>
    exact h.program_step (by simp) (fun _ => by simp) fun _ _ => ends_pending (by simp)
  | sigwait =>
    exact h.program_step (by simp) (fun _ => by simp) fun i sig => by
      simp [State.drop, State.goto]
  | handle => exact h.program_step h.program (fun _ => rfl) fun i sig => by simp [State.drop]
  | handler => exact h.program_step h.program (fun _ => rfl) fun _ _ => rfl
  | refuse | killFails | report =>
    exact h.sender_step rfl (by simp) nofun fun j hne _ hp =>
      (ends_pending (by simpa using hne)).trans hp
  | @kill i n sig hpc ho =>
    refine h.sender_step rfl (by split_ifs <;> simp) (fun hd => ⟨sig, ?_⟩)
      fun _ _ _ hp => (Bool.or_eq_true ..).mpr (.inl hp)
    have hreach : S.Reaches i n (some i) := by
      by_contra hno
      rw [if_neg hno] at hd
      cases hd
    refine (Bool.or_eq_true ..).mpr (.inr (decide_eq_true ⟨hreach, rfl, ?_⟩))
    rw [hpc]
    trivial
  | @die p =>
    rcases p with _ | i
    · exact h.program_step (by simp) (fun _ => by simp) fun _ _ => ends_pending (by simp)
    · exact h.sender_step rfl (by simp) nofun fun j hne _ hp =>
        (ends_pending (by simpa using hne)).trans hp

theorem placed_run (h : (lts S).Run tr s) : Placed s := by
  refine h.inv (I := Placed) ?_ fun _ _ _ hP hst => placed_step hP hst
  rintro _ rfl
  exact ⟨⟨nofun, nofun⟩, fun _ => ⟨nofun, nofun, nofun⟩, nofun⟩

/-- The senders are done, and the program's process is gone, or waits and has taken every signal but
one that it blocks for good. -/
def Settled (S : Setting ι) (s : State ι) : Prop :=
  (∀ i, ¬ (s.pc (some i)).Runs) ∧
    (¬ (s.pc none).Runs ∨ s.pc none = .loop ∧ s.handling = false ∧
      ∀ sig, s.pending none sig = true → S.program = .blockSigint ∧ sig = .int)

theorem sender_enabled (h : Placed s) {i : ι} (hruns : (s.pc (some i)).Runs) :
    ∃ l t, Step S s l t := by
  rcases hpc : s.pc (some i) with _ | _ | _ | _ | _ | _ | _ | _
  · cases ho : order (S.argv i) with
    | usage => exact ⟨_, _, .refuse hpc (.inl ho)⟩
    | unknown => exact ⟨_, _, .refuse hpc (.inr ho)⟩
    | kill n sig => exact ⟨_, _, .kill hpc ho⟩
  · exact absurd hpc (h.senders i).1
  · exact absurd hpc (h.senders i).2.1
  · exact absurd hpc (h.senders i).2.2
  · obtain ⟨sig, hsig⟩ := h.dying i hpc
    exact ⟨_, _, .die hruns ⟨hsig, nofun⟩⟩
  · exact ⟨_, _, .report hpc⟩
  · rw [hpc] at hruns
    exact hruns.elim
  · rw [hpc] at hruns
    exact hruns.elim

/-- A pending signal that the program does not block for good is taken or kills it. -/
theorem signal_enabled (hpc : s.pc none = .loop) (hh : s.handling = false)
    (hp : s.pending none sig = true) (hno : ¬ (S.program = .blockSigint ∧ sig = .int)) :
    ∃ l t, Step S s l t := by
  by_cases hshield : sig = S.program.shields
  · cases hprog : S.program with
    | sigwaitLoop =>
      rw [hprog] at hshield
      subst hshield
      exact ⟨_, _, .sigwait hprog hpc hp⟩
    | sigusr1Handler =>
      rw [hprog] at hshield
      subst hshield
      exact ⟨_, _, .handle hprog (.inr hpc) hh hp⟩
    | blockSigint =>
      rw [hprog] at hshield
      exact absurd ⟨hprog, hshield⟩ hno
  · exact ⟨_, _, .die (by rw [hpc]; trivial) ⟨hp, fun _ he => absurd he hshield⟩⟩

theorem program_enabled (h : Placed s) (hruns : (s.pc none).Runs)
    (hno : ¬ (s.pc none = .loop ∧ s.handling = false ∧
      ∀ sig, s.pending none sig = true → S.program = .blockSigint ∧ sig = .int)) :
    ∃ l t, Step S s l t := by
  by_cases hh : s.handling = true
  · exact ⟨_, _, .handler hh hruns⟩
  have hh : s.handling = false := by simpa using hh
  rcases hpc : s.pc none with _ | _ | _ | _ | _ | _ | _ | _
  · exact ⟨_, _, .arm hpc⟩
  · exact ⟨_, _, .intro hpc hh⟩
  · obtain ⟨sig, hsig⟩ := not_forall.mp fun hall => hno ⟨hpc, hh, hall⟩
    obtain ⟨hp, hnot⟩ := Classical.not_imp.mp hsig
    exact signal_enabled hpc hh hp hnot
  · exact ⟨_, _, .print hpc⟩
  · exact absurd hpc h.program.1
  · exact absurd hpc h.program.2
  · rw [hpc] at hruns
    exact hruns.elim
  · rw [hpc] at hruns
    exact hruns.elim

/-- The steps a process has left, but for those that a signal makes. -/
def left : Option ι → Pc → ℕ
  | none, .start => 4
  | none, .intro => 3
  | none, .woken => 2
  | none, .loop => 1
  | some _, .start => 6
  | some _, .sent | some _, .dying => 1
  | _, _ => 0

/-- The steps that a signal makes the program's process take. -/
def toTake (s : State ι) : ℕ :=
  if (s.pc none).Runs then 2 * (s.pending none .usr1).toNat + s.handling.toNat else 0

omit [DecidableEq ι] in
theorem toTake_of_runs (h : (s.pc none).Runs) :
    toTake s = 2 * (s.pending none .usr1).toNat + s.handling.toNat := if_pos h

omit [DecidableEq ι] in
theorem toTake_eq (hpc : (s'.pc none).Runs ↔ (s.pc none).Runs)
    (hp : s'.pending none .usr1 = s.pending none .usr1) (hh : s'.handling = s.handling) :
    toTake s' = toTake s := by
  unfold toTake
  simp only [hpc, hp, hh]

variable [Fintype ι]

def total (s : State ι) : ℕ := ∑ p, left p (s.pc p) + toTake s

theorem total_goto (p : Option ι) (pc : Pc) (hpc : s'.pc = Function.update s.pc p pc)
    (h : left p pc + toTake s' < left p (s.pc p) + toTake s) : total s' < total s := by
  have hsum := sum_update left s.pc p pc
  unfold total
  rw [hpc]
  omega

/-- A sender's step sends the program's process one signal at most. -/
theorem total_kill {i : ι} {n : ℤ} {pc : Pc} (hpc : s.pc (some i) = .start)
    (hle : left (some i) pc ≤ 1) :
    total ((s.raise (S.Reaches i n) sig).goto (some i) pc) < total s := by
  refine total_goto (some i) pc rfl ?_
  have hsome : toTake ((s.raise (S.Reaches i n) sig).goto (some i) pc) ≤ toTake s + 2 := by
    by_cases hruns : (s.pc none).Runs
    · have hruns' : (((s.raise (S.Reaches i n) sig).goto (some i) pc).pc none).Runs := by
        rw [goto_sender]
        exact hruns
      rw [toTake_of_runs hruns, toTake_of_runs hruns']
      show 2 * Bool.toNat _ + s.handling.toNat ≤ _
      have := Bool.toNat_le (((s.raise (S.Reaches i n) sig).goto (some i) pc).pending none .usr1)
      omega
    · refine Nat.le_trans (Nat.le_of_eq (if_neg ?_)) (Nat.zero_le _)
      rw [goto_sender]
      exact hruns
  rw [hpc]
  show left (some i) pc + _ < 6 + _
  omega

/-- Of a process that ends nothing is left. -/
theorem total_exit {p : Option ι} {pc : Pc} (hpc : ¬ pc.Runs) (hpos : 0 < left p (s.pc p)) :
    total (s.ends p pc) < total s := by
  refine total_goto p pc rfl ?_
  have hnone : left p pc = 0 := by
    cases pc <;> first | exact (hpc trivial).elim | (cases p <;> rfl)
  have hle : toTake (s.ends p pc) ≤ toTake s := by
    rcases p with _ | i
    · exact Nat.le_trans (Nat.le_of_eq (if_neg (by simpa using hpc))) (Nat.zero_le _)
    · exact Nat.le_of_eq (toTake_eq (by simp) (ends_pending (by simp)) rfl)
  omega

omit [DecidableEq ι] [Fintype ι] in
theorem left_pos (h : Placed s) {p : Option ι} (hruns : (s.pc p).Runs) : 0 < left p (s.pc p) := by
  rcases p with _ | i
  · have hno := h.program
    cases hpc : s.pc none <;> simp [hpc, Pc.Runs, left] at hruns hno ⊢
  · have hno := h.senders i
    cases hpc : s.pc (some i) <;> simp [hpc, Pc.Runs, left] at hruns hno ⊢

theorem total_step (h : Placed s) (hst : Step S s l s') : total s' < total s := by
  cases hst with
  | arm hpc =>
    have heq : toTake (s.goto none .intro) = toTake s :=
      toTake_eq (by simp [hpc, Pc.Runs]) rfl rfl
    exact total_goto none .intro rfl (by simp [hpc, left, heq])
  | armFails hpc => exact total_exit id (left_pos h (by rw [hpc]; trivial))
  | intro hpc =>
    have heq : toTake (s.goto none .loop) = toTake s := toTake_eq (by simp [hpc, Pc.Runs]) rfl rfl
    exact total_goto none .loop rfl (by simp [hpc, left, heq])
  | sigwait _ hpc hp =>
    have hbefore := toTake_of_runs (s := s) (by rw [hpc]; trivial)
    have hafter := toTake_of_runs (s := (s.goto none .woken).drop .usr1) (by simp [Pc.Runs])
    refine total_goto none .woken rfl ?_
    rw [hpc, hbefore, hafter, hp, drop_pending]
    show 2 + (2 * 0 + s.handling.toNat) < 1 + (2 * 1 + s.handling.toNat)
    omega
  | print hpc =>
    have heq : toTake { s.goto none .loop with lines := s.lines ++ [Sig.usr1.number] }
        = toTake s := toTake_eq (by simp [hpc, Pc.Runs]) rfl rfl
    refine total_goto none .loop rfl ?_
    rw [hpc, heq]
    exact Nat.add_lt_add_right (Nat.lt_succ_self 1) _
  | handle _ hpc hh hp =>
    have hruns : (s.pc none).Runs := by rcases hpc with hpc | hpc <;> rw [hpc] <;> trivial
    refine Nat.add_lt_add_left ?_ _
    rw [toTake_of_runs hruns, toTake_of_runs (s := { s.drop .usr1 with handling := true }) hruns,
      hp, hh]
    show 2 * Bool.toNat ((s.drop .usr1).pending none .usr1) + 1 < 2
    rw [drop_pending]
    exact Nat.lt_succ_self 1
  | handler hh hruns =>
    refine Nat.add_lt_add_left ?_ _
    rw [toTake_of_runs hruns, hh]
    exact Nat.lt_of_le_of_lt (Nat.le_of_eq (if_pos hruns)) (Nat.lt_succ_self _)
  | refuse hpc => exact total_exit id (left_pos h (by rw [hpc]; trivial))
  | kill hpc => exact total_kill hpc (by split_ifs <;> exact Nat.le_refl 1)
  | killFails hpc => exact total_exit id (left_pos h (by rw [hpc]; trivial))
  | report hpc => exact total_exit id (left_pos h (by rw [hpc]; trivial))
  | die hruns => exact total_exit id (left_pos h hruns)

/-- Inevitably the senders are done, and the program's process is gone or waits with nothing pending
that it would take. -/
theorem signals_settle (h : (lts S).Run tr s) : (lts S).Inevitably (Settled S) s := by
  refine Inevitably.of_measure (I := Placed) total ?_ ?_ (placed_run h)
  · intro t hP hno
    by_cases hsenders : ∀ i, ¬ (t.pc (some i)).Runs
    · have hnot : ¬ (¬ (t.pc none).Runs ∨ t.pc none = .loop ∧ t.handling = false ∧
          ∀ sig, t.pending none sig = true → S.program = .blockSigint ∧ sig = .int) :=
        fun hs => hno ⟨hsenders, hs⟩
      obtain ⟨hruns, hwaits⟩ := not_or.mp hnot
      exact program_enabled hP (not_not.mp hruns) hwaits
    · obtain ⟨i, hi⟩ := not_forall.mp hsenders
      exact sender_enabled hP (not_not.mp hi)
  · exact fun t l t' hP _ hst => .inr ⟨placed_step hP hst, total_step hP hst⟩

theorem signals_settle_one : ∃ s, (lts oneSender).Run [] s ∧
    (lts oneSender).Inevitably (Settled oneSender) s :=
  have hstart : (lts oneSender).Run [] _ := ⟨_, rfl, .nil _⟩
  ⟨_, hstart, signals_settle hstart⟩

end Settles

end EltexSystems.Signals
