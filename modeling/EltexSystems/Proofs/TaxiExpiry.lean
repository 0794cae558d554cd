import EltexSystems.Proofs.TaxiDriver
import EltexSystems.TaxiExpiry

/-!
# When a driver is free again

The timer of a busy driver is set to the end of the last task accepted (`ExpiryInv`).  A pass that
finds it expired clears the flag before it handles the command, and a pass in which it expires after
`poll` has returned still answers with the time left, which is none (`answers_late`).  So a driver
is free as soon as its task is over exactly in the runs in which the latter never happens
(`finished_free_iff`).
-/

namespace EltexSystems

open CStr

section Pass

variable {d : Driver} {msg : List UInt8}

theorem AsksTask.take (h : AsksTask msg) : (cstr msg).take 4 = ascii "TASK" := by
  have := h.1
  rwa [strncmpEq, show (cstr (ascii "TASK")).take 4 = ascii "TASK" by decide, beq_iff_eq] at this

theorem AsksStatus.take (h : AsksStatus msg) : (cstr msg).take 6 = ascii "STATUS" := by
  rw [AsksStatus, strncmpEq, beq_iff_eq] at h
  exact h.trans (by decide)

/-- What a status request is answered. -/
theorem handleMsg_status (h : AsksStatus msg) (now : ℕ) : handleMsg d now msg =
    ⟨d, [if d.busy then .busy (timerRemainingSecs d.tfd now) else .available], false⟩ := by
  have hquit : strncmpEq msg (ascii "QUIT") 4 = false := by
    rw [strncmpEq, show (cstr msg).take 4 = ((cstr msg).take 6).take 4 by rw [List.take_take]; rfl,
      h.take]
    decide
  unfold handleMsg
  rw [hquit, if_neg Bool.false_ne_true,
    if_pos (show strncmpEq msg (ascii "STATUS") 6 = true from h)]
  split_ifs
  · rfl
  · rfl

/-- What a task with a timer in range is answered. -/
theorem handleMsg_task (h : AsksTask msg) (now : ℕ) : (handleMsg d now msg).sends =
    [if d.busy then .busy (timerRemainingSecs d.tfd now) else .ok] := by
  have hquit : strncmpEq msg (ascii "QUIT") 4 = false := by
    rw [strncmpEq, h.take]
    decide
  have hstatus : strncmpEq msg (ascii "STATUS") 6 = false := by
    rw [Bool.eq_false_iff]
    intro hs
    have htake := congrArg (List.take 4) (AsksStatus.take hs)
    rw [List.take_take, show min 4 6 = 4 from rfl, h.take] at htake
    exact absurd htake (by decide)
  obtain ⟨htask, hpos, hle⟩ := h
  have hread : (taskTimer msg).2 ≠ 0 := strtol_consumed (show (taskTimer msg).1 ≠ 0 by omega)
  unfold handleMsg
  rw [hquit, hstatus, if_neg Bool.false_ne_true, if_neg Bool.false_ne_true, if_pos htask]
  simp only []
  rw [if_neg (by omega)]
  split_ifs
  · rfl
  · rfl

variable {s : DriverState} {w : Wake}

/-- A pass answers as its timer block leaves the driver. -/
theorem answers_message (h : w.message = some msg) : s.answers w =
    (handleMsg (timerBlock s.driver (timerPollin s.driver.tfd w.polled)) w.now msg).sends := by
  unfold Wake.message at h
  split at h
  · rename_i b rest hh hr
    obtain rfl := Option.some.inj h
    unfold DriverState.answers driverIter
    rw [hh, hr]
    rfl
  · cases h

theorem answers_none (h : w.message = none) : s.answers w = [] := by
  rcases driverIter_cases s.driver w with ⟨he, -⟩ | ⟨hh, b, rest, hr, -⟩
  · exact he
  · rw [Wake.message, hh, hr] at h
    cases h

/-- Only a status request or a task in range is answered with the time left. -/
theorem asks_of_busy {n : ℤ} {now : ℕ} (h : .busy n ∈ (handleMsg d now msg).sends) :
    (AsksStatus msg ∨ AsksTask msg) ∧ d.busy = true ∧ n = timerRemainingSecs d.tfd now := by
  have hask : AsksStatus msg ∨ AsksTask msg := by
    unfold handleMsg at h
    by_cases hquit : strncmpEq msg (ascii "QUIT") 4 = true
    · simp [hquit] at h
    by_cases hstatus : strncmpEq msg (ascii "STATUS") 6 = true
    · exact .inl hstatus
    by_cases htask : strncmpEq msg (ascii "TASK") 4 = true
    · rw [if_neg hquit, if_neg hstatus, if_pos htask] at h
      simp only [] at h
      split_ifs at h with hbad
      · simp at h
      · exact .inr ⟨htask, by omega, by omega⟩
      · simp at h
    · simp [hquit, hstatus, htask] at h
  refine ⟨hask, ?_⟩
  rcases hask with hask | hask
  · rw [handleMsg_status hask, List.mem_singleton] at h
    split_ifs at h with hb
    · exact ⟨hb, Reply.busy.inj h⟩
  · rw [handleMsg_task hask, List.mem_singleton] at h
    split_ifs at h with hb
    · exact ⟨hb, Reply.busy.inj h⟩

/-- An idle driver answers a status request and a task in range. -/
theorem answers_idle (h : w.message = some msg)
    (hd : (timerBlock s.driver (timerPollin s.driver.tfd w.polled)).busy = false) :
    (AsksStatus msg → s.answers w = [.available]) ∧ (AsksTask msg → s.answers w = [.ok]) := by
  refine ⟨fun hs => ?_, fun ht => ?_⟩
  · rw [answers_message h, handleMsg_status hs, hd]
    rfl
  · rw [answers_message h, handleMsg_task ht, hd]
    rfl

/-- A timer that runs out behind the return of `poll` leaves a driver that is busy for no time. -/
theorem answers_late (hs : s.driver.Tied) {deadline : ℕ} (htfd : s.driver.tfd = some deadline)
    (hlate : w.polled < deadline) (hnow : deadline ≤ w.now) (h : w.message = some msg)
    (hask : AsksStatus msg ∨ AsksTask msg) : s.answers w = [.busy 0] := by
  have hkeep : timerBlock s.driver (timerPollin s.driver.tfd w.polled) = s.driver := by
    rw [htfd]
    simp [timerBlock, timerPollin, hlate]
  have hbusy : s.driver.busy = true := by rw [hs, htfd, Option.isSome_some]
  have hleft : timerRemainingSecs s.driver.tfd w.now = 0 := by
    rw [htfd, timerRemainingSecs_eq, Nat.sub_eq_zero_of_le hnow]
    rfl
  rw [answers_message h, hkeep]
  rcases hask with hask | hask
  · rw [handleMsg_status hask, hbusy, hleft]
    rfl
  · rw [handleMsg_task hask, hbusy, hleft]
    rfl

/-- A driver that answers with no time left has a timer that has run out behind the return of
`poll`. -/
theorem late_of_busy_zero (hs : s.driver.Tied) (h : .busy 0 ∈ s.answers w) :
    ∃ msg deadline, w.message = some msg ∧ (AsksStatus msg ∨ AsksTask msg) ∧
      s.driver.tfd = some deadline ∧ w.polled < deadline ∧ deadline ≤ w.now := by
  rcases hm : w.message with _ | msg
  · rw [answers_none hm] at h
    cases h
  · rw [answers_message hm] at h
    obtain ⟨hask, hbusy, hleft⟩ := asks_of_busy h
    by_cases hpoll : timerPollin s.driver.tfd w.polled = true
    · rw [hpoll] at hbusy
      cases hbusy
    · rw [Bool.not_eq_true] at hpoll
      rw [hpoll] at hbusy hleft
      change s.driver.busy = true at hbusy
      change 0 = timerRemainingSecs s.driver.tfd w.now at hleft
      obtain ⟨deadline, htfd⟩ := Option.isSome_iff_exists.mp (hs.symm.trans hbusy)
      rw [htfd, timerRemainingSecs_eq] at hleft
      rw [htfd, timerPollin, decide_eq_false_iff_not] at hpoll
      have hns : nsPerSec = 1000000000 := rfl
      rw [hns] at hleft
      exact ⟨msg, deadline, rfl, hask, htfd, by omega, by omega⟩

end Pass

section Run

variable {tr : List (DriverState × Wake)} {s t : DriverState} {w : Wake}

theorem lastDeadline_concat (tr : List (DriverState × Wake)) (p : DriverState × Wake) :
    lastDeadline (tr ++ [p]) = (deadlineOf p).or (lastDeadline tr) := by
  unfold lastDeadline
  rw [List.filterMap_append]
  rcases hp : deadlineOf p with _ | deadline
  · simp [hp]
  · simp [hp]

/-- The flag and the timer are those of the last task accepted, unless its end has been seen. -/
structure ExpiryInv (tr : List (DriverState × Wake)) (s : DriverState) : Prop where
  tied : s.driver.Tied
  last : ∀ deadline, s.driver.tfd = some deadline → lastDeadline tr = some deadline

theorem timerBlock_tfd {d : Driver} {b : Bool} {deadline : ℕ}
    (h : (timerBlock d b).tfd = some deadline) : d.tfd = some deadline := by
  cases b with
  | true => cases h
  | false => exact h

/-- A pass sets the timer to the end of the task it accepts, or leaves it or clears it. -/
theorem deadlineOf_cases (s : DriverState) (w : Wake) :
    deadlineOf (s, w) = (driverIter s.driver w).driver.tfd ∨
      deadlineOf (s, w) = none ∧ ∀ deadline, (driverIter s.driver w).driver.tfd = some deadline →
        s.driver.tfd = some deadline := by
  have hquiet : .ok ∉ s.answers w → (driverIter s.driver w).driver
      = timerBlock s.driver (timerPollin s.driver.tfd w.polled) →
      deadlineOf (s, w) = none ∧ ∀ deadline, (driverIter s.driver w).driver.tfd = some deadline →
        s.driver.tfd = some deadline := fun hok hd =>
    ⟨if_neg hok, fun deadline ht => timerBlock_tfd (hd ▸ ht)⟩
  unfold DriverState.answers at hquiet
  rcases driverIter_cases s.driver w with ⟨hs, hd⟩ | ⟨hh, b, rest, hr, he⟩
  · exact .inr (hquiet (by rw [hs]; exact List.not_mem_nil) hd)
  · rcases handleMsg_cases (timerBlock s.driver (timerPollin s.driver.tfd w.polled)) w.now
      (msgText (b :: rest)) with
      ⟨-, hm⟩ | ⟨-, hm⟩ | ⟨-, hm⟩ | hm | hm | ⟨-, -, sec, -, -, hsec, hm⟩
    all_goals rw [hm] at he
    · exact .inr (hquiet (by rw [he]; simp) (by rw [he]))
    · exact .inr (hquiet (by rw [he]; simp) (by rw [he]))
    · exact .inr (hquiet (by rw [he]; simp) (by rw [he]))
    · exact .inr (hquiet (by rw [he]; simp) (by rw [he]))
    · exact .inr (hquiet (by rw [he]; simp) (by rw [he]))
    · have hmsg : w.message = some (msgText (b :: rest)) := by
        rw [Wake.message, hh, hr]
      have hdeadline : deadlineOf (s, w) = some (w.now + sec * nsPerSec) := by
        have hok : Reply.ok ∈ s.answers w := by
          rw [DriverState.answers, he]
          exact List.mem_singleton_self _
        rw [deadlineOf, if_pos hok, hmsg, Option.map_some, hsec, Int.toNat_natCast]
      exact .inl (by rw [hdeadline, he])

theorem ExpiryInv.step (h : ExpiryInv tr s) (hst : driverLts.step s w t) :
    ExpiryInv (tr ++ [(s, w)]) t := by
  obtain ⟨-, -, -, rfl⟩ := hst
  refine ⟨tied_driverIter h.tied w, fun deadline htfd => ?_⟩
  rw [lastDeadline_concat]
  rcases deadlineOf_cases s w with hd | ⟨hd, hkeep⟩
  · rw [hd, htfd, Option.some_or]
  · rw [hd, Option.none_or]
    exact h.last deadline (hkeep deadline htfd)

theorem expiryInv_run (h : driverLts.Run tr s) : ExpiryInv tr s :=
  h.induction (fun s hs => ⟨by rw [hs.1]; rfl, fun deadline hd => by rw [hs.1] at hd; cases hd⟩)
    fun _ _ _ _ _ hI hst => hI.step hst

/-- In every run the driver is free once its task is over exactly when no timer runs out between
`poll` and the handling of a command. -/
theorem finished_free_iff (h : driverLts.Run tr t) :
    FreeAfter tr ↔ ∀ p ∈ tr, Prompt p.1 p.2 := by
  constructor
  · rintro hfree ⟨s, w⟩ hp msg hm hask deadline htfd hnow
    by_contra hlate
    obtain ⟨tr₁, tr₂, -, -, hrun, -, -⟩ := h.before hp
    have hans := answers_late (expiryInv_run hrun).tied htfd (Nat.lt_of_not_le hlate) hnow hm hask
    exact hfree.never_zero _ hp (hans ▸ List.mem_singleton_self _)
  · intro hprompt
    have hidle : ∀ {tr₁ tr₂ : List (DriverState × Wake)} {s : DriverState} {w : Wake}
        {msg : List UInt8}, tr = tr₁ ++ (s, w) :: tr₂ → w.message = some msg →
        (∀ deadline, lastDeadline tr₁ = some deadline → deadline ≤ w.now) →
        AsksStatus msg ∨ AsksTask msg →
        (timerBlock s.driver (timerPollin s.driver.tfd w.polled)).busy = false := by
      rintro tr₁ tr₂ s w msg rfl hm hpast hask
      obtain ⟨u, hrun, -, -⟩ := h.through
      obtain ⟨htied, hlast⟩ := expiryInv_run hrun
      rcases htfd : s.driver.tfd with _ | deadline
      · rw [Driver.Tied, htfd] at htied
        exact htied
      · have hseen := hprompt (s, w) (List.mem_append_right _ List.mem_cons_self) msg hm hask
          deadline htfd (hpast deadline (hlast deadline htfd))
        rw [timerPollin, decide_eq_true hseen]
        rfl
    refine ⟨fun htr hm hpast hask => ?_, fun htr hm hpast hask => ?_, fun p hp hzero => ?_⟩
    · exact (answers_idle hm (hidle htr hm hpast (.inl hask))).1 hask
    · exact (answers_idle hm (hidle htr hm hpast (.inr hask))).2 hask
    · obtain ⟨tr₁, tr₂, -, -, hrun, -, -⟩ := h.before (s := p.1) (l := p.2) hp
      obtain ⟨msg, deadline, hm, hask, htfd, hlate, hnow⟩ :=
        late_of_busy_zero (expiryInv_run hrun).tied hzero
      exact absurd (hprompt p hp msg hm hask deadline htfd hnow) (Nat.not_le_of_lt hlate)

/-- The pass that accepts a task of two seconds at 5 ns. -/
def takesTwo : DriverState × Wake :=
  (⟨⟨false, none⟩, 0, false⟩, ⟨5, 5, false, some (.data (ascii "TASK 2"))⟩)

/-- The driver is busy until 2000000005 ns. -/
def busyTwo : DriverState := ⟨⟨true, some 2000000005⟩, 5, false⟩

/-- The status is asked for, a nanosecond behind the return of `poll`. -/
def statusBehind (polled : ℕ) : Wake := ⟨polled, polled + 1, false, some (.data (ascii "STATUS"))⟩

theorem run_statusBehind {polled : ℕ} (h : 5 ≤ polled) :
    ∃ t, driverLts.Run [takesTwo, (busyTwo, statusBehind polled)] t := by
  have htakes : driverIter takesTwo.1.driver takesTwo.2 = ⟨busyTwo.driver, [.ok], false⟩ := by
    decide
  refine ⟨_, takesTwo.1, ⟨rfl, rfl⟩, .cons (t := busyTwo) ⟨rfl, Nat.zero_le 5, le_rfl, ?_⟩
    (.single ⟨rfl, h, Nat.le_succ polled, rfl⟩)⟩
  change busyTwo = ⟨(driverIter takesTwo.1.driver takesTwo.2).driver, 5,
    (driverIter takesTwo.1.driver takesTwo.2).exit⟩
  rw [htakes]
  rfl

/-- `poll` returns when the task is over. -/
theorem finished_free_iff_two_seconds : FreeAfter [takesTwo, (busyTwo, statusBehind 2000000005)] ∧
    busyTwo.answers (statusBehind 2000000005) = [.available] := by
  obtain ⟨t, hrun⟩ := run_statusBehind (show 5 ≤ 2000000005 by omega)
  refine ⟨(finished_free_iff hrun).mpr fun p hp => ?_, by decide⟩
  simp only [List.mem_cons, List.not_mem_nil, or_false] at hp
  rcases hp with rfl | rfl
  · rintro msg - - deadline hd
    cases hd
  · rintro msg - - deadline hd -
    obtain rfl := Option.some.inj hd
    exact le_rfl

/-- The task is over when the status is asked for, but not when `poll` returns: the driver says that
it is busy for no time. -/
theorem busy_zero : ∃ t, driverLts.Run [takesTwo, (busyTwo, statusBehind 2000000004)] t ∧
    lastDeadline [takesTwo] = some 2000000005 ∧ (statusBehind 2000000004).now = 2000000005 ∧
    (statusBehind 2000000004).message = some (ascii "STATUS") ∧
    busyTwo.answers (statusBehind 2000000004) = [.busy 0] := by
  obtain ⟨t, hrun⟩ := run_statusBehind (show 5 ≤ 2000000004 by omega)
  exact ⟨t, hrun, by decide, rfl, by decide, by decide⟩

end Run

end EltexSystems
