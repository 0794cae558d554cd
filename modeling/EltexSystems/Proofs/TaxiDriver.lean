import EltexSystems.TaxiDriver

/-!
# Tasks of one driver do not overlap

The busy flag is set exactly while the timer is armed or expired and unread (`Driver.Tied`).  From
an accepted task to its deadline no pass finds the timer expired, so the driver keeps the flag and
the deadline (`held_step`), and whatever it is sent it answers with the time left, an error, or not
at all (`held_answers`).
-/

namespace EltexSystems

open CStr

theorem handleMsg_cases (d : Driver) (now : ℕ) (msg : List UInt8) :
    strncmpEq msg (ascii "QUIT") 4 = true ∧ handleMsg d now msg = ⟨d, [.bye], true⟩
    ∨ d.busy = true ∧ handleMsg d now msg = ⟨d, [.busy (timerRemainingSecs d.tfd now)], false⟩
    ∨ d.busy = false ∧ handleMsg d now msg = ⟨d, [.available], false⟩
    ∨ handleMsg d now msg = ⟨d, [.badTimer], false⟩
    ∨ handleMsg d now msg = ⟨d, [.unknownCommand], false⟩
    ∨ d.busy = false ∧ strncmpEq msg (ascii "TASK") 4 = true ∧ ∃ sec : ℕ, 1 ≤ sec ∧ sec ≤ 86400 ∧
      (taskTimer msg).1 = sec ∧
      handleMsg d now msg = ⟨⟨true, some (now + sec * nsPerSec)⟩, [.ok], false⟩ := by
  unfold handleMsg
  by_cases hq : strncmpEq msg (ascii "QUIT") 4 = true
  · rw [if_pos hq]
    exact .inl ⟨hq, rfl⟩
  rw [if_neg hq]
  by_cases hs : strncmpEq msg (ascii "STATUS") 6 = true
  · rw [if_pos hs]
    split_ifs with hb
    · exact .inr (.inl ⟨hb, rfl⟩)
    · exact .inr (.inr (.inl ⟨by simpa using hb, rfl⟩))
  rw [if_neg hs]
  by_cases ht : strncmpEq msg (ascii "TASK") 4 = true
  · rw [if_pos ht]
    simp only []
    split_ifs with hbad hb
    · exact .inr (.inr (.inr (.inl rfl)))
    · exact .inr (.inl ⟨hb, rfl⟩)
    · simp only [not_or, not_le, not_lt] at hbad
      obtain ⟨-, hpos, hle⟩ := hbad
      refine .inr (.inr (.inr (.inr (.inr ⟨by simpa using hb, ht, (taskTimer msg).1.toNat, by omega,
        by omega, by omega, ?_⟩))))
      rw [timerSetSecs, if_pos hpos]
  · rw [if_neg ht]
    exact .inr (.inr (.inr (.inr (.inl rfl))))

/-- A pass sends nothing and leaves what the timer block left, or handles one datagram. -/
theorem driverIter_cases (d : Driver) (w : Wake) :
    (driverIter d w).sends = [] ∧
      (driverIter d w).driver = timerBlock d (timerPollin d.tfd w.polled) ∨
    w.hangup = false ∧ ∃ b rest, w.recv = some (.data (b :: rest)) ∧
      driverIter d w
        = handleMsg (timerBlock d (timerPollin d.tfd w.polled)) w.now (msgText (b :: rest)) := by
  unfold driverIter
  rcases hh : w.hangup with _ | _
  · rcases hr : w.recv with _ | (_ | _ | (_ | ⟨b, rest⟩))
    · exact .inl ⟨rfl, rfl⟩
    · exact .inl ⟨rfl, rfl⟩
    · exact .inl ⟨rfl, rfl⟩
    · exact .inl ⟨rfl, rfl⟩
    · exact .inr ⟨rfl, b, rest, rfl, rfl⟩
  · exact .inl ⟨rfl, rfl⟩

/-- The flag is set exactly while the timer is armed or expired and unread. -/
def Driver.Tied (d : Driver) : Prop := d.busy = d.tfd.isSome

theorem tied_timerBlock {d : Driver} (h : d.Tied) (b : Bool) : (timerBlock d b).Tied := by
  cases b
  · exact h
  · rfl

theorem tied_handleMsg {d : Driver} (h : d.Tied) (now : ℕ) (msg : List UInt8) :
    (handleMsg d now msg).driver.Tied := by
  rcases handleMsg_cases d now msg with
    ⟨-, he⟩ | ⟨-, he⟩ | ⟨-, he⟩ | he | he | ⟨-, -, sec, -, -, -, he⟩ <;>
    rw [he]
  all_goals first | exact h | rfl

theorem tied_driverIter {d : Driver} (h : d.Tied) (w : Wake) : (driverIter d w).driver.Tied := by
  rcases driverIter_cases d w with ⟨-, he⟩ | ⟨-, b, rest, -, he⟩ <;> rw [he]
  · exact tied_timerBlock h _
  · exact tied_handleMsg (tied_timerBlock h _) _ _

theorem now_le {tr : List (DriverState × Wake)} {s t : DriverState} (h : driverLts.Path s tr t) :
    s.now ≤ t.now ∧ ∀ p ∈ tr, s.now ≤ p.2.now ∧ p.2.now ≤ t.now := by
  induction h with
  | nil s => exact ⟨le_refl _, fun p hp => by simp at hp⟩
  | @cons s u t w tr hst hp ih =>
    obtain ⟨-, h1, h2, rfl⟩ := hst
    simp only [] at ih
    refine ⟨by omega, fun p hp => ?_⟩
    rcases List.mem_cons.mp hp with rfl | hp
    · exact ⟨by simp only []; omega, ih.1⟩
    · have := ih.2 p hp
      omega

section Held

variable {deadline : ℕ}

theorem timerBlock_held {w : Wake} (hlt : w.polled < deadline) :
    timerBlock ⟨true, some deadline⟩ (timerPollin (some deadline) w.polled)
      = ⟨true, some deadline⟩ := by
  simp [timerBlock, timerPollin, hlt]

theorem held_step {d : Driver} (hd : d = ⟨true, some deadline⟩) {w : Wake}
    (hle : w.polled ≤ w.now) (hlt : w.now < deadline) : (driverIter d w).driver = d := by
  subst hd
  have htb := timerBlock_held (w := w) (by omega : w.polled < deadline)
  rcases driverIter_cases ⟨true, some deadline⟩ w with ⟨-, he⟩ | ⟨-, b, rest, -, he⟩
  · rw [he, htb]
  · rw [he, htb]
    rcases handleMsg_cases ⟨true, some deadline⟩ w.now (msgText (b :: rest)) with
      ⟨-, he⟩ | ⟨-, he⟩ | ⟨hb, -⟩ | he | he | ⟨hb, -⟩
    · rw [he]
    · rw [he]
    · cases hb
    · rw [he]
    · rw [he]
    · cases hb

/-- Before the deadline a busy driver answers with the time left, an error, a farewell, or not at
all. -/
theorem held_answers {d : Driver} (hd : d = ⟨true, some deadline⟩) {w : Wake}
    (hle : w.polled ≤ w.now) (hlt : w.now < deadline) {r : Reply}
    (hr : r ∈ (driverIter d w).sends) :
    r = .bye ∨ r = .busy (timerRemainingSecs (some deadline) w.now) ∨ r = .badTimer
      ∨ r = .unknownCommand := by
  subst hd
  have htb := timerBlock_held (w := w) (by omega : w.polled < deadline)
  rcases driverIter_cases ⟨true, some deadline⟩ w with ⟨he, -⟩ | ⟨-, b, rest, -, he⟩
  · rw [he] at hr
    cases hr
  · rw [he, htb] at hr
    rcases handleMsg_cases ⟨true, some deadline⟩ w.now (msgText (b :: rest)) with
      ⟨-, he⟩ | ⟨-, he⟩ | ⟨hb, -⟩ | he | he | ⟨hb, -⟩
    · rw [he] at hr
      exact .inl (List.mem_singleton.mp hr)
    · rw [he] at hr
      exact .inr (.inl (List.mem_singleton.mp hr))
    · cases hb
    · rw [he] at hr
      exact .inr (.inr (.inl (List.mem_singleton.mp hr)))
    · rw [he] at hr
      exact .inr (.inr (.inr (List.mem_singleton.mp hr)))
    · cases hb

theorem held_path {tr : List (DriverState × Wake)} {s t : DriverState}
    (h : driverLts.Path s tr t) (hs : s.driver = ⟨true, some deadline⟩) (ht : t.now < deadline) :
    t.driver = ⟨true, some deadline⟩ := by
  refine h.inv_when (I := fun s => s.driver = ⟨true, some deadline⟩)
    (C := fun _ w => w.now < deadline) (fun s w s' hs hw hst => ?_) (fun p hp => ?_) hs
  · obtain ⟨-, -, hle, rfl⟩ := hst
    rw [held_step hs hle hw]
    exact hs
  · have := (now_le h).2 p hp
    omega

/-- Every pass before the deadline finds the driver as the path begins with it. -/
theorem held_after {tr : List (DriverState × Wake)} {s t : DriverState}
    (h : driverLts.Path s tr t) (hs : s.driver = ⟨true, some deadline⟩) {s' : DriverState}
    {w' : Wake} (hm : (s', w') ∈ tr) (hlt : w'.now < deadline) :
    s'.driver = ⟨true, some deadline⟩ ∧ w'.polled ≤ w'.now ∧ s.now ≤ w'.now := by
  obtain ⟨tr₁, tr₂, rfl⟩ := List.append_of_mem hm
  obtain ⟨u, h1, ⟨-, hsn, hpn, -⟩, -⟩ := h.through
  have hmono := (now_le h1).1
  exact ⟨held_path h1 hs (by omega), hpn, by omega⟩

end Held

theorem timerRemainingSecs_eq (deadline now : ℕ) :
    timerRemainingSecs (some deadline) now
      = ((deadline - now + (nsPerSec - 1)) / nsPerSec : ℕ) := by
  have hns : nsPerSec = 1000000000 := rfl
  simp only [timerRemainingSecs, timerLeft, hns]
  split_ifs with h <;> omega

/-- Every "Busy" before the deadline says the time left. -/
theorem busy_after {tr : List (DriverState × Wake)} {s t : DriverState} {deadline : ℕ}
    (h : driverLts.Path s tr t) (hs : s.driver = ⟨true, some deadline⟩) {s' : DriverState}
    {w' : Wake} (hm : (s', w') ∈ tr) (hlt : w'.now < deadline) {n : ℤ}
    (hn : .busy n ∈ s'.answers w') :
    n = ((deadline - w'.now + (nsPerSec - 1)) / nsPerSec : ℕ) := by
  obtain ⟨hd, hle, -⟩ := held_after h hs hm hlt
  have hans := held_answers hd hle hlt hn
  rw [← timerRemainingSecs_eq]
  simpa using hans

/-- Only a task in range, sent to an idle driver, is answered OK, and it sets the timer. -/
theorem accept_of_ok {s s' : DriverState} {w : Wake} (hst : driverLts.step s w s')
    (hok : .ok ∈ s.answers w) :
    ∃ dgram, ∃ sec : ℕ, w.recv = some (.data dgram) ∧ (taskTimer (msgText dgram)).1 = sec ∧
      1 ≤ sec ∧ sec ≤ 86400 ∧ s'.now = w.now ∧
      s'.driver = ⟨true, some (w.now + sec * nsPerSec)⟩ := by
  obtain ⟨-, -, -, rfl⟩ := hst
  unfold DriverState.answers at hok
  rcases driverIter_cases s.driver w with ⟨he, -⟩ | ⟨-, b, rest, hr, he⟩
  · rw [he] at hok
    cases hok
  · rcases handleMsg_cases (timerBlock s.driver (timerPollin s.driver.tfd w.polled)) w.now
      (msgText (b :: rest)) with
      ⟨-, hm⟩ | ⟨-, hm⟩ | ⟨-, hm⟩ | hm | hm | ⟨-, -, sec, h1, h2, h3, hm⟩ <;>
      rw [he, hm] at hok <;> simp at hok
    exact ⟨_, sec, hr, h3, h1, h2, rfl, by rw [he, hm]⟩

/-- In a run an accepted task excludes others until its end, and the answers that refuse one change
nothing. -/
structure TasksExclusive (tr : List (DriverState × Wake)) : Prop where
  /-- From an accepted task of `sec` seconds on, until its end, no other is accepted, the driver is
  not available, and the time left it reports is right, at most `sec`, and does not grow. -/
  exclusive : ∀ tr₁ s w tr₂, tr = tr₁ ++ (s, w) :: tr₂ → .ok ∈ s.answers w →
    ∃ dgram, ∃ sec : ℕ, w.recv = some (.data dgram) ∧ (taskTimer (msgText dgram)).1 = sec ∧
      1 ≤ sec ∧ sec ≤ 86400 ∧
      (∀ s' w', (s', w') ∈ tr₂ → w'.now < w.now + sec * nsPerSec →
        .ok ∉ s'.answers w' ∧ .available ∉ s'.answers w' ∧
        ∀ n : ℤ, .busy n ∈ s'.answers w' →
          n = ((w.now + sec * nsPerSec - w'.now + (nsPerSec - 1)) / nsPerSec : ℕ) ∧ n ≤ sec) ∧
      ∀ tr₃ s' w' tr₄ s'' w'' tr₅ (n n' : ℤ), tr₂ = tr₃ ++ (s', w') :: (tr₄ ++ (s'', w'') :: tr₅) →
        w''.now < w.now + sec * nsPerSec → .busy n ∈ s'.answers w' → .busy n' ∈ s''.answers w'' →
        n' ≤ n
  /-- A message answered with the time left or an error leaves the flag and the timer as the timer
  block left them. -/
  unchanged : ∀ s w, (s, w) ∈ tr →
    ((∃ n, .busy n ∈ s.answers w) ∨ .badTimer ∈ s.answers w ∨ .unknownCommand ∈ s.answers w) →
    (driverIter s.driver w).driver = timerBlock s.driver (timerPollin s.driver.tfd w.polled)

/-- In every run the tasks a driver accepts do not overlap. -/
theorem driver_tasks_exclusive {tr : List (DriverState × Wake)} {t : DriverState}
    (h : driverLts.Run tr t) : TasksExclusive tr where
  exclusive := by
    rintro tr₁ s w tr₂ rfl hok
    obtain ⟨u, -, hst, hp⟩ := h.through
    obtain ⟨dgram, sec, hr, hsec, h1, h2, hnow, hu⟩ := accept_of_ok hst hok
    have hns : 0 < nsPerSec := by decide
    refine ⟨dgram, sec, hr, hsec, h1, h2, fun s' w' hm hlt => ?_, ?_⟩
    · obtain ⟨hd, hle, hge⟩ := held_after hp hu hm hlt
      refine ⟨fun hn => ?_, fun hn => ?_, fun n hn => ⟨busy_after hp hu hm hlt hn, ?_⟩⟩
      · simpa using held_answers hd hle hlt hn
      · simpa using held_answers hd hle hlt hn
      · rw [busy_after hp hu hm hlt hn]
        have hdiv : (w.now + sec * nsPerSec - w'.now + (nsPerSec - 1)) / nsPerSec ≤ sec := by
          rw [Nat.div_le_iff_le_mul_add_pred hns, Nat.mul_comm]
          omega
        exact_mod_cast hdiv
    · rintro tr₃ s' w' tr₄ s'' w'' tr₅ n n' rfl hlt hn hn'
      obtain ⟨u', -, hst', hp'⟩ := hp.through
      obtain ⟨u'', h4, hst'', -⟩ := hp'.through
      have hle : w'.now ≤ w''.now := by
        have h5 := (now_le h4).1
        rw [hst'.2.2.2] at h5
        have h6 : s''.now ≤ w''.polled := hst''.2.1
        have h7 : w''.polled ≤ w''.now := hst''.2.2.1
        simp only [] at h5
        omega
      rw [busy_after hp hu (by simp) (by omega) hn, busy_after hp hu (by simp) hlt hn']
      exact_mod_cast Nat.div_le_div_right (by omega)
  unchanged := by
    intro s w hm hans
    unfold DriverState.answers at hans
    rcases driverIter_cases s.driver w with ⟨-, he⟩ | ⟨-, b, rest, -, he⟩
    · exact he
    · rcases handleMsg_cases (timerBlock s.driver (timerPollin s.driver.tfd w.polled)) w.now
        (msgText (b :: rest)) with ⟨-, hm⟩ | ⟨-, hm⟩ | ⟨-, hm⟩ | hm | hm | ⟨-, -, sec, -, -, -, hm⟩
      all_goals rw [he, hm] at hans
      all_goals rw [he, hm]
      simp at hans

/-- A task of two seconds at 5 ns, and a status request a second and a half later. -/
theorem driver_tasks_exclusive_two_seconds :
    let s₀ : DriverState := ⟨⟨false, none⟩, 0, false⟩
    let w₀ : Wake := ⟨5, 5, false, some (.data (ascii "TASK 2"))⟩
    let s₁ : DriverState := ⟨⟨true, some 2000000005⟩, 5, false⟩
    let w₁ : Wake := ⟨1500000000, 1500000005, false, some (.data (ascii "STATUS"))⟩
    .ok ∈ s₀.answers w₀ ∧ .busy 1 ∈ s₁.answers w₁ ∧ TasksExclusive [(s₀, w₀), (s₁, w₁)] := by
  intro s₀ w₀ s₁ w₁
  have h₀ : (driverIter s₀.driver w₀) = ⟨⟨true, some 2000000005⟩, [.ok], false⟩ := by decide
  have h₁ : (driverIter s₁.driver w₁) = ⟨⟨true, some 2000000005⟩, [.busy 1], false⟩ := by decide
  refine ⟨by rw [DriverState.answers, h₀]; simp, by rw [DriverState.answers, h₁]; simp,
    driver_tasks_exclusive (t := ⟨⟨true, some 2000000005⟩, 1500000005, false⟩) ⟨s₀, ⟨rfl, rfl⟩,
      .cons (t := s₁) ⟨rfl, ?_, ?_, ?_⟩ (.single ⟨rfl, ?_, ?_, ?_⟩)⟩⟩
  · decide
  · decide
  · rw [h₀]
  · decide
  · decide
  · rw [h₁]

end EltexSystems
