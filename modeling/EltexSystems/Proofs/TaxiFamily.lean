import EltexSystems.Proofs.TaxiTable
import EltexSystems.Proofs.TaxiTask
import EltexSystems.TaxiFamily

/-!
# The processes of the taxi

No driver outlives the CLI, whether that returns, dies or is killed: the youngest driver that still
runs has its socket in no other process, so it finds the hang-up and exits even where its `QUIT` was
lost, and the wait of `shutdown_all` ends (`family_over`).  Before that the table is right about the
processes, except for what a misjudged event makes of it (`family_attended`).
-/

namespace EltexSystems

open CStr Lts Positions

section Messages

/-- What was sent between two tables is commands. -/
def Spoken (c c' : Cli) : Prop :=
  ∃ ms, c'.sent = c.sent ++ ms ∧ ∀ m ∈ ms, ∃ cmd : Command, m.2 = cmd.text

variable {c c' c'' : Cli} {e : LoopEnv}

theorem Spoken.of_eq (h : c'.sent = c.sent) : Spoken c c' :=
  ⟨[], by rw [h, List.append_nil], fun _ hm => absurd hm List.not_mem_nil⟩

theorem Spoken.trans (h : Spoken c c') (h' : Spoken c' c'') : Spoken c c'' := by
  obtain ⟨ms, h, hms⟩ := h
  obtain ⟨ms', h', hms'⟩ := h'
  refine ⟨ms ++ ms', by rw [h', h, List.append_assoc], fun m hm => ?_⟩
  exact (List.mem_append.mp hm).elim (hms m) (hms' m)

theorem Spoken.atEntry {i : ℕ} {f : DriverEntry → DriverEntry × List Effect}
    (hf : ∀ d, ∀ m ∈ (f d).2.filterMap Effect.message, ∃ cmd : Command, m.2 = cmd.text) :
    Spoken c (c.atEntry i f) := by
  unfold Cli.atEntry
  split
  · exact .of_eq rfl
  · rename_i d _
    exact ⟨_, sent_emit _ _, hf d⟩

theorem message_sendCmd (cmd : Command) (r : SendResult) (d : DriverEntry) :
    ∀ m ∈ (sendCmd cmd.text r d).2.filterMap Effect.message, ∃ cmd : Command, m.2 = cmd.text := by
  unfold sendCmd
  intro m hm
  split_ifs at hm
  · simp [noSuchDriver, Effect.message] at hm
  · cases r with
    | sent =>
      rw [List.mem_singleton.mp hm]
      exact ⟨cmd, rfl⟩
    | dead => simp [Effect.message, bury] at hm
    | failed => simp [Effect.message] at hm

theorem spoken_runCommand {cmd : CliCommand} (hc : runCommand c e cmd = some c') :
    Spoken c c' := by
  have hto : ∀ (pid : ℤ) (t : Command), Spoken c (cmdToDriver c pid t e) := by
    intro pid t
    unfold cmdToDriver
    split
    · exact .of_eq (sent_print c _)
    · refine .atEntry fun d m hm => ?_
      split_ifs at hm
      · simp [noSuchDriver, Effect.message] at hm
      · exact message_sendCmd t _ d m hm
  unfold runCommand at hc
  split at hc
  case h_2 =>
    unfold cmdCreateDriver at hc
    split at hc
    · cases hc
    · obtain ⟨c₁, h1, rfl⟩ := Option.map_eq_some_iff.mp hc
      refine .of_eq ((sent_print c₁ _).trans ?_)
      unfold Cli.sent
      rw [log_driversPush h1]
  all_goals cases hc
  case h_4 pid sec => exact hto pid _
  case h_6 pid => exact hto pid _
  case h_8 =>
    unfold cmdGetDrivers
    induction List.range c.drivers.length using List.reverseRecOn with
    | nil => exact .of_eq rfl
    | append_singleton is i ih =>
      rw [List.foldl_append]
      refine ih.trans (.atEntry fun d m hm => ?_)
      unfold statusEntry at hm
      split_ifs at hm
      · cases hm
      · exact message_sendCmd .status _ d m hm
  all_goals first
    | exact .of_eq rfl
    | exact .of_eq (sent_print c _)

/-- An iteration sends nothing but commands. -/
theorem spoken_mainIter (c : Cli) (e : LoopEnv) : Spoken c (mainIter c e).cli := by
  obtain ⟨-, -, ⟨-, heq | heq, -⟩ | ⟨revents, c', hc, heq, -⟩⟩ := mainIter_cases c e <;> rw [heq]
  · exact .of_eq (sent_reapChildren c e.reaped)
  · exact .of_eq (sent_prompted c e)
  · have h := Spoken.of_eq (sent_prompted c e)
    exact (h.trans (spoken_runCommand hc)).trans (.of_eq (sent_dispatch revents e.recv _ 1 c'))

theorem mem_sentSince {m : ℤ × List UInt8} (h : m ∈ sentSince c (mainIter c e).cli) :
    ∃ cmd : Command, m.2 = cmd.text := by
  obtain ⟨ms, hms, hcmd⟩ := spoken_mainIter c e
  unfold sentSince at h
  rw [hms, List.drop_left] at h
  exact hcmd m h

end Messages

section Entries

variable {c : Cli} {e : LoopEnv} {k : ℕ}

theorem getElem?_reapChild {p : ℤ} {d : DriverEntry}
    (hd : (reapChild c p).drivers[k]? = some d) :
    (reapChild c p).drivers.length = c.drivers.length ∧
      (c.drivers[k]? = some d ∨ d.alive = false ∧
        ∃ a, c.drivers[k]? = some a ∧ a.alive = true ∧ a.pid = p) := by
  unfold reapChild at hd ⊢
  rcases hi : c.drivers.findIdx? _ with _ | i
  · rw [hi] at hd
    exact ⟨rfl, .inl hd⟩
  · rw [hi] at hd
    refine ⟨length_atEntry c i _, ?_⟩
    simp only [drivers_atEntry] at hd
    obtain ⟨hlt, hp, -⟩ := List.findIdx?_eq_some_iff_getElem.mp hi
    split_ifs at hd with hk
    · obtain ⟨x, hx, rfl⟩ := Option.map_eq_some_iff.mp hd
      rw [(List.getElem?_eq_some_iff.mp hx).2, Bool.and_eq_true, beq_iff_eq] at hp
      exact .inr ⟨rfl, x, hk ▸ hx, hp⟩
    · exact .inl hd

theorem length_reapChildren (ps : List ℤ) :
    ∀ c : Cli, (reapChildren c ps).drivers.length = c.drivers.length := by
  unfold reapChildren
  induction ps with
  | nil => exact fun _ => rfl
  | cons p ps ih =>
    intro c
    rw [List.foldl_cons, ih]
    unfold reapChild
    split
    · rfl
    · exact length_atEntry c _ _

/-- The reaping leaves an entry as it is, or turns it off because its child was reaped. -/
theorem getElem?_reapChildren (ps : List ℤ) {d : DriverEntry} :
    ∀ c : Cli, (reapChildren c ps).drivers[k]? = some d →
      c.drivers[k]? = some d ∨ d.alive = false ∧
        ∃ a, c.drivers[k]? = some a ∧ a.alive = true ∧ a.pid ∈ ps := by
  unfold reapChildren
  induction ps with
  | nil => exact fun _ hd => .inl hd
  | cons p ps ih =>
    intro c hd
    rcases ih _ hd with hd' | ⟨hoff, a, ha, hal, hm⟩
    · rcases (getElem?_reapChild hd').2 with h | ⟨hoff, a, ha, hal, rfl⟩
      · exact .inl h
      · exact .inr ⟨hoff, a, ha, hal, List.mem_cons_self⟩
    · rcases (getElem?_reapChild ha).2 with h | ⟨hoff', -⟩
      · exact .inr ⟨hoff, a, h, hal, List.mem_cons_of_mem _ hm⟩
      · rw [hal] at hoff'
        cases hoff'

theorem handleDriverReadable_off {d : DriverEntry} (ha : d.alive = true) :
    ∀ {rs : List Recv}, (handleDriverReadable rs d).1.alive = false →
      .error ∈ rs ∨ .data [] ∈ rs
  | [], h => by rw [handleDriverReadable, ha] at h; cases h
  | .again :: _, h => by rw [handleDriverReadable, ha] at h; cases h
  | .error :: _, _ => .inl List.mem_cons_self
  | .data [] :: _, _ => .inr List.mem_cons_self
  | .data (_ :: _) :: rs, h =>
    (@handleDriverReadable_off d ha rs h).imp (List.mem_cons_of_mem _)
      (List.mem_cons_of_mem _)

theorem judge_off {d : DriverEntry} (ha : d.alive = true) {ev : Revents} {rs : List Recv}
    (h : (judge ev rs d).1.alive = false) :
    ev.hangup = true ∨ .error ∈ rs ∨ .data [] ∈ rs := by
  unfold judge at h
  split_ifs at h with hh
  · exact .inl hh
  · exact .inr (handleDriverReadable_off ha h)
  · rw [ha] at h
    cases h

/-- The dispatch leaves an entry as it is, or turns it off for what it found when judging it. -/
theorem getElem?_dispatch (revents : ℕ → Revents) (recv : ℕ → List Recv) :
    ∀ (is : List ℕ) (idx : ℕ) (c : Cli) {d : DriverEntry}, 0 < idx →
      (dispatch revents recv is idx c).1.drivers[k]? = some d →
      c.drivers[k]? = some d ∨ d.alive = false ∧
        ∃ a, c.drivers[k]? = some a ∧ a.alive = true ∧ d.pid = a.pid ∧ ∃ n, 0 < n ∧
          (k, n) ∈ (dispatch revents recv is idx c).2 ∧
          ((revents n).hangup = true ∨ .error ∈ recv k ∨ .data [] ∈ recv k)
  | [], _, _, _, _, hd => .inl hd
  | i :: is, idx, c, d, hidx, hd => by
    unfold dispatch at hd ⊢
    split_ifs at hd ⊢ with hal
    · obtain ⟨x, hx⟩ : ∃ x, c.drivers[i]? = some x := by
        rcases h : c.drivers[i]? with _ | x
        · rw [h] at hal
          cases hal
        · exact ⟨x, rfl⟩
      rw [hx] at hal
      have hset : ∀ y, c.drivers[i]? = some y → Settled y (judge (revents idx) (recv i) y) := by
        intro y hy
        cases hx.symm.trans hy
        exact judge_settled hal _ _
      rcases getElem?_dispatch revents recv is (idx + 1) _ (Nat.succ_pos idx) hd with
        hd' | ⟨hoff, a, ha, haa, hpid, n, hn, hm, hwhy⟩
      · rcases getElem?_settled hset hd' with h | ⟨hoff, -⟩
        · exact .inl h
        · rw [drivers_atEntry] at hd'
          split_ifs at hd' with hk
          · subst hk
            rw [hx] at hd'
            obtain rfl := Option.some.inj hd'
            exact .inr ⟨hoff, x, hx, hal, (hset x hx).pid, idx, hidx, List.mem_cons_self,
              judge_off hal hoff⟩
          · exact .inl hd'
      · refine .inr ⟨hoff, a, ?_, haa, hpid, n, hn, List.mem_cons_of_mem _ hm, hwhy⟩
        rcases getElem?_settled hset ha with h | ⟨hoff', -⟩
        · exact h
        · rw [haa] at hoff'
          cases hoff'
    · exact getElem?_dispatch revents recv is idx c hidx hd

theorem length_dispatch (revents : ℕ → Revents) (recv : ℕ → List Recv) :
    ∀ (is : List ℕ) (idx : ℕ) (c : Cli),
      (dispatch revents recv is idx c).1.drivers.length = c.drivers.length
  | [], _, _ => rfl
  | i :: is, idx, c => by
    unfold dispatch
    split_ifs
    · exact (length_dispatch revents recv is (idx + 1) _).trans (length_atEntry c i _)
    · exact length_dispatch revents recv is idx c

/-- An iteration that goes on has reported an event for the entry, judged it, or not called `poll`
for it at all. -/
theorem mainIter_split (c : Cli) (e : LoopEnv) : (mainIter c e).flow = .died ∨
    (forked e = none ∧ (mainIter c e).cli = prompted c e) ∨
    ∃ revents c', e.poll = .ready revents ∧
      runCommand (prompted c e) e (commandOf e) = some c' ∧
      (mainIter c e).cli = (dispatchAll c' e revents).1 ∧
      (mainIter c e).examined = (dispatchAll c' e revents).2 := by
  unfold mainIter forked commandOf
  rcases e.calloc with _ | _
  · exact .inl rfl
  · rcases e.poll with _ | _ | revents
    · exact .inr (.inl ⟨rfl, rfl⟩)
    · exact .inl rfl
    · simp only [Bool.not_true, Bool.false_eq_true, if_false]
      unfold afterPoll
      by_cases hin : (revents 0).pollin = true
      · rcases e.line with _ | line
        · rw [if_pos hin]
          exact .inr (.inl ⟨rfl, rfl⟩)
        · simp only [if_pos hin]
          by_cases hq : parseLine line = .quit
          · rw [if_pos hq, hq]
            exact .inr (.inl ⟨rfl, rfl⟩)
          · rw [if_neg hq]
            rcases hc : runCommand _ e (parseLine line) with _ | c'
            · exact .inl rfl
            · exact .inr (.inr ⟨revents, c', rfl, rfl, rfl, rfl⟩)
      · rw [if_neg hin]
        refine .inr (.inr ⟨revents, prompted c e, rfl, ?_, rfl, rfl⟩)
        rcases e.line with _ | line
        · rfl
        · simp only [hin]
          rfl

/-- What turns the `k`-th entry off in an iteration. -/
def TurnsOff (c : Cli) (e : LoopEnv) (k : ℕ) : Prop :=
  (∃ d, c.drivers[k]? = some d ∧ d.alive = true ∧ d.pid ∈ e.reaped) ∨ e.send k = .dead ∨
    (.error ∈ e.recv k ∨ .data [] ∈ e.recv k) ∨
    ∃ revents n d, e.poll = .ready revents ∧ 0 < n ∧ (k, n) ∈ (mainIter c e).examined ∧
      (revents n).hangup = true ∧ (mainIter c e).polled[k]? = some d ∧ d.alive = true

/-- What an iteration does to the entries of a table. -/
structure IterEntries (c : Cli) (e : LoopEnv) : Prop where
  length : (mainIter c e).cli.drivers.length = c.drivers.length + (forked e).toList.length
  kept : ∀ (k : ℕ) (d : DriverEntry), k < c.drivers.length →
    (mainIter c e).cli.drivers[k]? = some d → d.alive = true →
    ∃ a, (mainIter c e).polled[k]? = some a ∧ a.alive = true
  off : ∀ (k : ℕ) (a d : DriverEntry), c.drivers[k]? = some a → a.alive = true →
    (mainIter c e).cli.drivers[k]? = some d → d.alive = false → TurnsOff c e k
  fresh : ∀ pid fd, forked e = some (pid, fd) →
    ∃ d, (mainIter c e).cli.drivers[c.drivers.length]? = some d ∧ d.pid = pid ∧
      (d.alive = false → ∃ n, (c.drivers.length, n) ∈ (mainIter c e).examined)

variable {c' : Cli} {revents : ℕ → Revents}

theorem turnsOff_prompted {a d : DriverEntry} (ha : c.drivers[k]? = some a)
    (hal : a.alive = true) (hd : (prompted c e).drivers[k]? = some d) (hoff : d.alive = false) :
    TurnsOff c e k := by
  rcases getElem?_reapChildren e.reaped c hd with hd' | ⟨-, x, hx, hxa, hm⟩
  · cases ha.symm.trans hd'
    rw [hal] at hoff
    cases hoff
  · exact .inl ⟨x, hx, hxa, hm⟩

/-- What the dispatch turns off it has judged. -/
theorem getElem?_mainIter {d : DriverEntry}
    (heq : (mainIter c e).cli = (dispatchAll c' e revents).1)
    (hex : (mainIter c e).examined = (dispatchAll c' e revents).2)
    (hd : (mainIter c e).cli.drivers[k]? = some d) :
    c'.drivers[k]? = some d ∨ d.alive = false ∧ ∃ a n, c'.drivers[k]? = some a ∧
      a.alive = true ∧ d.pid = a.pid ∧ 0 < n ∧ (k, n) ∈ (mainIter c e).examined ∧
      ((revents n).hangup = true ∨ .error ∈ e.recv k ∨ .data [] ∈ e.recv k) := by
  rw [heq] at hd
  rw [hex]
  exact (getElem?_dispatch revents e.recv _ 1 c' Nat.one_pos hd).imp_right
    fun ⟨hoff, a, ha, hal, hpid, n, hn, hm, hwhy⟩ => ⟨hoff, a, n, ha, hal, hpid, hn, hm, hwhy⟩

theorem turnsOff_judged (hpoll : e.poll = .ready revents) {a : DriverEntry} {n : ℕ}
    (ha : (mainIter c e).polled[k]? = some a) (hal : a.alive = true) (hn : 0 < n)
    (hm : (k, n) ∈ (mainIter c e).examined)
    (hwhy : (revents n).hangup = true ∨ .error ∈ e.recv k ∨ .data [] ∈ e.recv k) :
    TurnsOff c e k :=
  hwhy.elim (fun hh => .inr (.inr (.inr ⟨revents, n, a, hpoll, hn, hm, hh, ha, hal⟩)))
    fun hr => .inr (.inr (.inl hr))

theorem iterEntries_create (hcreate : commandOf e = .createDriver)
    (hpoll : e.poll = .ready revents)
    (hc : cmdCreateDriver (prompted c e) e = some c')
    (heq : (mainIter c e).cli = (dispatchAll c' e revents).1)
    (hex : (mainIter c e).examined = (dispatchAll c' e revents).2) : IterEntries c e := by
  have hlen := length_reapChildren e.reaped c
  have hpol : (mainIter c e).polled = (prompted c e).drivers := (mainIter_cases c e).1
  have hlen' : (mainIter c e).cli.drivers.length = c'.drivers.length := by
    rw [heq]
    exact length_dispatch revents e.recv _ 1 c'
  obtain ⟨pid, fd, hs, hd', -⟩ := cmdCreateDriver_eq_some hc
  have hf : forked e = some (pid, fd) := (if_pos hcreate).trans hs
  have hget : ∀ (k : ℕ) (a : DriverEntry), k < c.drivers.length → c'.drivers[k]? = some a →
      (mainIter c e).polled[k]? = some a := by
    intro k a hk ha
    rw [hd'] at ha
    rw [hpol]
    exact (getElem?_concat_iff.mp ha).resolve_right fun hne => Nat.ne_of_lt hk (hne.1.trans hlen)
  refine ⟨?_, fun k d hk hd hal => ?_, fun k a d ha hal hd hoff => ?_, fun p n hpn => ?_⟩
  · rw [hlen', hd', List.length_append, hf]
    exact congrArg (· + 1) hlen
  · rcases getElem?_mainIter heq hex hd with hd | ⟨hoff, -⟩
    · exact ⟨d, hget k d hk hd, hal⟩
    · rw [hal] at hoff
      cases hoff
  · have hk := (List.getElem?_eq_some_iff.mp ha).1
    rcases getElem?_mainIter heq hex hd with hd | ⟨-, x, n, hx, hxa, -, hn, hm, hwhy⟩
    · exact turnsOff_prompted ha hal (hpol ▸ hget k d hk hd) hoff
    · exact turnsOff_judged hpoll (hget k x hk hx) hxa hn hm hwhy
  · obtain ⟨rfl, -⟩ := Prod.mk.inj (Option.some.inj (hf.symm.trans hpn))
    have hlast : c'.drivers[c.drivers.length]? = some ⟨pid, fd, true⟩ := by
      rw [hd']
      exact getElem?_concat_iff.mpr (.inr ⟨hlen.symm, rfl⟩)
    have hlt : c.drivers.length < (mainIter c e).cli.drivers.length := by
      rw [hlen']
      exact (List.getElem?_eq_some_iff.mp hlast).1
    refine ⟨_, List.getElem?_eq_getElem hlt, ?_⟩
    rcases getElem?_mainIter heq hex (List.getElem?_eq_getElem hlt) with
      hd | ⟨-, x, n, hx, -, hpid, -, hm, -⟩
    · rw [← Option.some.inj (hlast.symm.trans hd)]
      exact ⟨rfl, fun hoff => nomatch hoff⟩
    · cases hlast.symm.trans hx
      exact ⟨hpid, fun _ => ⟨n, hm⟩⟩

theorem iterEntries_run (hcreate : commandOf e ≠ .createDriver)
    (hpoll : e.poll = .ready revents)
    (hc : runCommand (prompted c e) e (commandOf e) = some c')
    (heq : (mainIter c e).cli = (dispatchAll c' e revents).1)
    (hex : (mainIter c e).examined = (dispatchAll c' e revents).2) : IterEntries c e := by
  have hlen := length_reapChildren e.reaped c
  have hpol : (mainIter c e).polled = (prompted c e).drivers := (mainIter_cases c e).1
  have hlen' : (mainIter c e).cli.drivers.length = c'.drivers.length := by
    rw [heq]
    exact length_dispatch revents e.recv _ 1 c'
  have hf : forked e = none := if_neg hcreate
  obtain ⟨hlc, halive⟩ := runCommand_drivers hcreate hc
  have hback : ∀ (k : ℕ) (a : DriverEntry), c'.drivers[k]? = some a →
      ∃ x, (mainIter c e).polled[k]? = some x ∧
        (a.alive = true ↔ x.alive = true ∧ ¬ (Addressed (prompted c e) (commandOf e) k ∧
          e.send k = .dead)) := by
    intro k a ha
    have hk := (List.getElem?_eq_some_iff.mp ha).1
    rw [hlc] at hk
    rw [hpol]
    exact ⟨_, List.getElem?_eq_getElem hk, halive k _ a (List.getElem?_eq_getElem hk) ha⟩
  refine ⟨?_, fun k d hk hd hal => ?_, fun k a d ha hal hd hoff => ?_,
    fun pid fd h => nomatch hf.symm.trans h⟩
  · rw [hlen', hlc, hf]
    exact hlen
  · rcases getElem?_mainIter heq hex hd with hd | ⟨hoff, -⟩
    · obtain ⟨x, hx, hiff⟩ := hback k d hd
      exact ⟨x, hx, (hiff.mp hal).1⟩
    · rw [hal] at hoff
      cases hoff
  · rcases getElem?_mainIter heq hex hd with hd | ⟨-, y, n, hy, hya, -, hn, hm, hwhy⟩
    · obtain ⟨x, hx, hiff⟩ := hback k d hd
      rcases hxa : x.alive with _ | _
      · exact turnsOff_prompted ha hal (hpol ▸ hx) hxa
      · by_contra hno
        have hdead : e.send k ≠ .dead := fun hs => hno (.inr (.inl hs))
        rw [hiff.mpr ⟨hxa, fun h => hdead h.2⟩] at hoff
        cases hoff
    · obtain ⟨x, hx, hiff⟩ := hback k y hy
      exact turnsOff_judged hpoll hx (hiff.mp hya).1 hn hm hwhy

theorem iterEntries (c : Cli) (e : LoopEnv) (h : (mainIter c e).flow ≠ .died) :
    IterEntries c e := by
  rcases (mainIter_split c e).resolve_left h with ⟨hf, heq⟩ | ⟨revents, c', hpoll, hc, heq, hex⟩
  · have hpol : (mainIter c e).polled = (prompted c e).drivers := (mainIter_cases c e).1
    refine ⟨by rw [heq, hf]; exact length_reapChildren e.reaped c, fun k d _ hd hal => ?_,
      fun k a d ha hal hd hoff => ?_, fun pid fd h => nomatch hf.symm.trans h⟩
    · exact ⟨d, by rw [hpol, ← heq, hd], hal⟩
    · exact turnsOff_prompted ha hal (heq ▸ hd) hoff
  · by_cases hcreate : commandOf e = .createDriver
    · rw [hcreate] at hc
      exact iterEntries_create hcreate hpoll hc heq hex
    · exact iterEntries_run hcreate hpoll hc heq hex

end Entries

section Invariant

variable {s s' : Family} {e : LoopEnv} {k : ℕ} {q : DriverProc}

/-- What ties the children to the table while the CLI has one. -/
structure FamilyTable (s : Family) : Prop where
  length : s.procs.length = s.taxi.cli.drivers.length
  pid : ∀ (k : ℕ) (q : DriverProc) (d : DriverEntry), s.procs[k]? = some q →
    s.taxi.cli.drivers[k]? = some d → q.pid = d.pid
  child : ∀ (k : ℕ) (q : DriverProc), s.procs[k]? = some q → q.reaped = false →
    q.pid ∈ s.taxi.children
  distinct : ∀ (i j : ℕ) (q r : DriverProc), s.procs[i]? = some q → s.procs[j]? = some r →
    q.reaped = false → r.reaped = false → q.pid = r.pid → i = j
  alive : ∀ (k : ℕ) (q : DriverProc) (d : DriverEntry), s.procs[k]? = some q →
    s.taxi.cli.drivers[k]? = some d → d.alive = true → q.reaped = false
  inbox : ∀ (k : ℕ) (q : DriverProc), s.procs[k]? = some q → ∀ m ∈ q.inbox,
    ∃ c : Command, m = c.text

structure FamilyInv (s : Family) : Prop where
  taxi : s.taxi.Inv
  stage : s.life ≠ .serving → s.taxi.stage = .ended
  inherited : ∀ (k : ℕ) (q : DriverProc), s.procs[k]? = some q → ∀ j ∈ q.inherited, j < k
  returned : s.life = .returned → ∀ q ∈ s.procs, q.reaped = true
  table : s.taxi.stage ≠ .ended → FamilyTable s

theorem reap_pid (ps : List ℤ) (q : DriverProc) : (q.reap ps).pid = q.pid := by
  unfold DriverProc.reap
  split_ifs <;> rfl

theorem reap_state (ps : List ℤ) (q : DriverProc) : (q.reap ps).state = q.state := by
  unfold DriverProc.reap
  split_ifs <;> rfl

theorem reap_inbox (ps : List ℤ) (q : DriverProc) : (q.reap ps).inbox = q.inbox := by
  unfold DriverProc.reap
  split_ifs <;> rfl

theorem reap_inherited (ps : List ℤ) (q : DriverProc) :
    (q.reap ps).inherited = q.inherited := by
  unfold DriverProc.reap
  split_ifs <;> rfl

theorem reap_reaped {ps : List ℤ} {q : DriverProc} (h : (q.reap ps).reaped = false) :
    q.reaped = false ∧ ¬ (q.state.exited = true ∧ q.pid ∈ ps) := by
  unfold DriverProc.reap at h
  split_ifs at h with hc
  exact ⟨h, by simpa using hc⟩

theorem reap_unreaped {ps : List ℤ} {q : DriverProc} (h : q.reaped = false) (hm : q.pid ∉ ps) :
    (q.reap ps).reaped = false := by
  unfold DriverProc.reap
  rw [if_neg (by simp [hm])]
  exact h

theorem getElem?_deliver {drivers : List DriverEntry} {msgs : List (ℤ × List UInt8)}
    {procs : List DriverProc} (h : (deliver drivers msgs procs)[k]? = some q) :
    ∃ r, procs[k]? = some r ∧ q = { r with inbox := r.inbox ++ mailFor drivers k msgs } := by
  unfold deliver at h
  rw [List.getElem?_mapIdx] at h
  obtain ⟨r, hr, rfl⟩ := Option.map_eq_some_iff.mp h
  exact ⟨r, hr, rfl⟩

theorem length_deliver (drivers : List DriverEntry) (msgs : List (ℤ × List UInt8))
    (procs : List DriverProc) : (deliver drivers msgs procs).length = procs.length :=
  List.length_mapIdx

theorem mem_mailFor {drivers : List DriverEntry} {msgs : List (ℤ × List UInt8)} {m : List UInt8}
    (h : m ∈ mailFor drivers k msgs) : ∃ x ∈ msgs, x.2 = m := by
  obtain ⟨x, hx, rfl⟩ := List.mem_map.mp h
  exact ⟨x, (List.mem_filter.mp hx).1, rfl⟩

theorem lt_of_mem_openEntries {drivers : List DriverEntry} {j : ℕ} (h : j ∈ openEntries drivers) :
    j < drivers.length :=
  List.mem_range.mp (List.mem_filter.mp h).1

/-- A child after an iteration is one from before, reaped perhaps and with its messages, or the one
that was forked. -/
theorem getElem?_iterate (h : (s.iterate e).procs[k]? = some q) :
    (∃ r, s.procs[k]? = some r ∧ ∃ ms, (∀ m ∈ ms, ∃ c : Command, m = c.text) ∧
      q = { r.reap e.reaped with inbox := r.inbox ++ ms }) ∨
    k = s.procs.length ∧ ∃ pid fd, forked e = some (pid, fd) ∧
      q = DriverProc.fork (mainIter s.taxi.cli e).polled pid := by
  have hlen := length_deliver (mainIter s.taxi.cli e).polled
    (sentSince s.taxi.cli (s.taxi.iterate e).cli) (s.procs.map (DriverProc.reap e.reaped))
  rw [List.length_map] at hlen
  have hold : (deliver (mainIter s.taxi.cli e).polled
      (sentSince s.taxi.cli (s.taxi.iterate e).cli) (s.procs.map (DriverProc.reap e.reaped)))[k]?
        = some q → ∃ r, s.procs[k]? = some r ∧ ∃ ms, (∀ m ∈ ms, ∃ c : Command, m = c.text) ∧
      q = { r.reap e.reaped with inbox := r.inbox ++ ms } := by
    intro h
    obtain ⟨r', hr', rfl⟩ := getElem?_deliver h
    rw [List.getElem?_map] at hr'
    obtain ⟨r, hr, rfl⟩ := Option.map_eq_some_iff.mp hr'
    refine ⟨r, hr, _, fun m hm => ?_, by rw [reap_inbox]⟩
    obtain ⟨x, hx, rfl⟩ := mem_mailFor hm
    exact mem_sentSince hx
  unfold Family.iterate at h
  rcases hf : forked e with _ | ⟨pid, fd⟩
  · simp only [hf, Option.map_none, Option.toList_none, List.append_nil] at h
    exact .inl (hold h)
  · simp only [hf, Option.map_some, Option.toList_some] at h
    rcases getElem?_concat_iff.mp h with h | ⟨rfl, rfl⟩
    · exact .inl (hold h)
    · exact .inr ⟨hlen, pid, fd, rfl, rfl⟩

/-- A child that `waitpid` gives has exited. -/
theorem exited_of_reaped (hT : FamilyTable s) (ho : Observed s e) (hq : s.procs[k]? = some q)
    (hr : q.reaped = false) (hm : q.pid ∈ e.reaped) : q.state.exited = true := by
  obtain ⟨j, r, hj, hpid, hx, hrr⟩ := ho.reaped _ hm
  have hjk := hT.distinct j k r q hj hq hrr hr hpid
  rw [hjk, hq] at hj
  rw [Option.some.inj hj]
  exact hx

theorem unreaped_mem (hT : FamilyTable s) (ho : Observed s e) (hq : s.procs[k]? = some q)
    (hr : (q.reap e.reaped).reaped = false) : q.pid ∈ s.taxi.unreaped e := by
  obtain ⟨hq0, hne⟩ := reap_reaped hr
  refine List.mem_filter.mpr ⟨hT.child k q hq hq0, decide_eq_true fun hm => hne ⟨?_, hm⟩⟩
  exact exited_of_reaped hT ho hq hq0 hm

theorem flow_of_stage (h : (s.taxi.iterate e).stage ≠ .ended) :
    (mainIter s.taxi.cli e).flow ≠ .died := by
  intro hf
  refine h ?_
  unfold Taxi.iterate
  rw [hf]

theorem FamilyTable.iterate (hI : s.taxi.Inv) (hT : FamilyTable s) (hk : Kernel s.taxi e)
    (ho : Observed s e) (hend : (s.taxi.iterate e).stage ≠ .ended) :
    FamilyTable (s.iterate e) := by
  have hE := iterEntries s.taxi.cli e (flow_of_stage hend)
  have hpids := (hI.iterate hk).2
  have hpol : (mainIter s.taxi.cli e).polled = (reapChildren s.taxi.cli e.reaped).drivers :=
    (mainIter_cases s.taxi.cli e).1
  have hreaped : TableInv (reapChildren s.taxi.cli e.reaped) (s.taxi.unreaped e) _ :=
    (hI.reapChildren e.reaped).inv
  have hfresh : ∀ (k : ℕ) (q : DriverProc) (pid fd : ℤ), s.procs[k]? = some q →
      (q.reap e.reaped).reaped = false → forked e = some (pid, fd) → q.pid ≠ pid :=
    fun k q pid fd hq hr hf hpid => hk.pid pid fd hf (hpid ▸ unreaped_mem hT ho hq hr)
  refine ⟨?_, fun k q d hq hd => ?_, fun k q hq hr => ?_, fun i j q r hq hr hqr hrr hpid => ?_,
    fun k q d hq hd ha => ?_, fun k q hq m hm => ?_⟩
  · show (deliver _ _ _ ++ _).length = (mainIter s.taxi.cli e).cli.drivers.length
    rw [List.length_append, length_deliver, List.length_map, hE.length, hT.length]
    rcases forked e with _ | _ <;> rfl
  · rcases getElem?_iterate hq with ⟨r, hr, ms, -, rfl⟩ | ⟨rfl, pid, fd, hf, rfl⟩
    · obtain ⟨a, ha⟩ : ∃ a, s.taxi.cli.drivers[k]? = some a :=
        ⟨_, List.getElem?_eq_getElem (hT.length ▸ (List.getElem?_eq_some_iff.mp hr).1)⟩
      have hap : s.taxi.pids[k]? = some a.pid := by
        unfold Taxi.pids
        rw [List.getElem?_map, ha]
        rfl
      have hdp : (s.taxi.iterate e).pids[k]? = some d.pid := by
        unfold Taxi.pids
        rw [List.getElem?_map]
        exact congrArg (Option.map DriverEntry.pid) hd
      obtain ⟨t, ht⟩ := hpids
      rw [← ht, List.getElem?_append_left (List.getElem?_eq_some_iff.mp hap).1, hap] at hdp
      show (r.reap e.reaped).pid = d.pid
      rw [reap_pid, hT.pid k r a hr ha, Option.some.inj hdp]
    · obtain ⟨x, hx, hpid, -⟩ := hE.fresh pid fd hf
      rw [← hT.length] at hx
      cases hx.symm.trans hd
      exact hpid.symm
  · rcases getElem?_iterate hq with ⟨r, hr', ms, -, rfl⟩ | ⟨rfl, pid, fd, hf, rfl⟩
    · refine List.mem_append_left _ ?_
      show (r.reap e.reaped).pid ∈ _
      rw [reap_pid]
      exact unreaped_mem hT ho hr' hr
    · refine List.mem_append_right _ ?_
      rw [hf]
      exact List.mem_singleton_self _
  · rcases getElem?_iterate hq with ⟨q₀, hq₀, ms, -, rfl⟩ | ⟨rfl, pid, fd, hf, rfl⟩ <;>
      rcases getElem?_iterate hr with ⟨r₀, hr₀, ms', -, rfl⟩ | ⟨rfl, pid', fd', hf', rfl⟩
    · simp only [reap_pid] at hpid
      exact hT.distinct i j q₀ r₀ hq₀ hr₀ (reap_reaped hqr).1 (reap_reaped hrr).1 hpid
    · simp only [reap_pid] at hpid
      exact absurd hpid (hfresh i q₀ pid' fd' hq₀ hqr hf')
    · simp only [reap_pid] at hpid
      exact absurd hpid.symm (hfresh j r₀ pid fd hr₀ hrr hf)
    · rfl
  · rcases getElem?_iterate hq with ⟨r, hr, ms, -, rfl⟩ | ⟨rfl, pid, fd, hf, rfl⟩
    · have hlt := hT.length ▸ (List.getElem?_eq_some_iff.mp hr).1
      obtain ⟨a, hpa, haa⟩ := hE.kept k d hlt hd ha
      rw [hpol] at hpa
      have hsame : s.taxi.cli.drivers[k]? = some a :=
        (getElem?_reapChildren e.reaped _ hpa).resolve_right fun h => by
          rw [haa] at h
          cases h.1
      refine reap_unreaped (hT.alive k r a hr hsame haa) fun hm => ?_
      rcases hreaped.entry k a hpa with ⟨-, -, hch⟩ | ⟨hoff, -⟩
      · rw [← hT.pid k r a hr hsame] at hch
        exact of_decide_eq_true (List.mem_filter.mp hch).2 hm
      · rw [haa] at hoff
        cases hoff
    · rfl
  · rcases getElem?_iterate hq with ⟨r, hr, ms, hms, rfl⟩ | ⟨rfl, pid, fd, hf, rfl⟩
    · rcases List.mem_append.mp hm with hm | hm
      · exact hT.inbox k r hr m hm
      · exact hms m hm
    · cases hm

/-- A child goes on, without another pid, more messages or more descriptors. -/
theorem FamilyInv.set (hI : FamilyInv s) {r : DriverProc} (hr : s.procs[k]? = some r)
    (hpid : q.pid = r.pid) (hinh : q.inherited = r.inherited) (hre : q.reaped = r.reaped)
    (hin : q.inbox ⊆ r.inbox) : FamilyInv { s with procs := s.procs.set k q } := by
  -- every child is as one before it in all that the invariant speaks of
  have hback : ∀ (i : ℕ) (x : DriverProc), (s.procs.set k q)[i]? = some x →
      ∃ y, s.procs[i]? = some y ∧ x.pid = y.pid ∧ x.inherited = y.inherited ∧
        x.reaped = y.reaped ∧ x.inbox ⊆ y.inbox := by
    intro i x hx
    rcases getElem?_set_cases hx with ⟨rfl, rfl⟩ | ⟨-, hx⟩
    · exact ⟨r, hr, hpid, hinh, hre, hin⟩
    · exact ⟨x, hx, rfl, rfl, rfl, fun m hm => hm⟩
  refine ⟨hI.taxi, hI.stage, fun i x hx j hj => ?_, fun hl x hx => ?_, fun hend => ?_⟩
  · obtain ⟨y, hy, -, hi, -⟩ := hback i x hx
    exact hI.inherited i y hy j (hi ▸ hj)
  · obtain ⟨i, hi⟩ := List.mem_iff_getElem?.mp hx
    obtain ⟨y, hy, -, -, hre, -⟩ := hback i x hi
    rw [hre]
    exact hI.returned hl y (List.mem_of_getElem? hy)
  · have hT := hI.table hend
    refine ⟨by rw [← hT.length]; exact List.length_set, fun i x d hx hd => ?_, fun i x hx hre => ?_,
      fun i j x x' hx hx' hre hre' hp => ?_, fun i x d hx hd ha => ?_, fun i x hx m hm => ?_⟩
    · obtain ⟨y, hy, hp, -⟩ := hback i x hx
      rw [hp]
      exact hT.pid i y d hy hd
    · obtain ⟨y, hy, hp, -, hr, -⟩ := hback i x hx
      rw [hp]
      exact hT.child i y hy (hr ▸ hre)
    · obtain ⟨y, hy, hyp, -, hyr, -⟩ := hback i x hx
      obtain ⟨y', hy', hyp', -, hyr', -⟩ := hback j x' hx'
      exact hT.distinct i j y y' hy hy' (hyr ▸ hre) (hyr' ▸ hre') (hyp ▸ hyp' ▸ hp)
    · obtain ⟨y, hy, -, -, hr, -⟩ := hback i x hx
      rw [hr]
      exact hT.alive i y d hy hd ha
    · obtain ⟨y, hy, -, -, -, hi⟩ := hback i x hx
      exact hT.inbox i y hy m (hi hm)

theorem after_inbox (q : DriverProc) (w : Wake) (d : DriverState) :
    (q.after w d).inbox ⊆ q.inbox := by
  unfold DriverProc.after
  simp only []
  split_ifs
  · exact List.tail_subset q.inbox
  · exact fun m hm => hm

theorem FamilyInv.iterate (hI : FamilyInv s) (hl : s.life = .serving)
    (hrun : s.taxi.stage = .running) (hk : Kernel s.taxi e) (ho : Observed s e) :
    FamilyInv (s.iterate e) := by
  have hT := hI.table (by rw [hrun]; decide)
  have hpol : (mainIter s.taxi.cli e).polled.length = s.procs.length := by
    rw [(mainIter_cases s.taxi.cli e).1, length_reapChildren, hT.length]
  refine ⟨(hI.taxi.iterate hk).1, fun h => absurd hl h, fun k q hq j hj => ?_, fun h => ?_,
    fun hend => hT.iterate hI.taxi hk ho hend⟩
  · rcases getElem?_iterate hq with ⟨r, hr, ms, -, rfl⟩ | ⟨rfl, pid, fd, -, rfl⟩
    · exact hI.inherited k r hr j (reap_inherited e.reaped r ▸ hj)
    · exact hpol ▸ lt_of_mem_openEntries hj
  · exact nomatch hl.symm.trans h

theorem FamilyInv.shutdown (hI : FamilyInv s) (send : ℕ → SendResult) :
    FamilyInv (s.shutdown send) := by
  refine ⟨(hI.taxi.shutdown send).1, fun _ => rfl, fun k q hq j hj => ?_, nofun,
    fun hend => absurd rfl hend⟩
  obtain ⟨r, hr, rfl⟩ := getElem?_deliver hq
  exact hI.inherited k r hr j hj

theorem familyInv_step {l : FamilyLabel} (hI : FamilyInv s) (h : FamilyStep s l s') :
    FamilyInv s' := by
  cases h with
  | iter hl hrun hk ho => exact hI.iterate hl hrun hk ho
  | shutdown send => exact hI.shutdown send
  | @wait k q hl hq hx hr =>
    have hend : s.taxi.stage = .ended := hI.stage (by rw [hl]; decide)
    refine ⟨hI.taxi, hI.stage, fun i x hx j hj => ?_, fun h => (nomatch hl.symm.trans h),
      fun h => absurd hend h⟩
    rcases getElem?_set_cases hx with ⟨rfl, rfl⟩ | ⟨-, hx⟩
    · exact hI.inherited i q hq j hj
    · exact hI.inherited i x hx j hj
  | finish hl hr =>
    have hend : s.taxi.stage = .ended := hI.stage (by rw [hl]; decide)
    exact ⟨hI.taxi, fun _ => hend, hI.inherited, fun _ => hr, fun h => absurd hend h⟩
  | abort => exact ⟨hI.taxi, fun _ => rfl, hI.inherited, nofun, fun h => absurd rfl h⟩
  | @pass k q w d hq => exact hI.set hq rfl rfl rfl (after_inbox q w d)
  | @dies k q hq => exact hI.set hq rfl rfl rfl fun m hm => hm

theorem familyInv_run {tr : List (Family × FamilyLabel)} (h : familyLts.Run tr s) :
    FamilyInv s := by
  refine h.inv (I := FamilyInv) ?_ fun s l s' hI hst => familyInv_step hI hst
  rintro s rfl
  have htaxi : taxiLts.Run [] ⟨⟨[], 0, [], []⟩, [], [], .running⟩ := ⟨_, rfl, .nil _⟩
  exact ⟨taxiInv_run htaxi, fun h => absurd rfl h, nofun, nofun,
    fun _ => ⟨rfl, nofun, nofun, nofun, nofun, nofun⟩⟩

end Invariant

section Attended

variable {s s' : Family} {e : LoopEnv} {k : ℕ} {q : DriverProc}
  {tr : List (Family × FamilyLabel)}

/-- Between an entry that is alive and one turned off lies a driver that has exited, or an event
that was not its own. -/
theorem misjudged_of_off (hT : FamilyTable s) (ho : Observed s e) (hq : s.procs[k]? = some q)
    (hx : q.state.exited = false) {a : DriverEntry} (ha : s.taxi.cli.drivers[k]? = some a)
    (hal : a.alive = true) (h : TurnsOff s.taxi.cli e k) : Misjudges s e k := by
  have hnot : q.state.exited ≠ true := by rw [hx]; decide
  rcases h with ⟨d, hd, -, hm⟩ | hs | hr | ⟨revents, n, d, hpoll, hn, hm, hh, hd, hda⟩
  · cases ha.symm.trans hd
    have hpid := hT.pid k q a hq ha
    exact absurd (exited_of_reaped hT ho hq (hT.alive k q a hq ha hal) (hpid ▸ hm)) hnot
  · exact absurd (ho.send k q hq hs) hnot
  · exact absurd (ho.recv k q hq hr) hnot
  · refine ⟨n, hm, fun d' hd' hfd => hnot ?_⟩
    cases hd.symm.trans hd'
    exact ho.hangup revents hpoll k n q d hq hd hda hn hfd hh

theorem Attended.iterate (hI : FamilyInv s) (hA : Attended tr s) (hrun : s.taxi.stage = .running)
    (hk : Kernel s.taxi e) (ho : Observed s e) (hend : (s.taxi.iterate e).stage ≠ .ended) :
    Attended (tr ++ [(s, .iter e)]) (s.iterate e) := by
  have hT := hI.table (by rw [hrun]; decide)
  have hT' := hT.iterate hI.taxi hk ho hend
  have hE := iterEntries s.taxi.cli e (flow_of_stage hend)
  refine ⟨fun k d hd ha hno => ?_, fun k q hq hx => ?_⟩
  · obtain ⟨q, hq⟩ : ∃ q, (s.iterate e).procs[k]? = some q :=
      ⟨_, List.getElem?_eq_getElem (hT'.length ▸ (List.getElem?_eq_some_iff.mp hd).1)⟩
    refine ⟨q, hq, hT'.pid k q d hq hd, ?_⟩
    rcases getElem?_iterate hq with ⟨r, hr, ms, -, rfl⟩ | ⟨-, pid, fd, -, rfl⟩
    · obtain ⟨a, hpa, haa⟩ := hE.kept k d (hT.length ▸ (List.getElem?_eq_some_iff.mp hr).1) hd ha
      rw [(mainIter_cases s.taxi.cli e).1] at hpa
      have hsame := (getElem?_reapChildren e.reaped _ hpa).resolve_right fun h => by
        rw [haa] at h
        cases h.1
      obtain ⟨r', hr', -, hx⟩ := hA.runs k a hsame haa fun p hp =>
        hno p (List.mem_append_left _ hp)
      cases hr.symm.trans hr'
      show (r.reap e.reaped).state.exited = false
      rw [reap_state, hx]
    · rfl
  · obtain ⟨d, hd⟩ : ∃ d, (s.iterate e).taxi.cli.drivers[k]? = some d :=
      ⟨_, List.getElem?_eq_getElem (hT'.length ▸ (List.getElem?_eq_some_iff.mp hq).1)⟩
    rcases hda : d.alive with _ | _
    · refine .inr ?_
      have hnow : ∀ k, Misjudges s e k →
          ∃ p ∈ tr ++ [(s, .iter e)], ∃ e, p.2 = .iter e ∧ Misjudges p.1 e k := fun k hm =>
        ⟨_, List.mem_append_right _ (List.mem_singleton_self _), e, rfl, hm⟩
      rcases getElem?_iterate hq with ⟨r, hr, ms, -, rfl⟩ | ⟨rfl, pid, fd, hf, rfl⟩
      · have hxr : r.state.exited = false := by
          rw [← reap_state e.reaped r]
          exact hx
        rcases hA.known k r hr hxr with ⟨a, ha, haa⟩ | ⟨p, hp, hm⟩
        · exact hnow k (misjudged_of_off hT ho hr hxr ha haa (hE.off k a d ha haa hd hda))
        · exact ⟨p, List.mem_append_left _ hp, hm⟩
      · obtain ⟨x, hx', -, hoff⟩ := hE.fresh pid fd hf
        rw [← hT.length] at hx'
        cases hx'.symm.trans hd
        obtain ⟨n, hn⟩ := hoff hda
        rw [← hT.length] at hn
        refine hnow _ ⟨n, hn, fun y hy => ?_⟩
        rw [(mainIter_cases s.taxi.cli e).1] at hy
        have := (List.getElem?_eq_some_iff.mp hy).1
        rw [length_reapChildren, ← hT.length] at this
        exact absurd this (lt_irrefl _)
    · exact .inl ⟨d, hd, hda⟩

/-- While the CLI holds a driver's socket the driver does not end in a pass. -/
theorem stays_in_pass (hI : FamilyInv s) (hend : s.taxi.stage ≠ .ended)
    (hq : s.procs[k]? = some q) {w : Wake} (hw : s.Wakes k q w) {d : DriverEntry}
    (hd : s.taxi.cli.drivers[k]? = some d) (ha : d.alive = true) :
    (driverIter q.state.driver w).exit = false := by
  have hfd : 0 ≤ d.fd := (hI.taxi.entry k d hd).alive_iff.mp ha
  have hheld : s.held k = true := by
    unfold Family.held Family.cliHolds
    rw [hd]
    simp [hend, hfd]
  unfold Family.Wakes at hw
  rw [if_pos hheld] at hw
  obtain ⟨hh, hr⟩ := hw
  rcases hrecv : w.recv with _ | r
  · rw [driverIter_idle hh (.inl hrecv)]
  · rw [hrecv] at hr
    obtain ⟨m, hm, rfl⟩ := hr
    obtain ⟨c, rfl⟩ := (hI.table hend).inbox k q hq m (List.mem_of_mem_head? hm)
    rw [driverIter_serve hh hrecv]
    exact handleMsg_exit c.not_quit

theorem attended_step {l : FamilyLabel} (hI : FamilyInv s)
    (hA : s.taxi.stage ≠ .ended → Attended tr s) (h : FamilyStep s l s')
    (hend : s'.taxi.stage ≠ .ended) : Attended (tr ++ [(s, l)]) s' := by
  have hmore : ∀ {k : ℕ}, (∀ p ∈ tr ++ [(s, l)], p.2 ≠ .dies k) → ∀ p ∈ tr, p.2 ≠ .dies k :=
    fun hno p hp => hno p (List.mem_append_left _ hp)
  have hkeep : ∀ {k : ℕ}, (∃ p ∈ tr, ∃ e, p.2 = FamilyLabel.iter e ∧ Misjudges p.1 e k) →
      ∃ p ∈ tr ++ [(s, l)], ∃ e, p.2 = FamilyLabel.iter e ∧ Misjudges p.1 e k :=
    fun ⟨p, hp, hm⟩ => ⟨p, List.mem_append_left _ hp, hm⟩
  cases h with
  | iter hl hrun hk ho => exact (hA (by rw [hrun]; decide)).iterate hI hrun hk ho hend
  | shutdown => exact absurd rfl hend
  | wait hl => exact absurd (hI.stage (by rw [hl]; decide)) hend
  | finish hl => exact absurd (hI.stage (by rw [hl]; decide)) hend
  | abort => exact absurd rfl hend
  | @pass k q w d hq hw hst =>
    refine ⟨fun i x hx ha hno => ?_, fun i r hr hxr => ?_⟩
    · obtain ⟨r, hr, hpid, hrun⟩ := (hA hend).runs i x hx ha (hmore hno)
      by_cases hik : i = k
      · subst hik
        cases hq.symm.trans hr
        refine ⟨_, List.getElem?_set_self (List.getElem?_eq_some_iff.mp hq).1, hpid, ?_⟩
        show d.exited = false
        rw [hst.2.2.2]
        exact stays_in_pass hI hend hq hw hx ha
      · exact ⟨r, (List.getElem?_set_ne (Ne.symm hik)).trans hr, hpid, hrun⟩
    · rcases getElem?_set_cases hr with ⟨rfl, rfl⟩ | ⟨-, hr⟩
      · exact ((hA hend).known i q hq hst.1).imp_right hkeep
      · exact ((hA hend).known i r hr hxr).imp_right hkeep
  | @dies k q hq =>
    refine ⟨fun i x hx ha hno => ?_, fun i r hr hxr => ?_⟩
    · obtain ⟨r, hr, hpid, hrun⟩ := (hA hend).runs i x hx ha (hmore hno)
      have hik : i ≠ k := by
        rintro rfl
        exact hno _ (List.mem_append_right _ (List.mem_singleton_self _)) rfl
      exact ⟨r, (List.getElem?_set_ne (Ne.symm hik)).trans hr, hpid, hrun⟩
    · rcases getElem?_set_cases hr with ⟨rfl, rfl⟩ | ⟨-, hr⟩
      · cases hxr
      · exact ((hA hend).known i r hr hxr).imp_right hkeep

/-- In every run, as long as the CLI has not closed its table: an alive entry's process runs unless
it ended for reasons of its own, and a process that runs has an alive entry unless the CLI judged it
by another descriptor's events. -/
theorem family_attended (h : familyLts.Run tr s) (hend : s.taxi.stage ≠ .ended) :
    Attended tr s := by
  have hall : FamilyInv s ∧ (s.taxi.stage ≠ .ended → Attended tr s) := by
    refine h.induction (P := fun tr s => FamilyInv s ∧ (s.taxi.stage ≠ .ended → Attended tr s))
      ?_ fun tr s l t hrun hP hst => ?_
    · rintro s rfl
      have hempty : familyLts.Run [] _ := ⟨_, rfl, .nil _⟩
      exact ⟨familyInv_run hempty, fun _ => ⟨nofun, nofun⟩⟩
    · exact ⟨familyInv_step hP.1 hst, attended_step hP.1 hP.2 hst⟩
  exact hall.2 hend

/-- Driver 41 is created, and its process is the one there is. -/
theorem family_attended_first : ∃ (tr : _) (s : Family), familyLts.Run tr s ∧
    s.procs.map DriverProc.pid = [41] ∧ Attended tr s := by
  have hstep : familyLts.step ⟨⟨⟨[], 0, [], []⟩, [], [], .running⟩, [], .serving⟩
      (.iter (typed "create_driver\n" 41 3)) _ :=
    .iter rfl rfl (.of_some 41 3 (by decide) (by decide) (by decide))
      ⟨nofun, nofun, nofun, nofun⟩
  have hrun : familyLts.Run _ _ := ⟨_, rfl, .single hstep⟩
  exact ⟨_, _, hrun, by decide, family_attended hrun (by decide)⟩

end Attended

section End

variable {s s' : Family} {k : ℕ} {q : DriverProc}

/-- What a driver can still do: take its messages, let its timer run out, exit. -/
def DriverProc.work (q : DriverProc) : ℕ :=
  if q.state.exited then 0
  else 1 + 2 * q.inbox.length + if q.state.driver.tfd.isSome then 1 else 0

theorem work_of_running (hx : q.state.exited = false) :
    q.work = 1 + 2 * q.inbox.length + if q.state.driver.tfd.isSome then 1 else 0 := by
  unfold DriverProc.work
  rw [hx, if_neg Bool.false_ne_true]

theorem work_of_exited (hx : q.state.exited = true) : q.work = 0 := if_pos hx

theorem work_le (q : DriverProc) : q.work ≤ 2 + 2 * q.inbox.length := by
  unfold DriverProc.work
  split_ifs <;> omega

/-- What is left to do of a driver, its reaping included. -/
def DriverProc.left (q : DriverProc) : ℕ := q.work + if q.reaped then 0 else 1

def Family.left (s : Family) : ℕ :=
  (s.procs.map DriverProc.left).sum + if s.life = .waiting then 1 else 0

theorem sum_set_lt {l : List DriverProc} {r : DriverProc} (hk : l[k]? = some q)
    (hlt : r.left < q.left) :
    ((l.set k r).map DriverProc.left).sum < (l.map DriverProc.left).sum := by
  have h := @sum_map_set _ l DriverProc.left q r k hk
  omega

theorem work_after {w : Wake} {d : DriverState} (hw : s.Wakes k q w)
    (hst : driverLts.step q.state w d) : (q.after w d).work < q.work := by
  obtain ⟨hx, -, -, rfl⟩ := hst
  rw [work_of_running hx]
  unfold Family.Wakes at hw
  split_ifs at hw with hheld
  · obtain ⟨hh, hr⟩ := hw
    rcases hrecv : w.recv with _ | r
    · -- the timer ran out, and the pass disarms it
      rw [hrecv] at hr
      have htfd : q.state.driver.tfd.isSome = true := by
        unfold timerPollin at hr
        rcases hd : q.state.driver.tfd with _ | deadline
        · rw [hd] at hr
          cases hr
        · rfl
      have hpass := driverIter_idle (d := q.state.driver) hh (.inl hrecv)
      rw [show timerPollin q.state.driver.tfd w.polled = true from hr] at hpass
      unfold DriverProc.after
      rw [hpass, hrecv, work_of_running rfl, htfd]
      simp [timerBlock, timerSetSecs]
    · -- a message is taken
      rw [hrecv] at hr
      obtain ⟨m, hm, -⟩ := hr
      have hlen : 0 < q.inbox.length := List.length_pos_of_mem (List.mem_of_mem_head? hm)
      refine (work_le _).trans_lt ?_
      have htail : (q.after w ⟨(driverIter q.state.driver w).driver, w.now,
          (driverIter q.state.driver w).exit⟩).inbox = q.inbox.tail := by
        unfold DriverProc.after
        rw [hrecv]
        rfl
      rw [htail, List.length_tail]
      omega
  · have hexit : (driverIter q.state.driver w).exit = true := by
      unfold driverIter
      rw [hw.1]
      rfl
    rw [work_of_exited hexit]
    omega

theorem left_pass {w : Wake} {d : DriverState} (hq : s.procs[k]? = some q) (hw : s.Wakes k q w)
    (hst : driverLts.step q.state w d) :
    Family.left { s with procs := s.procs.set k (q.after w d) } < s.left := by
  have hlt : (q.after w d).left < q.left := Nat.add_lt_add_right (work_after hw hst) _
  exact Nat.add_lt_add_right (sum_set_lt hq hlt) _

theorem left_dies (hq : s.procs[k]? = some q) (hx : q.state.exited = false) :
    Family.left { s with
      procs := s.procs.set k { q with state := { q.state with exited := true } } } < s.left := by
  have hlt : DriverProc.work { q with state := { q.state with exited := true } } < q.work := by
    rw [work_of_running hx, work_of_exited rfl]
    omega
  have hleft := Nat.add_lt_add_right hlt (if q.reaped then 0 else 1)
  exact Nat.add_lt_add_right (sum_set_lt hq hleft) _

/-- The youngest driver that runs finds the hang-up once the CLI has closed its sockets. -/
theorem youngest_wakes (hI : FamilyInv s) (hend : s.taxi.stage = .ended)
    (hrun : ∃ q ∈ s.procs, q.state.exited = false) :
    ∃ k q, s.procs[k]? = some q ∧ q.state.exited = false ∧ s.held k = false := by
  obtain ⟨k, q, hq, hx, hlast⟩ := exists_last hrun
  refine ⟨k, q, hq, hx, ?_⟩
  unfold Family.held Family.cliHolds
  rw [hend]
  simp only [bne_self_eq_false, Bool.false_and, Bool.false_or, List.any_eq_false]
  intro r hr
  obtain ⟨j, hj⟩ := List.mem_iff_getElem?.mp hr
  rw [Bool.and_eq_true, Bool.not_eq_true', not_and, List.contains_iff_mem]
  exact fun hxr hm => hlast j r (hI.inherited j r hj k hm) hj hxr

theorem step_of_not_held (hq : s.procs[k]? = some q) (hx : q.state.exited = false)
    (hheld : s.held k = false) : ∃ l t, FamilyStep s l t := by
  have hw : s.Wakes k q ⟨q.state.now, q.state.now, true, none⟩ := by
    unfold Family.Wakes
    rw [hheld]
    exact ⟨rfl, rfl⟩
  exact ⟨_, _, .pass hq hw ⟨hx, le_rfl, le_rfl, rfl⟩⟩

/-- Once the CLI has closed its sockets or is gone, every driver exits and is waited for. -/
theorem over_of_ended (hI : FamilyInv s) (hend : s.taxi.stage = .ended) :
    familyLts.Inevitably Family.Over s := by
  refine Inevitably.of_measure (I := fun s => FamilyInv s ∧ s.taxi.stage = .ended) Family.left
    (fun s hs hno => ?_) (fun s l s' hs hno hst => .inr ?_) ⟨hI, hend⟩
  · obtain ⟨hI, hend⟩ := hs
    by_cases hrun : ∃ q ∈ s.procs, q.state.exited = false
    · obtain ⟨k, q, hq, hx, hheld⟩ := youngest_wakes hI hend hrun
      exact step_of_not_held hq hx hheld
    · have hall : ∀ q ∈ s.procs, q.state.exited = true := fun q hq => by
        by_contra hx
        exact hrun ⟨q, hq, by simpa using hx⟩
      by_cases hl : s.life = .waiting
      · by_cases hr : ∀ q ∈ s.procs, q.reaped = true
        · exact ⟨_, _, .finish hl hr⟩
        · simp only [not_forall] at hr
          obtain ⟨q, hq, hr⟩ := hr
          obtain ⟨k, hk⟩ := List.mem_iff_getElem?.mp hq
          exact ⟨_, _, .wait hl hk (hall q hq) (by simpa using hr)⟩
      · refine absurd ⟨?_, hI.returned, hall⟩ hno
        unfold Family.Gone
        rcases hlife : s.life with _ | _ | _ | _
        · exact .inr (.inr ⟨rfl, hend⟩)
        · exact absurd hlife hl
        · exact .inl rfl
        · exact .inr (.inl rfl)
  · obtain ⟨hI, hend⟩ := hs
    have hI' := familyInv_step hI hst
    cases hst with
    | iter _ hrun => exact nomatch hrun.symm.trans hend
    | shutdown send _ hleave => exact nomatch hleave.symm.trans hend
    | @wait k q hl hq hx hr =>
      refine ⟨⟨hI', hend⟩, Nat.add_lt_add_right (sum_set_lt hq ?_) _⟩
      refine Nat.add_lt_add_left ?_ _
      rw [hr]
      exact Nat.one_pos
    | finish hl =>
      refine ⟨⟨hI', hend⟩, Nat.add_lt_add_left ?_ _⟩
      rw [hl]
      exact Nat.one_pos
    | abort hgone =>
      have hl : s.life = .waiting := by
        unfold Family.Gone at hgone
        rcases hlife : s.life with _ | _ | _ | _
        · exact absurd (.inr (.inr ⟨hlife, hend⟩)) hgone
        · rfl
        · exact absurd (.inl hlife) hgone
        · exact absurd (.inr (.inl hlife)) hgone
      refine ⟨⟨hI', rfl⟩, Nat.add_lt_add_left ?_ _⟩
      rw [hl]
      exact Nat.one_pos
    | pass hq hw hd => exact ⟨⟨hI', hend⟩, left_pass hq hw hd⟩
    | dies hq hx => exact ⟨⟨hI', hend⟩, left_dies hq hx⟩

theorem ended_of_leaving (hI : FamilyInv s) (hleave : s.taxi.stage = .leaving) :
    familyLts.Inevitably (fun t => t.taxi.stage = .ended) s := by
  have hserve : ∀ {s : Family}, FamilyInv s → s.taxi.stage = .leaving → s.life = .serving := by
    intro s hI hleave
    by_contra hl
    exact nomatch hleave.symm.trans (hI.stage hl)
  refine Inevitably.of_measure (I := fun s => FamilyInv s ∧ s.taxi.stage = .leaving) Family.left
    (fun s hs _ => ⟨_, _, FamilyStep.shutdown (fun _ => .failed) (hserve hs.1 hs.2) hs.2⟩)
    (fun s l s' hs hno hst => ?_) ⟨hI, hleave⟩
  obtain ⟨hI, hleave⟩ := hs
  have hI' := familyInv_step hI hst
  have hlife := hserve hI hleave
  cases hst with
  | iter _ hrun => exact nomatch hrun.symm.trans hleave
  | shutdown => exact .inl rfl
  | wait hl => exact nomatch hl.symm.trans hlife
  | finish hl => exact nomatch hl.symm.trans hlife
  | abort => exact .inl rfl
  | pass hq hw hd => exact .inr ⟨⟨hI', hleave⟩, left_pass hq hw hd⟩
  | dies hq hx => exact .inr ⟨⟨hI', hleave⟩, left_dies hq hx⟩

/-- From every state behind `main`'s loop, and from every state where the CLI has died or was
killed, whatever messages were lost: all drivers exit, and `main` returns with each of them reaped
unless it was killed. -/
theorem family_over {tr : List (Family × FamilyLabel)} (h : familyLts.Run tr s)
    (hs : s.taxi.stage ≠ .running) : familyLts.Inevitably Family.Over s := by
  have hI := familyInv_run h
  rcases hstage : s.taxi.stage with _ | _ | _
  · exact absurd hstage hs
  · exact (ended_of_leaving hI hstage).bind (fun _ _ _ hI hst => familyInv_step hI hst)
      (fun _ hI hend => over_of_ended hI hend) hI
  · exact over_of_ended hI hstage

/-- The CLI is killed while driver 41 runs. -/
theorem family_over_killed : ∃ (tr : _) (s : Family), familyLts.Run tr s ∧
    s.procs.map (fun q => q.state.exited) = [false] ∧ familyLts.Inevitably Family.Over s := by
  have hstep : familyLts.step ⟨⟨⟨[], 0, [], []⟩, [], [], .running⟩, [], .serving⟩
      (.iter (typed "create_driver\n" 41 3)) _ :=
    .iter rfl rfl (.of_some 41 3 (by decide) (by decide) (by decide))
      ⟨nofun, nofun, nofun, nofun⟩
  have hrun : familyLts.Run _ _ := ⟨_, rfl, .single hstep⟩
  have hkill := hrun.snoc (.abort (by unfold Family.Gone; decide))
  exact ⟨_, _, hkill, by decide, family_over hkill (by decide)⟩

end End

end EltexSystems
