import EltexSystems.Proofs.TaxiCli
import EltexSystems.TaxiTable

/-!
# The driver table along a run

Whatever marks an entry dead closes its socket, once, and overwrites the descriptor with -1
(`Settled`), so an entry is alive exactly as long as it has a descriptor, and no socket is closed
twice however the kernel reuses numbers (`table_run`).  A dead entry keeps its pid, and hides a
later entry with that pid from `find_driver` (`live_reached_iff`).
-/

namespace EltexSystems

open CStr Descriptors

section Effects

theorem mem_closesIn {es : List Effect} {fd : ℤ} :
    Event.closed fd ∈ closesIn es ↔ Effect.close fd ∈ es := by
  unfold closesIn
  rw [List.mem_filterMap]
  constructor
  · rintro ⟨e, he, h⟩
    cases e with
    | close n =>
      cases h
      exact he
    | print text => cases h
    | send n msg => cases h
  · exact fun h => ⟨_, h, rfl⟩

theorem not_close_of {es : List Effect} (h : closesIn es = []) (fd : ℤ) :
    Effect.close fd ∉ es := by
  rw [← mem_closesIn, h]
  exact List.not_mem_nil

/-- What is done to an entry leaves it and closes nothing, or it turns an alive one off, closes its
socket and overwrites the descriptor. -/
def Settled (d : DriverEntry) (r : DriverEntry × List Effect) : Prop :=
  (r.1 = d ∧ closesIn r.2 = []) ∨
    (d.alive = true ∧ r.1 = { d with fd := -1, alive := false } ∧
      closesIn r.2 = [.closed d.fd])

theorem Settled.tame {d : DriverEntry} {r : DriverEntry × List Effect} (h : Settled d r) :
    Tame d r := by
  rcases h with ⟨h1, h2⟩ | ⟨h1, h2, h3⟩
  · exact .inl ⟨h1, not_close_of h2⟩
  · refine .inr ⟨h1, by rw [h2], fun fd hm => ?_⟩
    rw [← mem_closesIn, h3, List.mem_singleton] at hm
    injection hm

theorem Settled.pid {d : DriverEntry} {r : DriverEntry × List Effect} (h : Settled d r) :
    r.1.pid = d.pid := by
  rcases h with ⟨h1, -⟩ | ⟨-, h2, -⟩
  · rw [h1]
  · rw [h2]

theorem Settled.print {d : DriverEntry} {r : DriverEntry × List Effect} (h : Settled d r)
    (text : List UInt8) : Settled d (r.1, .print text :: r.2) := h

theorem Settled.bury {d : DriverEntry} (ha : d.alive = true) : Settled d (bury d) :=
  .inr ⟨ha, rfl, rfl⟩

theorem sendCmd_settled (cmd : List UInt8) (r : SendResult) (d : DriverEntry) :
    Settled d (sendCmd cmd r d) := by
  unfold sendCmd
  by_cases ha : d.alive = true
  · rw [ha, Bool.not_true, if_neg Bool.false_ne_true]
    cases r with
    | sent => exact .inl ⟨rfl, rfl⟩
    | dead => exact (Settled.bury ha).print _
    | failed => exact .inl ⟨rfl, rfl⟩
  · rw [Bool.not_eq_true] at ha
    rw [ha, Bool.not_false, if_pos rfl]
    exact .inl ⟨rfl, rfl⟩

theorem toDriver_settled (cmd : List UInt8) (r : SendResult) (d : DriverEntry) :
    Settled d (if !d.alive then (d, [noSuchDriver]) else sendCmd cmd r d) := by
  split_ifs
  · exact .inl ⟨rfl, rfl⟩
  · exact sendCmd_settled cmd r d

theorem statusEntry_settled (r : SendResult) (d : DriverEntry) :
    Settled d (statusEntry r d) := by
  unfold statusEntry
  split_ifs
  · exact .inl ⟨rfl, rfl⟩
  · exact sendCmd_settled _ r d

theorem handleDriverReadable_settled {d : DriverEntry} (ha : d.alive = true) :
    ∀ rs : List Recv, Settled d (handleDriverReadable rs d)
  | [] => .inl ⟨rfl, rfl⟩
  | .again :: _ => .inl ⟨rfl, rfl⟩
  | .error :: _ => .bury ha
  | .data [] :: _ => .bury ha
  | .data (_ :: _) :: rs => (handleDriverReadable_settled ha rs).print _

theorem judge_settled {d : DriverEntry} (ha : d.alive = true) (ev : Revents) (rs : List Recv) :
    Settled d (judge ev rs d) := by
  unfold judge
  split_ifs
  · exact .bury ha
  · exact handleDriverReadable_settled ha rs
  · exact .inl ⟨rfl, rfl⟩

theorem quitEntry_settled (r : SendResult) (d : DriverEntry) : Settled d (quitEntry r d) := by
  unfold quitEntry
  split_ifs
  · exact .inl ⟨rfl, rfl⟩
  · cases r <;> exact .inl ⟨rfl, rfl⟩

/-- An alive entry has a descriptor and an unreaped child, a dead one has -1. -/
def EntryOk (ch : List ℤ) (d : DriverEntry) : Prop :=
  (d.alive = true ∧ 0 ≤ d.fd ∧ d.pid ∈ ch) ∨ (d.alive = false ∧ d.fd = -1)

theorem reapEntry_settled {d : DriverEntry} (ha : d.alive = true) (hfd : 0 ≤ d.fd) :
    Settled d (reapEntry d) := by
  unfold reapEntry
  rw [if_pos hfd]
  exact .inr ⟨ha, rfl, rfl⟩

theorem closeEntry_settled {ch : List ℤ} {d : DriverEntry} (h : EntryOk ch d) :
    Settled d (closeEntry d) := by
  unfold closeEntry
  rcases h with ⟨ha, hfd, -⟩ | ⟨ha, hfd⟩
  · rw [if_pos hfd]
    exact .inr ⟨ha, rfl, rfl⟩
  · rw [if_neg (by omega)]
    refine .inl ⟨?_, rfl⟩
    rw [← hfd, ← ha]

end Effects

section Invariant

structure TableInv (c : Cli) (ch : List ℤ) (ev : List (Event ℤ)) : Prop where
  cli : CliInv c
  entry : ∀ (i : ℕ) (d : DriverEntry), c.drivers[i]? = some d → EntryOk ch d
  pids : DistinctBy DriverEntry.pid c.drivers
  room : c.drivers.length ≤ c.cap
  opens : ∀ fd ∈ c.openFds, openAfter fd ev = true
  sound : Sound ev

/-- A table the invariant holds of, with what was closed on the way from another. -/
structure Later (ch : List ℤ) (ev : List (Event ℤ)) (c c' : Cli) : Prop where
  log : c.log <+: c'.log
  pids : c.drivers.map DriverEntry.pid <+: c'.drivers.map DriverEntry.pid
  inv : TableInv c' ch (ev ++ closesSince c c')

variable {c c' c'' : Cli} {ch : List ℤ} {ev : List (Event ℤ)} {i : ℕ}
  {f : DriverEntry → DriverEntry × List Effect}

theorem closesSince_self (c : Cli) : closesSince c c = [] := by
  unfold closesSince
  rw [List.drop_length]
  rfl

theorem closesSince_append {es : List Effect} (h : c'.log = c.log ++ es) :
    closesSince c c' = closesIn es := by
  unfold closesSince
  rw [h, List.drop_left]

theorem closesSince_trans (h : c.log <+: c'.log) (h' : c'.log <+: c''.log) :
    closesSince c c'' = closesSince c c' ++ closesSince c' c'' := by
  obtain ⟨es, h⟩ := h
  obtain ⟨es', h'⟩ := h'
  have hall : c''.log = c.log ++ (es ++ es') := by rw [← h', ← h, List.append_assoc]
  rw [closesSince_append h.symm, closesSince_append h'.symm, closesSince_append hall]
  exact List.filterMap_append

theorem Later.refl (h : TableInv c ch ev) : Later ch ev c c :=
  ⟨List.prefix_rfl, List.prefix_rfl, by rwa [closesSince_self, List.append_nil]⟩

theorem Later.trans (h : Later ch ev c c') (h' : Later ch (ev ++ closesSince c c') c' c'') :
    Later ch ev c c'' :=
  ⟨h.log.trans h'.log, h.pids.trans h'.pids, by
    rw [closesSince_trans h.log h'.log, ← List.append_assoc]
    exact h'.inv⟩

theorem TableInv.emit (h : TableInv c ch ev) {es : List Effect} (hes : closesIn es = []) :
    Later ch ev c (c.emit es) := by
  refine ⟨List.prefix_append _ _, List.prefix_rfl, ?_⟩
  rw [closesSince_append rfl, hes, List.append_nil]
  exact ⟨h.cli.emit (not_close_of hes), h.entry, h.pids, h.room,
    fun fd hfd => h.opens fd (mem_openFds_emit.mp hfd).1, h.sound⟩

theorem pids_atEntry (hf : ∀ d, c.drivers[i]? = some d → (f d).1.pid = d.pid) :
    (c.atEntry i f).drivers.map DriverEntry.pid = c.drivers.map DriverEntry.pid := by
  refine List.ext_getElem? fun k => ?_
  rw [List.getElem?_map, List.getElem?_map, drivers_atEntry]
  split_ifs with hk
  · rw [hk, Option.map_map]
    rcases hd : c.drivers[i]? with _ | d
    · rfl
    · exact congrArg some (hf d hd)
  · rfl

theorem getElem?_settled (hf : ∀ d, c.drivers[i]? = some d → Settled d (f d)) {k : ℕ}
    {d : DriverEntry} (hd : (c.atEntry i f).drivers[k]? = some d) :
    c.drivers[k]? = some d ∨ (d.alive = false ∧ d.fd = -1) := by
  rw [drivers_atEntry] at hd
  split_ifs at hd with hk
  · obtain ⟨x, hx, rfl⟩ := Option.map_eq_some_iff.mp hd
    rcases hf x hx with ⟨h1, -⟩ | ⟨-, h2, -⟩
    · exact .inl (by rw [hk, h1, hx])
    · exact .inr (by rw [h2]; exact ⟨rfl, rfl⟩)
  · exact .inl hd

theorem TableInv.atEntry (h : TableInv c ch ev)
    (hf : ∀ d, c.drivers[i]? = some d → Settled d (f d)) : Later ch ev c (c.atEntry i f) := by
  rcases hd : c.drivers[i]? with _ | d
  · have hsame : c.atEntry i f = c := by
      unfold Cli.atEntry
      rw [hd]
    rw [hsame]
    exact .refl h
  have hlog : (c.atEntry i f).log = c.log ++ (f d).2 := by
    unfold Cli.atEntry
    rw [hd]
    rfl
  have hfds : ∀ fd, fd ∈ (c.atEntry i f).openFds ↔ fd ∈ c.openFds ∧ .close fd ∉ (f d).2 := by
    intro fd
    unfold Cli.atEntry
    rw [hd]
    exact mem_openFds_emit
  have hcap : (c.atEntry i f).cap = c.cap := by
    unfold Cli.atEntry
    rw [hd]
    rfl
  refine ⟨⟨_, hlog.symm⟩, ?_, ?_⟩
  · rw [pids_atEntry fun x hx => (hf x hx).pid]
  rw [closesSince_append hlog]
  refine ⟨h.cli.atEntry fun x hx => (hf x hx).tame, fun k x hx => ?_,
    fun k l a b ha hb haa hba => ?_, by rw [length_atEntry, hcap]; exact h.room,
    fun fd hfd => ?_, ?_⟩
  · rcases getElem?_settled hf hx with hx | hx
    · exact h.entry k x hx
    · exact .inr hx
  · have hold : ∀ (k : ℕ) (a : DriverEntry), (c.atEntry i f).drivers[k]? = some a →
        a.alive = true → c.drivers[k]? = some a := by
      intro k a ha haa
      rcases getElem?_settled hf ha with ha | ⟨hoff, -⟩
      · exact ha
      · rw [haa] at hoff
        cases hoff
    exact h.pids k l a b (hold k a ha haa) (hold l b hb hba) haa hba
  · obtain ⟨hopen, hnc⟩ := (hfds fd).mp hfd
    rcases hf d hd with ⟨-, h2⟩ | ⟨-, -, h3⟩
    · rw [h2, List.append_nil]
      exact h.opens fd hopen
    · rw [h3, openAfter_closed, h.opens fd hopen, Bool.true_and, decide_eq_true_iff]
      rintro rfl
      exact hnc (mem_closesIn.mp (h3 ▸ List.mem_singleton_self _))
  · rcases hf d hd with ⟨-, h2⟩ | ⟨ha, -, h3⟩
    · rw [h2, List.append_nil]
      exact h.sound
    · rw [h3]
      refine h.sound.concat fun fd hfd => ?_
      cases hfd
      exact h.opens d.fd (h.cli.held i d hd ha)

theorem TableInv.foldl {g : ℕ → DriverEntry → DriverEntry × List Effect}
    (hg : ∀ i d, EntryOk ch d → Settled d (g i d)) :
    ∀ (is : List ℕ) {c : Cli} {ev : List (Event ℤ)}, TableInv c ch ev →
      Later ch ev c (is.foldl (fun c i => c.atEntry i (g i)) c)
  | [], _, _, h => .refl h
  | i :: is, c, ev, h => by
    have h1 := h.atEntry (i := i) (f := g i) fun d hd => hg i d (h.entry i d hd)
    exact h1.trans (TableInv.foldl hg is h1.inv)

theorem TableInv.shrink (h : TableInv c ch ev) {ch' : List ℤ}
    (hch : ∀ (i : ℕ) (d : DriverEntry), c.drivers[i]? = some d → d.alive = true → d.pid ∈ ch') :
    TableInv c ch' ev := by
  refine ⟨h.cli, fun i d hd => ?_, h.pids, h.room, h.opens, h.sound⟩
  rcases h.entry i d hd with ⟨ha, hfd, -⟩ | hoff
  · exact .inl ⟨ha, hfd, hch i d hd ha⟩
  · exact .inr hoff

theorem TableInv.reapChild (h : TableInv c ch ev) (p : ℤ) :
    Later (ch.filter (· ≠ p)) ev c (reapChild c p) := by
  have hleft : ∀ {c' : Cli} {ev' : List (Event ℤ)}, TableInv c' ch ev' →
      (∀ (k : ℕ) (d : DriverEntry), c'.drivers[k]? = some d → d.alive = true → d.pid ≠ p) →
      TableInv c' (ch.filter (· ≠ p)) ev' := by
    intro c' ev' h' hne
    refine h'.shrink fun k d hd ha => ?_
    rcases h'.entry k d hd with ⟨-, -, hm⟩ | ⟨hoff, -⟩
    · exact List.mem_filter.mpr ⟨hm, decide_eq_true (hne k d hd ha)⟩
    · rw [ha] at hoff
      cases hoff
  unfold EltexSystems.reapChild
  rcases hi : c.drivers.findIdx? _ with _ | i
  · refine .refl (hleft h fun k d hd ha hp => ?_)
    have := List.findIdx?_eq_none_iff.mp hi d (List.mem_of_getElem? hd)
    rw [ha, hp] at this
    simp at this
  · obtain ⟨hlt, hp, -⟩ := List.findIdx?_eq_some_iff_getElem.mp hi
    rw [Bool.and_eq_true, beq_iff_eq] at hp
    have hget : c.drivers[i]? = some c.drivers[i] := List.getElem?_eq_getElem hlt
    have hlater := h.atEntry (i := i) (f := reapEntry) fun d hd => by
      cases hget.symm.trans hd
      rcases h.entry i _ hget with ⟨ha, hfd, -⟩ | ⟨hoff, -⟩
      · exact reapEntry_settled ha hfd
      · rw [hp.1] at hoff
        cases hoff
    refine ⟨hlater.log, hlater.pids, hleft hlater.inv fun k d hd ha hpid => ?_⟩
    simp only [drivers_atEntry] at hd
    split_ifs at hd with hk
    · obtain ⟨x, -, rfl⟩ := Option.map_eq_some_iff.mp hd
      cases ha
    · exact hk (h.pids k i d c.drivers[i] hd hget ha hp.1 (hpid.trans hp.2.symm))

theorem TableInv.reapChildren :
    ∀ (ps : List ℤ) {c : Cli} {ch : List ℤ} {ev : List (Event ℤ)}, TableInv c ch ev →
      Later (ch.filter (· ∉ ps)) ev c (reapChildren c ps)
  | [], c, ch, ev, h => by
    rw [List.filter_eq_self.mpr (by simp)]
    exact .refl h
  | p :: ps, c, ch, ev, h => by
    have h1 := h.reapChild p
    have h2 := TableInv.reapChildren ps h1.inv
    have hch : ch.filter (· ∉ p :: ps) = (ch.filter (· ≠ p)).filter (· ∉ ps) := by
      rw [List.filter_filter]
      refine List.filter_congr fun x _ => ?_
      simp [Bool.and_comm]
    show Later _ ev c (EltexSystems.reapChildren (EltexSystems.reapChild c p) ps)
    rw [hch]
    refine ⟨h1.log.trans h2.log, h1.pids.trans h2.pids, ?_⟩
    rw [closesSince_trans h1.log h2.log, ← List.append_assoc]
    exact h2.inv

theorem TableInv.dispatch (revents : ℕ → Revents) (recv : ℕ → List Recv) :
    ∀ (is : List ℕ) (idx : ℕ) {c : Cli} {ev : List (Event ℤ)}, TableInv c ch ev →
      Later ch ev c (dispatch revents recv is idx c).1
  | [], _, _, _, h => .refl h
  | i :: is, idx, c, ev, h => by
    unfold EltexSystems.dispatch
    split_ifs with ha
    · have h1 := h.atEntry (i := i) (f := judge (revents idx) (recv i)) fun d hd =>
        judge_settled (by rwa [hd] at ha) _ _
      exact h1.trans (TableInv.dispatch revents recv is (idx + 1) h1.inv)
    · exact TableInv.dispatch revents recv is idx h

theorem TableInv.dispatchAll (h : TableInv c ch ev) (e : LoopEnv) (revents : ℕ → Revents) :
    Later ch ev c (dispatchAll c e revents).1 :=
  h.dispatch revents e.recv _ 1

theorem TableInv.cmdToDriver (h : TableInv c ch ev) (pid : ℤ) (cmd : Command) (e : LoopEnv) :
    Later ch ev c (cmdToDriver c pid cmd e) := by
  unfold EltexSystems.cmdToDriver
  rcases findDriver c pid with _ | i
  · exact h.emit rfl
  · exact h.atEntry fun d _ => toDriver_settled _ _ d

theorem TableInv.runCommand (h : TableInv c ch ev) {e : LoopEnv} {cmd : CliCommand}
    (hcmd : cmd ≠ .createDriver) (hc : runCommand c e cmd = some c') : Later ch ev c c' := by
  unfold EltexSystems.runCommand at hc
  split at hc
  case h_2 => exact absurd rfl hcmd
  all_goals cases hc
  case h_4 pid sec => exact h.cmdToDriver pid _ e
  case h_6 pid => exact h.cmdToDriver pid _ e
  case h_8 => exact TableInv.foldl (fun i d _ => statusEntry_settled _ d) _ h
  all_goals first
    | exact .refl h
    | exact h.emit rfl

/-- A child and a socket the CLI knows nothing of. -/
theorem TableInv.unused (h : TableInv c ch ev) (q : Option (ℤ × ℤ)) :
    TableInv c (ch ++ (q.map Prod.fst).toList)
      (ev ++ (q.map fun q => Event.opened q.2).toList) := by
  rcases q with _ | ⟨pid, fd⟩
  · simpa using h
  · refine ⟨h.cli, fun i d hd => ?_, h.pids, h.room, fun x hx => ?_, ?_⟩
    · rcases h.entry i d hd with ⟨ha, hfd, hm⟩ | hoff
      · exact .inl ⟨ha, hfd, List.mem_append_left _ hm⟩
      · exact .inr hoff
    · show openAfter x (ev ++ [.opened fd]) = true
      rw [openAfter_opened, h.opens x hx, Bool.true_or]
    · exact h.sound.concat fun x hx => by cases hx

theorem driversPush_room {pid fd : ℤ} {realloc : Bool} (h : c.drivers.length ≤ c.cap)
    (hc : driversPush c pid fd realloc = some c') : c'.drivers.length ≤ c'.cap := by
  unfold driversPush at hc
  split_ifs at hc <;>
  · cases hc
    simp only [List.length_append, List.length_singleton]
    omega

theorem log_driversPush {pid fd : ℤ} {realloc : Bool}
    (hc : driversPush c pid fd realloc = some c') : c'.log = c.log := by
  unfold driversPush at hc
  split_ifs at hc <;> cases hc <;> rfl

theorem TableInv.create (h : TableInv c ch ev) {e : LoopEnv} {pid fd : ℤ}
    (hs : e.spawn = some (pid, fd)) (hpid : pid ∉ ch) (hfd : 0 ≤ fd ∧ fd ∉ c.openFds)
    (hc : cmdCreateDriver c e = some c') :
    TableInv c' (ch ++ [pid]) (ev ++ [.opened fd]) ∧ c.log <+: c'.log ∧
      closesSince c c' = [] ∧
      c.drivers.map DriverEntry.pid <+: c'.drivers.map DriverEntry.pid := by
  have hcli := h.cli.create (fun p n hpn => by rw [hs] at hpn; cases hpn; exact hfd.2) hc
  obtain ⟨p, n, hpn, hd, ho⟩ := cmdCreateDriver_eq_some hc
  cases hs.symm.trans hpn
  have hroom : c'.drivers.length ≤ c'.cap ∧ ∃ text, c'.log = c.log ++ [.print text] := by
    unfold cmdCreateDriver at hc
    rw [hs] at hc
    obtain ⟨c₁, h1, rfl⟩ := Option.map_eq_some_iff.mp hc
    have hroom : c₁.drivers.length ≤ c₁.cap := driversPush_room (by exact h.room) h1
    have hlog := log_driversPush h1
    exact ⟨hroom, _, by show c₁.log ++ _ = _; rw [hlog]⟩
  obtain ⟨hroom, text, hlog⟩ := hroom
  have hget : ∀ (i : ℕ) (d : DriverEntry), c'.drivers[i]? = some d →
      c.drivers[i]? = some d ∨ i = c.drivers.length ∧ d = ⟨pid, fd, true⟩ := by
    intro i d hi
    rw [hd] at hi
    exact Positions.getElem?_concat_iff.mp hi
  have halive : ∀ (i : ℕ) (d : DriverEntry), c.drivers[i]? = some d → d.alive = true →
      d.pid ≠ pid := by
    rintro i d hi ha rfl
    rcases h.entry i d hi with ⟨-, -, hm⟩ | ⟨hoff, -⟩
    · exact hpid hm
    · rw [ha] at hoff
      cases hoff
  refine ⟨⟨hcli, fun i d hi => ?_, fun i j a b hi hj ha hb hab => ?_, hroom, fun x hx => ?_,
    h.sound.concat fun x hx => by cases hx⟩, ⟨_, hlog.symm⟩, closesSince_append hlog, ?_⟩
  · rcases hget i d hi with hi | ⟨-, rfl⟩
    · rcases h.entry i d hi with ⟨ha, hfd, hm⟩ | hoff
      · exact .inl ⟨ha, hfd, List.mem_append_left _ hm⟩
      · exact .inr hoff
    · exact .inl ⟨rfl, hfd.1, List.mem_append_right _ (List.mem_singleton_self _)⟩
  · rcases hget i a hi with hi | ⟨rfl, rfl⟩ <;> rcases hget j b hj with hj | ⟨rfl, rfl⟩
    · exact h.pids i j a b hi hj ha hb hab
    · exact absurd hab (halive i a hi ha)
    · exact absurd hab.symm (halive j b hj hb)
    · rfl
  · rw [openAfter_opened]
    rcases (ho x).mp hx with rfl | hx
    · simp
    · rw [h.opens x hx, Bool.true_or]
  · rw [hd, List.map_append]
    exact List.prefix_append _ _

end Invariant

section Runs

variable {s s' : Taxi}

/-- The invariant of the table, its children and its sockets. -/
def Taxi.Inv (s : Taxi) : Prop := TableInv s.cli s.children s.sockets

theorem Taxi.Inv.iterate (h : s.Inv) {e : LoopEnv} (hk : Kernel s e) :
    (s.iterate e).Inv ∧ s.pids <+: (s.iterate e).pids := by
  have hr : Later (s.unreaped e) s.sockets s.cli (reapChildren s.cli e.reaped) :=
    h.reapChildren e.reaped
  have hp := hr.inv.emit (show closesIn [.print (ascii "> ")] = [] from rfl)
  have hp0 : closesSince (reapChildren s.cli e.reaped) (prompted s.cli e) = [] :=
    (@closesSince_append _ (prompted s.cli e) [.print (ascii "> ")] rfl).trans rfl
  unfold Taxi.Inv Taxi.iterate Taxi.pids
  simp only []
  obtain ⟨-, -, ⟨-, heq | heq, -⟩ | ⟨revents, c', hc, heq, -⟩⟩ := mainIter_cases s.cli e
  · rw [heq, closesSince_self, List.append_nil]
    exact ⟨hr.inv.unused _, hr.pids⟩
  · rw [heq, hp0, List.append_nil]
    have hinv := hp.inv
    rw [hp0, List.append_nil] at hinv
    exact ⟨hinv.unused _, hr.pids.trans hp.pids⟩
  · have hinv := hp.inv
    rw [hp0, List.append_nil] at hinv
    rw [heq]
    by_cases hcreate : commandOf e = .createDriver
    · rw [hcreate] at hc
      obtain ⟨pid, fd, hs, -⟩ := cmdCreateDriver_eq_some hc
      have hf : forked e = some (pid, fd) := (if_pos hcreate).trans hs
      obtain ⟨hfd, hclosed⟩ := hk.fd pid fd hf
      obtain ⟨hnew, hlog, h0, hpids⟩ := hinv.create hs (hk.pid pid fd hf)
        ⟨hfd, fun hm => hclosed (mem_openFds_emit.mp hm).1⟩ hc
      have hdis := hnew.dispatchAll e revents
      have hafter := closesSince_trans (hp.log.trans hlog) hdis.log
      rw [closesSince_trans hp.log hlog, hp0, h0, List.append_nil, List.nil_append] at hafter
      rw [hf, hafter]
      exact ⟨hdis.inv, ((hr.pids.trans hp.pids).trans hpids).trans hdis.pids⟩
    · have hf : forked e = none := if_neg hcreate
      have hrun := hinv.runCommand hcreate hc
      have hdis := hrun.inv.dispatchAll e revents
      have hall := hrun.trans hdis
      rw [hf, closesSince_trans hp.log hall.log, hp0]
      simp only [Option.map_none, Option.toList_none, List.append_nil, List.nil_append]
      exact ⟨hall.inv, (hr.pids.trans hp.pids).trans hall.pids⟩

theorem Taxi.Inv.shutdown (h : s.Inv) (send : ℕ → SendResult) :
    (s.shutdown send).Inv ∧ s.pids <+: (s.shutdown send).pids := by
  have h1 : Later s.children s.sockets s.cli
      ((List.range s.cli.drivers.length).foldl (fun c i => c.atEntry i (quitEntry (send i)))
        s.cli) :=
    TableInv.foldl (fun i d _ => quitEntry_settled (send i) d) _ h
  have h2 : Later s.children s.sockets s.cli (shutdownAll s.cli send) :=
    h1.trans (TableInv.foldl (fun _ _ hd => closeEntry_settled hd) _ h1.inv)
  refine ⟨h2.inv.shrink fun i d hd ha => ?_, h2.pids⟩
  -- the second loop has turned every entry off
  have hd' : (shutdownAll s.cli send).drivers[i]? = some d := hd
  unfold shutdownAll at hd'
  simp only [drivers_foldl (fun _ => closeEntry)] at hd'
  split_ifs at hd' with hlt
  · obtain ⟨x, -, rfl⟩ := Option.map_eq_some_iff.mp hd'
    cases ha
  · exact absurd (List.getElem?_eq_some_iff.mp hd').1 hlt

theorem Taxi.Inv.step {l : TaxiLabel} (h : s.Inv) (hst : taxiLts.step s l s') :
    s'.Inv ∧ s.pids <+: s'.pids := by
  cases l with
  | iter e =>
    obtain ⟨-, hk, rfl⟩ := hst
    exact h.iterate hk
  | shutdown send =>
    obtain ⟨-, rfl⟩ := hst
    exact h.shutdown send

theorem taxiInv_run {tr : List (Taxi × TaxiLabel)} (h : taxiLts.Run tr s) : s.Inv := by
  refine h.inv (I := Taxi.Inv) ?_ fun s l s' hI hst => (hI.step hst).1
  rintro s rfl
  exact ⟨⟨fun i d hd => by simp at hd, fun i j a b ha => by simp at ha⟩,
    fun i d hd => by simp at hd,
    fun i j a b ha => by simp at ha, le_rfl, fun fd hfd => by simp at hfd, .nil⟩

theorem Taxi.Inv.pids_path (h : s.Inv) {tr : List (Taxi × TaxiLabel)}
    (hp : taxiLts.Path s tr s') : s.pids <+: s'.pids :=
  (hp.inv (I := fun v => v.Inv ∧ s.pids <+: v.pids)
    (fun _ _ _ hv hst => ⟨(hv.1.step hst).1, hv.2.trans (hv.1.step hst).2⟩)
    ⟨h, List.prefix_rfl⟩).2

theorem EntryOk.alive_iff {ch : List ℤ} {d : DriverEntry} (h : EntryOk ch d) :
    d.alive = true ↔ 0 ≤ d.fd := by
  rcases h with ⟨ha, hfd, -⟩ | ⟨ha, hfd⟩
  · exact iff_of_true ha hfd
  · rw [ha, hfd]
    simp

/-- In every state of a run the table and the sockets are in order, and the table has only grown
since the states before. -/
theorem table_run {tr : List (Taxi × TaxiLabel)} (h : taxiLts.Run tr s) :
    TableOk s ∧ ∀ v ∈ Lts.visited tr s, v.pids <+: s.pids := by
  have hinv := taxiInv_run h
  refine ⟨⟨fun d hd => ?_, hinv.pids, hinv.cli.distinct, hinv.room, hinv.sound.closed_once⟩,
    fun v hv => ?_⟩
  · obtain ⟨i, hi⟩ := List.mem_iff_getElem?.mp hd
    exact (hinv.entry i d hi).alive_iff
  · rcases List.mem_append.mp hv with hv | hv
    · obtain ⟨⟨v', l⟩, hp, rfl⟩ := List.mem_map.mp hv
      obtain ⟨tr₁, tr₂, u, rfl, hrun, hst, hpath⟩ := h.before hp
      exact (taxiInv_run hrun).pids_path (.cons hst hpath)
    · rw [List.mem_singleton.mp hv]

theorem Kernel.of_none {e : LoopEnv} (hf : forked e = none) : Kernel s e := by
  constructor <;>
  · intro pid fd h
    cases hf.symm.trans h

theorem Kernel.of_some {e : LoopEnv} (pid fd : ℤ) (hf : forked e = some (pid, fd))
    (hpid : pid ∉ s.unreaped e) (hfd : 0 ≤ fd ∧ fd ∉ (reapChildren s.cli e.reaped).openFds) :
    Kernel s e := by
  constructor
  · intro p n h
    cases hf.symm.trans h
    exact hpid
  · intro p n h
    cases hf.symm.trans h
    exact hfd

def Taxi.start : Taxi := ⟨⟨[], 0, [], []⟩, [], [], .running⟩

def firstDriver : Taxi := Taxi.start.iterate (typed "create_driver\n" 41 3)

theorem run_firstDriver :
    taxiLts.Run [(Taxi.start, .iter (typed "create_driver\n" 41 3))] firstDriver :=
  ⟨Taxi.start, rfl, .single ⟨rfl, .of_some 41 3 (by decide) (by decide) (by decide), rfl⟩⟩

/-- A driver is found dead, and the shutdown closes nothing again. -/
theorem table_run_shutdown : ∃ (tr : _) (s : Taxi), taxiLts.Run tr s ∧
    s.sockets = [.opened 3, .closed 3] ∧ s.stage = .ended ∧ TableOk s := by
  have h1 : taxiLts.step firstDriver (.iter (typed "get_status 41\n" 0 0)) _ :=
    ⟨by decide, .of_none (by decide), rfl⟩
  have h2 : taxiLts.step (firstDriver.iterate (typed "get_status 41\n" 0 0))
      (.iter (typed "quit\n" 0 0)) _ := ⟨by decide, .of_none (by decide), rfl⟩
  have h3 : taxiLts.step ((firstDriver.iterate (typed "get_status 41\n" 0 0)).iterate
      (typed "quit\n" 0 0)) (.shutdown fun _ => .sent) _ := ⟨by decide, rfl⟩
  have h := ((run_firstDriver.snoc h1).snoc h2).snoc h3
  exact ⟨_, _, h, by decide, rfl, (table_run h).1⟩

end Runs

section Reached

variable {s : Taxi} {c : Cli} {i : ℕ} {d : DriverEntry}

theorem log_atEntry (c : Cli) {f : DriverEntry → DriverEntry × List Effect}
    (hd : c.drivers[i]? = some d) : (c.atEntry i f).log = c.log ++ (f d).2 := by
  unfold Cli.atEntry
  rw [hd]
  rfl

theorem sendsTo_of_find (hd : c.drivers[i]? = some d) (ha : d.alive = true)
    (hfind : findDriver c d.pid = some i) (cmd : Command) (e : LoopEnv) :
    SendsTo c (cmdToDriver c d.pid cmd e) e i d cmd.text := by
  unfold cmdToDriver
  rw [hfind]
  refine ⟨_, log_atEntry c hd, ?_⟩
  rw [ha, Bool.not_true, if_neg Bool.false_ne_true]
  unfold sendCmd
  rw [ha, Bool.not_true, if_neg Bool.false_ne_true]
  cases e.send i <;> simp [noSuchDriver, bury, ascii]

theorem log_of_find_dead (hd : c.drivers[i]? = some d) (ha : d.alive = false) {pid : ℤ}
    (hfind : findDriver c pid = some i) (cmd : Command) (e : LoopEnv) :
    (cmdToDriver c pid cmd e).log = c.log ++ [noSuchDriver] := by
  unfold cmdToDriver
  rw [hfind]
  refine (log_atEntry c hd).trans ?_
  rw [ha, Bool.not_false, if_pos rfl]

/-- In every state of a run an alive entry is reached by its pid exactly when no entry before it
has that pid. -/
theorem live_reached_iff {tr : List (Taxi × TaxiLabel)} (h : taxiLts.Run tr s) :
    ∀ (i : ℕ) (d : DriverEntry), s.cli.drivers[i]? = some d → d.alive = true →
      (Reached s.cli i d ↔ ∀ (j : ℕ) (a : DriverEntry), j < i → s.cli.drivers[j]? = some a →
        a.pid ≠ d.pid) := by
  have hinv := taxiInv_run h
  intro i d hd ha
  have hlt := (List.getElem?_eq_some_iff.mp hd).1
  constructor
  · intro hreach j a hj hja hpid
    obtain ⟨k, hk⟩ : ∃ k, findDriver s.cli d.pid = some k := by
      rw [← Option.ne_none_iff_exists']
      intro hnone
      have := List.findIdx?_eq_none_iff.mp hnone a (List.mem_of_getElem? hja)
      rw [hpid] at this
      simp at this
    obtain ⟨hklt, hkp, hfirst⟩ := List.findIdx?_eq_some_iff_getElem.mp hk
    rw [beq_iff_eq] at hkp
    have hkj : k ≤ j := by
      by_contra hlt'
      have hne := hfirst j (by omega)
      rw [(List.getElem?_eq_some_iff.mp hja).2, hpid] at hne
      simp at hne
    have hget : s.cli.drivers[k]? = some s.cli.drivers[k] := List.getElem?_eq_getElem hklt
    have hdead : s.cli.drivers[k].alive = false := by
      rw [← Bool.not_eq_true]
      intro hka
      have := hinv.pids k i _ d hget hd hka ha hkp
      omega
    obtain ⟨es, hlog, hno, -⟩ := hreach.status (typed "" 0 0)
    have := hlog.symm.trans (log_of_find_dead hget hdead hk .status (typed "" 0 0))
    exact hno (by rw [List.append_cancel_left this]; exact List.mem_singleton_self _)
  · intro hfirst
    have hfind : findDriver s.cli d.pid = some i := by
      refine List.findIdx?_eq_some_iff_getElem.mpr ⟨hlt, ?_, fun j hj => ?_⟩
      · rw [(List.getElem?_eq_some_iff.mp hd).2]
        exact beq_self_eq_true _
      · have := hfirst j _ hj (List.getElem?_eq_getElem (by omega))
        simpa using this
    exact ⟨fun sec e => sendsTo_of_find hd ha hfind (.task sec) e,
      fun e => sendsTo_of_find hd ha hfind .status e⟩

/-- The first driver is reached. -/
theorem live_reached_iff_first : ∃ (tr : _) (s : Taxi), taxiLts.Run tr s ∧
    s.cli.drivers = [⟨41, 3, true⟩] ∧ Reached s.cli 0 ⟨41, 3, true⟩ :=
  ⟨_, _, run_firstDriver, by decide,
    (live_reached_iff run_firstDriver 0 ⟨41, 3, true⟩ (by decide) rfl).mpr fun j a hj => by omega⟩

/-- A driver dies and is reaped, and the next one gets its pid: a command to it is answered
`NoSuchDriver`. -/
theorem live_hidden : ∃ (tr : _) (s : Taxi), taxiLts.Run tr s ∧
    s.cli.drivers = [⟨41, -1, false⟩, ⟨41, 3, true⟩] ∧
    (cmdGetStatus s.cli 41 (typed "" 0 0)).log = s.cli.log ++ [noSuchDriver] ∧
    ¬ Reached s.cli 1 ⟨41, 3, true⟩ := by
  have h1 : taxiLts.step firstDriver
      (.iter { typed "create_driver\n" 41 3 with reaped := [41] }) _ :=
    ⟨by decide, .of_some 41 3 (by decide) (by decide) (by decide), rfl⟩
  have h := run_firstDriver.snoc h1
  have hd : (firstDriver.iterate { typed "create_driver\n" 41 3 with reaped := [41] }).cli.drivers
      = [⟨41, -1, false⟩, ⟨41, 3, true⟩] := by decide
  have hlog := fun e => @log_of_find_dead _ 0 ⟨41, -1, false⟩ (by rw [hd]; rfl) rfl 41
    (by unfold findDriver; rw [hd]; rfl) .status e
  refine ⟨_, _, h, hd, hlog _, fun hreach => ?_⟩
  obtain ⟨es, hes, hno, -⟩ := hreach.status (typed "" 0 0)
  have := hes.symm.trans (hlog (typed "" 0 0))
  exact hno (by rw [List.append_cancel_left this]; exact List.mem_singleton_self _)

end Reached

end EltexSystems
