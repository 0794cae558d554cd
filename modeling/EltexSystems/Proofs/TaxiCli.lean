import EltexSystems.Lib.Filtered
import EltexSystems.Lib.Positions
import EltexSystems.TaxiCli

/-!
# Which events a driver is judged by

The `pollfd` array lists the drivers alive before the command, the dispatch loop counts those alive
after it, and a driver is judged by its own entry as long as as many are alive before it in both
(`aligned_iff`).  A new driver has no entry, and a driver found dead by a `send` shifts every one
alive behind it, so an iteration judges every driver by its own events exactly when it creates none
and leaves none alive behind one it finds dead (`dispatch_aligned_iff`).
-/

namespace EltexSystems

open CStr Filtered Positions

section Entries

theorem drivers_atEntry (c : Cli) (i k : ℕ) (f : DriverEntry → DriverEntry × List Effect) :
    (c.atEntry i f).drivers[k]?
      = if k = i then (c.drivers[i]?).map (fun d => (f d).1) else c.drivers[k]? := by
  unfold Cli.atEntry
  rcases h : c.drivers[i]? with _ | d
  · split_ifs with hk
    · rw [hk, h]
      rfl
    · rfl
  · have hlt := (List.getElem?_eq_some_iff.mp h).1
    split_ifs with hk
    · rw [hk]
      exact List.getElem?_set_self hlt
    · exact List.getElem?_set_ne (Ne.symm hk)

theorem length_atEntry (c : Cli) (i : ℕ) (f : DriverEntry → DriverEntry × List Effect) :
    (c.atEntry i f).drivers.length = c.drivers.length := by
  unfold Cli.atEntry
  split
  · rfl
  · exact List.length_set

theorem drop_atEntry (c : Cli) (i : ℕ) (f : DriverEntry → DriverEntry × List Effect) :
    (c.atEntry i f).drivers.drop (i + 1) = c.drivers.drop (i + 1) := by
  unfold Cli.atEntry
  split
  · rfl
  · exact List.drop_set_of_lt (Nat.lt_succ_self i)

theorem drivers_foldl (f : ℕ → DriverEntry → DriverEntry × List Effect) (c : Cli) (k : ℕ) :
    ∀ n : ℕ, ((List.range n).foldl (fun c i => c.atEntry i (f i)) c).drivers[k]?
      = if k < n then (c.drivers[k]?).map (fun d => (f k d).1) else c.drivers[k]?
  | 0 => rfl
  | n + 1 => by
    rw [List.range_succ, List.foldl_append, List.foldl_cons, List.foldl_nil, drivers_atEntry]
    by_cases hk : k = n
    · subst hk
      rw [if_pos rfl, if_pos (Nat.lt_succ_self k), drivers_foldl f c k k, if_neg (lt_irrefl k)]
    · rw [if_neg hk, drivers_foldl f c k n]
      by_cases hlt : k < n
      · rw [if_pos hlt, if_pos (Nat.lt_succ_of_lt hlt)]
      · rw [if_neg hlt, if_neg (by omega)]

theorem length_foldl (f : ℕ → DriverEntry → DriverEntry × List Effect) (is : List ℕ) :
    ∀ c : Cli, (is.foldl (fun c i => c.atEntry i (f i)) c).drivers.length = c.drivers.length := by
  induction is with
  | nil => exact fun _ => rfl
  | cons i is ih =>
    intro c
    rw [List.foldl_cons, ih, length_atEntry]

end Entries

section Judged

/-- The dispatch loop numbers the alive entries from 1 on. -/
theorem dispatch_examined (revents : ℕ → Revents) (recv : ℕ → List Recv) :
    ∀ (m k idx : ℕ) (c : Cli), c.drivers.length = k + m →
      (dispatch revents recv (List.range' k m) idx c).2
        = number DriverEntry.alive k idx (c.drivers.drop k)
  | 0, k, idx, c, h => by
    rw [List.drop_of_length_le (by omega)]
    rfl
  | m + 1, k, idx, c, h => by
    have hlt : k < c.drivers.length := by omega
    rw [List.range'_succ, List.drop_eq_getElem_cons hlt]
    unfold dispatch number
    rw [List.getElem?_eq_getElem hlt]
    by_cases ha : c.drivers[k].alive = true
    · rw [if_pos (by simpa using ha), if_pos ha]
      simp only []
      rw [dispatch_examined revents recv m (k + 1) (idx + 1) _ (by rw [length_atEntry]; omega),
        drop_atEntry]
    · rw [if_neg (by simpa using ha), if_neg ha]
      exact dispatch_examined revents recv m (k + 1) idx c (by omega)

theorem dispatchAll_examined (c : Cli) (e : LoopEnv) (revents : ℕ → Revents) :
    (dispatchAll c e revents).2 = number DriverEntry.alive 0 1 c.drivers := by
  unfold dispatchAll
  rw [List.range_eq_range', dispatch_examined revents e.recv _ 0 1 c (Nat.zero_add _).symm,
    List.drop_zero]

/-- Alive entries have different sockets. -/
def Distinct (drivers : List DriverEntry) : Prop :=
  ∀ (i j : ℕ) (a b : DriverEntry), drivers[i]? = some a → drivers[j]? = some b →
    a.alive = true → b.alive = true → a.fd = b.fd → i = j

variable {D D' : List DriverEntry}

/-- Where the command has only turned entries off, the entries alive are judged by their own exactly
when none of them is behind one turned off. -/
theorem aligned_iff (hD : Distinct D) (hlen : D'.length = D.length)
    (hoff : ∀ (k : ℕ) (a b : DriverEntry), D[k]? = some a → D'[k]? = some b → b.alive = true →
      a.alive = true) :
    (∀ q ∈ number DriverEntry.alive 0 1 D', q.2 < (pollFds D).length ∧
      ∃ d : DriverEntry, D[q.1]? = some d ∧ (pollFds D)[q.2]? = some d.fd) ↔
    ∀ (i j : ℕ) (a b : DriverEntry), i < j → D[i]? = some a → a.alive = true → D'[i]? = some b →
      b.alive = false → ∀ d : DriverEntry, D'[j]? = some d → d.alive = false := by
  have hrank : ∀ k, (D'.take k).countP DriverEntry.alive = (D.take k).countP DriverEntry.alive ↔
      List.Forall₂ (fun (a b : DriverEntry) => a.alive = true → b.alive = true)
        (D.take k) (D'.take k) := fun k =>
    (countP_le_and_eq_iff (forall₂_take hlen fun k a b _ ha hb => hoff k a b ha hb)).2
  have hfds : ∀ r, (pollFds D)[1 + r]? = ((D.filter DriverEntry.alive)[r]?).map DriverEntry.fd :=
    fun r => by rw [pollFds, Nat.add_comm, List.getElem?_cons_succ, List.getElem?_map]
  constructor
  · intro h i j a b hij ha haa hb hbb d hd
    by_contra hda
    rw [Bool.not_eq_false] at hda
    obtain ⟨-, x, hx, hfd⟩ := h _ (mem_number_iff.mpr ⟨j, d, hd, hda, rfl⟩)
    rw [Nat.zero_add] at hx
    rw [hfds] at hfd
    obtain ⟨y, hy, hyx⟩ := Option.map_eq_some_iff.mp hfd
    obtain ⟨j₀, hj₀, hya, hr⟩ := getElem?_filter_iff.mp hy
    obtain rfl : j₀ = j := hD j₀ j y x hj₀ hx hya (hoff j x d hx hd hda) hyx
    have hall := (hrank j₀).mp hr.symm
    rw [List.forall₂_iff_get] at hall
    have hilt := (List.getElem?_eq_some_iff.mp ha).1
    have hilt' := (List.getElem?_eq_some_iff.mp hb).1
    have := hall.2 i (by simp; omega) (by simp; omega)
    simp only [List.get_eq_getElem, List.getElem_take] at this
    rw [(List.getElem?_eq_some_iff.mp ha).2, (List.getElem?_eq_some_iff.mp hb).2, hbb] at this
    exact Bool.false_ne_true (this haa)
  · rintro h q hq
    obtain ⟨k, d, hd, hda, rfl⟩ := mem_number_iff.mp hq
    have hklt := (List.getElem?_eq_some_iff.mp hd).1
    obtain ⟨x, hx⟩ : ∃ x, D[k]? = some x := ⟨_, List.getElem?_eq_getElem (by omega)⟩
    have hxa := hoff k x d hx hd hda
    have hall := (hrank k).mpr (forall₂_take hlen fun i a b hik ha hb haa => by
      by_contra hba
      rw [Bool.not_eq_true] at hba
      rw [h i k a b hik ha haa hb hba d hd] at hda
      exact Bool.false_ne_true hda)
    have hfd : (pollFds D)[1 + (D'.take k).countP DriverEntry.alive]? = some x.fd := by
      rw [hall, hfds, getElem?_filter_iff.mpr ⟨k, hx, hxa, rfl⟩]
      rfl
    exact ⟨(List.getElem?_eq_some_iff.mp hfd).1, x, by rw [Nat.zero_add, hx], hfd⟩

end Judged

section Held

/-- What is done to an entry leaves it and closes nothing, or turns it off and closes its socket. -/
def Tame (d : DriverEntry) (r : DriverEntry × List Effect) : Prop :=
  (r.1 = d ∧ ∀ fd, .close fd ∉ r.2) ∨
    (d.alive = true ∧ r.1.alive = false ∧ ∀ fd, .close fd ∈ r.2 → fd = d.fd)

/-- Alive entries have open sockets, all different. -/
structure CliInv (c : Cli) : Prop where
  held : ∀ (i : ℕ) (d : DriverEntry), c.drivers[i]? = some d → d.alive = true → d.fd ∈ c.openFds
  distinct : Distinct c.drivers

theorem mem_openFds_emit {c : Cli} {es : List Effect} {fd : ℤ} :
    fd ∈ (c.emit es).openFds ↔ fd ∈ c.openFds ∧ .close fd ∉ es := by
  unfold Cli.emit
  rw [List.mem_filter, decide_eq_true_iff]

theorem Tame.bury {d : DriverEntry} (ha : d.alive = true) : Tame d (bury d) :=
  .inr ⟨ha, rfl, fun fd h => by simpa [EltexSystems.bury] using h⟩

theorem Tame.print {d : DriverEntry} {r : DriverEntry × List Effect} (h : Tame d r)
    (text : List UInt8) : Tame d (r.1, .print text :: r.2) := by
  rcases h with ⟨h1, h2⟩ | ⟨h1, h2, h3⟩
  · exact .inl ⟨h1, fun fd hm => by simp [h2 fd] at hm⟩
  · exact .inr ⟨h1, h2, fun fd hm => h3 fd (by simpa using hm)⟩

theorem Tame.leave {d : DriverEntry} {es : List Effect} (h : ∀ fd, .close fd ∉ es) :
    Tame d (d, es) :=
  .inl ⟨rfl, h⟩

theorem reapEntry_tame {d : DriverEntry} (ha : d.alive = true) : Tame d (reapEntry d) := by
  refine .inr ⟨ha, rfl, fun fd h => ?_⟩
  unfold reapEntry at h
  split_ifs at h
  · simpa using h
  · simp at h

theorem sendCmd_tame (cmd : List UInt8) (r : SendResult) (d : DriverEntry) :
    Tame d (sendCmd cmd r d) := by
  unfold sendCmd
  by_cases ha : d.alive = true
  · rw [ha, Bool.not_true, if_neg Bool.false_ne_true]
    cases r with
    | sent => exact .leave (by simp)
    | dead => exact (Tame.bury ha).print _
    | failed => exact .leave (by simp)
  · rw [Bool.not_eq_true] at ha
    rw [ha, Bool.not_false, if_pos rfl]
    exact .leave (by simp [noSuchDriver])

theorem handleDriverReadable_tame {d : DriverEntry} (ha : d.alive = true) :
    ∀ rs : List Recv, Tame d (handleDriverReadable rs d)
  | [] => .leave (by simp)
  | .again :: _ => .leave (by simp)
  | .error :: _ => .bury ha
  | .data [] :: _ => .bury ha
  | .data (_ :: _) :: rs => (handleDriverReadable_tame ha rs).print _

theorem judge_tame {d : DriverEntry} (ha : d.alive = true) (ev : Revents) (rs : List Recv) :
    Tame d (judge ev rs d) := by
  unfold judge
  split_ifs
  · exact .bury ha
  · exact handleDriverReadable_tame ha rs
  · exact .leave (by simp)

theorem CliInv.emit {c : Cli} (h : CliInv c) {es : List Effect} (hes : ∀ fd, .close fd ∉ es) :
    CliInv (c.emit es) :=
  ⟨fun i d hd ha => mem_openFds_emit.mpr ⟨h.held i d hd ha, hes d.fd⟩, h.distinct⟩

theorem CliInv.atEntry {c : Cli} (h : CliInv c) {i : ℕ}
    {f : DriverEntry → DriverEntry × List Effect}
    (hf : ∀ d, c.drivers[i]? = some d → Tame d (f d)) :
    CliInv (c.atEntry i f) := by
  have hfds : ∀ fd, fd ∈ (c.atEntry i f).openFds ↔
      fd ∈ c.openFds ∧ ∀ d, c.drivers[i]? = some d → .close fd ∉ (f d).2 := by
    intro fd
    unfold Cli.atEntry
    rcases hd : c.drivers[i]? with _ | d
    · simp
    · simpa using mem_openFds_emit
  have hget : ∀ (k : ℕ) (d : DriverEntry), (c.atEntry i f).drivers[k]? = some d →
      d.alive = true → c.drivers[k]? = some d := by
    intro k d hd ha
    rw [drivers_atEntry] at hd
    split_ifs at hd with hk
    · subst hk
      obtain ⟨x, hx, rfl⟩ := Option.map_eq_some_iff.mp hd
      rcases hf x hx with ⟨h1, -⟩ | ⟨-, h2, -⟩
      · rw [h1]
        exact hx
      · rw [h2] at ha
        exact absurd ha Bool.false_ne_true
    · exact hd
  constructor
  · intro k d hd ha
    have hk := hget k d hd ha
    refine (hfds d.fd).mpr ⟨h.held k d hk ha, fun x hx hm => ?_⟩
    rcases hf x hx with ⟨-, h2⟩ | ⟨h1, h2, h3⟩
    · exact h2 _ hm
    · obtain rfl := h.distinct k i d x hk hx ha h1 (h3 _ hm)
      rw [drivers_atEntry, if_pos rfl, hx] at hd
      rw [← Option.some.inj hd, h2] at ha
      exact Bool.false_ne_true ha
  · intro k l a b ha hb haa hba hfd
    exact h.distinct k l a b (hget k a ha haa) (hget l b hb hba) haa hba hfd

theorem CliInv.reapChildren {c : Cli} (h : CliInv c) (ps : List ℤ) :
    CliInv (reapChildren c ps) := by
  unfold EltexSystems.reapChildren
  induction ps generalizing c with
  | nil => exact h
  | cons p ps ih =>
    refine ih ?_
    unfold reapChild
    rcases hi : c.drivers.findIdx? _ with _ | i
    · exact h
    · refine h.atEntry fun d hd => reapEntry_tame ?_
      obtain ⟨hlt, hp, -⟩ := List.findIdx?_eq_some_iff_getElem.mp hi
      rw [List.getElem?_eq_getElem hlt, Option.some.injEq] at hd
      rw [hd, Bool.and_eq_true] at hp
      exact hp.1

theorem CliInv.dispatch (revents : ℕ → Revents) (recv : ℕ → List Recv) :
    ∀ (is : List ℕ) (idx : ℕ) {c : Cli}, CliInv c → CliInv (dispatch revents recv is idx c).1
  | [], _, _, h => h
  | i :: is, idx, c, h => by
    unfold EltexSystems.dispatch
    split_ifs with ha
    · refine CliInv.dispatch revents recv is (idx + 1) (h.atEntry fun d hd => judge_tame ?_ _ _)
      rwa [hd] at ha
    · exact CliInv.dispatch revents recv is idx h

theorem CliInv.foldl (f : ℕ → DriverEntry → DriverEntry × List Effect)
    (hf : ∀ i d, Tame d (f i d)) :
    ∀ (is : List ℕ) {c : Cli}, CliInv c → CliInv (is.foldl (fun c i => c.atEntry i (f i)) c)
  | [], _, h => h
  | i :: is, _, h => CliInv.foldl f hf is (h.atEntry fun d _ => hf i d)

theorem toDriver_tame (cmd : List UInt8) (r : SendResult) (d : DriverEntry) :
    Tame d (if !d.alive then (d, [noSuchDriver]) else sendCmd cmd r d) := by
  split_ifs
  · exact .leave (by simp [noSuchDriver])
  · exact sendCmd_tame cmd r d

theorem statusEntry_tame (r : SendResult) (d : DriverEntry) : Tame d (statusEntry r d) := by
  unfold statusEntry
  split_ifs
  · exact .leave (by simp)
  · exact sendCmd_tame _ r d

theorem CliInv.cmdToDriver {c : Cli} (h : CliInv c) (pid : ℤ) (cmd : Command) (e : LoopEnv) :
    CliInv (cmdToDriver c pid cmd e) := by
  unfold EltexSystems.cmdToDriver
  rcases findDriver c pid with _ | i
  · exact h.emit (by simp [noSuchDriver])
  · exact h.atEntry fun d _ => toDriver_tame _ _ d

theorem cmdCreateDriver_eq_some {c c' : Cli} {e : LoopEnv} (h : cmdCreateDriver c e = some c') :
    ∃ pid fd, e.spawn = some (pid, fd) ∧ c'.drivers = c.drivers ++ [⟨pid, fd, true⟩] ∧
      ∀ x, x ∈ c'.openFds ↔ x = fd ∨ x ∈ c.openFds := by
  unfold cmdCreateDriver at h
  rcases hs : e.spawn with _ | ⟨pid, fd⟩
  · rw [hs] at h
    cases h
  · rw [hs] at h
    obtain ⟨c₁, h1, rfl⟩ := Option.map_eq_some_iff.mp h
    refine ⟨pid, fd, rfl, ?_⟩
    unfold driversPush at h1
    split_ifs at h1 <;>
    · cases h1
      refine ⟨rfl, fun x => ?_⟩
      rw [mem_openFds_emit]
      simp

theorem cmdCreateDriver_eq_none {c : Cli} {e : LoopEnv} :
    cmdCreateDriver c e = none ↔
      ¬ (e.spawn ≠ none ∧ (c.drivers.length = c.cap → e.realloc = true)) := by
  unfold cmdCreateDriver driversPush
  rcases e.spawn with _ | ⟨pid, fd⟩
  · simp
  · by_cases hcap : c.drivers.length = c.cap <;> by_cases hr : e.realloc = true <;> simp [hcap, hr]

theorem CliInv.create {c c' : Cli} {e : LoopEnv} (h : CliInv c)
    (hf : ∀ pid fd, e.spawn = some (pid, fd) → fd ∉ c.openFds)
    (hc : cmdCreateDriver c e = some c') : CliInv c' := by
  obtain ⟨pid, fd, hs, hd, ho⟩ := cmdCreateDriver_eq_some hc
  have hfresh := hf pid fd hs
  have hget : ∀ (i : ℕ) (d : DriverEntry), c'.drivers[i]? = some d →
      c.drivers[i]? = some d ∨ i = c.drivers.length ∧ d = ⟨pid, fd, true⟩ := by
    intro i d hi
    rw [hd] at hi
    exact getElem?_concat_iff.mp hi
  constructor
  · intro i d hi ha
    rw [ho]
    rcases hget i d hi with hi | ⟨-, rfl⟩
    · exact .inr (h.held i d hi ha)
    · exact .inl rfl
  · intro i j a b hi hj ha hb hab
    rcases hget i a hi with hi | ⟨rfl, rfl⟩ <;> rcases hget j b hj with hj | ⟨rfl, rfl⟩
    · exact h.distinct i j a b hi hj ha hb hab
    · have hheld := h.held i a hi ha
      rw [hab] at hheld
      exact absurd hheld hfresh
    · have hheld := h.held j b hj hb
      rw [← hab] at hheld
      exact absurd hheld hfresh
    · rfl

theorem CliInv.runCommand {c c' : Cli} {e : LoopEnv} (h : CliInv c)
    (hf : ∀ pid fd, e.spawn = some (pid, fd) → fd ∉ c.openFds) {cmd : CliCommand}
    (hc : runCommand c e cmd = some c') : CliInv c' := by
  unfold EltexSystems.runCommand at hc
  split at hc
  case h_2 => exact h.create hf hc
  all_goals cases hc
  case h_4 pid sec => exact h.cmdToDriver pid _ e
  case h_6 pid => exact h.cmdToDriver pid _ e
  case h_8 => exact CliInv.foldl _ (fun i d => statusEntry_tame _ d) _ h
  all_goals first
    | exact h
    | exact h.emit (by simp)

end Held

section Commands

theorem sendCmd_alive (cmd : List UInt8) (r : SendResult) (d : DriverEntry) :
    (sendCmd cmd r d).1.alive = true ↔ d.alive = true ∧ r ≠ .dead := by
  unfold sendCmd
  by_cases ha : d.alive = true
  · cases r <;> simp [ha, bury]
  · simp [ha]

theorem statusEntry_alive (r : SendResult) (d : DriverEntry) :
    (statusEntry r d).1.alive = true ↔ d.alive = true ∧ r ≠ .dead := by
  unfold statusEntry
  by_cases ha : d.alive = true
  · simp [ha, sendCmd_alive]
  · simp [ha]

theorem toDriver_alive (cmd : List UInt8) (r : SendResult) (d : DriverEntry) :
    (if !d.alive then (d, [noSuchDriver]) else sendCmd cmd r d).1.alive = true ↔
      d.alive = true ∧ r ≠ .dead := by
  by_cases ha : d.alive = true
  · simp [ha, sendCmd_alive]
  · simp [ha]

theorem runCommand_eq_none {c : Cli} {e : LoopEnv} {cmd : CliCommand}
    (h : runCommand c e cmd = none) : cmd = .createDriver := by
  unfold runCommand at h
  split at h
  case h_2 => rfl
  all_goals cases h

/-- A command that creates no driver only turns off the entries whose driver it finds dead. -/
theorem runCommand_drivers {c c' : Cli} {e : LoopEnv} {cmd : CliCommand}
    (hcmd : cmd ≠ .createDriver) (hc : runCommand c e cmd = some c') :
    c'.drivers.length = c.drivers.length ∧ ∀ (k : ℕ) (a b : DriverEntry),
      c.drivers[k]? = some a → c'.drivers[k]? = some b →
      (b.alive = true ↔ a.alive = true ∧ ¬ (Addressed c cmd k ∧ e.send k = .dead)) := by
  have hto : ∀ (pid : ℤ) (t : Command),
      (cmdToDriver c pid t e).drivers.length = c.drivers.length ∧
      ∀ (k : ℕ) (a b : DriverEntry), c.drivers[k]? = some a →
        (cmdToDriver c pid t e).drivers[k]? = some b →
        (b.alive = true ↔
          a.alive = true ∧ ¬ (findDriver c pid = some k ∧ e.send k = .dead)) := by
    intro pid t
    unfold cmdToDriver
    rcases findDriver c pid with _ | i
    · exact ⟨rfl, fun k a b ha hb => by cases ha.symm.trans hb; simp⟩
    · refine ⟨length_atEntry c i _, fun k a b ha hb => ?_⟩
      simp only [drivers_atEntry] at hb
      split_ifs at hb with hk
      · subst hk
        rw [ha] at hb
        rw [← Option.some.inj hb, toDriver_alive]
        simp
      · cases ha.symm.trans hb
        simp [Ne.symm hk]
  unfold runCommand at hc
  split at hc
  case h_2 => exact absurd rfl hcmd
  all_goals cases hc
  case h_4 pid sec => exact hto pid _
  case h_6 pid => exact hto pid _
  case h_8 =>
    refine ⟨length_foldl _ _ c, fun k a b ha hb => ?_⟩
    unfold cmdGetDrivers at hb
    rw [drivers_foldl, if_pos (List.getElem?_eq_some_iff.mp ha).1, ha] at hb
    rw [← Option.some.inj hb, statusEntry_alive]
    simp [Addressed]
  all_goals exact ⟨rfl, fun k a b ha hb => by cases ha.symm.trans hb; simp [Addressed]⟩

end Commands

section Iterations

/-- The table the command of an iteration runs on. -/
abbrev prompted (c : Cli) (e : LoopEnv) : Cli :=
  (reapChildren c e.reaped).emit [.print (ascii "> ")]

theorem mainIter_cases (c : Cli) (e : LoopEnv) :
    (mainIter c e).polled = (reapChildren c e.reaped).drivers ∧
    (mainIter c e).pfds = pollFds (reapChildren c e.reaped).drivers ∧
    (((mainIter c e).examined = [] ∧
        ((mainIter c e).cli = reapChildren c e.reaped ∨ (mainIter c e).cli = prompted c e) ∧
        (commandOf e = .empty ∨ commandOf e = .quit ∨
          runCommand (prompted c e) e (commandOf e) = none)) ∨
      ∃ revents c', runCommand (prompted c e) e (commandOf e) = some c' ∧
        (mainIter c e).cli = (dispatchAll c' e revents).1 ∧
        (mainIter c e).examined = (dispatchAll c' e revents).2) := by
  unfold mainIter commandOf
  rcases e.calloc with _ | _
  · exact ⟨rfl, rfl, .inl ⟨rfl, .inl rfl, .inl rfl⟩⟩
  · rcases e.poll with _ | _ | revents
    · exact ⟨rfl, rfl, .inl ⟨rfl, .inr rfl, .inl rfl⟩⟩
    · exact ⟨rfl, rfl, .inl ⟨rfl, .inr rfl, .inl rfl⟩⟩
    · refine ⟨rfl, rfl, ?_⟩
      simp only [Bool.not_true, Bool.false_eq_true, if_false]
      unfold afterPoll
      by_cases hin : (revents 0).pollin = true
      · rcases e.line with _ | line
        · rw [if_pos hin]
          exact .inl ⟨rfl, .inr rfl, .inl rfl⟩
        · simp only [if_pos hin]
          by_cases hq : parseLine line = .quit
          · rw [if_pos hq]
            exact .inl ⟨rfl, .inr rfl, .inr (.inl hq)⟩
          · rw [if_neg hq]
            rcases hc : runCommand _ e (parseLine line) with _ | c'
            · exact .inl ⟨rfl, .inr rfl, .inr (.inr rfl)⟩
            · exact .inr ⟨revents, c', rfl, rfl, rfl⟩
      · rw [if_neg hin]
        refine .inr ⟨revents, prompted c e, ?_, rfl, rfl⟩
        rcases e.line with _ | line
        · rfl
        · simp only [hin]
          rfl

theorem CliInv.mainIter {c : Cli} {e : LoopEnv} (h : CliInv c) (hf : FreshSocket c e) :
    CliInv (mainIter c e).cli := by
  have hr := h.reapChildren e.reaped
  have hp : CliInv (prompted c e) := hr.emit (by simp)
  obtain ⟨-, -, ⟨-, heq | heq, -⟩ | ⟨revents, c', hc, heq, -⟩⟩ := mainIter_cases c e
  · rw [heq]
    exact hr
  · rw [heq]
    exact hp
  · rw [heq]
    refine CliInv.dispatch _ _ _ _ (hp.runCommand (fun pid fd hs => ?_) hc)
    exact fun hm => (hf pid fd hs).2 (mem_openFds_emit.mp hm).1

theorem cliInv_run {tr : List (Cli × LoopEnv)} {c : Cli} (h : cliLts.Run tr c) : CliInv c := by
  refine h.inv ?_ ?_
  · rintro c rfl
    exact ⟨fun i d hd => by simp at hd, fun i j a b ha => by simp at ha⟩
  · rintro c e c' hI ⟨hf, -, rfl⟩
    exact hI.mainIter hf

theorem keeps_of_idle {c : Cli} {e : LoopEnv} (hcmd : commandOf e = .empty ∨ commandOf e = .quit ∨
    runCommand (prompted c e) e (commandOf e) = none) : Keeps c e := by
  have hna : ∀ i, ¬ Addressed (reapChildren c e.reaped) (commandOf e) i := by
    rcases hcmd with hcmd | hcmd | hcmd
    · simp [hcmd, Addressed]
    · simp [hcmd, Addressed]
    · simp [runCommand_eq_none hcmd, Addressed]
  refine ⟨?_, fun i j d _ hi => absurd hi.2.1 (hna i)⟩
  rintro ⟨hcreate, hs⟩
  rw [hcreate] at hcmd
  rcases hcmd with hcmd | hcmd | hcmd
  · cases hcmd
  · cases hcmd
  · exact cmdCreateDriver_eq_none.mp hcmd hs

theorem creates_of_eq_some {c c' : Cli} {e : LoopEnv} (hcmd : commandOf e = .createDriver)
    (hc : cmdCreateDriver c e = some c') : Creates c e := by
  refine ⟨hcmd, not_not.mp fun hns => ?_⟩
  rw [cmdCreateDriver_eq_none.mpr hns] at hc
  cases hc

/-- Where a command leaves as many entries, those it turns off are the ones it finds dead. -/
theorem keeps_iff {c c' : Cli} {e : LoopEnv} (hcreate : commandOf e ≠ .createDriver)
    (hc : runCommand (prompted c e) e (commandOf e) = some c') :
    Keeps c e ↔ ∀ (i j : ℕ) (a b : DriverEntry), i < j →
      (reapChildren c e.reaped).drivers[i]? = some a → a.alive = true →
      c'.drivers[i]? = some b → b.alive = false →
      ∀ d : DriverEntry, c'.drivers[j]? = some d → d.alive = false := by
  obtain ⟨hlen, halive⟩ := runCommand_drivers hcreate hc
  have hdead : ∀ (k : ℕ) (a b : DriverEntry), (reapChildren c e.reaped).drivers[k]? = some a →
      c'.drivers[k]? = some b → a.alive = true →
      (b.alive = false ↔ FoundDead (reapChildren c e.reaped) e k) := by
    intro k a b ha hb haa
    rw [← Bool.not_eq_true, halive k a b ha hb, not_and, not_not]
    exact ⟨fun h => ⟨⟨a, ha, haa⟩, h haa⟩, fun h _ => h.2⟩
  have hget : ∀ k, k < (reapChildren c e.reaped).drivers.length ↔ k < c'.drivers.length := by
    intro k
    rw [hlen]
    rfl
  constructor
  · rintro ⟨-, hk⟩ i j a b hij ha haa hb hbb d' hd'
    obtain ⟨d, hd⟩ : ∃ d, (reapChildren c e.reaped).drivers[j]? = some d :=
      ⟨_, List.getElem?_eq_getElem ((hget j).mpr (List.getElem?_eq_some_iff.mp hd').1)⟩
    by_cases hda : d.alive = true
    · exact (hdead j d d' hd hd' hda).mpr (hk i j d hij ((hdead i a b ha hb haa).mp hbb) hd hda)
    · rw [← Bool.not_eq_true, halive j d d' hd hd']
      exact fun h => hda h.1
  · refine fun h => ⟨fun hs => hcreate hs.1, fun i j d hij hi hd hda => ?_⟩
    obtain ⟨a, ha, haa⟩ := hi.1
    obtain ⟨b, hb⟩ : ∃ b, c'.drivers[i]? = some b :=
      ⟨_, List.getElem?_eq_getElem ((hget i).mp (List.getElem?_eq_some_iff.mp ha).1)⟩
    obtain ⟨d', hd'⟩ : ∃ d', c'.drivers[j]? = some d' :=
      ⟨_, List.getElem?_eq_getElem ((hget j).mp (List.getElem?_eq_some_iff.mp hd).1)⟩
    exact (hdead j d d' hd hd' hda).mp
      (h i j a b hij ha haa hb ((hdead i a b ha hb haa).mpr hi) d' hd')

/-- An iteration judges every driver by its own events exactly when its command keeps them. -/
theorem mainIter_aligned_iff {c : Cli} {e : LoopEnv} (h : CliInv c) :
    Aligned (mainIter c e) ↔ Keeps c e := by
  have hr := h.reapChildren e.reaped
  obtain ⟨hpol, hpfds, hcase⟩ := mainIter_cases c e
  unfold Aligned
  rw [hpol, hpfds]
  rcases hcase with ⟨hex, -, hcmd⟩ | ⟨revents, c', hc, -, hex⟩
  · rw [hex]
    exact iff_of_true (fun q hq => absurd hq List.not_mem_nil) (keeps_of_idle hcmd)
  · rw [hex, dispatchAll_examined]
    by_cases hcreate : commandOf e = .createDriver
    · rw [hcreate] at hc
      have hs : Creates (reapChildren c e.reaped) e :=
        creates_of_eq_some (c := prompted c e) hcreate hc
      obtain ⟨pid, fd, -, hd, -⟩ := cmdCreateDriver_eq_some hc
      refine iff_of_false (fun hal => ?_) fun hk => hk.1 hs
      -- the new entry was not there when the array was filled
      obtain ⟨-, d, hget, -⟩ := hal _ (mem_number_iff.mpr
        ⟨(prompted c e).drivers.length, ⟨pid, fd, true⟩, by rw [hd]; simp, rfl, rfl⟩)
      have hlt := (List.getElem?_eq_some_iff.mp hget).1
      rw [Nat.zero_add] at hlt
      exact lt_irrefl _ hlt
    · obtain ⟨hlen, halive⟩ := runCommand_drivers hcreate hc
      rw [aligned_iff hr.distinct hlen fun k a b ha hb hba => ((halive k a b ha hb).mp hba).1,
        keeps_iff hcreate hc]

/-- In every run and in each of its iterations, the last one included, every driver examined is
examined at its own entry of the array exactly when the iteration's command creates no driver and
leaves none alive behind one it finds dead. -/
theorem dispatch_aligned_iff {tr : List (Cli × LoopEnv)} {c : Cli} {e : LoopEnv}
    (h : cliLts.Run tr c) :
    ∀ p ∈ tr ++ [(c, e)], Aligned (mainIter p.1 p.2) ↔ Keeps p.1 p.2 := by
  rintro ⟨c₁, e₁⟩ hp
  rcases List.mem_append.mp hp with hp | hp
  · obtain ⟨tr₁, _, _, -, hrun, -, -⟩ := h.before hp
    exact mainIter_aligned_iff (cliInv_run hrun)
  · cases List.mem_singleton.mp hp
    exact mainIter_aligned_iff (cliInv_run h)

/-- A line is typed that asks for a driver, which is created with a pid and a socket, or for its
state, where the send finds it dead. -/
def typed (line : String) (pid fd : ℤ) : LoopEnv where
  reaped := []
  calloc := true
  poll := .ready fun k => ⟨k == 0, false⟩
  line := some (ascii line)
  spawn := some (pid, fd)
  realloc := true
  send := fun _ => .dead
  recv := fun _ => []

/-- Driver 41 is created with socket 3, and the next command finds it dead. -/
theorem dispatch_aligned_iff_two_lines :
    cliLts.Run [(⟨[], 0, [], []⟩, typed "create_driver\n" 41 3)]
      (mainIter ⟨[], 0, [], []⟩ (typed "create_driver\n" 41 3)).cli ∧
    Aligned (mainIter (mainIter ⟨[], 0, [], []⟩ (typed "create_driver\n" 41 3)).cli
      (typed "get_status 41\n" 42 3)) := by
  have hrun : cliLts.Run [(⟨[], 0, [], []⟩, typed "create_driver\n" 41 3)]
      (mainIter ⟨[], 0, [], []⟩ (typed "create_driver\n" 41 3)).cli :=
    ⟨⟨[], 0, [], []⟩, rfl, .single ⟨fun pid fd h => by cases h; decide, by decide, rfl⟩⟩
  refine ⟨hrun, (@dispatch_aligned_iff _ _ (typed "get_status 41\n" 42 3) hrun _
    (List.mem_append_right _ List.mem_cons_self)).mpr ?_⟩
  refine ⟨fun h => absurd h.1 (by decide), fun i j d hij _ hd => ?_⟩
  have hlt := (List.getElem?_eq_some_iff.mp hd).1
  rw [show (reapChildren _ _).drivers = [⟨41, 3, true⟩] from by decide,
    List.length_singleton] at hlt
  omega

/-- The driver that the first line of a session creates is judged by what lies behind the array. -/
theorem dispatch_past_array :
    cliLts.init ⟨[], 0, [], []⟩ ∧
    FreshSocket ⟨[], 0, [], []⟩ (typed "create_driver\n" 41 3) ∧
    (mainIter ⟨[], 0, [], []⟩ (typed "create_driver\n" 41 3)).pfds = [0] ∧
    (mainIter ⟨[], 0, [], []⟩ (typed "create_driver\n" 41 3)).examined = [(0, 1)] ∧
    ¬ Aligned (mainIter ⟨[], 0, [], []⟩ (typed "create_driver\n" 41 3)) := by
  have hex : (mainIter ⟨[], 0, [], []⟩ (typed "create_driver\n" 41 3)).examined = [(0, 1)] := by
    decide
  refine ⟨rfl, fun pid fd h => by cases h; decide, by decide, hex, fun hal => ?_⟩
  have h := (hal (0, 1) (by rw [hex]; exact List.mem_cons_self)).1
  exact absurd h (by decide)

end Iterations

end EltexSystems
