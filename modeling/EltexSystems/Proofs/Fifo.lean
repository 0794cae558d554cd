import EltexSystems.Fifo
import EltexSystems.Lib.Parties
import EltexSystems.Proofs.PosixExchange
import Mathlib.Data.Fintype.Sum

/-!
# What comes through the FIFO

While somebody holds a FIFO, what is written there is read or is there still (`kept_path`).  It
holds whole messages, so a client prints the message or a buffer that nothing was read to
(`fifo_read`); where there is but one client it always finds the message, and where there is but one
server it always finds a reader (`soloClient_step`, `soloServer_step`), which two do not
(`unset_two`, `killed_two`).  Whoever comes to a FIFO lets through those who wait there, so in the
end nobody waits where one of the other side is (`fifo_ends`), and a server and a client that meet
exchange the message and exit (`fifo_meet`).
-/

namespace EltexSystems.Fifo

open CStr Lts Mem Parties

variable {ι κ : Type*} [DecidableEq ι] [DecidableEq κ] {s s' : State ι κ} {p : ι ⊕ κ} {c : Proc}
  {l : Label ι κ} {n : ℕ} {i : ι} {k : κ}

section Steps

/-- The steps a process has left, at most. -/
def Pc.left : Pc → ℕ
  | .start => 8
  | .opens => 7
  | .waits _ => 6
  | .works => 5
  | .prints => 4
  | .closes => 3
  | .unlinks => 2
  | .exited _ => 1
  | .killed => 0

/-- A process comes to a FIFO. -/
structure Enters (s s' : State ι κ) (p : ι ⊕ κ) (n need : ℕ) : Prop where
  pc : (s.procs p).pc = .opens
  eq : s' = s.enter p n need
  need : s.Partner p n ∧ need = 0 ∨ ¬ s.Partner p n ∧ need = s.partners p n + 1

/-- No process comes to a FIFO. -/
structure Stays (s s' : State ι κ) (p : ι ⊕ κ) (c : Proc) : Prop where
  procs : s'.procs = Function.update s.procs p c
  servers : s'.servers = s.servers
  clients : s'.clients = s.clients
  there : ∀ n, c.At n → (s.procs p).At n
  left : c.pc.left < (s.procs p).pc.left
  code : ∀ code, c.pc = .exited code → (s.procs p).pc = .opens ∨ code = 0

omit [DecidableEq ι] [DecidableEq κ] in
theorem not_at {c : Proc} (h : c.pc = .start ∨ c.pc = .opens ∨ c.pc = .unlinks ∨
    (∃ code, c.pc = .exited code) ∨ c.pc = .killed) : ¬ c.At n := by
  rintro ⟨-, hat⟩
  rcases h with h | h | h | ⟨code, h⟩ | h <;> rw [h] at hat <;> exact hat

theorem leaves_stays {pc : Pc} (hpc : pc = .unlinks ∨ pc = .exited 0 ∨ pc = .killed)
    (hleft : pc.left < (s.procs p).pc.left) (h : Leaves s p pc s') :
    Stays s s' p { s.procs p with pc := pc } := by
  have hnot : ∀ n, ¬ Proc.At { s.procs p with pc := pc } n := by
    intro n
    rcases hpc with rfl | rfl | rfl
    · exact not_at (.inr (.inr (.inl rfl)))
    · exact not_at (.inr (.inr (.inr (.inl ⟨0, rfl⟩))))
    · exact not_at (.inr (.inr (.inr (.inr rfl))))
  have hcode : ∀ code, pc = .exited code → (s.procs p).pc = .opens ∨ code = 0 := by
    rintro code rfl
    rcases hpc with he | he | he <;> cases he
    exact .inr rfl
  cases h with
  | others => exact ⟨rfl, rfl, rfl, fun n hat => absurd hat (hnot n), hleft, hcode⟩
  | last => exact ⟨rfl, rfl, rfl, fun n hat => absurd hat (hnot n), hleft, hcode⟩

/-- A step takes one process on. -/
theorem step_moves (hst : Step s l s') :
    (∃ p n need, Enters s s' p n need) ∨ ∃ p c, Stays s s' p c := by
  have hhere : ∀ {p : ι ⊕ κ} {c : Proc} {n : ℕ}, c.fd = (s.procs p).fd →
      ((s.procs p).pc = .works ∨ (s.procs p).pc = .prints ∨ ∃ need, (s.procs p).pc = .waits need) →
      c.At n → (s.procs p).At n := by
    rintro p c n hfd hpc ⟨hn, -⟩
    refine ⟨hfd.symm.trans hn, ?_⟩
    rcases hpc with hpc | hpc | ⟨need, hpc⟩ <;> rw [hpc] <;> trivial
  cases hst with
  | openTogether hpc _ hp => exact .inl ⟨_, _, _, hpc, rfl, .inl ⟨hp, rfl⟩⟩
  | openAlone hpc _ hp => exact .inl ⟨_, _, _, hpc, rfl, .inr ⟨hp, rfl⟩⟩
  | mkfifo hpc =>
    exact .inr ⟨_, _, rfl, rfl, rfl, fun _ hat => absurd hat (not_at (.inr (.inl rfl))),
      by simp [hpc, Pc.left], by simp [hpc]⟩
  | mkfifoFails hpc =>
    exact .inr ⟨_, _, rfl, rfl, rfl, fun _ hat => absurd hat (not_at (.inr (.inl rfl))),
      by simp [hpc, Pc.left], by simp [hpc]⟩
  | openFails hpc =>
    exact .inr ⟨_, _, rfl, rfl, rfl,
      fun _ hat => absurd hat (not_at (.inr (.inr (.inr (.inl ⟨1, rfl⟩))))),
      by simp [hpc, Pc.left], by simp [hpc]⟩
  | opened hpc =>
    exact .inr ⟨_, _, rfl, rfl, rfl, fun _ => hhere rfl (.inr (.inr ⟨_, hpc⟩)),
      by simp [hpc, Pc.left], by simp [hpc]⟩
  | write hpc =>
    exact .inr ⟨_, _, rfl, rfl, rfl, fun _ => hhere rfl (.inl hpc), by simp [hpc, Pc.left],
      by simp⟩
  | sigpipe hpc _ hl =>
    exact .inr ⟨_, _, leaves_stays (.inr (.inr rfl)) (by simp [hpc, Pc.left]) hl⟩
  | read hpc =>
    exact .inr ⟨_, _, rfl, rfl, rfl, fun _ => hhere rfl (.inl hpc), by simp [hpc, Pc.left],
      by simp⟩
  | eof hpc =>
    exact .inr ⟨_, _, rfl, rfl, rfl, fun _ => hhere rfl (.inl hpc), by simp [hpc, Pc.left],
      by simp⟩
  | print hpc =>
    exact .inr ⟨_, _, rfl, rfl, rfl, fun _ => hhere rfl (.inr (.inl hpc)),
      by simp [hpc, Pc.left], by simp⟩
  | @close _ p hpc hl =>
    refine .inr ⟨_, _, leaves_stays ?_ ?_ hl⟩
    · cases p
      · exact .inr (.inl rfl)
      · exact .inl rfl
    · cases p <;> simp [hpc, Pc.left, afterClose]
  | unlink hpc =>
    exact .inr ⟨_, _, rfl, rfl, rfl,
      fun _ hat => absurd hat (not_at (.inr (.inr (.inr (.inl ⟨0, rfl⟩))))),
      by simp [hpc, Pc.left], by simp⟩

end Steps

section Simp

variable {pc : Pc} {need : ℕ} {q : Pipe UInt8}

@[simp] theorem set_self : (s.set p c).procs p = c := Function.update_self ..

theorem set_other {r : ι ⊕ κ} (h : r ≠ p) : (s.set p c).procs r = s.procs r :=
  Function.update_of_ne h ..

@[simp] theorem set_server : (s.set (.inl i) c).procs (.inr k) = s.procs (.inr k) :=
  set_other (by simp)

@[simp] theorem set_client : (s.set (.inr k) c).procs (.inl i) = s.procs (.inl i) :=
  set_other (by simp)

@[simp] theorem set_pipes : (s.set p c).pipes = s.pipes := rfl

@[simp] theorem goto_eq : s.goto p pc = s.set p { s.procs p with pc := pc } := rfl

omit [DecidableEq ι] [DecidableEq κ] in
@[simp] theorem setPipe_procs : (s.setPipe n q).procs = s.procs := rfl

@[simp] theorem enter_self : (s.enter p n need).procs p
    = { s.procs p with pc := .waits need, fd := n } := Function.update_self ..

theorem enter_other {r : ι ⊕ κ} (h : r ≠ p) : (s.enter p n need).procs r = s.procs r := by
  rcases p <;> exact Function.update_of_ne h ..

@[simp] theorem enter_server : (s.enter (.inl i) n need).procs (.inr k) = s.procs (.inr k) :=
  enter_other (by simp)

@[simp] theorem enter_client : (s.enter (.inr k) n need).procs (.inl i) = s.procs (.inl i) :=
  enter_other (by simp)

end Simp

section Open

/-- Whoever waits is let through by the next of the other side, at once where there is one. -/
def Waiting (s : State ι κ) : Prop :=
  ∀ p need, (s.procs p).pc = .waits need → need ≤ s.partners p (s.procs p).fd + 1 ∧
    (s.Partner p (s.procs p).fd → need ≤ s.partners p (s.procs p).fd)

theorem partners_enter {need m : ℕ} {r : ι ⊕ κ} : (s.enter p n need).partners r m
    = s.partners r m + if r.isLeft ≠ p.isLeft ∧ m = n then 1 else 0 := by
  rcases p with i | k <;> rcases r with j | j
  all_goals
    by_cases hm : m = n
    · subst hm
      simp [State.enter, State.come, State.set, State.partners]
    · simp [State.enter, State.come, State.set, State.partners, hm]

/-- Of the other side, nobody has come but the process that enters. -/
theorem partner_enter {need m : ℕ} {r : ι ⊕ κ} (h : (s.enter p n need).Partner r m) :
    s.Partner r m ∨ r.isLeft ≠ p.isLeft ∧ m = n := by
  have hat : ∀ q, q.isLeft ≠ r.isLeft → ((s.enter p n need).procs q).At m →
      (s.procs q).At m ∨ r.isLeft ≠ p.isLeft ∧ m = n := by
    intro q hq hat
    rcases eq_or_ne q p with rfl | hne
    · rw [enter_self] at hat
      exact .inr ⟨hq.symm, hat.1.symm⟩
    · rw [enter_other hne] at hat
      exact .inl hat
  rcases r with i | k
  · obtain ⟨q, hq⟩ := h
    exact (hat (.inr q) (by simp) hq).imp_left fun hs => ⟨q, hs⟩
  · obtain ⟨q, hq⟩ := h
    exact (hat (.inl q) (by simp) hq).imp_left fun hs => ⟨q, hs⟩

theorem Stays.partner (h : Stays s s' p c) {r : ι ⊕ κ} (hp : s'.Partner r n) : s.Partner r n := by
  have hat : ∀ q, (s'.procs q).At n → (s.procs q).At n := by
    rw [h.procs]
    exact forall_update (P := fun q (c : Proc) => c.At n → (s.procs q).At n) (fun _ => id)
      (h.there n)
  rcases r with i | k
  · exact hp.imp fun q => hat _
  · exact hp.imp fun q => hat _

theorem Stays.partners (h : Stays s s' p c) (r : ι ⊕ κ) : s'.partners r n = s.partners r n := by
  rcases r with i | k
  · exact congrFun h.clients n
  · exact congrFun h.servers n

/-- Only an `open` makes a process wait. -/
theorem Stays.not_waits (h : Stays s s' p c) (need : ℕ) : c.pc ≠ .waits need := by
  intro hpc
  obtain ⟨-, hat⟩ := h.there c.fd ⟨rfl, by rw [hpc]; trivial⟩
  have hleft := h.left
  rw [hpc] at hleft
  cases hold : (s.procs p).pc <;> rw [hold] at hat hleft <;>
    first | exact hat | simp [Pc.left] at hleft

theorem waiting_step (h : Waiting s) (hst : Step s l s') : Waiting s' := by
  rcases step_moves hst with ⟨p, n, need, hent⟩ | ⟨p, c, hstays⟩
  · rw [hent.eq]
    intro r m hr
    rcases eq_or_ne r p with rfl | hne
    · rw [enter_self] at hr ⊢
      cases hr
      have hpartners : (s.enter r n need).partners r n = s.partners r n := by simp [partners_enter]
      have hpartner : (s.enter r n need).Partner r n → s.Partner r n := fun hp =>
        (partner_enter hp).resolve_right fun hside => hside.1 rfl
      rw [hpartners]
      rcases hent.need with ⟨hp, rfl⟩ | ⟨hp, rfl⟩
      · exact ⟨Nat.zero_le _, fun _ => Nat.zero_le _⟩
      · exact ⟨Nat.le_refl _, fun hp' => absurd (hpartner hp') hp⟩
    · rw [enter_other hne] at hr ⊢
      have hold := h r m hr
      rw [partners_enter]
      by_cases hside : r.isLeft ≠ p.isLeft ∧ (s.procs r).fd = n
      · rw [if_pos hside]
        exact ⟨Nat.le_succ_of_le hold.1, fun _ => hold.1⟩
      · rw [if_neg hside]
        exact ⟨hold.1, fun hp => hold.2 ((partner_enter hp).resolve_right hside)⟩
  · intro r need hr
    rcases eq_or_ne r p with rfl | hne
    · rw [hstays.procs, Function.update_self] at hr
      exact absurd hr (hstays.not_waits need)
    · have hother : s'.procs r = s.procs r := by
        rw [hstays.procs]
        exact Function.update_of_ne hne ..
      rw [hother] at hr ⊢
      rw [hstays.partners]
      exact ⟨(h r need hr).1, fun hp => (h r need hr).2 (hstays.partner hp)⟩

end Open

section Data

def hello : List UInt8 := ascii "Hi!"

/-- The FIFO holds whole messages, those that were written and not read. -/
def PipeOk (q : Pipe UInt8) : Prop := ∃ m, q.buf = (List.replicate m msg).flatten

/-- Where servers are, and where clients. -/
def Fits : ι ⊕ κ → Pc → Prop
  | .inl _, .prints | .inl _, .unlinks | .inr _, .start | .inr _, .killed => False
  | _, _ => True

structure Proc.Ok (p : ι ⊕ κ) (c : Proc) : Prop where
  fits : Fits p c.pc
  got : c.got = [] ∨ ∃ rest, c.got = msg ++ rest
  line : ∀ line, c.line = some line → line = .unset ∨ line = .text hello
  told : p.isLeft = false → c.pc = .closes ∨ c.pc = .unlinks ∨ c.pc = .exited 0 → c.line ≠ none

structure Data (s : State ι κ) : Prop where
  pipes : ∀ n, PipeOk (s.pipes n)
  procs : ∀ p, (s.procs p).Ok p

theorem drop_flatten_replicate {α : Type*} (l : List α) : ∀ (j m : ℕ),
    ((List.replicate m l).flatten).drop (l.length * j) = (List.replicate (m - j) l).flatten
  | 0, m => by rw [Nat.mul_zero, List.drop_zero, Nat.sub_zero]
  | j + 1, 0 => by rw [Nat.zero_sub, List.replicate_zero, List.flatten_nil, List.drop_nil]
  | j + 1, m + 1 => by
    rw [List.replicate_succ, List.flatten_cons, Nat.mul_succ, Nat.add_comm, ← List.drop_drop,
      List.drop_left, drop_flatten_replicate l j m, Nat.succ_sub_succ]

theorem PipeOk.write {q : Pipe UInt8} (h : PipeOk q) : PipeOk (q.write msg) := by
  obtain ⟨m, hbuf⟩ := h
  refine ⟨m + 1, ?_⟩
  rw [Pipe.write, hbuf, List.replicate_succ', List.flatten_append, List.flatten_singleton]

theorem PipeOk.read {q : Pipe UInt8} (h : PipeOk q) : PipeOk (q.read BUF_SIZE).2 := by
  obtain ⟨m, hbuf⟩ := h
  refine ⟨m - 16, ?_⟩
  rw [Pipe.read, hbuf]
  exact drop_flatten_replicate msg 16 m

/-- A read that finds something finds a message first. -/
theorem PipeOk.got {q : Pipe UInt8} (h : PipeOk q) (hne : q.buf ≠ []) :
    ∃ rest, (q.read BUF_SIZE).1 = msg ++ rest := by
  obtain ⟨m, hbuf⟩ := h
  cases m with
  | zero => exact absurd hbuf hne
  | succ m =>
    refine ⟨((List.replicate m msg).flatten).take (BUF_SIZE - msg.length), ?_⟩
    rw [Pipe.read, hbuf, List.replicate_succ, List.flatten_cons, List.take_append,
      List.take_of_length_le (by decide)]

theorem cstr_got {buf got rest : List UInt8} (h : got = msg ++ rest) :
    cstr (memcpy buf 0 got got.length) = hello := by
  have hne : ∀ b ∈ hello, b ≠ 0 := ne_zero_of_all (p := ascii "Hi!") (by decide)
  rw [memcpy, List.take_zero, List.nil_append, List.take_length, h, msg, List.append_assoc,
    List.append_assoc]
  exact (cstr_append_nul _ _).trans (cstr_of_ne_zero hne)

omit [DecidableEq ι] [DecidableEq κ] in
/-- A process goes on with what it had read and printed. -/
theorem Proc.Ok.goes (h : Proc.Ok p c) (pc : Pc) (fd : ℕ) (hfits : Fits p pc)
    (htold : p.isLeft = false → pc = .closes ∨ pc = .unlinks ∨ pc = .exited 0 → c.line ≠ none) :
    Proc.Ok p { c with pc := pc, fd := fd } := ⟨hfits, h.got, h.line, htold⟩

theorem Data.goes (h : Data s) (p : ι ⊕ κ) (pc : Pc) (hfits : Fits p pc)
    (htold : p.isLeft = false → pc = .closes ∨ pc = .unlinks ∨ pc = .exited 0 →
      (s.procs p).line ≠ none) : Data (s.goto p pc) :=
  ⟨h.pipes, forall_update h.procs ((h.procs p).goes pc (s.procs p).fd hfits htold)⟩

theorem data_leaves (h : Data s) {pc : Pc} (hl : Leaves s p pc s') (hfits : Fits p pc)
    (htold : p.isLeft = false → pc = .closes ∨ pc = .unlinks ∨ pc = .exited 0 →
      (s.procs p).line ≠ none) : Data s' := by
  have hprocs := (h.goes p pc hfits htold).procs
  cases hl with
  | others => exact ⟨h.pipes, hprocs⟩
  | last => exact ⟨forall_update (P := fun _ => PipeOk) h.pipes ⟨0, rfl⟩, hprocs⟩

theorem data_enter (h : Data s) {need : ℕ} : Data (s.enter p n need) := by
  have hprocs := forall_update h.procs ((h.procs p).goes (.waits need) n (by cases p <;> trivial)
    (by simp))
  rcases p <;> exact ⟨h.pipes, hprocs⟩

theorem data_step (h : Data s) (hst : Step s l s') : Data s' := by
  cases hst with
  | mkfifo => exact ⟨h.pipes, (h.goes (.inl _) .opens trivial nofun).procs⟩
  | mkfifoFails => exact h.goes (.inl _) .opens trivial nofun
  | @openFails p => exact h.goes p (.exited 1) (by cases p <;> trivial) (by simp)
  | @opened p => exact h.goes p .works (by cases p <;> trivial) (by simp)
  | openTogether | openAlone => exact data_enter h
  | write =>
    exact ⟨forall_update (P := fun _ => PipeOk) h.pipes (h.pipes _).write,
      (h.goes (.inl _) .closes trivial nofun).procs⟩
  | sigpipe _ _ hl => exact data_leaves h hl trivial nofun
  | @read k hpc hne =>
    refine ⟨forall_update (P := fun _ => PipeOk) h.pipes (h.pipes _).read,
      forall_update h.procs ⟨trivial, .inr ?_, (h.procs (.inr k)).line, by simp⟩⟩
    exact (h.pipes _).got hne
  | @eof k =>
    exact ⟨h.pipes, forall_update h.procs
      ⟨trivial, .inl rfl, (h.procs (.inr k)).line, by simp⟩⟩
  | @print k hpc =>
    refine ⟨h.pipes, forall_update h.procs
      ⟨trivial, (h.procs (.inr k)).got, ?_, fun _ _ => Option.some_ne_none _⟩⟩
    rintro line ⟨rfl⟩
    rcases (h.procs (.inr k)).got with hgot | ⟨rest, hgot⟩
    · exact .inl (if_pos hgot)
    · refine .inr ((if_neg ?_).trans (congrArg Line.text (cstr_got hgot)))
      rw [hgot]
      exact nofun
  | @close _ p hpc hl =>
    exact data_leaves h hl (by cases p <;> trivial)
      fun hleft _ => (h.procs p).told hleft (.inl hpc)
  | unlink hpc =>
    exact ⟨h.pipes, (h.goes (.inr _) (.exited 0) trivial
      fun hleft _ => (h.procs _).told hleft (.inr (.inl hpc))).procs⟩

end Data

section Held

theorem leaves_procs {pc : Pc} (hl : Leaves s p pc s') :
    s'.procs = Function.update s.procs p { s.procs p with pc := pc } ∧ s'.servers = s.servers ∧
      s'.clients = s.clients ∧ ∀ n, (s.pipes n).buf = [] → (s'.pipes n).buf = [] := by
  cases hl with
  | others => exact ⟨rfl, rfl, rfl, fun _ => id⟩
  | last =>
    exact ⟨rfl, rfl, rfl, forall_update (P := fun n (q : Pipe UInt8) =>
      (s.pipes n).buf = [] → q.buf = []) (fun _ => id) fun _ => rfl⟩

/-- A process goes on that stays where it is at a FIFO. -/
theorem held_of_procs (hprocs : s'.procs = Function.update s.procs p c)
    (hc : (s.procs p).At n → c.At n) (h : s.Held n) : s'.Held n := by
  obtain ⟨r, hr⟩ := h
  refine ⟨r, ?_⟩
  rw [hprocs]
  rcases eq_or_ne r p with rfl | hne
  · rw [Function.update_self]
    exact hc hr
  · rwa [Function.update_of_ne hne]

/-- What a step does to the data of a FIFO, somebody holding it then or nobody. -/
structure Moves (s : State ι κ) (l : Label ι κ) (s' : State ι κ) (n : ℕ) : Prop where
  kept : s'.Held n → (s.pipes n).buf ++ wrote n (s, l, s') = took n (s, l, s') ++ (s'.pipes n).buf
  given_up : ¬ s'.Held n → ¬ s.Held n ∧ (s'.pipes n).buf = (s.pipes n).buf ∨
    (s'.pipes n).buf = []

theorem moves_quiet (hprocs : s'.procs = Function.update s.procs p c)
    (hc : (s.procs p).At n → c.At n) (hpipe : (s'.pipes n).buf = (s.pipes n).buf)
    (hwrote : wrote n (s, l, s') = []) (htook : took n (s, l, s') = []) : Moves s l s' n where
  kept _ := by rw [hwrote, htook, hpipe, List.append_nil, List.nil_append]
  given_up h := .inl ⟨fun hs => h (held_of_procs hprocs hc hs), hpipe⟩

omit [DecidableEq ι] [DecidableEq κ] in
theorem wrote_nil (h : (s.procs p).pc ≠ .works) : wrote n (s, .step p, s') = [] := by
  rcases p with i | k
  · exact if_neg fun hw => h hw.1
  · rfl

omit [DecidableEq ι] [DecidableEq κ] in
theorem took_nil (h : (s.procs p).pc ≠ .works) : took n (s, .step p, s') = [] := by
  rcases p with i | k
  · rfl
  · exact if_neg fun hw => h hw.1

/-- Of a process that gives up a FIFO no other FIFO's data changes, and that one's with the last. -/
theorem moves_leaves {pc : Pc} (hl : Leaves s p pc s')
    (hpc : ∀ n, ¬ Proc.At { s.procs p with pc := pc } n) (hwrote : wrote n (s, l, s') = [])
    (htook : took n (s, l, s') = []) : Moves s l s' n := by
  have hprocs := (leaves_procs hl).1
  by_cases hn : n = (s.procs p).fd
  · subst hn
    cases hl with
    | others hothers =>
      obtain ⟨r, hne, hr⟩ := hothers
      have hheld : (s.goto p pc).Held (s.procs p).fd := by
        refine ⟨r, ?_⟩
        rwa [goto_eq, set_other hne]
      refine ⟨fun _ => ?_, fun h => absurd hheld h⟩
      rw [hwrote, htook, List.append_nil, List.nil_append]
      rfl
    | last hlast =>
      refine ⟨fun hheld => ?_, fun _ => .inr ?_⟩
      · obtain ⟨r, hr⟩ := hheld
        rcases eq_or_ne r p with rfl | hne
        · rw [hprocs, Function.update_self] at hr
          exact absurd hr (hpc _)
        · rw [hprocs, Function.update_of_ne hne] at hr
          exact absurd hr (hlast r hne)
      · show (Function.update s.pipes _ _ _).buf = []
        rw [Function.update_self]
        rfl
  · refine moves_quiet hprocs (fun hat => absurd hat.1.symm hn) ?_ hwrote htook
    cases hl with
    | others => rfl
    | last => exact congrArg Pipe.buf (Function.update_of_ne hn ..)

/-- A server's message goes behind what is in its FIFO. -/
theorem moves_write {i : ι} (hpc : (s.procs (.inl i)).pc = .works) (n : ℕ) :
    Moves s (.step (.inl i)) ((s.goto (.inl i) .closes).setPipe (s.procs (.inl i)).fd
      ((s.pipes (s.procs (.inl i)).fd).write msg)) n := by
  by_cases hn : n = (s.procs (.inl i)).fd
  · subst hn
    refine ⟨fun _ => ?_, fun h => absurd ⟨.inl i, ?_⟩ h⟩
    · have hwrote : wrote (s.procs (.inl i)).fd (s, .step (.inl i),
          (s.goto (.inl i) .closes).setPipe (s.procs (.inl i)).fd
            ((s.pipes (s.procs (.inl i)).fd).write msg)) = msg := if_pos ⟨hpc, by simp, rfl⟩
      rw [hwrote]
      show _ = (Function.update s.pipes _ _ _).buf
      rw [Function.update_self]
      rfl
    · rw [setPipe_procs, goto_eq, set_self]
      exact ⟨rfl, trivial⟩
  · exact moves_quiet rfl (fun h => ⟨h.1, trivial⟩)
      (congrArg Pipe.buf (Function.update_of_ne hn ..)) (if_neg fun hw => hn hw.2.2.symm) rfl

/-- What a client reads is the front of what is in its FIFO. -/
theorem moves_read {k : κ} (hpc : (s.procs (.inr k)).pc = .works) (n : ℕ) :
    Moves s (.step (.inr k)) ((s.set (.inr k) { s.procs (.inr k) with
      pc := .prints
      got := ((s.pipes (s.procs (.inr k)).fd).read BUF_SIZE).1 }).setPipe
        (s.procs (.inr k)).fd ((s.pipes (s.procs (.inr k)).fd).read BUF_SIZE).2) n := by
  by_cases hn : n = (s.procs (.inr k)).fd
  · subst hn
    refine ⟨fun _ => ?_, fun h => absurd ⟨.inr k, ?_⟩ h⟩
    · have htook : took (s.procs (.inr k)).fd (s, .step (.inr k), (s.set (.inr k)
          { s.procs (.inr k) with
            pc := .prints
            got := ((s.pipes (s.procs (.inr k)).fd).read BUF_SIZE).1 }).setPipe
              (s.procs (.inr k)).fd ((s.pipes (s.procs (.inr k)).fd).read BUF_SIZE).2)
          = (s.pipes (s.procs (.inr k)).fd).buf.take BUF_SIZE :=
        (if_pos ⟨hpc, rfl⟩).trans (by rw [setPipe_procs, set_self]; rfl)
      rw [htook, show wrote _ (s, .step (.inr k), _) = [] from rfl, List.append_nil]
      show _ = _ ++ (Function.update s.pipes _ _ _).buf
      rw [Function.update_self]
      exact (List.take_append_drop ..).symm
    · rw [setPipe_procs, set_self]
      exact ⟨rfl, trivial⟩
  · exact moves_quiet rfl (fun h => ⟨h.1, trivial⟩)
      (congrArg Pipe.buf (Function.update_of_ne hn ..)) rfl (if_neg fun hw => hn hw.2.symm)

/-- What the writes of a step put into a FIFO and its reads take, and what is left in it. -/
theorem moves_step (hst : Step s l s') (n : ℕ) : Moves s l s' n := by
  cases hst with
  | mkfifo hpc =>
    exact moves_quiet rfl (fun h => absurd h (not_at (.inl hpc))) rfl
      (wrote_nil (by rw [hpc]; nofun)) rfl
  | mkfifoFails hpc =>
    exact moves_quiet rfl (fun h => absurd h (not_at (.inl hpc))) rfl rfl rfl
  | openFails hpc =>
    exact moves_quiet rfl (fun h => absurd h (not_at (.inr (.inl hpc)))) rfl rfl rfl
  | @openTogether p m hpc | @openAlone p m hpc =>
    have hprocs : ∀ need, (s.enter p m need).procs = Function.update s.procs p
        { s.procs p with pc := .waits need, fd := m } := by cases p <;> exact fun _ => rfl
    have hpipes : ∀ need, (s.enter p m need).pipes = s.pipes := by cases p <;> exact fun _ => rfl
    exact moves_quiet (hprocs _) (fun h => absurd h (not_at (.inr (.inl hpc))))
      (by rw [hpipes]) (wrote_nil (by rw [hpc]; nofun)) (took_nil (by rw [hpc]; nofun))
  | opened hpc =>
    exact moves_quiet rfl (fun h => ⟨h.1, trivial⟩) rfl (wrote_nil (by rw [hpc]; nofun))
      (took_nil (by rw [hpc]; nofun))
  | @write i hpc =>
    exact moves_write hpc n
  | sigpipe hpc _ hl =>
    refine moves_leaves hl (fun n => not_at (.inr (.inr (.inr (.inr rfl))))) (if_neg ?_) rfl
    rw [(leaves_procs hl).1, Function.update_self]
    simp
  | @read k hpc =>
    exact moves_read hpc n
  | eof hpc =>
    exact moves_quiet rfl (fun h => ⟨h.1, trivial⟩) rfl rfl (by simp [took])
  | print hpc =>
    exact moves_quiet rfl (fun h => ⟨h.1, trivial⟩) rfl rfl (took_nil (by rw [hpc]; nofun))
  | @close _ p hpc hl =>
    refine moves_leaves hl (fun n => ?_) (wrote_nil (by rw [hpc]; nofun))
      (took_nil (by rw [hpc]; nofun))
    cases p
    · exact not_at (.inr (.inr (.inr (.inl ⟨0, rfl⟩))))
    · exact not_at (.inr (.inr (.inl rfl)))
  | unlink hpc =>
    exact moves_quiet rfl (fun h => absurd h (not_at (.inr (.inr (.inl hpc))))) rfl rfl
      (took_nil (by rw [hpc]; nofun))

/-- A FIFO that nobody holds is empty. -/
theorem emptied_step (h : ∀ n, ¬ s.Held n → (s.pipes n).buf = []) (hst : Step s l s') :
    ∀ n, ¬ s'.Held n → (s'.pipes n).buf = [] := by
  intro n hn
  rcases (moves_step hst n).given_up hn with ⟨hs, hsame⟩ | hnil
  · exact hsame.trans (h n hs)
  · exact hnil

/-- While somebody holds a FIFO, what was in there and what is written is read or is there still. -/
theorem kept_path {tr : List (State ι κ × Label ι κ)} (h : lts.Path s tr s')
    (hheld : ∀ v ∈ visited tr s', v.Held n) :
    (s.pipes n).buf ++ (steps tr s').flatMap (wrote n)
      = (steps tr s').flatMap (took n) ++ (s'.pipes n).buf := by
  induction h with
  | nil => exact List.append_nil _
  | @cons s t u l tr hst hp ih =>
    have hvisited : ∀ v ∈ visited tr u, v.Held n := fun v hv => hheld v (List.mem_cons_of_mem _ hv)
    have ht : t ∈ visited tr u := by
      cases hp with
      | nil => exact List.mem_singleton_self _
      | cons => exact List.mem_cons_self
    have hone := (moves_step hst n).kept (hvisited t ht)
    have hrest := ih hvisited
    rw [steps, hp.head, List.flatMap_cons, List.flatMap_cons, ← List.append_assoc, hone,
      List.append_assoc, hrest, List.append_assoc]

end Held

section Solo

/-- Nobody of the other side has come to any FIFO. -/
def Pc.Early (pc : Pc) : Prop := pc = .start ∨ pc = .opens ∨ pc = .waits 1 ∨ pc = .exited 1

/-- The process is at the FIFO, its `read` or `write` still before it. -/
def Proc.Comes (c : Proc) (n : ℕ) : Prop :=
  c.fd = n ∧ ((∃ need, c.pc = .waits need) ∨ c.pc = .works)

/-- The process is let through its `open`, or was. -/
def State.Passes (s : State ι κ) (p : ι ⊕ κ) : Prop :=
  match (s.procs p).pc with
  | .waits need => need ≤ s.partners p (s.procs p).fd
  | .works => True
  | _ => False

omit [DecidableEq ι] [DecidableEq κ] in
theorem Proc.Comes.there (h : c.Comes n) : c.At n := by
  refine ⟨h.1, ?_⟩
  rcases h.2 with ⟨need, hpc⟩ | hpc <;> rw [hpc] <;> trivial

omit [DecidableEq ι] [DecidableEq κ] in
theorem not_comes {pc : Pc} (h : c.pc = pc) (hw : ∀ need, pc ≠ .waits need) (hpc : pc ≠ .works) :
    ¬ c.Comes n := by
  rintro ⟨-, ⟨need, he⟩ | he⟩
  · exact hw need (h.symm.trans he)
  · exact hpc (h.symm.trans he)

omit [DecidableEq ι] [DecidableEq κ] in
theorem comes_of_early (h : c.pc.Early) (hat : c.At n) : c.Comes n := by
  rcases h with hpc | hpc | hpc | hpc
  · exact absurd hat (not_at (.inl hpc))
  · exact absurd hat (not_at (.inr (.inl hpc)))
  · exact ⟨hat.1, .inl ⟨1, hpc⟩⟩
  · exact absurd hat (not_at (.inr (.inr (.inr (.inl ⟨1, hpc⟩)))))

omit [DecidableEq ι] [DecidableEq κ] in
theorem passes_cases (h : s.Passes p) : (s.procs p).Comes (s.procs p).fd := by
  unfold State.Passes at h
  cases hpc : (s.procs p).pc <;> rw [hpc] at h
  case waits need => exact ⟨rfl, .inl ⟨need, hpc⟩⟩
  case works => exact ⟨rfl, .inr hpc⟩
  all_goals exact h.elim

/-- A process that goes on elsewhere leaves the data where others are. -/
theorem leaves_pipes {pc : Pc} {r : ι ⊕ κ} (hl : Leaves s p pc s') (hne : r ≠ p)
    (hat : (s.procs r).At n) : s'.pipes n = s.pipes n := by
  cases hl with
  | others => rfl
  | last hlast =>
    refine Function.update_of_ne ?_ ..
    rintro rfl
    exact hlast r hne hat

/-- What holds where there is but one client. -/
structure SoloClient (s : State ι κ) (k : κ) : Prop where
  early : (s.procs (.inr k)).pc = .opens →
    (∀ n, s.clients n = 0) ∧ ∀ i, (s.procs (.inl i)).pc.Early
  fed : s.Passes (.inr k) → (s.pipes (s.procs (.inr k)).fd).buf ≠ [] ∨
    ∃ i, (s.procs (.inl i)).Comes (s.procs (.inr k)).fd
  got : (s.procs (.inr k)).pc = .prints → (s.procs (.inr k)).got ≠ []
  line : (s.procs (.inr k)).line ≠ some .unset

/-- A server goes on. -/
theorem SoloClient.server (h : SoloClient s k)
    (hprocs : s'.procs = Function.update s.procs (.inl i) c) (hclients : s'.clients = s.clients)
    (hearly : (s.procs (.inr k)).pc = .opens → (∀ n, s.clients n = 0) →
      (s.procs (.inl i)).pc.Early → c.pc.Early)
    (hfed : s'.Passes (.inr k) → (s'.pipes (s.procs (.inr k)).fd).buf ≠ [] ∨
      c.Comes (s.procs (.inr k)).fd ∨ s.Passes (.inr k) ∧
        s'.pipes (s.procs (.inr k)).fd = s.pipes (s.procs (.inr k)).fd ∧
        ¬ (s.procs (.inl i)).Comes (s.procs (.inr k)).fd) : SoloClient s' k := by
  have hk : s'.procs (.inr k) = s.procs (.inr k) := by
    rw [hprocs]
    exact Function.update_of_ne (by simp) ..
  refine ⟨fun hpc => ?_, fun hp => ?_, ?_, ?_⟩
  · rw [hk] at hpc
    obtain ⟨hzero, hothers⟩ := h.early hpc
    refine ⟨by rwa [hclients], fun j => ?_⟩
    rw [hprocs]
    rcases eq_or_ne (Sum.inl j) (Sum.inl i) with he | hne
    · cases he
      rw [Function.update_self]
      exact hearly hpc hzero (hothers i)
    · rw [Function.update_of_ne hne]
      exact hothers j
  · rw [hk]
    rcases hfed hp with hbuf | hcomes | ⟨hold, hpipe, hnot⟩
    · exact .inl hbuf
    · refine .inr ⟨i, ?_⟩
      rw [hprocs, Function.update_self]
      exact hcomes
    · rw [hpipe]
      refine (h.fed hold).imp_right ?_
      rintro ⟨j, hj⟩
      refine ⟨j, ?_⟩
      rw [hprocs, Function.update_of_ne]
      · exact hj
      · intro he
        cases he
        exact hnot hj
  · rw [hk]
    exact h.got
  · rw [hk]
    exact h.line

omit [DecidableEq ι] [DecidableEq κ] in
theorem passes_of (hp : s'.procs p = s.procs p)
    (hn : s'.partners p (s.procs p).fd = s.partners p (s.procs p).fd) (h : s'.Passes p) :
    s.Passes p := by
  unfold State.Passes at h ⊢
  rwa [hp, hn] at h

/-- A server that comes to a FIFO. -/
theorem SoloClient.enter [Subsingleton κ] (h : SoloClient s k) {need : ℕ}
    (hpc : (s.procs (.inl i)).pc = .opens)
    (hneed : s.Reader n ∨ need = s.clients n + 1) : SoloClient (s.enter (.inl i) n need) k := by
  refine h.server rfl rfl (fun hk hzero _ => ?_) fun hp => ?_
  · rcases hneed with ⟨k', hat⟩ | rfl
    · rw [Subsingleton.elim k' k] at hat
      exact absurd hat (not_at (.inr (.inl hk)))
    · rw [hzero n]
      exact .inr (.inr (.inl rfl))
  · by_cases hn : n = (s.procs (.inr k)).fd
    · exact .inr (.inl ⟨hn, .inl ⟨need, rfl⟩⟩)
    · refine .inr (.inr ⟨passes_of (enter_other (by simp)) ?_ hp, rfl, not_comes hpc nofun nofun⟩)
      rw [partners_enter, if_neg fun hside => hn hside.2.symm]
      rfl

/-- A server that gives up a FIFO. -/
theorem SoloClient.leaves (h : SoloClient s k) {pc : Pc} (hl : Leaves s (.inl i) pc s')
    (hearly : ¬ (s.procs (.inl i)).pc.Early)
    (hcomes : s.Reader (s.procs (.inl i)).fd → ¬ (s.procs (.inl i)).Comes (s.procs (.inl i)).fd) :
    SoloClient s' k := by
  obtain ⟨hprocs, hservers, hclients, -⟩ := leaves_procs hl
  have hk : s'.procs (.inr k) = s.procs (.inr k) := by
    rw [hprocs]
    exact Function.update_of_ne (by simp) ..
  refine h.server hprocs hclients (fun _ _ he => absurd he hearly) fun hp => ?_
  have hold : s.Passes (.inr k) := passes_of hk (congrFun hservers _) hp
  have hat := (passes_cases hold).there
  refine .inr (.inr ⟨hold, leaves_pipes hl (by simp) hat, fun hc => ?_⟩)
  have hfd := hc.1
  rw [← hfd] at hc hat
  exact hcomes ⟨k, hat⟩ hc

/-- A server goes on that neither comes to a FIFO nor has come to its end. -/
theorem SoloClient.quiet (h : SoloClient s k) {pc : Pc}
    (hprocs : s'.procs = (s.goto (.inl i) pc).procs) (hpipes : s'.pipes = s.pipes)
    (hservers : s'.servers = s.servers) (hclients : s'.clients = s.clients)
    (hearly : (s.procs (.inr k)).pc = .opens → (∀ n, s.clients n = 0) →
      (s.procs (.inl i)).pc.Early → pc.Early)
    (hcomes : ∀ n, (s.procs (.inl i)).Comes n → Proc.Comes { s.procs (.inl i) with pc := pc } n) :
    SoloClient s' k := by
  have hk : s'.procs (.inr k) = s.procs (.inr k) := by
    rw [hprocs]
    exact set_server
  refine h.server hprocs hclients hearly fun hp => ?_
  have hold : s.Passes (.inr k) := passes_of hk (congrFun hservers _) hp
  by_cases hc : (s.procs (.inl i)).Comes (s.procs (.inr k)).fd
  · exact .inr (.inl (hcomes _ hc))
  · exact .inr (.inr ⟨hold, congrFun hpipes _, hc⟩)

theorem SoloClient.write (h : SoloClient s k) (hpc : (s.procs (.inl i)).pc = .works) :
    SoloClient ((s.goto (.inl i) .closes).setPipe (s.procs (.inl i)).fd
      ((s.pipes (s.procs (.inl i)).fd).write msg)) k := by
  refine h.server (i := i) rfl rfl (fun _ _ he => ?_) fun hp => ?_
  · rw [hpc] at he
    rcases he with he | he | he | he <;> cases he
  · by_cases hn : (s.procs (.inr k)).fd = (s.procs (.inl i)).fd
    · refine .inl ?_
      rw [hn]
      show (Function.update s.pipes _ _ _).buf ≠ []
      rw [Function.update_self]
      exact fun hnil => nomatch (List.append_eq_nil_iff.mp hnil).2
    · exact .inr (.inr ⟨passes_of (by simp) rfl hp, Function.update_of_ne hn ..,
        fun hc => hn hc.1.symm⟩)

omit [DecidableEq ι] [DecidableEq κ] in
/-- The client goes on behind its `read`. -/
theorem SoloClient.self (hpc : ∀ need, (s'.procs (.inr k)).pc ≠ .waits need)
    (hpc' : (s'.procs (.inr k)).pc ≠ .opens ∧ (s'.procs (.inr k)).pc ≠ .works)
    (hgot : (s'.procs (.inr k)).pc = .prints → (s'.procs (.inr k)).got ≠ [])
    (hline : (s'.procs (.inr k)).line ≠ some .unset) : SoloClient s' k :=
  ⟨fun he => absurd he hpc'.1, fun hp => absurd (passes_cases hp) (not_comes rfl hpc hpc'.2), hgot,
    hline⟩

theorem SoloClient.opens [Subsingleton κ] (h : SoloClient s k) {need : ℕ}
    (hpc : (s.procs (.inr k)).pc = .opens)
    (hneed : s.Writer n ∨ need = s.servers n + 1) : SoloClient (s.enter (.inr k) n need) k := by
  refine ⟨by simp, fun hp => ?_, by simp, by simpa using h.line⟩
  rcases hneed with ⟨i, hat⟩ | rfl
  · refine .inr ⟨i, ?_⟩
    rw [enter_client, enter_self]
    exact comes_of_early ((h.early hpc).2 i) hat
  · unfold State.Passes at hp
    rw [enter_self] at hp
    exact absurd hp (Nat.not_succ_le_self _)

theorem soloClient_step [Subsingleton κ] (h : SoloClient s k) (hst : Step s l s') :
    SoloClient s' k := by
  have hk : ∀ k', k' = k := fun k' => Subsingleton.elim k' k
  cases hst with
  | mkfifo hpc | mkfifoFails hpc =>
    exact h.quiet rfl rfl rfl rfl (fun _ _ _ => .inr (.inl rfl))
      fun _ hc => absurd hc (not_comes hpc nofun nofun)
  | @openFails p hpc =>
    rcases p with i | k'
    · exact h.quiet rfl rfl rfl rfl (fun _ _ _ => .inr (.inr (.inr rfl)))
        fun _ hc => absurd hc (not_comes hpc nofun nofun)
    · cases hk k'
      exact .self (by simp) (by simp) (by simp) (by simpa using h.line)
  | @openTogether p n hpc hname hp =>
    rcases p with i | k'
    · exact h.enter hpc (.inl hp)
    · cases hk k'
      exact h.opens hpc (.inl hp)
  | @openAlone p n hpc hname hp =>
    rcases p with i | k'
    · exact h.enter hpc (.inr rfl)
    · cases hk k'
      exact h.opens hpc (.inr rfl)
  | @opened p need hpc hle =>
    rcases p with i | k'
    · refine h.quiet rfl rfl rfl rfl (fun _ hzero he => ?_) fun _ hc => ⟨hc.1, .inr rfl⟩
      rw [hpc] at he
      rcases he with he | he | he | he <;> cases he
      have hnone := hzero (s.procs (.inl i)).fd
      rw [show s.partners (.inl i) _ = _ from hnone] at hle
      exact absurd hle (Nat.not_succ_le_zero 0)
    · cases hk k'
      have hp : s.Passes (.inr k) := by
        unfold State.Passes
        rw [hpc]
        exact hle
      refine ⟨by simp, fun _ => ?_, by simp, by simpa using h.line⟩
      simpa using h.fed hp
  | write hpc => exact h.write hpc
  | @sigpipe _ i hpc hno hl =>
    refine h.leaves hl ?_ fun hr => absurd hr hno
    rw [hpc]
    rintro (he | he | he | he) <;> cases he
  | @read k' hpc hne =>
    cases hk k'
    refine .self (by simp) (by simp) (fun _ => ?_) (by simpa using h.line)
    rw [setPipe_procs, set_self]
    exact fun hnil => hne (by simpa [Pipe.read, BUF_SIZE] using hnil)
  | @eof k' hpc hnil hno =>
    cases hk k'
    have hp : s.Passes (.inr k) := by
      unfold State.Passes
      rw [hpc]
      trivial
    rcases h.fed hp with hne | ⟨i, hi⟩
    · exact absurd hnil hne
    · exact absurd ⟨i, hi.there⟩ hno
  | @print k' hpc =>
    cases hk k'
    refine .self (by simp) (by simp) (by simp) ?_
    rw [set_self]
    simp [h.got hpc]
  | unlink =>
    rename_i k' hpc
    cases hk k'
    exact .self (by simp) (by simp) (by simp) (by simpa using h.line)
  | @close _ p hpc hl =>
    rcases p with i | k'
    · refine h.leaves hl ?_ fun _ => not_comes hpc nofun nofun
      rw [hpc]
      rintro (he | he | he | he) <;> cases he
    · cases hk k'
      have hself : s'.procs (.inr k) = { s.procs (.inr k) with pc := .unlinks } := by
        rw [(leaves_procs hl).1]
        exact Function.update_self ..
      refine .self ?_ ?_ ?_ ?_ <;> rw [hself]
      · exact nofun
      · exact ⟨nofun, nofun⟩
      · exact nofun
      · exact h.line

/-- A server that has not written. -/
def Pc.Unwritten (pc : Pc) : Prop :=
  pc = .start ∨ pc = .opens ∨ (∃ need, pc = .waits need) ∨ pc = .works

/-- What holds where there is but one server. -/
structure SoloServer (s : State ι κ) (i : ι) : Prop where
  early : (s.procs (.inl i)).pc = .start ∨ (s.procs (.inl i)).pc = .opens →
    (∀ n, s.servers n = 0) ∧ ∀ k, (s.procs (.inr k)).pc.Early
  empty : (s.procs (.inl i)).pc.Unwritten → ∀ n, (s.pipes n).buf = []
  fed : s.Passes (.inl i) → ∃ k, (s.procs (.inr k)).Comes (s.procs (.inl i)).fd
  alive : (s.procs (.inl i)).pc ≠ .killed

omit [DecidableEq ι] [DecidableEq κ] in
theorem unwritten_of_passes (h : s.Passes (.inl i)) : (s.procs (.inl i)).pc.Unwritten :=
  .inr (.inr (passes_cases h).2)

/-- A client goes on. -/
theorem SoloServer.client (h : SoloServer s i)
    (hprocs : s'.procs = Function.update s.procs (.inr k) c) (hservers : s'.servers = s.servers)
    (hpipes : ∀ n, (s.pipes n).buf = [] → (s'.pipes n).buf = [])
    (hearly : (s.procs (.inl i)).pc = .start ∨ (s.procs (.inl i)).pc = .opens →
      (∀ n, s.servers n = 0) → (s.procs (.inr k)).pc.Early → c.pc.Early)
    (hfed : s'.Passes (.inl i) → c.Comes (s.procs (.inl i)).fd ∨ s.Passes (.inl i) ∧
      ¬ (s.procs (.inr k)).Comes (s.procs (.inl i)).fd) : SoloServer s' i := by
  have hi : s'.procs (.inl i) = s.procs (.inl i) := by
    rw [hprocs]
    exact Function.update_of_ne (by simp) ..
  refine ⟨fun hpc => ?_, fun hpc n => ?_, fun hp => ?_, ?_⟩ <;> rw [hi] at *
  · obtain ⟨hzero, hothers⟩ := h.early hpc
    refine ⟨by rwa [hservers], fun j => ?_⟩
    rw [hprocs]
    rcases eq_or_ne (Sum.inr j) (Sum.inr k) with he | hne
    · cases he
      rw [Function.update_self]
      exact hearly hpc hzero (hothers k)
    · rw [Function.update_of_ne hne]
      exact hothers j
  · exact hpipes n (h.empty hpc n)
  · rcases hfed hp with hcomes | ⟨hold, hnot⟩
    · refine ⟨k, ?_⟩
      rw [hprocs, Function.update_self]
      exact hcomes
    · obtain ⟨j, hj⟩ := h.fed hold
      refine ⟨j, ?_⟩
      rw [hprocs, Function.update_of_ne]
      · exact hj
      · intro he
        cases he
        exact hnot hj
  · exact h.alive

/-- A client goes on that does not come to a FIFO. -/
theorem SoloServer.quiet (h : SoloServer s i)
    (hprocs : s'.procs = Function.update s.procs (.inr k) c) (hservers : s'.servers = s.servers)
    (hclients : s'.clients = s.clients)
    (hpipes : ∀ n, (s.pipes n).buf = [] → (s'.pipes n).buf = [])
    (hearly : (s.procs (.inl i)).pc = .start ∨ (s.procs (.inl i)).pc = .opens →
      (∀ n, s.servers n = 0) → (s.procs (.inr k)).pc.Early → c.pc.Early)
    (hcomes : s.Passes (.inl i) → (s.procs (.inr k)).Comes (s.procs (.inl i)).fd →
      c.Comes (s.procs (.inl i)).fd) : SoloServer s' i := by
  have hi : s'.procs (.inl i) = s.procs (.inl i) := by
    rw [hprocs]
    exact Function.update_of_ne (by simp) ..
  refine h.client hprocs hservers hpipes hearly fun hp => ?_
  have hold : s.Passes (.inl i) := passes_of hi (congrFun hclients _) hp
  by_cases hc : (s.procs (.inr k)).Comes (s.procs (.inl i)).fd
  · exact .inl (hcomes hold hc)
  · exact .inr ⟨hold, hc⟩

/-- A client that comes to a FIFO. -/
theorem SoloServer.enter [Subsingleton ι] (h : SoloServer s i) {need : ℕ}
    (hpc : (s.procs (.inr k)).pc = .opens)
    (hneed : s.Writer n ∨ need = s.servers n + 1) : SoloServer (s.enter (.inr k) n need) i := by
  refine h.client (k := k) rfl rfl (fun _ => id) (fun hi hzero _ => ?_) fun hp => ?_
  · rcases hneed with ⟨i', hat⟩ | rfl
    · rw [Subsingleton.elim i' i] at hat
      rcases hi with hi | hi
      · exact absurd hat (not_at (.inl hi))
      · exact absurd hat (not_at (.inr (.inl hi)))
    · rw [hzero n]
      exact .inr (.inr (.inl rfl))
  · by_cases hn : n = (s.procs (.inl i)).fd
    · exact .inl ⟨hn, .inl ⟨need, rfl⟩⟩
    · refine .inr ⟨passes_of (enter_other (by simp)) ?_ hp, not_comes hpc nofun nofun⟩
      rw [partners_enter, if_neg fun hside => hn hside.2.symm]
      rfl

theorem SoloServer.opens [Subsingleton ι] (h : SoloServer s i) {need : ℕ}
    (hpc : (s.procs (.inl i)).pc = .opens)
    (hneed : s.Reader n ∨ need = s.clients n + 1) : SoloServer (s.enter (.inl i) n need) i := by
  refine ⟨by simp, fun _ => h.empty (.inr (.inl hpc)), fun hp => ?_, by simp⟩
  rcases hneed with ⟨k, hat⟩ | rfl
  · refine ⟨k, ?_⟩
    rw [enter_server, enter_self]
    exact comes_of_early ((h.early (.inr hpc)).2 k) hat
  · unfold State.Passes at hp
    rw [enter_self] at hp
    exact absurd hp (Nat.not_succ_le_self _)

theorem not_early {pc : Pc} (h : ∀ need, pc ≠ .waits need)
    (h' : pc ≠ .start ∧ pc ≠ .opens ∧ pc ≠ .exited 1) : ¬ pc.Early := by
  rintro (he | he | he | he)
  · exact h'.1 he
  · exact h'.2.1 he
  · exact h 1 he
  · exact h'.2.2 he

theorem soloServer_step [Subsingleton ι] (h : SoloServer s i) (hst : Step s l s') :
    SoloServer s' i := by
  have hi : ∀ i', i' = i := fun i' => Subsingleton.elim i' i
  have hlate : ∀ {pc pc' : Pc} {k : κ}, (s.procs (.inr k)).pc = pc → (∀ need, pc ≠ .waits need) →
      pc ≠ .start ∧ pc ≠ .opens ∧ pc ≠ .exited 1 → (s.procs (.inr k)).pc.Early → pc'.Early := by
    intro pc pc' k hpc hw hpc' he
    exact absurd (hpc ▸ he) (not_early hw hpc')
  cases hst with
  | @mkfifo i' hpc | @mkfifoFails i' hpc =>
    cases hi i'
    exact ⟨fun _ => h.early (.inl hpc), fun _ => h.empty (.inl hpc),
      fun hp => absurd (passes_cases hp) (not_comes (show _ = Pc.opens by simp) nofun nofun),
      by simp⟩
  | @openFails p hpc =>
    rcases p with i' | k
    · cases hi i'
      refine ⟨by simp, fun hun => ?_, fun hp => ?_, by simp⟩
      · simp [Pc.Unwritten] at hun
      · exact absurd (passes_cases hp) (not_comes (show _ = Pc.exited 1 by simp) nofun nofun)
    · exact h.quiet rfl rfl rfl (fun _ => id) (fun _ _ _ => .inr (.inr (.inr rfl)))
        fun _ hc => absurd hc (not_comes hpc nofun nofun)
  | @openTogether p n hpc hname hp =>
    rcases p with i' | k
    · cases hi i'
      exact h.opens hpc (.inl hp)
    · exact h.enter hpc (.inl hp)
  | @openAlone p n hpc hname hp =>
    rcases p with i' | k
    · cases hi i'
      exact h.opens hpc (.inr rfl)
    · exact h.enter hpc (.inr rfl)
  | @opened p need hpc hle =>
    rcases p with i' | k
    · cases hi i'
      have hp : s.Passes (.inl i) := by
        unfold State.Passes
        rw [hpc]
        exact hle
      refine ⟨by simp, fun _ => h.empty (unwritten_of_passes hp), fun _ => ?_, by simp⟩
      simpa using h.fed hp
    · refine h.quiet rfl rfl rfl (fun _ => id) (fun _ hzero he => ?_) fun _ hc => ⟨hc.1, .inr rfl⟩
      rw [hpc] at he
      rcases he with he | he | he | he <;> cases he
      have hnone := hzero (s.procs (.inr k)).fd
      rw [show s.partners (.inr k) _ = _ from hnone] at hle
      exact absurd hle (Nat.not_succ_le_zero 0)
  | @write i' hpc =>
    cases hi i'
    refine ⟨by simp, fun hun => ?_, fun hp => ?_, by simp⟩
    · simp [Pc.Unwritten] at hun
    · exact absurd (passes_cases hp) (not_comes (show _ = Pc.closes by simp) nofun nofun)
  | @sigpipe _ i' hpc hno hl =>
    cases hi i'
    have hp : s.Passes (.inl i) := by
      unfold State.Passes
      rw [hpc]
      trivial
    obtain ⟨k, hk⟩ := h.fed hp
    exact absurd ⟨k, hk.there⟩ hno
  | @read k hpc hne =>
    refine h.quiet rfl rfl rfl ?_
      (fun _ _ => hlate hpc nofun ⟨nofun, nofun, nofun⟩)
      fun hp _ => absurd (h.empty (unwritten_of_passes hp) _) hne
    refine forall_update (P := fun n (q : Pipe UInt8) => (s.pipes n).buf = [] → q.buf = [])
      (fun _ => id) fun hnil => absurd hnil hne
  | @eof k hpc hnil hno =>
    refine h.quiet rfl rfl rfl (fun _ => id)
      (fun _ _ => hlate hpc nofun ⟨nofun, nofun, nofun⟩)
      fun hp hc => ?_
    rw [hc.1] at hno
    exact absurd ⟨i, (passes_cases hp).there⟩ hno
  | @print k hpc =>
    exact h.quiet rfl rfl rfl (fun _ => id)
      (fun _ _ => hlate hpc nofun ⟨nofun, nofun, nofun⟩)
      fun _ hc => absurd hc (not_comes hpc nofun nofun)
  | unlink =>
    rename_i k hpc
    exact h.quiet rfl rfl rfl (fun _ => id)
      (fun _ _ => hlate hpc nofun ⟨nofun, nofun, nofun⟩)
      fun _ hc => absurd hc (not_comes hpc nofun nofun)
  | @close _ p hpc hl =>
    obtain ⟨hprocs, hservers, hclients, hpipes⟩ := leaves_procs hl
    rcases p with i' | k
    · cases hi i'
      have hself : s'.procs (.inl i) = { s.procs (.inl i) with pc := .exited 0 } := by
        rw [hprocs]
        exact Function.update_self ..
      refine ⟨by simp [hself], fun hun => ?_, fun hp => ?_, by simp [hself]⟩
      · simp [hself, Pc.Unwritten] at hun
      · exact absurd (passes_cases hp)
          (not_comes (show _ = Pc.exited 0 by simp [hself]) nofun nofun)
    · exact h.quiet hprocs hservers hclients hpipes
        (fun _ _ => hlate hpc nofun ⟨nofun, nofun, nofun⟩)
        fun _ hc => absurd hc (not_comes hpc nofun nofun)

end Solo

section Read

variable {tr : List (State ι κ × Label ι κ)}

theorem data_run (h : lts.Run tr s) : Data s := by
  refine h.inv (I := Data) ?_ fun _ _ _ hI hst => data_step hI hst
  rintro t ⟨-, -, hpipes, -, -, hprocs⟩
  refine ⟨fun n => ?_, fun p => ?_⟩
  · rw [hpipes n]
    exact ⟨0, rfl⟩
  · obtain ⟨hpc, hgot, hline⟩ := hprocs p
    refine ⟨?_, .inl hgot, fun line he => ?_, fun hleft hlate => ?_⟩
    · rw [hpc]
      cases p <;> trivial
    · exact nomatch hline.symm.trans he
    · rw [hpc] at hlate
      split_ifs at hlate <;> simp at hlate

theorem emptied_run (h : lts.Run tr s) : ∀ n, ¬ s.Held n → (s.pipes n).buf = [] := by
  refine h.inv (I := fun s => ∀ n, ¬ s.Held n → (s.pipes n).buf = []) ?_
    fun _ _ _ hI hst => emptied_step hI hst
  rintro t ⟨-, -, hpipes, -⟩ n -
  rw [hpipes n]
  rfl

theorem waiting_run (h : lts.Run tr s) : Waiting s := by
  refine h.inv (I := Waiting) ?_ fun _ _ _ hI hst => waiting_step hI hst
  rintro t ⟨-, -, -, -, -, hprocs⟩ p need hpc
  rw [(hprocs p).1] at hpc
  split_ifs at hpc

theorem soloClient_run [Subsingleton κ] (h : lts.Run tr s) (k : κ) : SoloClient s k := by
  refine h.inv (I := fun s => SoloClient s k) ?_ fun _ _ _ hI hst => soloClient_step hI hst
  rintro t ⟨-, -, -, -, hclients, hprocs⟩
  obtain ⟨hpc, -, hline⟩ := hprocs (.inr k)
  refine ⟨fun _ => ⟨hclients, fun i => .inl (hprocs (.inl i)).1⟩, fun hp => ?_, fun he => ?_, ?_⟩
  · exact absurd (passes_cases hp) (not_comes hpc nofun nofun)
  · exact nomatch hpc.symm.trans he
  · rw [hline]
    exact nofun

theorem soloServer_run [Subsingleton ι] (h : lts.Run tr s) (i : ι) : SoloServer s i := by
  refine h.inv (I := fun s => SoloServer s i) ?_ fun _ _ _ hI hst => soloServer_step hI hst
  rintro t ⟨-, -, hpipes, hservers, -, hprocs⟩
  have hpc : (t.procs (.inl i)).pc = .start := (hprocs (.inl i)).1
  refine ⟨fun _ => ⟨hservers, fun k => .inr (.inl (hprocs (.inr k)).1)⟩, fun _ n => ?_,
    fun hp => ?_, ?_⟩
  · rw [hpipes n]
    rfl
  · exact absurd (passes_cases hp) (not_comes hpc nofun nofun)
  · rw [hpc]
    exact nofun

/-- A FIFO that nobody holds is empty, and while somebody holds it what is written is read, in
order, or is there still; a client prints the message or a buffer that nothing was read to; where
there is but one client it does not print that, and where there is but one server it does not die of
`SIGPIPE`. -/
theorem fifo_read (h : lts.Run tr s) : (∀ n, ¬ s.Held n → (s.pipes n).buf = []) ∧
    (∀ n tr' t, lts.Path s tr' t → (∀ v ∈ visited tr' t, v.Held n) →
      (s.pipes n).buf ++ (steps tr' t).flatMap (wrote n)
        = (steps tr' t).flatMap (took n) ++ (t.pipes n).buf) ∧
    (∀ k line, (s.procs (.inr k)).line = some line → line = .unset ∨ line = .text hello) ∧
    (Subsingleton κ → ∀ k, (s.procs (.inr k)).line ≠ some .unset) ∧
    (Subsingleton ι → ∀ i, (s.procs (.inl i)).pc ≠ .killed) :=
  ⟨emptied_run h, fun _ _ _ => kept_path, fun k => ((data_run h).procs (.inr k)).line,
    fun _ k => (soloClient_run h k).line, fun _ i => (soloServer_run h i).alive⟩

/-- The processes before their first steps. -/
def start (ι κ : Type) : State ι κ where
  name := none
  made := 0
  pipes _ := .empty
  servers _ := 0
  clients _ := 0
  procs p := ⟨if p.isLeft then .start else .opens, 0, [], [], none⟩

theorem start_run {ι κ : Type} [DecidableEq ι] [DecidableEq κ] : lts.Run [] (start ι κ) :=
  ⟨_, ⟨rfl, rfl, fun _ => rfl, fun _ => rfl, fun _ => rfl, fun _ => ⟨rfl, rfl, rfl⟩⟩, .nil _⟩

/-- The client reads the server's message and prints it. -/
theorem fifo_read_one : ∃ s : State Unit Unit, ∃ tr tr' t, lts.Run tr s ∧ lts.Path s tr' t ∧
    (steps tr' t).flatMap (wrote 0) = msg ∧ (t.procs (.inr ())).line = some (.text hello) ∧
    (s.pipes 0).buf ++ (steps tr' t).flatMap (wrote 0)
      = (steps tr' t).flatMap (took 0) ++ (t.pipes 0).buf := by
  have hmade := (start_run (ι := Unit) (κ := Unit)).snoc (.mkfifo (i := ()) rfl rfl)
  have hserver := hmade.snoc (.openAlone (p := .inl ()) rfl rfl fun ⟨k, hat⟩ =>
    not_at (.inr (.inl rfl)) hat)
  have hclient := hserver.snoc (.openTogether (p := .inr ()) rfl rfl ⟨(), rfl, trivial⟩)
  have hopened := (hclient.snoc (.opened (p := .inl ()) rfl (Nat.le_refl 1))).snoc
    (.opened (p := .inr ()) rfl (Nat.zero_le _))
  have hstay : ∀ {s : State Unit Unit} {tr}, lts.Run tr s → lts.Path s [] s := fun _ => .nil _
  have hwritten := (hstay hopened).append
    (.single (.write (i := ()) rfl ⟨(), rfl, trivial⟩ (by decide)))
  have hpath := (hwritten.append (.single (.read (k := ()) rfl (by decide)))).append
    (.single (.print (k := ()) rfl))
  refine ⟨_, _, _, _, hopened, hpath, by decide, by decide,
    (fifo_read hopened).2.1 0 _ _ hpath ?_⟩
  have hheld : ∀ v : State Unit Unit, (v.procs (.inl ())).At 0 → v.Held 0 := fun _ hat => ⟨_, hat⟩
  simp only [visited, List.map_cons, List.map_nil, List.cons_append, List.nil_append,
    List.mem_cons, List.not_mem_nil, or_false, forall_eq_or_imp, forall_eq]
  exact ⟨hheld _ ⟨rfl, trivial⟩, hheld _ ⟨rfl, trivial⟩, hheld _ ⟨rfl, trivial⟩,
    hheld _ ⟨rfl, trivial⟩⟩

/-- A second server may come to write when the client is gone. -/
theorem killed_two : ∃ s : State Bool Unit, ∃ tr, lts.Run tr s ∧
    (s.procs (.inl true)).pc = .killed := by
  have hmade := (start_run (ι := Bool) (κ := Unit)).snoc (.mkfifo (i := true) rfl rfl)
  have hsecond := hmade.snoc (.mkfifoFails (i := false) rfl)
  have hserver := hsecond.snoc (.openAlone (p := .inl true) rfl rfl fun ⟨k, hat⟩ =>
    not_at (.inr (.inl rfl)) hat)
  have hserver' := hserver.snoc (.openAlone (p := .inl false) rfl rfl fun ⟨k, hat⟩ =>
    not_at (.inr (.inl rfl)) hat)
  have hclient := hserver'.snoc (.openTogether (p := .inr ()) rfl rfl ⟨true, rfl, trivial⟩)
  have hopened := ((hclient.snoc (.opened (p := .inl true) rfl (Nat.le_refl 1))).snoc
    (.opened (p := .inl false) rfl (Nat.le_refl 1))).snoc
    (.opened (p := .inr ()) rfl (Nat.zero_le _))
  have hwritten := hopened.snoc (.write (i := false) rfl ⟨(), rfl, trivial⟩ (by decide))
  have hread := (hwritten.snoc (.read (k := ()) rfl (by decide))).snoc (.print (k := ()) rfl)
  have hgone := hread.snoc
    (.close (p := .inr ()) rfl (.others ⟨.inl true, by decide, rfl, trivial⟩))
  have hkilled := hgone.snoc (.sigpipe (i := true) rfl (fun ⟨k, hat⟩ =>
    not_at (.inr (.inr (.inl rfl))) hat) (.others ⟨.inl false, by decide, rfl, trivial⟩))
  exact ⟨_, _, hkilled, rfl⟩

/-- A second client may come to read what the first has taken. -/
theorem unset_two : ∃ s : State Unit Bool, ∃ tr, lts.Run tr s ∧
    (s.procs (.inr true)).line = some .unset := by
  have hmade := (start_run (ι := Unit) (κ := Bool)).snoc (.mkfifo (i := ()) rfl rfl)
  have hserver := hmade.snoc (.openAlone (p := .inl ()) rfl rfl fun ⟨k, hat⟩ =>
    not_at (.inr (.inl rfl)) hat)
  have hclients := (hserver.snoc (.openTogether (p := .inr false) rfl rfl ⟨(), rfl, trivial⟩)).snoc
    (.openTogether (p := .inr true) rfl rfl ⟨(), rfl, trivial⟩)
  have hopened := ((hclients.snoc (.opened (p := .inl ()) rfl (by decide))).snoc
    (.opened (p := .inr false) rfl (Nat.zero_le _))).snoc
    (.opened (p := .inr true) rfl (Nat.zero_le _))
  have hwritten := hopened.snoc (.write (i := ()) rfl ⟨true, rfl, trivial⟩ (by decide))
  have hread := hwritten.snoc (.read (k := false) rfl (by decide))
  have hgone := hread.snoc
    (.close (p := .inl ()) rfl (.others ⟨.inr true, by decide, rfl, trivial⟩))
  have hline := (hgone.snoc (.eof (k := true) rfl rfl fun ⟨k, hat⟩ =>
    not_at (.inr (.inr (.inr (.inl ⟨0, rfl⟩)))) hat)).snoc (.print (k := true) rfl)
  exact ⟨_, _, hline, rfl⟩
end Read

section Ends

/-- The process has come to its end. -/
def State.Over (s : State ι κ) (p : ι ⊕ κ) : Prop :=
  (∃ code, (s.procs p).pc = .exited code) ∨ (s.procs p).pc = .killed

/-- The process waits in its `open` for somebody to come. -/
def State.Stuck (s : State ι κ) (p : ι ⊕ κ) : Prop :=
  ∃ need, (s.procs p).pc = .waits need ∧ s.partners p (s.procs p).fd < need

/-- The process does not end in its `open`. -/
def State.Going (s : State ι κ) (p : ι ⊕ κ) : Prop :=
  match (s.procs p).pc with
  | .start | .opens => False
  | .waits need => need ≤ s.partners p (s.procs p).fd
  | .exited code => code = 0
  | _ => True

theorem going_step (h : s.Going p) (hst : Step s l s') : s'.Going p := by
  rcases step_moves hst with ⟨q, n, need, hent⟩ | ⟨q, c, hstays⟩
  · rw [hent.eq]
    rcases eq_or_ne p q with rfl | hne
    · unfold State.Going at h
      rw [hent.pc] at h
      exact h.elim
    · unfold State.Going at h ⊢
      rw [enter_other hne]
      cases hpc : (s.procs p).pc <;> rw [hpc] at h
      case waits m =>
        show m ≤ _
        rw [partners_enter]
        exact Nat.le_add_right_of_le h
      all_goals exact h
  · unfold State.Going at h ⊢
    rcases eq_or_ne p q with rfl | hne
    · rw [hstays.procs, Function.update_self]
      have hleft := hstays.left
      have hcode := hstays.code
      cases hpc : c.pc <;> rw [hpc] at hleft hcode
      case exited code =>
        refine (hcode code rfl).resolve_left fun hopens => ?_
        rw [hopens] at h
        exact h
      case waits need => exact absurd hpc (hstays.not_waits need)
      case start | opens =>
        cases hold : (s.procs p).pc <;> rw [hold] at h hleft <;>
          first | exact h.elim | simp [Pc.left] at hleft
      all_goals trivial
    · rw [hstays.procs, Function.update_of_ne hne]
      cases hpc : (s.procs p).pc <;> rw [hpc] at h
      case waits m =>
        show m ≤ _
        rw [hstays.partners]
        exact h
      all_goals exact h

variable [Fintype ι] [Fintype κ]

def total (s : State ι κ) : ℕ := ∑ p, (s.procs p).pc.left

theorem total_update {q : Proc} (hprocs : s'.procs = Function.update s.procs p q)
    (hleft : q.pc.left < (s.procs p).pc.left) : total s' < total s := by
  have hsum := sum_update (fun _ (c : Proc) => c.pc.left) s.procs p q
  unfold total
  rw [hprocs]
  omega

theorem total_step (hst : Step s l s') : total s' < total s := by
  rcases step_moves hst with ⟨p, n, need, hent⟩ | ⟨p, c, hstays⟩
  · rw [hent.eq]
    have hprocs : (s.enter p n need).procs
        = Function.update s.procs p { s.procs p with pc := .waits need, fd := n } := by
      rcases p <;> rfl
    refine total_update hprocs ?_
    rw [hent.pc]
    exact Nat.lt_succ_self 6
  · exact total_update hstays.procs hstays.left

omit [Fintype ι] [Fintype κ]

theorem leaves_enabled (s : State ι κ) (p : ι ⊕ κ) (pc : Pc) : ∃ s', Leaves s p pc s' := by
  by_cases h : ∃ r ≠ p, (s.procs r).At (s.procs p).fd
  · exact ⟨_, .others h⟩
  · exact ⟨_, .last fun r hr hat => h ⟨r, hr, hat⟩⟩

/-- But at its `read` or `write`, a process that does not wait for good goes on. -/
theorem enabled (h : Data s) (hno : ¬ (s.Over p ∨ s.Stuck p)) (hworks : (s.procs p).pc ≠ .works) :
    ∃ l t, Step s l t := by
  have hfits := (h.procs p).fits
  cases hpc : (s.procs p).pc with
  | start =>
    rcases p with i | k
    · exact ⟨_, _, .mkfifoFails hpc⟩
    · rw [hpc] at hfits
      exact hfits.elim
  | opens => exact ⟨_, _, .openFails hpc⟩
  | waits need => exact ⟨_, _, .opened hpc (not_lt.mp fun hlt => hno (.inr ⟨need, hpc, hlt⟩))⟩
  | works => exact absurd hpc hworks
  | prints =>
    rcases p with i | k
    · rw [hpc] at hfits
      exact hfits.elim
    · exact ⟨_, _, .print hpc⟩
  | closes =>
    obtain ⟨s', hl⟩ := leaves_enabled s p (afterClose p)
    exact ⟨_, s', .close hpc hl⟩
  | unlinks =>
    rcases p with i | k
    · rw [hpc] at hfits
      exact hfits.elim
    · exact ⟨_, _, .unlink hpc⟩
  | exited code => exact absurd (.inl (.inl ⟨code, hpc⟩)) hno
  | killed => exact absurd (.inl (.inr hpc)) hno

omit [DecidableEq ι] [DecidableEq κ] in
theorem not_over_of_at (hat : (s.procs p).At n) : ¬ s.Over p := by
  rintro (hpc | hpc)
  · exact not_at (.inr (.inr (.inr (.inl hpc)))) hat
  · exact not_at (.inr (.inr (.inr (.inr hpc)))) hat

omit [DecidableEq ι] [DecidableEq κ] in
/-- With somebody of the other side at the same FIFO a process does not wait for good. -/
theorem Waiting.not_stuck (h : Waiting s) (hp : s.Partner p (s.procs p).fd) : ¬ s.Stuck p := by
  rintro ⟨need, hpc, hlt⟩
  exact absurd ((h p need hpc).2 hp) (not_le.mpr hlt)

theorem client_enabled (h : Data s) (hw : Waiting s) (hi : (s.procs (.inl i)).At n)
    (hk : (s.procs (.inr k)).At n) (hne : (s.pipes n).buf ≠ []) : ∃ l t, Step s l t := by
  obtain ⟨rfl, -⟩ := id hk
  by_cases hpc : (s.procs (.inr k)).pc = .works
  · exact ⟨_, _, .read hpc hne⟩
  · refine enabled h ?_ hpc
    exact not_or.mpr ⟨not_over_of_at hk, hw.not_stuck (p := .inr k) ⟨i, hi⟩⟩

theorem server_enabled (h : Data s) (hw : Waiting s) (hi : (s.procs (.inl i)).At n)
    (hk : (s.procs (.inr k)).At n) : ∃ l t, Step s l t := by
  by_cases hpc : (s.procs (.inl i)).pc = .works
  · by_cases hroom : (s.pipes (s.procs (.inl i)).fd).buf.length + msg.length ≤ CAPACITY
    · obtain ⟨rfl, -⟩ := id hi
      exact ⟨_, _, .write hpc ⟨k, hk⟩ hroom⟩
    · refine client_enabled h hw hi hk fun hnil => hroom ?_
      rw [hi.1, hnil]
      decide
  · refine enabled h (not_or.mpr ⟨not_over_of_at hi, hw.not_stuck (p := .inl i) ⟨k, ?_⟩⟩) hpc
    rwa [hi.1]

theorem progress (h : Data s) (hw : Waiting s) (hno : ¬ ∀ p, s.Over p ∨ s.Stuck p) :
    ∃ l t, Step s l t := by
  obtain ⟨p, hp⟩ := not_forall.mp hno
  by_cases hpc : (s.procs p).pc = .works
  · have hat : (s.procs p).At (s.procs p).fd := ⟨rfl, by rw [hpc]; trivial⟩
    rcases p with i | k
    · by_cases hr : s.Reader (s.procs (.inl i)).fd
      · obtain ⟨k, hk⟩ := hr
        exact server_enabled h hw hat hk
      · obtain ⟨s', hl⟩ := leaves_enabled s (.inl i) .killed
        exact ⟨_, s', .sigpipe hpc hr hl⟩
    · by_cases hnil : (s.pipes (s.procs (.inr k)).fd).buf = []
      · by_cases hwr : s.Writer (s.procs (.inr k)).fd
        · obtain ⟨i, hi⟩ := hwr
          exact server_enabled h hw hi hat
        · exact ⟨_, _, .eof hpc hnil hwr⟩
      · exact ⟨_, _, .read hpc hnil⟩
  · exact enabled h hp hpc

variable [Fintype ι] [Fintype κ] {tr : List (State ι κ × Label ι κ)}

omit [DecidableEq ι] [DecidableEq κ] [Fintype ι] [Fintype κ] in
theorem exits_of_going (hgoing : s.Going p) (hover : s.Over p ∨ s.Stuck p) :
    (s.procs p).pc = .exited 0 ∨ (s.procs p).pc = .killed := by
  unfold State.Going at hgoing
  rcases hover with (⟨code, hpc⟩ | hpc) | ⟨need, hpc, hlt⟩
  · rw [hpc] at hgoing
    exact .inl (hgoing ▸ hpc)
  · exact .inr hpc
  · rw [hpc] at hgoing
    exact absurd hgoing (not_le.mpr hlt)

omit [DecidableEq ι] [DecidableEq κ] [Fintype ι] [Fintype κ] in
theorem going_of_at (hat : (s.procs p).At n) (hno : ¬ s.Stuck p) : s.Going p := by
  unfold State.Going
  cases hpc : (s.procs p).pc
  case start => exact absurd hat (not_at (.inl hpc))
  case opens => exact absurd hat (not_at (.inr (.inl hpc)))
  case waits need => exact not_lt.mp fun hlt => hno ⟨need, hpc, hlt⟩
  case exited code => exact absurd hat (not_at (.inr (.inr (.inr (.inl ⟨code, hpc⟩)))))
  all_goals trivial

theorem ends_with {I : State ι κ → Prop} (hstep : ∀ t l t', I t → Step t l t' → I t')
    (hd : Data s) (hw : Waiting s) (hI : I s) :
    lts.Inevitably (fun t => (Data t ∧ Waiting t ∧ I t) ∧ ∀ p, t.Over p ∨ t.Stuck p) s := by
  refine Inevitably.of_measure (I := fun t => Data t ∧ Waiting t ∧ I t) total ?_ ?_ ⟨hd, hw, hI⟩
  · intro t hI hno
    exact progress hI.1 hI.2.1 fun hall => hno ⟨hI, hall⟩
  · rintro t l t' ⟨hd, hw, hI⟩ - hst
    exact .inr ⟨⟨data_step hd hst, waiting_step hw hst, hstep t l t' hI hst⟩, total_step hst⟩

/-- Inevitably all have come to their ends but those that wait in an `open` for somebody to come,
with nobody of the other side at their FIFO; whoever does not wait so has exited with 0 or, a
server, died of `SIGPIPE`. -/
theorem fifo_ends (h : lts.Run tr s) : lts.Inevitably (fun t =>
    (∀ p, t.Over p ∨ t.Stuck p ∧ ¬ t.Partner p (t.procs p).fd) ∧
    ∀ p, s.Going p → (t.procs p).pc = .exited 0 ∨ p.isLeft ∧ (t.procs p).pc = .killed) s := by
  refine (ends_with (I := fun t => ∀ p, s.Going p → t.Going p)
    (fun t l t' hg hst p hp => going_step (hg p hp) hst) (data_run h) (waiting_run h)
    fun _ => id).mono ?_
  rintro t ⟨⟨hd, hw, hg⟩, hall⟩
  refine ⟨fun p => (hall p).imp_right fun hstuck => ⟨hstuck, fun hp => hw.not_stuck hp hstuck⟩,
    fun p hp => (exits_of_going (hg p hp) (hall p)).imp_right fun hpc => ⟨?_, hpc⟩⟩
  have hfits := (hd.procs p).fits
  rw [hpc] at hfits
  rcases p with i | k
  · rfl
  · exact hfits.elim

theorem fifo_ends_one : lts.Inevitably (fun t : State Unit Unit =>
    ∀ p, t.Over p ∨ t.Stuck p ∧ ¬ t.Partner p (t.procs p).fd) (start Unit Unit) :=
  (fifo_ends start_run).mono fun _ h => h.1

/-- Where a server and a client meet at a FIFO, the only ones there are, inevitably both exit with 0
and the client has printed the message. -/
theorem fifo_meet [Subsingleton ι] [Subsingleton κ] (h : lts.Run tr s)
    (hi : (s.procs (.inl i)).At n) (hk : (s.procs (.inr k)).At n) :
    lts.Inevitably (fun t => (t.procs (.inl i)).pc = .exited 0 ∧
      (t.procs (.inr k)).pc = .exited 0 ∧ (t.procs (.inr k)).line = some (.text hello)) s := by
  have hw := waiting_run h
  have hserver : s.Going (.inl i) := by
    refine going_of_at hi (hw.not_stuck (p := .inl i) ⟨k, ?_⟩)
    rwa [hi.1]
  have hclient : s.Going (.inr k) := by
    refine going_of_at hk (hw.not_stuck (p := .inr k) ⟨i, ?_⟩)
    rwa [hk.1]
  refine (ends_with (I := fun t => t.Going (.inl i) ∧ t.Going (.inr k) ∧ SoloServer t i ∧
    SoloClient t k) ?_ (data_run h) hw
    ⟨hserver, hclient, soloServer_run h i, soloClient_run h k⟩).mono ?_
  · rintro t l t' ⟨hi, hk, hsi, hsk⟩ hst
    exact ⟨going_step hi hst, going_step hk hst, soloServer_step hsi hst, soloClient_step hsk hst⟩
  · rintro t ⟨⟨hd, -, hgi, hgk, hsi, hsk⟩, hall⟩
    have hpci : (t.procs (.inl i)).pc = .exited 0 :=
      (exits_of_going hgi (hall (.inl i))).resolve_right hsi.alive
    have hpck : (t.procs (.inr k)).pc = .exited 0 := by
      refine (exits_of_going hgk (hall (.inr k))).resolve_right fun hpc => ?_
      have hfits := (hd.procs (.inr k)).fits
      rw [hpc] at hfits
      exact hfits
    refine ⟨hpci, hpck, ?_⟩
    obtain ⟨line, hline⟩ :=
      Option.ne_none_iff_exists'.mp ((hd.procs (.inr k)).told rfl (.inr (.inr hpck)))
    rcases (hd.procs (.inr k)).line line hline with rfl | rfl
    · exact absurd hline hsk.line
    · exact hline

/-- The server makes the FIFO and opens it, and the client opens it. -/
theorem fifo_meet_one : ∃ s tr, lts.Run tr s ∧ lts.Inevitably (fun t : State Unit Unit =>
    (t.procs (.inl ())).pc = .exited 0 ∧ (t.procs (.inr ())).pc = .exited 0 ∧
      (t.procs (.inr ())).line = some (.text hello)) s := by
  have hmade := (start_run (ι := Unit) (κ := Unit)).snoc (.mkfifo (i := ()) rfl rfl)
  have hserver := hmade.snoc (.openAlone (p := .inl ()) rfl rfl fun ⟨k, hat⟩ =>
    not_at (.inr (.inl rfl)) hat)
  have hclient := hserver.snoc (.openTogether (p := .inr ()) rfl rfl ⟨(), rfl, trivial⟩)
  exact ⟨_, _, hclient,
    fifo_meet (n := 0) (i := ()) (k := ()) hclient ⟨rfl, trivial⟩ ⟨rfl, trivial⟩⟩

end Ends

end EltexSystems.Fifo
