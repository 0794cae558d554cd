import EltexSystems.Lib.Positions
import EltexSystems.TaxiLink
import EltexSystems.Proofs.TaxiDriver

/-!
# One reply per command

A pass that takes a command sends exactly one reply, and a pass that takes none sends nothing, so
the replies on their way and printed are those of the passes that took the commands, in the order
the commands were sent (`link_replies_match`).
-/

namespace EltexSystems

open CStr Positions

/-- A command of the CLI is a non-empty message that begins with its own word. -/
theorem Command.text_cons (c : Command) : ∃ b rest, c.text = b :: rest := by
  cases c with
  | task sec => exact ⟨_, _, rfl⟩
  | status => exact ⟨_, _, rfl⟩

theorem Command.task_text (sec : ℤ) : ∃ rest, msgText (Command.task sec).text
    = ascii "TASK" ++ rest := by
  refine ⟨cstr ((32 :: decimalInt sec).take 251), ?_⟩
  rw [msgText, Command.text, snprintf, List.take_take]
  exact cstr_append (p := ascii "TASK") (ne_zero_of_all (by decide))
    ((32 :: decimalInt sec).take 251)

theorem Command.not_quit (c : Command) : strncmpEq (msgText c.text) (ascii "QUIT") 4 = false := by
  cases c with
  | task sec =>
    obtain ⟨rest, h⟩ := Command.task_text sec
    rw [h]
    exact strncmpEq_append (p := ascii "TASK") (ne_zero_of_all (by decide)) rest (ascii "QUIT")
  | status => decide

theorem Command.task_of_task {c : Command}
    (h : strncmpEq (msgText c.text) (ascii "TASK") 4 = true) :
    ∃ sec, c = .task sec := by
  cases c with
  | task sec => exact ⟨sec, rfl⟩
  | status => exact absurd h (by decide)

theorem Reply.ne_zero_of_mem_text {r : Reply} {b : UInt8} (h : b ∈ r.text) : b ≠ 0 := by
  cases r with
  | busy rem =>
    have hm := List.mem_of_mem_take h
    rcases List.mem_append.mp hm with hb | hb
    · exact ne_zero_of_all (by decide) b hb
    · exact ne_zero_of_mem_decimalInt hb
  | bye => exact ne_zero_of_all (by decide) b h
  | available => exact ne_zero_of_all (by decide) b h
  | badTimer => exact ne_zero_of_all (by decide) b h
  | ok => exact ne_zero_of_all (by decide) b h
  | unknownCommand => exact ne_zero_of_all (by decide) b h

theorem Reply.length_text_le (r : Reply) : r.text.length ≤ 63 := by
  cases r with
  | busy rem => exact List.length_take_le _ _
  | _ => decide

/-- A reply arrives whole in the CLI's buffer. -/
theorem Reply.cstr_text (r : Reply) : cstr (r.text.take (MSGSZ - 1)) = r.text := by
  have := r.length_text_le
  rw [List.take_of_length_le (by simp only [MSGSZ]; omega)]
  exact cstr_of_ne_zero fun b hb => r.ne_zero_of_mem_text hb

theorem Reply.text_eq_ok {r : Reply} : r.text = Reply.ok.text ↔ r = .ok := by
  cases r with
  | busy rem =>
    have hne : (Reply.busy rem).text ≠ Reply.ok.text := by
      intro h
      have h0 : (Reply.busy rem).text.head? = some 66 := rfl
      rw [h] at h0
      exact absurd h0 (by decide)
    simp [hne]
  | _ => decide

theorem driverLine_eq_ok {pid : ℤ} {r : Reply} :
    driverLine pid r.text = driverLine pid Reply.ok.text ↔ r = .ok := by
  rw [← Reply.text_eq_ok]
  simp only [driverLine, Reply.cstr_text, List.append_cancel_right_eq, List.append_cancel_left_eq]

theorem handleMsg_one (d : Driver) (now : ℕ) (msg : List UInt8) :
    ∃ r, (handleMsg d now msg).sends = [r] := by
  rcases handleMsg_cases d now msg with
    ⟨-, he⟩ | ⟨-, he⟩ | ⟨-, he⟩ | he | he | ⟨-, -, sec, -, -, -, he⟩ <;>
    exact ⟨_, by rw [he]⟩

theorem driverIter_idle {d : Driver} {w : Wake} (hh : w.hangup = false)
    (hr : w.recv = none ∨ w.recv = some .again) :
    driverIter d w = ⟨timerBlock d (timerPollin d.tfd w.polled), [], false⟩ := by
  unfold driverIter
  rw [hh]
  rcases hr with hr | hr <;> rw [hr] <;> rfl

theorem driverIter_serve {d : Driver} {w : Wake} {c : Command} (hh : w.hangup = false)
    (hr : w.recv = some (.data c.text)) :
    driverIter d w
      = handleMsg (timerBlock d (timerPollin d.tfd w.polled)) w.now (msgText c.text) := by
  obtain ⟨b, rest, hc⟩ := c.text_cons
  unfold driverIter
  rw [hh, hr, hc]
  rfl

theorem handleMsg_exit {d : Driver} {now : ℕ} {msg : List UInt8}
    (h : strncmpEq msg (ascii "QUIT") 4 = false) : (handleMsg d now msg).exit = false := by
  rcases handleMsg_cases d now msg with
    ⟨hq, -⟩ | ⟨-, he⟩ | ⟨-, he⟩ | he | he | ⟨-, -, sec, -, -, -, he⟩
  · rw [h] at hq
    cases hq
  all_goals rw [he]

/-- The answer is OK exactly when handling the message sets the timer, and only a task does. -/
theorem handleMsg_ok_iff {d : Driver} (hd : d.Tied) (now : ℕ) (msg : List UInt8) :
    ((handleMsg d now msg).sends = [.ok] ↔ (handleMsg d now msg).driver.tfd ≠ d.tfd)
      ∧ ((handleMsg d now msg).driver.tfd ≠ d.tfd → strncmpEq msg (ascii "TASK") 4 = true) := by
  rcases handleMsg_cases d now msg with
    ⟨-, he⟩ | ⟨-, he⟩ | ⟨-, he⟩ | he | he | ⟨hb, ht, sec, -, -, -, he⟩ <;> rw [he]
  · simp
  · simp
  · simp
  · simp
  · simp
  · have hnone : d.tfd = none := by
      rw [Driver.Tied, hb] at hd
      simpa using hd.symm
    simp [hnone, ht]

/-- What holds of the command taken by a pass. -/
structure Served (c : Command) (p : DriverState × Wake) : Prop where
  took : p.2.recv = some (.data c.text)
  one : ∃ r, p.1.answers p.2 = [r]
  ok_iff : p.1.answers p.2 = [.ok] ↔ Arms p.1 p.2
  task : Arms p.1 p.2 → ∃ sec, c = .task sec

theorem served_of {s : DriverState} {w : Wake} {c : Command} (hs : s.driver.Tied)
    (hh : w.hangup = false) (hr : w.recv = some (.data c.text)) : Served c (s, w) := by
  have he := driverIter_serve (d := s.driver) hh hr
  obtain ⟨h1, h2⟩ := handleMsg_ok_iff (tied_timerBlock hs (timerPollin s.driver.tfd w.polled)) w.now
    (msgText c.text)
  refine ⟨hr, ?_, ?_, ?_⟩
  · simp only [DriverState.answers, he]
    exact handleMsg_one _ _ _
  · simp only [DriverState.answers, Arms, he]
    exact h1
  · simp only [Arms, he]
    exact fun h => Command.task_of_task (h2 h)

/-- What every state of the link keeps: the driver runs, the passes that took a command took the
first ones sent, the commands behind them are in flight, no other pass sent anything, and the
replies of those passes are the ones printed and behind them the ones in flight. -/
structure LinkInv (pid : ℤ) (l : Link) : Prop where
  running : l.drv.exited = false
  tied : l.drv.driver.Tied
  commands : ∃ taken rest, l.sent = taken ++ rest ∧ l.toDrv = rest.map Command.text ∧
    List.Forall₂ Served taken l.served
  stray : l.stray = []
  replies : ∃ out : List (List UInt8), l.printed = out.map (driverLine pid) ∧
    out ++ l.toCli = l.served.flatMap fun p => (p.1.answers p.2).map Reply.text

theorem linkInv_step {pid : ℤ} {l l' : Link} {lab : LinkLabel} (hl : LinkInv pid l)
    (h : LinkStep pid l lab l') : LinkInv pid l' := by
  obtain ⟨hrun, htied, ⟨taken, rest, hsent, hto, hserved⟩, hstray, ⟨out, hprinted, hout⟩⟩ := hl
  cases h with
  | send c =>
    refine ⟨hrun, htied, ⟨taken, rest ++ [c], ?_, ?_, hserved⟩, hstray, ⟨out, hprinted, hout⟩⟩
    · simp [hsent]
    · simp [hto]
  | sendFailed c =>
    exact ⟨hrun, htied, ⟨taken, rest, hsent, hto, hserved⟩, hstray, ⟨out, hprinted, hout⟩⟩
  | @idle w d hst hh hr =>
    have he := driverIter_idle (d := l.drv.driver) hh hr
    obtain ⟨-, -, -, rfl⟩ := hst
    have hnone : l.drv.answers w = [] := by rw [DriverState.answers, he]
    refine ⟨?_, ?_, ⟨taken, rest, hsent, hto, hserved⟩, ?_, ⟨out, hprinted, ?_⟩⟩
    · simp [he]
    · simp only [he]
      exact tied_timerBlock htied _
    · simp [hnone, hstray]
    · simp [Link.replies, hnone, hout]
  | @serve w d m rest' hst hh hr hq =>
    rw [hto] at hq
    obtain ⟨c, rest, rfl⟩ : ∃ c tl, rest = c :: tl := by
      cases rest with
      | nil => simp at hq
      | cons c tl => exact ⟨c, tl, rfl⟩
    simp only [List.map_cons, List.cons.injEq] at hq
    obtain ⟨rfl, rfl⟩ := hq
    have hsv := served_of htied hh hr
    have he := driverIter_serve (d := l.drv.driver) hh hr
    obtain ⟨-, -, -, rfl⟩ := hst
    refine ⟨?_, ?_, ⟨taken ++ [c], rest, ?_, rfl, ?_⟩, hstray, ⟨out, hprinted, ?_⟩⟩
    · simp only [he]
      exact handleMsg_exit c.not_quit
    · exact tied_driverIter htied w
    · simp [hsent]
    · exact List.rel_append hserved (.cons hsv .nil)
    · simp [Link.replies, ← hout]
  | @read m rest' hq =>
    refine ⟨hrun, htied, ⟨taken, rest, hsent, hto, hserved⟩, hstray, ⟨out ++ [m], ?_, ?_⟩⟩
    · simp [hprinted]
    · simp [← hout, hq]

theorem linkInv_run {pid : ℤ} {tr : List (Link × LinkLabel)} {l : Link}
    (h : (linkLts pid).Run tr l) : LinkInv pid l := by
  refine h.inv (I := LinkInv pid) (fun l hl => ?_) fun l lab l' hl hst => linkInv_step hl hst
  obtain ⟨⟨hd, hx⟩, hto, hcli, hsent, hserved, hstray, hprinted⟩ := hl
  refine ⟨hx, ?_, ⟨[], [], ?_, ?_, ?_⟩, hstray, ⟨[], ?_, ?_⟩⟩
  · rw [hd]
    rfl
  · rw [hsent]
    rfl
  · rw [hto]
    rfl
  · rw [hserved]
    exact .nil
  · rw [hprinted]
    rfl
  · rw [hcli, hserved]
    rfl

/-- What the link's replies are to its commands. -/
structure RepliesMatch (pid : ℤ) (l : Link) : Prop where
  /-- The `k`-th command the driver took is the `k`-th sent; the pass sends one reply, OK exactly
  when it arms the timer, which only a task does. -/
  served : ∀ (k : ℕ) p, l.served[k]? = some p → ∃ c, l.sent[k]? = some c ∧ Served c p
  /-- Passes that took no command sent nothing. -/
  stray : l.stray = []
  /-- The replies, in the order of the passes, are those the CLI has read and those in flight. -/
  emitted : ∃ out : List (List UInt8), l.printed = out.map (driverLine pid) ∧
    out ++ l.toCli = l.served.flatMap fun p => (p.1.answers p.2).map Reply.text
  /-- The `k`-th line printed is the reply to the `k`-th command sent, and says OK exactly when that
  command armed the timer. -/
  printed : ∀ (k : ℕ) line, l.printed[k]? = some line → ∃ c s w r, l.sent[k]? = some c ∧
    l.served[k]? = some (s, w) ∧ w.recv = some (.data c.text) ∧ s.answers w = [r] ∧
    line = driverLine pid r.text ∧ (line = driverLine pid (ascii "OK") ↔ Arms s w)

/-- In every run of the link, one reply per command and none otherwise, in command order. -/
theorem link_replies_match {pid : ℤ} {tr : List (Link × LinkLabel)} {l : Link}
    (h : (linkLts pid).Run tr l) : RepliesMatch pid l := by
  obtain ⟨-, -, ⟨taken, rest, hsent, -, hserved⟩, hstray, ⟨out, hprinted, hout⟩⟩ := linkInv_run h
  have hcmd : ∀ (k : ℕ) p, l.served[k]? = some p → ∃ c, l.sent[k]? = some c ∧ Served c p := by
    intro k p hk
    obtain ⟨c, hc, hs⟩ := getElem?_of_forall₂ hserved hk
    have hlt := (List.getElem?_eq_some_iff.mp hc).1
    exact ⟨c, by rw [hsent, List.getElem?_append_left hlt, hc], hs⟩
  have hone : ∀ p ∈ l.served, ∃ b, (p.1.answers p.2).map Reply.text = [b] := by
    intro p hp
    obtain ⟨k, hk⟩ := List.mem_iff_getElem?.mp hp
    obtain ⟨c, -, hs⟩ := hcmd k p hk
    obtain ⟨r, hr⟩ := hs.one
    exact ⟨r.text, by rw [hr]; rfl⟩
  refine ⟨hcmd, hstray, ⟨out, hprinted, hout⟩, fun k line hk => ?_⟩
  rw [hprinted, List.getElem?_map, Option.map_eq_some_iff] at hk
  obtain ⟨m, hm, rfl⟩ := hk
  have hlt := (List.getElem?_eq_some_iff.mp hm).1
  have hflat : (l.served.flatMap fun p => (p.1.answers p.2).map Reply.text)[k]? = some m := by
    rw [← hout, List.getElem?_append_left hlt, hm]
  obtain ⟨⟨s, w⟩, hp, hans⟩ := getElem?_flatMap hone hflat
  obtain ⟨c, hc, hs⟩ := hcmd k _ hp
  obtain ⟨r, hr⟩ := hs.one
  have hok := hs.ok_iff
  rw [hr] at hok hans
  simp only [List.map_cons, List.map_nil, List.cons.injEq, and_true] at hans
  subst hans
  refine ⟨c, s, w, r, hc, hp, hs.took, hr, rfl, ?_⟩
  rw [show ascii "OK" = Reply.ok.text from rfl, driverLine_eq_ok, ← hok]
  simp

/-- A task of two seconds to the driver with pid 7, taken at 5 ns, and its reply read. -/
theorem link_replies_match_two_seconds :
    let s₀ : DriverState := ⟨⟨false, none⟩, 0, false⟩
    let w₀ : Wake := ⟨5, 5, false, some (.data (Command.task 2).text)⟩
    let s₁ : DriverState := ⟨⟨true, some 2000000005⟩, 5, false⟩
    driverLine 7 (ascii "OK") = ascii "7: OK\n" ∧
      RepliesMatch 7 ⟨s₁, [], [], [.task 2], [(s₀, w₀)], [], [driverLine 7 (ascii "OK")]⟩ := by
  intro s₀ w₀ s₁
  have h₀ : driverIter s₀.driver w₀ = ⟨⟨true, some 2000000005⟩, [.ok], false⟩ := by decide
  have hst : driverLts.step s₀ w₀ s₁ := ⟨rfl, by decide, by decide, by rw [h₀]⟩
  have hr : s₀.answers w₀ = [.ok] := by rw [DriverState.answers, h₀]
  have hread := @LinkStep.read 7 ⟨s₁, [], [ascii "OK"], [.task 2], [(s₀, w₀)], [], []⟩ _ _ rfl
  have hserve := @LinkStep.serve 7 ⟨s₀, [(Command.task 2).text], [], [.task 2], [], [], []⟩ _ _ _ _
    hst rfl rfl rfl
  simp only [Link.replies, hr, List.nil_append] at hserve
  have hpath := Lts.Path.cons (T := linkLts 7)
    (LinkStep.send ⟨s₀, [], [], [], [], [], []⟩ (.task 2))
    (.cons hserve (.single hread))
  exact ⟨by decide, link_replies_match ⟨_, ⟨⟨rfl, rfl⟩, rfl, rfl, rfl, rfl, rfl, rfl⟩, hpath⟩⟩

end EltexSystems
