import EltexSystems.Lib.Parties
import EltexSystems.Proofs.PosixExchange
import EltexSystems.SysvExchange
import Mathlib.Algebra.Order.BigOperators.Group.Finset
import Mathlib.Data.Fintype.Sum

/-!
# Servers and clients over typed queues

What a process prints is a beginning of its script (`script`): the types keep a server from taking a
server's message, which `mq_receive` does not (`sysv_scripts`).  Where nothing fails, a message that
was sent to a queue that is there is in it or was taken (`Busy`), so of those who have a queue some
can go on (`step_busy`), and a server gets its answer (`sysv_ends`).
-/

namespace EltexSystems.Sysv

open CStr Mem Lts Parties

variable {ι κ : Type*} {s s' : State ι κ} {p : ι ⊕ κ} {c : Proc} {id : ℕ}
  {q q' : TypedQueue ℕ (List UInt8)} {faulty : Bool}

/-- The text of the messages of a type. -/
def textOf (t : ℕ) : List UInt8 := if t = 1 then ascii "Hi!" else ascii "Hello!"

/-- What a process prints when nothing fails. -/
def script : ι ⊕ κ → List Line
  | .inl _ => [.sent (ascii "Hi!"), .received (ascii "Hello!")]
  | .inr _ => [.received (ascii "Hi!"), .replied]

/-- The number of lines a process has printed, where its place tells. -/
def printed : ι ⊕ κ → Pc → Option ℕ
  | _, .start => some 0
  | .inl _, .send | .inl _, .sent => some 0
  | .inl _, .recv | .inl _, .got => some 1
  | .inr _, .recv | .inr _, .got => some 0
  | .inr _, .send | .inr _, .sent => some 1
  | _, .remove => some 2
  | _, .exited 0 => some 2
  | _, _ => none

structure Proc.Ok (p : ι ⊕ κ) (c : Proc) : Prop where
  lines : c.lines <+: script p
  exact : ∀ n, printed p c.pc = some n → c.lines = (script p).take n
  msgid : c.msgid = none → c.pc = .start ∨ c.pc = .exited 1 ∨ c.pc = .killed
  start : c.pc = .start → c.msgid = none
  sent : c.pc = .sent → cstr c.msg.mtext = (message p).2
  got : c.pc = .got → cstr c.msg.mtext = textOf (wanted p)
  side : c.pc = .remove ∨ c.pc = .cleanup → p.isLeft = true
  codes : ∀ n, c.pc = .exited n → n ≤ 1

/-- What a queue that is there holds. -/
structure QueueOk (q : TypedQueue ℕ (List UInt8)) : Prop where
  wf : q.Wf
  texts : ∀ m ∈ q.buf, m.2 = textOf m.1 ++ [0]

structure Inv (s : State ι κ) : Prop where
  queue : ∀ id q, s.queue = some (id, q) → id < s.made ∧ QueueOk q
  procs : ∀ p, (s.procs p).Ok p
  known : ∀ p id, s.Holds p id → id < s.made
  done : ∀ i id, (s.procs (.inl i)).pc = .exited 0 → s.Holds (.inl i) id → ¬ s.Live id
  once : ∀ i j id, (s.procs (.inl i)).pc = .exited 0 → (s.procs (.inl j)).pc = .exited 0 →
    s.Holds (.inl i) id → s.Holds (.inl j) id → i = j

section Texts

theorem textOf_ne_zero (t : ℕ) : ∀ b ∈ textOf t, b ≠ 0 := by
  unfold textOf
  split
  · exact ne_zero_of_all (p := ascii "Hi!") (by decide)
  · exact ne_zero_of_all (p := ascii "Hello!") (by decide)

theorem length_textOf (t : ℕ) : (textOf t ++ [0]).length ≤ MSG_TEXT_SIZE := by
  unfold textOf
  split <;> decide

theorem message_snd (p : ι ⊕ κ) : (message p).2 = textOf (message p).1 := by
  cases p <;> rfl

theorem cstr_outgoing (p : ι ⊕ κ) (msg : MsgBuf) :
    cstr (outgoing p msg).mtext = (message p).2 := by
  rw [message_snd]
  exact (congrArg (fun t => cstr (strcpy msg.mtext t)) (message_snd p)).trans
    (cstr_memcpy_string (textOf_ne_zero _) _)

theorem letter_outgoing (p : ι ⊕ κ) (msg : MsgBuf) :
    letter (outgoing p msg) = ((message p).1, (message p).2 ++ [0]) := by
  rw [letter, cstr_outgoing]
  rfl

theorem cstr_incoming {bytes : List UInt8} {t : ℕ} (h : bytes = textOf t ++ [0]) (msg : MsgBuf) :
    cstr (incoming t bytes msg).mtext = textOf t := by
  have hlen : bytes.length = (textOf t).length + 1 := by rw [h, List.length_append]; rfl
  rw [incoming, hlen, h]
  exact cstr_memcpy_string (textOf_ne_zero t) _

end Texts

section Procs

variable [DecidableEq ι] [DecidableEq κ]

@[simp] theorem set_self : (s.set p c).procs p = c := Function.update_self ..

theorem set_other {r : ι ⊕ κ} (h : r ≠ p) : (s.set p c).procs r = s.procs r :=
  Function.update_of_ne h ..

/-- A step of a process after which it has not removed the queue. -/
theorem Inv.goes (h : Inv s) (queue : Option (ℕ × TypedQueue ℕ (List UInt8))) (made : ℕ)
    (hqueue : ∀ id q, queue = some (id, q) → id < made ∧ QueueOk q ∧ (s.Live id ∨ id = s.made))
    (hmade : s.made ≤ made) (hc : c.Ok p) (hid : ∀ id, c.msgid = some id → id < made)
    (hpc : c.pc = .exited 0 → p.isRight) :
    Inv { s.set p c with queue := queue, made := made } := by
  have hserver : ∀ i, ((s.set p c).procs (.inl i)).pc = .exited 0 →
      .inl i ≠ p ∧ (s.set p c).procs (.inl i) = s.procs (.inl i) := by
    intro i hi
    have hne : .inl i ≠ p := by
      rintro rfl
      rw [set_self] at hi
      cases hpc hi
    exact ⟨hne, set_other hne⟩
  refine ⟨fun id q hq => ⟨(hqueue id q hq).1, (hqueue id q hq).2.1⟩, forall_update h.procs hc, ?_,
    fun i id hi hh => ?_, fun i j id hi hj hhi hhj => ?_⟩
  · exact forall_update (P := fun _ (c : Proc) => ∀ id, c.msgid = some id → id < made)
      (fun r id hr => Nat.lt_of_lt_of_le (h.known r id hr) hmade) hid
  · obtain ⟨-, heq⟩ := hserver i hi
    rw [heq] at hi
    have hh : s.Holds (.inl i) id := (congrArg Proc.msgid heq).symm.trans hh
    rintro ⟨q, hq⟩
    rcases (hqueue id q hq).2.2 with hl | rfl
    · exact h.done i id hi hh hl
    · exact absurd (h.known _ _ hh) (Nat.lt_irrefl _)
  · have hei := (hserver i hi).2
    have hej := (hserver j hj).2
    rw [hei] at hi
    rw [hej] at hj
    exact h.once i j id hi hj ((congrArg Proc.msgid hei).symm.trans hhi)
      ((congrArg Proc.msgid hej).symm.trans hhj)

/-- A step after which the queue is as before. -/
theorem Inv.goes_on (h : Inv s) (hc : c.Ok p) (hid : ∀ id, c.msgid = some id → id < s.made)
    (hpc : c.pc = .exited 0 → p.isRight) : Inv (s.set p c) :=
  h.goes s.queue s.made
    (fun id q hq => ⟨(h.queue id q hq).1, (h.queue id q hq).2, .inl ⟨q, hq⟩⟩) (Nat.le_refl _) hc hid
    hpc

omit [DecidableEq ι] [DecidableEq κ] in
/-- A process that has given up. -/
theorem Proc.Ok.leaves (h : (s.procs p).Ok p) {pc : Pc}
    (hpc : pc = .exited 1 ∨ pc = .killed) : Proc.Ok p { s.procs p with pc := pc } := by
  rcases hpc with rfl | rfl
  · refine ⟨h.lines, nofun, fun _ => .inr (.inl rfl), nofun, nofun, nofun, nofun, ?_⟩
    rintro n ⟨⟩
    exact Nat.le_refl 1
  · exact ⟨h.lines, nofun, fun _ => .inr (.inr rfl), nofun, nofun, nofun, nofun, nofun⟩

theorem Inv.leaves (h : Inv s) {pc : Pc} (hpc : pc = .exited 1 ∨ pc = .killed) :
    Inv (s.goto p pc) := by
  refine h.goes_on ((h.procs p).leaves hpc) (h.known p) fun he => ?_
  rcases hpc with rfl | rfl <;> cases he

omit [DecidableEq ι] [DecidableEq κ] in
/-- A process that has the queue goes on without having printed. -/
theorem Proc.Ok.moves (h : c.Ok p) {pc : Pc} {msg : MsgBuf} {msgid : Option ℕ}
    (hid : msgid ≠ none) (hstart : pc ≠ .start)
    (hprinted : ∀ n, printed p pc = some n → printed p c.pc = some n)
    (hsent : pc = .sent → cstr msg.mtext = (message p).2)
    (hgot : pc = .got → cstr msg.mtext = textOf (wanted p))
    (hside : pc = .remove ∨ pc = .cleanup → p.isLeft = true)
    (hcodes : ∀ n, pc = .exited n → n ≤ 1) :
    Proc.Ok p { c with pc := pc, msg := msg, msgid := msgid } :=
  ⟨h.lines, fun n hn => h.exact n (hprinted n hn), fun hnone => absurd hnone hid,
    fun he => absurd he hstart, hsent, hgot, hside, hcodes⟩

omit [DecidableEq ι] [DecidableEq κ] in
/-- A process prints the next line of its script. -/
theorem Proc.Ok.prints (h : c.Ok p) {pc : Pc} {n : ℕ} {line : Line} (hid : c.msgid ≠ none)
    (hn : printed p c.pc = some n) (hline : (script p)[n]? = some line)
    (hn' : printed p pc = some (n + 1)) (hquiet : pc ≠ .start ∧ pc ≠ .sent ∧ pc ≠ .got)
    (hside : pc = .remove ∨ pc = .cleanup → p.isLeft = true)
    (hcodes : ∀ n, pc = .exited n → n ≤ 1) :
    Proc.Ok p { c with pc := pc, lines := c.lines ++ [line] } := by
  have hlines : c.lines ++ [line] = (script p).take (n + 1) := by
    rw [List.take_add_one, hline, h.exact n hn]
    rfl
  refine ⟨?_, fun m hm => ?_, fun hnone => absurd hnone hid, fun he => absurd he hquiet.1,
    fun he => absurd he hquiet.2.1, fun he => absurd he hquiet.2.2, hside, hcodes⟩
  · show c.lines ++ [line] <+: script p
    rw [hlines]
    exact List.take_prefix _ _
  · cases hn'.symm.trans hm
    exact hlines

omit [DecidableEq ι] [DecidableEq κ] in
/-- A process in a call with the queue has it. -/
theorem Inv.has (h : Inv s) {pc : Pc} (hpc : (s.procs p).pc = pc)
    (hne : pc ≠ .start ∧ pc ≠ .exited 1 ∧ pc ≠ .killed) : (s.procs p).msgid ≠ none := by
  intro hnone
  rcases (h.procs p).msgid hnone with he | he | he
  · exact hne.1 (hpc.symm.trans he)
  · exact hne.2.1 (hpc.symm.trans he)
  · exact hne.2.2 (hpc.symm.trans he)

theorem inv_sent (h : Inv s) (hpc : (s.procs p).pc = .sent) :
    Inv (s.set p { s.procs p with
      pc := afterSent p
      lines := (s.procs p).lines ++ [sentLine (s.procs p).msg p] }) := by
  have hid := h.has hpc ⟨nofun, nofun, nofun⟩
  have htext := (h.procs p).sent hpc
  rcases p with i | k
  · refine h.goes_on ((h.procs _).prints (n := 0) hid (by rw [hpc]; rfl) ?_ rfl
      ⟨nofun, nofun, nofun⟩ nofun nofun) (h.known _) nofun
    exact congrArg some (congrArg Line.sent htext.symm)
  · refine h.goes_on ((h.procs _).prints (n := 1) hid (by rw [hpc]; rfl) rfl rfl
      ⟨nofun, nofun, nofun⟩ nofun ?_) (h.known _) fun _ => rfl
    rintro n ⟨⟩
    exact Nat.zero_le _

theorem inv_got (h : Inv s) (hpc : (s.procs p).pc = .got) :
    Inv (s.set p { s.procs p with
      pc := afterGot p
      lines := (s.procs p).lines ++ [.received (cstr (s.procs p).msg.mtext)] }) := by
  have hid := h.has hpc ⟨nofun, nofun, nofun⟩
  have htext := (h.procs p).got hpc
  rcases p with i | k
  · refine h.goes_on ((h.procs _).prints (n := 1) hid (by rw [hpc]; rfl) ?_ rfl
      ⟨nofun, nofun, nofun⟩ (fun _ => rfl) nofun) (h.known _) nofun
    exact congrArg some (congrArg Line.received htext.symm)
  · refine h.goes_on ((h.procs _).prints (n := 0) hid (by rw [hpc]; rfl) ?_ rfl
      ⟨nofun, nofun, nofun⟩ nofun nofun) (h.known _) nofun
    exact congrArg some (congrArg Line.received htext.symm)

theorem inv_send (h : Inv s) (hpc : (s.procs p).pc = .send) (hq : s.queue = some (id, q)) :
    Inv { s.set p { s.procs p with pc := .sent, msg := outgoing p (s.procs p).msg } with
      queue := some (id, q.send (letter (outgoing p (s.procs p).msg))) } := by
  have hqueue := h.queue id q hq
  refine h.goes _ s.made (fun id' q' hq' => ?_) (Nat.le_refl _) ((h.procs p).moves
    (h.has hpc ⟨nofun, nofun, nofun⟩) nofun (fun n hn => ?_) (fun _ => cstr_outgoing p _) nofun
    nofun nofun) (h.known p) nofun
  · cases hq'
    refine ⟨hqueue.1, ⟨hqueue.2.wf.send _, fun m hm => ?_⟩, .inl ⟨q, hq⟩⟩
    rcases TypedQueue.mem_send.mp hm with hm | rfl
    · exact hqueue.2.texts m hm
    · rw [letter_outgoing, message_snd]
  · rw [hpc]
    cases p <;> exact hn

theorem inv_recv (h : Inv s) {bytes : List UInt8} (hpc : (s.procs p).pc = .recv)
    (hq : s.queue = some (id, q)) (hr : q.receive (wanted p) = some (bytes, q')) :
    Inv { s.set p { s.procs p with
        pc := .got
        msg := incoming (wanted p) bytes (s.procs p).msg } with
      queue := some (id, q') } := by
  have hqueue := h.queue id q hq
  have htext := hqueue.2.texts _ (TypedQueue.mem_receive hr)
  refine h.goes _ s.made (fun id' r hq' => ?_) (Nat.le_refl _) ((h.procs p).moves
    (h.has hpc ⟨nofun, nofun, nofun⟩) nofun (fun n hn => ?_) nofun
    (fun _ => cstr_incoming htext _) nofun nofun) (h.known p) nofun
  · cases hq'
    exact ⟨hqueue.1, ⟨hqueue.2.wf.receive hr,
      fun m hm => hqueue.2.texts m (TypedQueue.mem_of_mem_receive hr hm)⟩, .inl ⟨q, hq⟩⟩
  · rw [hpc]
    cases p <;> exact hn

/-- A server that removes the queue is the first to do so. -/
theorem inv_remove (h : Inv s) (hpc : (s.procs p).pc = .remove) (hid : s.Holds p id)
    (hlive : s.Live id) : Inv { s.goto p (.exited 0) with queue := none } := by
  have hc : Proc.Ok p { s.procs p with pc := .exited 0 } := by
    refine (h.procs p).moves (h.has hpc ⟨nofun, nofun, nofun⟩) nofun (fun n hn => ?_) nofun nofun
      nofun ?_
    · rw [hpc]
      cases p <;> exact hn
    · rintro n ⟨⟩
      exact Nat.zero_le _
  have hfirst : ∀ i, .inl i ≠ p → (s.procs (.inl i)).pc = .exited 0 → ¬ s.Holds (.inl i) id :=
    fun i _ hi hh => h.done i id hi hh hlive
  have hknown : ∀ r id, ((s.goto p (.exited 0)).procs r).msgid = some id → id < s.made :=
    forall_update (P := fun _ (c : Proc) => ∀ id, c.msgid = some id → id < s.made) h.known
      (h.known p)
  refine ⟨nofun, forall_update h.procs hc, hknown, ?_, fun i j id' hi hj hhi hhj => ?_⟩
  · rintro _ _ _ _ ⟨_, hq⟩
    cases hq
  have hsame : ∀ k, ((s.goto p (.exited 0)).procs k).msgid = (s.procs k).msgid :=
    forall_update (P := fun k (c : Proc) => c.msgid = (s.procs k).msgid) (fun _ => rfl) rfl
  replace hhi : (s.procs (.inl i)).msgid = some id' := (hsame _).symm.trans hhi
  replace hhj : (s.procs (.inl j)).msgid = some id' := (hsame _).symm.trans hhj
  by_cases hip : .inl i = p <;> by_cases hjp : .inl j = p
  · exact Sum.inl.inj (hip.trans hjp.symm)
  · subst hip
    cases hid.symm.trans hhi
    rw [State.goto, set_other hjp] at hj
    exact absurd hhj (hfirst j hjp hj)
  · subst hjp
    cases hid.symm.trans hhj
    rw [State.goto, set_other hip] at hi
    exact absurd hhi (hfirst i hip hi)
  · rw [State.goto, set_other hip] at hi
    rw [State.goto, set_other hjp] at hj
    exact h.once i j id' hi hj hhi hhj

omit [DecidableEq ι] [DecidableEq κ] in
/-- A call that fails leads a server that has the queue to its removal and another process out. -/
theorem afterFail_cases (p : ι ⊕ κ) (pc : Pc) : afterFail p pc = .exited 1 ∨
    afterFail p pc = .cleanup ∧ p.isLeft = true ∧ (pc = .send ∨ pc = .recv) := by
  rcases p with i | k
  · cases pc
    case send => exact .inr ⟨rfl, rfl, .inl rfl⟩
    case recv => exact .inr ⟨rfl, rfl, .inr rfl⟩
    all_goals exact .inl rfl
  · exact .inl rfl

theorem inv_fail (h : Inv s) : Inv (s.goto p (afterFail p (s.procs p).pc)) := by
  rcases afterFail_cases p (s.procs p).pc with he | ⟨he, hleft, hpc⟩
  · rw [he]
    exact h.leaves (.inl rfl)
  · have hid : (s.procs p).msgid ≠ none := by
      rcases hpc with hpc | hpc <;> exact h.has hpc ⟨nofun, nofun, nofun⟩
    rw [he]
    refine h.goes_on ((h.procs p).moves hid nofun ?_ nofun nofun (fun _ => hleft) nofun) (h.known p)
      nofun
    cases p <;> nofun

theorem inv_step {l : Label ι κ} (h : Inv s) (hst : Step faulty s l s') : Inv s' := by
  cases hst with
  | @create i hpc hnone =>
    refine h.goes _ _ (fun id q hq => ?_) (Nat.le_succ _) ((h.procs _).moves (Option.some_ne_none _)
      nofun (fun n hn => by rw [hpc]; exact hn) nofun nofun nofun nofun) (fun id hid => ?_) nofun
    · cases hq
      exact ⟨Nat.lt_succ_self _, ⟨.empty, nofun⟩, .inr rfl⟩
    · cases hid
      exact Nat.lt_succ_self _
  | @get p id q hpc hq =>
    refine h.goes_on ((h.procs p).moves (Option.some_ne_none _) (by cases p <;> nofun)
      (fun n hn => ?_) (by cases p <;> nofun) (by cases p <;> nofun) (by cases p <;> nofun)
      (by cases p <;> nofun)) (fun id' hid => ?_) (by cases p <;> nofun)
    · rw [hpc]
      cases p <;> exact hn
    · cases hid
      exact (h.queue id q hq).1
  | send hpc _ hq _ => exact inv_send h hpc hq
  | sent hpc => exact inv_sent h hpc
  | recv hpc _ hq hr _ => exact inv_recv h hpc hq hr
  | got hpc => exact inv_got h hpc
  | remove hpc hid hlive => exact inv_remove h hpc hid hlive
  | @cleanup p id hpc hid hlive =>
    exact h.goes none s.made nofun (Nat.le_refl _) ((h.procs p).leaves (.inl rfl)) (h.known p)
      nofun
  | cleanupNone => exact h.leaves (.inl rfl)
  | fail => exact inv_fail h
  | kill => exact h.leaves (.inr rfl)

end Procs

section Safety

variable [DecidableEq ι] [DecidableEq κ] {tr : List (State ι κ × Label ι κ)}

theorem inv_run (h : (lts faulty).Run tr s) : Inv s := by
  refine h.inv (I := Inv) ?_ fun _ _ _ hI hst => inv_step hI hst
  rintro s ⟨hnone, -, hprocs⟩
  refine ⟨fun id q hq => (nomatch hnone.symm.trans hq), fun p => ?_, fun p id hid => ?_,
    fun i id hi => ?_, fun i j id hi => ?_⟩
  · obtain ⟨hpc, hid, hlines⟩ := hprocs p
    refine ⟨?_, fun n hn => ?_, fun _ => .inl hpc, fun _ => hid, fun he => ?_, fun he => ?_,
      fun he => ?_, fun n he => ?_⟩
    · rw [hlines]
      exact List.nil_prefix
    · rw [hpc] at hn
      cases p <;> cases hn <;> exact hlines
    · exact nomatch hpc.symm.trans he
    · exact nomatch hpc.symm.trans he
    · rcases he with he | he <;> exact nomatch hpc.symm.trans he
    · exact nomatch hpc.symm.trans he
  · exact nomatch (hprocs p).2.1.symm.trans hid
  · exact nomatch (hprocs _).1.symm.trans hi
  · exact nomatch (hprocs _).1.symm.trans hi

/-- Whatever calls fail and whoever is killed: a server never takes a server's message, nor a client
a client's, so that everything printed is a beginning of `script`, and all of it where a process
returns 0; of each type no message of the queue is lost or reordered; and of the servers that have a
queue one at most returns 0, after which the queue is gone. -/
theorem sysv_scripts (h : (lts faulty).Run tr s) :
    (∀ p, (s.procs p).lines <+: script p ∧
      ((s.procs p).pc = .exited 0 → (s.procs p).lines = script p)) ∧
    (∀ id q, s.queue = some (id, q) → q.Wf) ∧
    ∀ i j id, (s.procs (.inl i)).pc = .exited 0 → s.Holds (.inl i) id → ¬ s.Live id ∧
      ((s.procs (.inl j)).pc = .exited 0 → s.Holds (.inl j) id → i = j) := by
  have hI := inv_run h
  refine ⟨fun p => ⟨(hI.procs p).lines, fun hpc => ?_⟩, fun id q hq => (hI.queue id q hq).2.wf,
    fun i j id hi hhi => ⟨hI.done i id hi hhi, fun hj hhj => hI.once i j id hi hj hhi hhj⟩⟩
  rw [(hI.procs p).exact 2 (by rw [hpc]; cases p <;> rfl)]
  cases p <;> rfl

/-- Nobody has started yet. -/
def idle : State Unit Unit := ⟨none, 0, fun _ => ⟨.start, none, ⟨0, []⟩, []⟩⟩

theorem idle_run (faulty : Bool) : (lts faulty).Run [] idle :=
  ⟨idle, ⟨rfl, rfl, fun _ => ⟨rfl, rfl, rfl⟩⟩, .nil idle⟩

/-- One server and one client, up to the server's return. -/
theorem sysv_scripts_one : ∃ s tr, (lts (ι := Unit) (κ := Unit) true).Run tr s ∧
    (s.procs (.inl ())).pc = .exited 0 ∧
    (s.procs (.inl ())).lines = script (.inl () : Unit ⊕ Unit) := by
  have hget := ((idle_run true).snoc (@Step.create _ _ _ _ _ _ () rfl rfl)).snoc
    (@Step.get _ _ _ _ _ _ (.inr ()) _ _ rfl rfl)
  have hsent := (hget.snoc (@Step.send _ _ _ _ _ _ (.inl ()) _ _ rfl rfl rfl (by decide))).snoc
    (@Step.sent _ _ _ _ _ _ (.inl ()) rfl)
  have hgot := (hsent.snoc (@Step.recv _ _ _ _ _ _ (.inr ()) _ _ _ _ rfl rfl rfl rfl
    (by decide))).snoc (@Step.got _ _ _ _ _ _ (.inr ()) rfl)
  have hreplied := (hgot.snoc (@Step.send _ _ _ _ _ _ (.inr ()) _ _ rfl rfl rfl (by decide))).snoc
    (@Step.sent _ _ _ _ _ _ (.inr ()) rfl)
  have hheard := (hreplied.snoc (@Step.recv _ _ _ _ _ _ (.inl ()) _ _ _ _ rfl rfl rfl rfl
    (by decide))).snoc (@Step.got _ _ _ _ _ _ (.inl ()) rfl)
  have hend := hheard.snoc (@Step.remove _ _ _ _ _ _ (.inl ()) _ rfl rfl ⟨_, rfl⟩)
  exact ⟨_, _, hend, rfl, ((sysv_scripts hend).1 (.inl ())).2 rfl⟩

end Safety

/-- A server (`left`), or a client, has the queue of a number and is at one of some places. -/
def At (left : Bool) (pcs : List Pc) (id : ℕ) (r : ι ⊕ κ) (c : Proc) : Prop :=
  r.isLeft = left ∧ c.msgid = some id ∧ c.pc ∈ pcs

/-- Places of a server that has a queue: before its end, behind its message, behind the answer. -/
def serving : List Pc := [.send, .sent, .recv, .got, .remove]

def offering : List Pc := [.sent, .recv]

def answered : List Pc := [.got, .remove]

/-- Places of a client behind the message it took, and behind its answer. -/
def took : List Pc := [.got, .send, .sent, .exited 0]

def replied : List Pc := [.sent, .exited 0]

/-- The bytes of a process's message. -/
def size (p : ι ⊕ κ) : ℕ := (message p).2.length + 1

/-- Where a process has not sent anything. -/
def unsent : ι ⊕ κ → List Pc
  | .inl _ => [.start, .send]
  | .inr _ => [.start, .recv, .got, .send]

/-- The bytes a process may have sent. -/
def weight (p : ι ⊕ κ) (c : Proc) : ℕ := if c.pc ∈ unsent p then 0 else size p

theorem weight_le : weight p c ≤ size p := by
  unfold weight
  split
  · exact Nat.zero_le _
  · exact Nat.le_refl _

section Calm

variable [Fintype ι] [Fintype κ]

/-- No call with the queue has failed. -/
def Unfailed (id : ℕ) (c : Proc) : Prop :=
  c.msgid = some id → c.pc ≠ .exited 1 ∧ c.pc ≠ .cleanup

/-- What holds of a queue that is there when nothing failed: a message that was sent is there or
was taken. -/
structure Busy (procs : ι ⊕ κ → Proc) (id : ℕ) (q : TypedQueue ℕ (List UInt8)) : Prop where
  creator : ∃ r, At true serving id r (procs r)
  first : (∃ r, At true offering id r (procs r)) →
    (∃ m ∈ q.buf, m.1 = 1) ∨ ∃ r, At false took id r (procs r)
  second : (∃ r, At false replied id r (procs r)) →
    (∃ m ∈ q.buf, m.1 = 2) ∨ ∃ r, At true answered id r (procs r)
  left : ∀ r, Unfailed id (procs r)
  room : volume q ≤ ∑ r, weight r (procs r)

structure Calm (s : State ι κ) : Prop where
  busy : ∀ id q, s.queue = some (id, q) → Busy s.procs id q
  removed : ∀ id < s.made, ¬ s.Live id → ∃ r, At true [.exited 0] id r (s.procs r)
  alive : ∀ r, (s.procs r).pc ≠ .killed

variable [DecidableEq ι] [DecidableEq κ]

theorem sum_set (f : ι ⊕ κ → Proc → ℕ) (s : State ι κ) (p : ι ⊕ κ) (c : Proc) :
    ∑ r, f r ((s.set p c).procs r) + f p (s.procs p) = ∑ r, f r (s.procs r) + f p c :=
  sum_update f s.procs p c

theorem sum_weight_le (h : weight p (s.procs p) ≤ weight p c) :
    ∑ r, weight r (s.procs r) ≤ ∑ r, weight r ((s.set p c).procs r) := by
  have := sum_set weight s p c
  omega

/-- A process goes on and the queue stays. -/
theorem Busy.goes_on (h : Busy s.procs id q)
    (hserving : At true serving id p (s.procs p) → At true serving id p c)
    (hoffering : At true offering id p c → At true offering id p (s.procs p))
    (htook : At false took id p (s.procs p) → At false took id p c)
    (hreplied : At false replied id p c → At false replied id p (s.procs p))
    (hanswered : At true answered id p (s.procs p) → At true answered id p c)
    (hleft : Unfailed id c)
    (hweight : weight p (s.procs p) ≤ weight p c) : Busy (s.set p c).procs id q where
  creator := exists_update h.creator hserving
  first ho := (h.first (of_exists_update ho hoffering)).imp_right fun ht => exists_update ht htook
  second hr :=
    (h.second (of_exists_update hr hreplied)).imp_right fun ha => exists_update ha hanswered
  left := forall_update (P := fun _ => Unfailed id)
    h.left hleft
  room := Nat.le_trans h.room (sum_weight_le hweight)

/-- A process goes on; the queues that are gone were gone before, or the process is the server that
removed one. -/
theorem Calm.goes (h : Calm s) (queue : Option (ℕ × TypedQueue ℕ (List UInt8))) (made : ℕ)
    (hbusy : ∀ id q, queue = some (id, q) → Busy (s.set p c).procs id q)
    (hgone : ∀ id < made, (∀ q, queue ≠ some (id, q)) →
      id < s.made ∧ ¬ s.Live id ∨ At true [.exited 0] id p c)
    (hpc : (s.procs p).pc ≠ .exited 0) (halive : c.pc ≠ .killed) :
    Calm { s.set p c with queue := queue, made := made } where
  busy := hbusy
  removed id hid hno := by
    rcases hgone id hid fun q hq => hno ⟨q, hq⟩ with ⟨hlt, hnot⟩ | hc
    · refine exists_update (h.removed id hlt hnot) fun ⟨_, _, hmem⟩ => absurd ?_ hpc
      exact List.mem_singleton.mp hmem
    · refine ⟨p, ?_⟩
      show At true _ id p ((s.set p c).procs p)
      rwa [set_self]
  alive := forall_update (P := fun _ (c : Proc) => c.pc ≠ .killed) h.alive halive

/-- The queue stays. -/
theorem Calm.goes_on (h : Calm s)
    (hbusy : ∀ id q, s.queue = some (id, q) → Busy (s.set p c).procs id q)
    (hpc : (s.procs p).pc ≠ .exited 0) (halive : c.pc ≠ .killed) : Calm (s.set p c) :=
  h.goes s.queue s.made hbusy
    (fun _ hlt hno => .inl ⟨hlt, fun ⟨q, hq⟩ => hno q hq⟩) hpc halive

/-- A process goes on that does not have the queue that is there. -/
theorem Calm.elsewhere (h : Calm s) {pc : Pc} (hno : ∀ id, s.Live id → ¬ s.Holds p id)
    (hpc : (s.procs p).pc ≠ .exited 0) (hpc' : pc = .exited 1 ∨ pc = .cleanup) :
    Calm (s.goto p pc) := by
  refine h.goes_on (fun id q hq => ?_) hpc (by rcases hpc' with rfl | rfl <;> nofun)
  have hnot : (s.procs p).msgid ≠ some id := hno id ⟨q, hq⟩
  refine (h.busy id q hq).goes_on (fun ha => absurd ha.2.1 hnot) (fun ha => absurd ha.2.1 hnot)
    (fun ha => absurd ha.2.1 hnot) (fun ha => absurd ha.2.1 hnot) (fun ha => absurd ha.2.1 hnot)
    (fun hc => absurd hc hnot) (Nat.le_trans weight_le (Nat.le_of_eq ?_))
  rcases hpc' with rfl | rfl <;> cases p <;> rfl

theorem calm_create {i : ι} (h : Calm s) (hI : Inv s) (hpc : (s.procs (.inl i)).pc = .start)
    (hnone : s.queue = none) :
    Calm { s.set (.inl i) { s.procs (.inl i) with pc := .send, msgid := some s.made } with
      queue := some (s.made, .empty)
      made := s.made + 1 } := by
  refine h.goes _ _ (fun id q hq => ?_) (fun id hid hno => .inl ⟨?_, ?_⟩) (by rw [hpc]; nofun) nofun
  · cases hq
    -- nobody else has the new queue
    have hnew : ∀ r, (s.procs r).msgid ≠ some s.made :=
      fun r hr => absurd (hI.known r s.made hr) (Nat.lt_irrefl _)
    refine ⟨⟨.inl i, by rw [set_self]; exact ⟨rfl, rfl, .head _⟩⟩, fun ho => ?_, fun hr => ?_,
      ?_, Nat.zero_le _⟩
    · obtain ⟨r, -, hr, -⟩ := of_exists_update (P := At true offering s.made) ho
        (by simp [At, offering])
      exact absurd hr (hnew r)
    · obtain ⟨r, -, hr, -⟩ := of_exists_update (P := At false replied s.made) hr (by simp [At])
      exact absurd hr (hnew r)
    · exact forall_update (P := fun _ => Unfailed s.made)
        (fun r hr => absurd hr (hnew r)) fun _ => ⟨nofun, nofun⟩
  · have hne : id ≠ s.made := by
      rintro rfl
      exact hno _ rfl
    omega
  · rintro ⟨q, hq⟩
    exact nomatch hnone.symm.trans hq

theorem calm_get (h : Calm s) (hI : Inv s) (hpc : (s.procs p).pc = .start)
    (hq : s.queue = some (id, q)) :
    Calm (s.set p { s.procs p with pc := afterGet p, msgid := some id }) := by
  have hid := (hI.procs p).start hpc
  refine h.goes_on (fun id' q' hq' => ?_) (by rw [hpc]; nofun) (by cases p <;> nofun)
  cases hq.symm.trans hq'
  refine (h.busy id q hq).goes_on (by simp [At, hid]) ?_ (by simp [At, hid]) ?_ (by simp [At, hid])
    (fun _ => by cases p <;> exact ⟨nofun, nofun⟩) ?_
  · cases p <;> simp [At, afterGet, offering]
  · cases p <;> simp [At, afterGet, replied]
  · rw [weight, hpc]
    cases p <;> exact Nat.zero_le _

theorem calm_sent (h : Calm s) {lines : List Line} (hpc : (s.procs p).pc = .sent) :
    Calm (s.set p { s.procs p with pc := afterSent p, lines := lines }) := by
  refine h.goes_on (fun id q hq => (h.busy id q hq).goes_on ?_ ?_ ?_ ?_ ?_ (fun _ => ?_) ?_)
    (by rw [hpc]; nofun) (by cases p <;> nofun)
  · cases p <;> simp [At, hpc, afterSent, serving]
  · cases p <;> simp [At, hpc, afterSent, offering]
  · cases p <;> simp [At, hpc, afterSent, took]
  · cases p <;> simp [At, hpc, afterSent, replied]
  · cases p <;> simp [At, hpc, answered]
  · cases p <;> exact ⟨nofun, nofun⟩
  · cases p <;> simp [weight, hpc, afterSent, unsent]

theorem calm_got (h : Calm s) {lines : List Line} (hpc : (s.procs p).pc = .got) :
    Calm (s.set p { s.procs p with pc := afterGot p, lines := lines }) := by
  refine h.goes_on (fun id q hq => (h.busy id q hq).goes_on ?_ ?_ ?_ ?_ ?_ (fun _ => ?_) ?_)
    (by rw [hpc]; nofun) (by cases p <;> nofun)
  · cases p <;> simp [At, hpc, afterGot, serving]
  · cases p <;> simp [At, hpc, afterGot, offering]
  · cases p <;> simp [At, hpc, afterGot, took]
  · cases p <;> simp [At, hpc, afterGot, replied]
  · cases p <;> simp [At, hpc, afterGot, answered]
  · cases p <;> exact ⟨nofun, nofun⟩
  · cases p <;> simp [weight, hpc, afterGot, unsent]

omit [Fintype ι] [Fintype κ] [DecidableEq ι] [DecidableEq κ] in
theorem volume_send (q : TypedQueue ℕ (List UInt8)) (m : ℕ × List UInt8) :
    volume (q.send m) = volume q + m.2.length := by
  simp [volume, TypedQueue.send]

omit [Fintype ι] [Fintype κ] [DecidableEq ι] [DecidableEq κ] in
theorem volume_receive {t : ℕ} {bytes : List UInt8} (h : q.receive t = some (bytes, q')) :
    volume q' ≤ volume q := by
  obtain ⟨l₁, l₂, -, hbuf, rfl⟩ := TypedQueue.receive_cases h
  simp only [volume, hbuf, List.map_append, List.map_cons, List.sum_append, List.sum_cons]
  omega

omit [Fintype ι] [Fintype κ] [DecidableEq ι] [DecidableEq κ] in
theorem length_letter (p : ι ⊕ κ) (msg : MsgBuf) : (letter (outgoing p msg)).2.length = size p := by
  rw [letter_outgoing, List.length_append]
  rfl

/-- The queue that is there stays so with other messages. -/
theorem Calm.goes_with (h : Calm s) (hq : s.queue = some (id, q))
    (hbusy : Busy (s.set p c).procs id q') (hpc : (s.procs p).pc ≠ .exited 0)
    (halive : c.pc ≠ .killed) : Calm { s.set p c with queue := some (id, q') } := by
  refine h.goes _ s.made (fun id' r hr => ?_) (fun id' hlt hno => .inl ⟨hlt, ?_⟩) hpc halive
  · cases hr
    exact hbusy
  · rintro ⟨r, hr⟩
    cases hq.symm.trans hr
    exact hno _ rfl

theorem calm_send (h : Calm s) (hpc : (s.procs p).pc = .send) (hq : s.queue = some (id, q)) :
    Calm { s.set p { s.procs p with pc := .sent, msg := outgoing p (s.procs p).msg } with
      queue := some (id, q.send (letter (outgoing p (s.procs p).msg))) } := by
  have hB := h.busy id q hq
  have hmem : ((message p).1, (message p).2 ++ [0])
      ∈ (q.send (letter (outgoing p (s.procs p).msg))).buf :=
    TypedQueue.mem_send.mpr (.inr (letter_outgoing p _).symm)
  have hkept : ∀ {t : ℕ}, (∃ m ∈ q.buf, m.1 = t) →
      ∃ m ∈ (q.send (letter (outgoing p (s.procs p).msg))).buf, m.1 = t :=
    fun ⟨m, hm, ht⟩ => ⟨m, TypedQueue.mem_send.mpr (.inl hm), ht⟩
  refine h.goes_with hq ⟨exists_update hB.creator ?_, fun ho => ?_, fun hr => ?_, ?_, ?_⟩
    (by rw [hpc]; nofun) nofun
  · simp +contextual [At, hpc, serving]
  · rcases p with i | k
    · exact .inl ⟨_, hmem, rfl⟩
    · exact (hB.first (of_exists_update ho (by simp [At]))).imp hkept
        fun ht => exists_update ht (by simp +contextual [At, took])
  · rcases p with i | k
    · exact (hB.second (of_exists_update hr (by simp [At]))).imp hkept
        fun ha => exists_update ha (by simp [At, hpc, answered])
    · exact .inl ⟨_, hmem, rfl⟩
  · exact forall_update (P := fun _ => Unfailed id)
      hB.left fun _ => ⟨nofun, nofun⟩
  · have hsum := sum_set weight s p
      { s.procs p with pc := .sent, msg := outgoing p (s.procs p).msg }
    have hroom := hB.room
    have hold : weight p (s.procs p) = 0 := by
      rw [weight, hpc]
      cases p <;> rfl
    have hnew : weight p { s.procs p with pc := .sent, msg := outgoing p (s.procs p).msg }
        = size p := by cases p <;> rfl
    rw [volume_send, length_letter]
    show _ ≤ ∑ r, weight r ((s.set p _).procs r)
    omega

theorem calm_recv (h : Calm s) {bytes : List UInt8} (hpc : (s.procs p).pc = .recv)
    (hid : s.Holds p id) (hq : s.queue = some (id, q))
    (hr : q.receive (wanted p) = some (bytes, q')) :
    Calm { s.set p { s.procs p with
        pc := .got
        msg := incoming (wanted p) bytes (s.procs p).msg } with
      queue := some (id, q') } := by
  have hB := h.busy id q hq
  have hkept : ∀ {t : ℕ}, t ≠ wanted p → (∃ m ∈ q.buf, m.1 = t) → ∃ m ∈ q'.buf, m.1 = t := by
    rintro t hne ⟨m, hm, rfl⟩
    exact ⟨m, TypedQueue.mem_receive_of_ne hr hm hne, rfl⟩
  have hself : ∀ {left : Bool} {pcs : List Pc}, p.isLeft = left → .got ∈ pcs →
      ∃ r, At left pcs id r ((s.set p { s.procs p with
        pc := .got
        msg := incoming (wanted p) bytes (s.procs p).msg }).procs r) := by
    intro left pcs hleft hmem
    refine ⟨p, ?_⟩
    rw [set_self]
    exact ⟨hleft, hid, hmem⟩
  refine h.goes_with hq ⟨exists_update hB.creator ?_, fun ho => ?_, fun hre => ?_, ?_, ?_⟩
    (by rw [hpc]; nofun) nofun
  · simp +contextual [At, hpc, serving]
  · rcases p with i | k
    · exact (hB.first (of_exists_update ho (by simp [At, offering]))).imp (hkept (by simp [wanted]))
        fun ht => exists_update ht (by simp [At])
    · exact .inr (hself rfl (.head _))
  · rcases p with i | k
    · exact .inr (hself rfl (.head _))
    · exact (hB.second (of_exists_update hre (by simp [At, replied]))).imp
        (hkept (by simp [wanted])) fun ha => exists_update ha (by simp [At])
  · exact forall_update (P := fun _ => Unfailed id)
      hB.left fun _ => ⟨nofun, nofun⟩
  · refine (volume_receive hr).trans (hB.room.trans (sum_weight_le ?_))
    cases p <;> simp [weight, hpc, unsent]

theorem calm_remove (h : Calm s) (hI : Inv s) (hpc : (s.procs p).pc = .remove)
    (hid : s.Holds p id) (hlive : s.Live id) :
    Calm { s.goto p (.exited 0) with queue := none } := by
  refine h.goes none s.made nofun (fun id' hlt _ => ?_) (by rw [hpc]; nofun) nofun
  rcases eq_or_ne id' id with rfl | hne
  · exact .inr ⟨(hI.procs p).side (.inl hpc), hid, .head _⟩
  · refine .inl ⟨hlt, ?_⟩
    rintro ⟨q', hq'⟩
    obtain ⟨q, hq⟩ := hlive
    cases hq.symm.trans hq'
    exact hne rfl

theorem calm_fail (h : Calm s) (hpc : (s.procs p).pc.Calls) (hr : s.Refused p) :
    Calm (s.goto p (afterFail p (s.procs p).pc)) := by
  refine h.elsewhere (fun id hlive hid => ?_) ?_ ?_
  · unfold State.Refused at hr
    cases he : (s.procs p).pc <;> rw [he] at hr
    case start =>
      obtain ⟨q, hq⟩ := hlive
      exact nomatch hr.2.symm.trans hq
    case send => exact hr id hid hlive
    case recv => exact hr id hid hlive
    case remove => exact hr id hid hlive
    all_goals exact hr
  · intro he
    rw [he] at hpc
    exact hpc
  · exact (afterFail_cases p _).imp_right And.left

theorem calm_step {l : Label ι κ} (hI : Inv s) (h : Calm s) (hst : Step false s l s') :
    Calm s' := by
  cases hst with
  | create hpc hnone => exact calm_create h hI hpc hnone
  | get hpc hq => exact calm_get h hI hpc hq
  | send hpc _ hq _ => exact calm_send h hpc hq
  | sent hpc => exact calm_sent h hpc
  | recv hpc hid hq hr _ => exact calm_recv h hpc hid hq hr
  | got hpc => exact calm_got h hpc
  | remove hpc hid hlive => exact calm_remove h hI hpc hid hlive
  | cleanup hpc hid hlive =>
    obtain ⟨q, hq⟩ := hlive
    exact absurd hpc ((h.busy _ q hq).left _ hid).2
  | cleanupNone hpc hid hnot =>
    refine h.elsewhere (fun id hlive hid' => ?_) (by rw [hpc]; nofun) (.inl rfl)
    cases hid.symm.trans hid'
    exact hnot hlive
  | fail hpc hr => exact calm_fail h hpc (hr.resolve_right nofun)
  | kill _ hf => cases hf

theorem calm_run {tr : List (State ι κ × Label ι κ)} (h : (lts false).Run tr s) : Calm s := by
  refine (h.induction (P := fun _ s => Inv s ∧ Calm s) ?_ ?_).2
  · rintro s ⟨hnone, hmade, hprocs⟩
    have hstart : (lts false).Run [] s := ⟨s, ⟨hnone, hmade, hprocs⟩, .nil s⟩
    refine ⟨inv_run hstart, ⟨fun id q hq => (nomatch hnone.symm.trans hq), fun id hid => ?_,
      fun r hr => (nomatch (hprocs r).1.symm.trans hr)⟩⟩
    rw [hmade] at hid
    exact absurd hid (Nat.not_lt_zero _)
  · exact fun tr s l t _ hP hst => ⟨inv_step hP.1 hst, calm_step hP.1 hP.2 hst⟩

section Progress

omit [DecidableEq ι] [DecidableEq κ] in
theorem sum_size : ∑ r : ι ⊕ κ, size r = 4 * Fintype.card ι + 7 * Fintype.card κ := by
  have hserver : ∀ i : ι, size (κ := κ) (.inl i) = 4 := fun _ => rfl
  have hclient : ∀ k : κ, size (ι := ι) (.inr k) = 7 := fun _ => rfl
  rw [Fintype.sum_sum_type, Finset.sum_const_nat fun i _ => hserver i,
    Finset.sum_const_nat fun k _ => hclient k, Finset.card_univ, Finset.card_univ,
    Nat.mul_comm 4, Nat.mul_comm 7]

theorem step_send (h : Busy s.procs id q) (hroom : ∑ r : ι ⊕ κ, size r ≤ MSGMNB)
    (hpc : (s.procs p).pc = .send) (hid : s.Holds p id) (hq : s.queue = some (id, q)) :
    ∃ l t, Step false s l t := by
  refine ⟨_, _, .send hpc hid hq ?_⟩
  have hsum := sum_set weight s p { s.procs p with pc := .sent }
  have hall : ∑ r, weight r ((s.set p { s.procs p with pc := .sent }).procs r)
      ≤ ∑ r : ι ⊕ κ, size r := Finset.sum_le_sum fun r _ => weight_le
  have hold : weight p (s.procs p) = 0 := by
    rw [weight, hpc]
    cases p <;> rfl
  have hnew : weight p { s.procs p with pc := .sent } = size p := by cases p <;> rfl
  have := h.room
  rw [length_letter]
  omega

omit [Fintype ι] [Fintype κ] in
theorem step_recv (hI : Inv s) (hpc : (s.procs p).pc = .recv) (hid : s.Holds p id)
    (hq : s.queue = some (id, q)) (hm : ∃ m ∈ q.buf, m.1 = wanted p) :
    ∃ l t, Step faulty s l t := by
  obtain ⟨⟨bytes, q'⟩, hr⟩ := Option.isSome_iff_exists.mp (TypedQueue.receive_isSome hm)
  have htext := (hI.queue id q hq).2.texts _ (TypedQueue.mem_receive hr)
  refine ⟨_, _, .recv hpc hid hq hr ?_⟩
  rw [show bytes = _ from htext]
  exact length_textOf _

/-- A process whose queue is gone is not held up. -/
theorem step_dead (hI : Inv s) (h : Calm s) (hid : s.Holds p id) (hno : ¬ s.Live id)
    (hrun : ∀ code, (s.procs p).pc ≠ .exited code) : ∃ l t, Step false s l t := by
  have hgone : ∀ id', s.Holds p id' → ¬ s.Live id' := by
    intro id' hid'
    cases hid.symm.trans hid'
    exact hno
  have hrefused : ∀ pc ∈ [Pc.send, .recv, .remove], (s.procs p).pc = pc →
      ∃ l t, Step false s l t := by
    intro pc hmem hpc
    simp only [List.mem_cons, List.not_mem_nil, or_false] at hmem
    refine ⟨_, _, .fail (p := p) ?_ (.inl ?_)⟩
    · rw [hpc]
      rcases hmem with rfl | rfl | rfl <;> trivial
    · unfold State.Refused
      rw [hpc]
      rcases hmem with rfl | rfl | rfl <;> exact hgone
  rcases hpc : (s.procs p).pc with _ | _ | _ | _ | _ | _ | _ | n | _
  · exact nomatch ((hI.procs p).start hpc).symm.trans hid
  · exact hrefused _ (by simp) hpc
  · exact ⟨_, _, .sent hpc⟩
  · exact hrefused _ (by simp) hpc
  · exact ⟨_, _, .got hpc⟩
  · exact hrefused _ (by simp) hpc
  · exact ⟨_, _, .cleanupNone hpc hid hno⟩
  · exact absurd hpc (hrun n)
  · exact absurd hpc (h.alive p)

/-- While a queue is there that a client has, some process can go on. -/
theorem step_busy (hI : Inv s) (h : Calm s) (hroom : ∑ r : ι ⊕ κ, size r ≤ MSGMNB) {k : κ}
    (hid : s.Holds (.inr k) id) (hq : s.queue = some (id, q)) : ∃ l t, Step false s l t := by
  have hB := h.busy id q hq
  by_contra hstuck
  have hquiet : ∀ r, s.Holds r id → ∀ pc ∈ [Pc.send, .sent, .got, .remove],
      (s.procs r).pc ≠ pc := by
    rintro r hr pc hmem rfl
    refine hstuck ?_
    simp only [List.mem_cons, List.not_mem_nil, or_false] at hmem
    rcases hmem with hpc | hpc | hpc | hpc
    · exact step_send hB hroom hpc hr hq
    · exact ⟨_, _, .sent hpc⟩
    · exact ⟨_, _, .got hpc⟩
    · exact ⟨_, _, .remove hpc hr ⟨q, hq⟩⟩
  -- the server that is there waits for an answer
  obtain ⟨r, hleft, hr, hmem⟩ := hB.creator
  have hrecv : (s.procs r).pc = .recv := by
    have hne := hquiet r hr
    simp only [serving, List.mem_cons, List.not_mem_nil, or_false] at hmem
    rcases hmem with hpc | hpc | hpc | hpc | hpc
    · exact absurd hpc (hne _ (by simp))
    · exact absurd hpc (hne _ (by simp))
    · exact hpc
    · exact absurd hpc (hne _ (by simp))
    · exact absurd hpc (hne _ (by simp))
  have hnone : ¬ ∃ r, At false replied id r (s.procs r) := by
    intro hreplied
    rcases hB.second hreplied with hm | ⟨r', -, hr', hmem'⟩
    · refine hstuck (step_recv hI hrecv hr hq ?_)
      rcases r with i | k'
      · exact hm
      · cases hleft
    · simp only [answered, List.mem_cons, List.not_mem_nil, or_false] at hmem'
      rcases hmem' with hpc | hpc <;> exact hquiet r' hr' _ (by simp) hpc
  have hoffering : ∃ r, At true offering id r (s.procs r) :=
    ⟨r, hleft, hr, by rw [hrecv]; exact .tail _ (.head _)⟩
  rcases hB.first hoffering with hm | ⟨r', hside, hr', hmem'⟩
  · have hne := hquiet _ hid
    rcases hpc : (s.procs (.inr k)).pc with _ | _ | _ | _ | _ | _ | _ | n | _
    · exact nomatch ((hI.procs _).start hpc).symm.trans hid
    · exact hne _ (by simp) hpc
    · exact hne _ (by simp) hpc
    · exact hstuck (step_recv hI hpc hid hq hm)
    · exact hne _ (by simp) hpc
    · exact hne _ (by simp) hpc
    · exact (hB.left _ hid).2 hpc
    · rcases Nat.le_one_iff_eq_zero_or_eq_one.mp ((hI.procs _).codes n hpc) with rfl | rfl
      · exact hnone ⟨_, rfl, hid, by rw [hpc]; exact .tail _ (.head _)⟩
      · exact (hB.left _ hid).1 hpc
    · exact h.alive _ hpc
  · simp only [took, List.mem_cons, List.not_mem_nil, or_false] at hmem'
    rcases hmem' with hpc | hpc | hpc | hpc
    · exact hquiet r' hr' _ (by simp) hpc
    · exact hquiet r' hr' _ (by simp) hpc
    · exact hquiet r' hr' _ (by simp) hpc
    · exact hnone ⟨r', hside, hr', by rw [hpc]; exact .tail _ (.head _)⟩

end Progress

section Ends

/-- The steps a process has left, at most. -/
def rank : ι ⊕ κ → Pc → ℕ
  | _, .start => 8
  | .inl _, .send => 7
  | .inl _, .sent => 6
  | .inl _, .recv => 5
  | .inl _, .got => 4
  | .inr _, .recv => 7
  | .inr _, .got => 6
  | .inr _, .send => 5
  | .inr _, .sent => 4
  | _, .remove => 3
  | _, .cleanup => 2
  | _, .exited _ => 1
  | _, .killed => 0

omit [Fintype ι] [Fintype κ] [DecidableEq ι] [DecidableEq κ] in
theorem rank_fail {pc : Pc} (h : pc.Calls) : rank p (afterFail p pc) < rank p pc := by
  cases p <;> cases pc <;> simp [rank, afterFail] <;> exact h.elim

omit [Fintype ι] [Fintype κ] [DecidableEq ι] [DecidableEq κ] in
theorem rank_kill {pc : Pc} (h : pc.Runs) : rank p .killed < rank p pc := by
  cases p <;> cases pc <;> simp [rank] <;> exact h.elim

omit [Fintype ι] [Fintype κ] in
/-- A step takes one process on, and none gives up the queue it has. -/
theorem step_moves {l : Label ι κ} (hst : Step faulty s l s') :
    ∃ p c, s'.procs = (s.set p c).procs ∧ rank p c.pc < rank p (s.procs p).pc ∧
      ((s.procs p).pc = .start ∨ c.msgid = (s.procs p).msgid) := by
  cases hst with
  | @create i hpc => exact ⟨_, _, rfl, by simp [hpc, rank], .inl hpc⟩
  | @get p id q hpc => exact ⟨p, _, rfl, by cases p <;> simp [hpc, rank, afterGet], .inl hpc⟩
  | @send p id q hpc => exact ⟨p, _, rfl, by cases p <;> simp [hpc, rank], .inr rfl⟩
  | @sent p hpc => exact ⟨p, _, rfl, by cases p <;> simp [hpc, rank, afterSent], .inr rfl⟩
  | @recv p id q q' bytes hpc => exact ⟨p, _, rfl, by cases p <;> simp [hpc, rank], .inr rfl⟩
  | @got p hpc => exact ⟨p, _, rfl, by cases p <;> simp [hpc, rank, afterGot], .inr rfl⟩
  | @remove p id hpc => exact ⟨p, _, rfl, by cases p <;> simp [hpc, rank], .inr rfl⟩
  | @cleanup p id hpc => exact ⟨p, _, rfl, by cases p <;> simp [hpc, rank], .inr rfl⟩
  | @cleanupNone p id hpc => exact ⟨p, _, rfl, by cases p <;> simp [hpc, rank], .inr rfl⟩
  | @fail p hpc => exact ⟨p, _, rfl, rank_fail hpc, .inr rfl⟩
  | @kill p hpc => exact ⟨p, _, rfl, rank_kill hpc, .inr rfl⟩

omit [Fintype ι] [Fintype κ] in
theorem holds_step {l : Label ι κ} {r : ι ⊕ κ} (hI : Inv s) (h : s.Holds r id)
    (hst : Step faulty s l s') : s'.Holds r id := by
  obtain ⟨p, c, hprocs, -, hc⟩ := step_moves hst
  unfold State.Holds
  rw [hprocs]
  rcases eq_or_ne r p with rfl | hne
  · rw [set_self]
    rcases hc with hstart | hc
    · exact nomatch ((hI.procs r).start hstart).symm.trans h
    · rw [hc]
      exact h
  · rw [set_other hne]
    exact h

theorem sum_rank_lt {l : Label ι κ} (hst : Step faulty s l s') :
    ∑ r, rank r (s'.procs r).pc < ∑ r, rank r (s.procs r).pc := by
  obtain ⟨p, c, hprocs, hlt, -⟩ := step_moves hst
  have := sum_set (fun r c => rank r c.pc) s p c
  rw [hprocs]
  omega

/-- A queue is answered: a server that had it has printed its whole script and returned 0, and all
who had it are gone. -/
def Answered (s : State ι κ) (id : ℕ) : Prop :=
  (∃ i, s.Holds (.inl i) id ∧ (s.procs (.inl i)).pc = .exited 0 ∧
    (s.procs (.inl i)).lines = script (.inl i : ι ⊕ κ)) ∧
  ∀ p, s.Holds p id → ∃ code, (s.procs p).pc = .exited code

theorem answered_or_step (hI : Inv s) (h : Calm s) (hroom : ∑ r : ι ⊕ κ, size r ≤ MSGMNB) {k : κ}
    (hid : s.Holds (.inr k) id) (hno : ¬ Answered s id) : ∃ l t, Step false s l t := by
  by_cases hlive : s.Live id
  · obtain ⟨q, hq⟩ := hlive
    exact step_busy hI h hroom hid hq
  · obtain ⟨r, hside, hr, hmem⟩ := h.removed id (hI.known _ id hid) hlive
    have hserver : ∃ i, s.Holds (.inl i) id ∧ (s.procs (.inl i)).pc = .exited 0 ∧
        (s.procs (.inl i)).lines = script (.inl i : ι ⊕ κ) := by
      rcases r with i | k'
      · have hpc := List.mem_singleton.mp hmem
        exact ⟨i, hr, hpc, (hI.procs (.inl i)).exact 2 (by rw [hpc]; rfl)⟩
      · cases hside
    obtain ⟨p, hp⟩ := not_forall.mp fun hall => hno ⟨hserver, hall⟩
    obtain ⟨hp, hrun⟩ := Classical.not_imp.mp hp
    exact step_dead hI h hp hlive fun code hpc => hrun ⟨code, hpc⟩

/-- Where no call fails but for want of a queue, and all messages have room in it: once a client has
a queue, a server inevitably takes an answer from it, prints it and returns 0, and everyone who had
the queue is gone. -/
theorem sysv_ends {tr : List (State ι κ × Label ι κ)} (h : (lts false).Run tr s)
    (hroom : 4 * Fintype.card ι + 7 * Fintype.card κ ≤ MSGMNB) {k : κ}
    (hid : s.Holds (.inr k) id) : (lts false).Inevitably (fun t => Answered t id) s := by
  rw [← sum_size] at hroom
  refine Inevitably.of_measure (I := fun t => Inv t ∧ Calm t ∧ t.Holds (.inr k) id)
    (fun t => ∑ r, rank r (t.procs r).pc) ?_ ?_ ⟨inv_run h, calm_run h, hid⟩
  · rintro t ⟨hI, hcalm, hid⟩ hno
    exact answered_or_step hI hcalm hroom hid hno
  · rintro t l t' ⟨hI, hcalm, hid⟩ - hst
    exact .inr ⟨⟨inv_step hI hst, calm_step hI hcalm hst, holds_step hI hid hst⟩, sum_rank_lt hst⟩

theorem sysv_ends_one : ∃ s tr, (lts (ι := Unit) (κ := Unit) false).Run tr s ∧
    (lts false).Inevitably (fun t => Answered t 0) s := by
  have hget := ((idle_run false).snoc (@Step.create _ _ _ _ _ _ () rfl rfl)).snoc
    (@Step.get _ _ _ _ _ _ (.inr ()) _ _ rfl rfl)
  exact ⟨_, _, hget, sysv_ends hget (by decide) (show State.Holds _ (.inr ()) 0 from rfl)⟩

end Ends

end Calm

end EltexSystems.Sysv
