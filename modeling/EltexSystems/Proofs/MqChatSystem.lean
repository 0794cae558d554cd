import EltexSystems.MqChatSystem
import EltexSystems.Proofs.MqChat

/-!
# When the server's sends go through

A client's threads can empty its full queue without a key exactly when the client is not away
(`canDrain_iff`): a receiver that has joined takes its messages one by one while the screen is free,
and at the prompt the main thread holds it.  So in a run whose steps are all clear, and in no other,
every client the server waits on can drain its queue (`server_never_hangs_iff`).
-/

namespace EltexSystems

open CStr

/-- The client has sent its join request. -/
def MainPc.Submitted : MainPc → Prop
  | .starting => False
  | .opened => False
  | _ => True

/-- The client has created its receiver thread. -/
def MainPc.Spawned : MainPc → Prop
  | .starting => False
  | .opened => False
  | .joined => False
  | _ => True

/-- Where a client's two threads can be together. -/
structure ChatClient.Wf (cl : ChatClient) : Prop where
  absent : cl.receiver = .absent ↔ ¬ cl.main.Spawned
  screen : cl.receiver = .printing → ¬ cl.main.HoldsScreen
  dead : cl.receiver = .dead → cl.main = .closed ∨ cl.main = .gone
  gone : cl.main = .gone → cl.receiver = .dead

theorem wf_clientStep {cl cl' : ChatClient} {a : ClientAct} (h : cl.Wf)
    (hst : ClientStep cl a cl') : cl'.Wf := by
  obtain ⟨h1, h2, h3, h4⟩ := h
  cases hst with
  | unlock hm =>
    rw [hm] at h1 h2 h3 h4
    by_cases hq : ‹CharArray MAX_TEXT›.text = ascii "/quit"
    · rw [if_pos hq]
      constructor <;> simp_all [MainPc.Spawned, MainPc.HoldsScreen]
    · rw [if_neg hq]
      constructor <;> simp_all [MainPc.Spawned, MainPc.HoldsScreen]
  | _ => constructor <;> simp_all [MainPc.Spawned, MainPc.HoldsScreen]

/-- A main thread that goes on from where its receiver is not yet dead, without the screen. -/
theorem ChatClient.Wf.goes_on {cl : ChatClient} {pc : MainPc} (h : cl.Wf)
    (hopen : cl.main ≠ .closed) (hhere : cl.main ≠ .gone) (hspawned : pc.Spawned ↔ cl.main.Spawned)
    (hscreen : ¬ pc.HoldsScreen) (hgone : pc ≠ .gone) :
    ({ cl with main := pc } : ChatClient).Wf := by
  refine ⟨?_, fun _ => hscreen, fun hd => ?_, fun hg => absurd hg hgone⟩
  · rw [hspawned]
    exact h.absent
  · rcases h.dead hd with hm | hm
    · exact absurd hm hopen
    · exact absurd hm hhere

theorem submitted_clientStep {cl cl' : ChatClient} {a : ClientAct} (h : cl.main.Submitted)
    (hst : ClientStep cl a cl') : cl'.main.Submitted := by
  cases hst with
  | create hm => simp [hm, MainPc.Submitted] at h
  | unlock hm =>
    simp only []
    split_ifs
    · trivial
    · trivial
  | spawn => trivial
  | lock => trivial
  | keys => trivial
  | close => trivial
  | leave => trivial
  | take => exact h
  | grab => exact h
  | print => exact h
  | fail => exact h

theorem joinMsg_qname {ι : Type*} (net : MqNet ι) (c : ι) :
    (net.joinMsg c).qname.text = (net.qname c).text :=
  CharArray.text_print_text (net.qname c) MAX_QNAME_pos

section Handle

variable {δ : Type*} {s : ChatServer δ} {m : ChatMsg} {opened : Option δ}

/-- A request adds no descriptor to the table but the one it has opened. -/
theorem mem_clients_handleRequest {cl : ClientInfo δ}
    (h : cl ∈ (handleRequest s m opened).server.clients) :
    cl ∈ s.clients ∨ m.type = 74 ∧ cl.q = opened := by
  rcases handleRequest_cases s m opened with ⟨-, he⟩ | ⟨ht, -, q, cl', hq, hcl, he⟩ | ⟨-, -, hs, -⟩
  · rw [he] at h
    exact .inl h
  · rw [he] at h
    rcases List.mem_append.mp h with h | h
    · exact .inl h
    · rw [List.mem_singleton.mp h, hcl, hq]
      exact .inr ⟨ht, rfl⟩
  · rw [hs] at h
    exact .inl h

theorem mem_sends_handleRequest {p : δ × ChatMsg} (h : p ∈ (handleRequest s m opened).sends) :
    (∃ cl ∈ s.clients, cl.q = some p.1) ∨ m.type = 74 ∧ opened = some p.1 := by
  rcases handleRequest_cases s m opened with ⟨-, he⟩ | ⟨ht, -, q, cl', hq, hcl, he⟩ | ⟨-, -, -, hp⟩
  · rw [he] at h
    exact .inl (List.mem_map.mp (mem_sendToAll.mp h).1)
  · rw [he] at h
    rcases List.mem_append.mp h with h | h
    · obtain ⟨x, -, rfl⟩ := List.mem_map.mp h
      exact .inr ⟨ht, hq⟩
    · obtain ⟨cl, hmem, hclq⟩ := List.mem_map.mp (mem_sendToAll.mp h).1
      rcases List.mem_append.mp hmem with hmem | hmem
      · exact .inl ⟨cl, hmem, hclq⟩
      · rw [List.mem_singleton.mp hmem, hcl] at hclq
        exact .inr ⟨ht, hq.trans hclq⟩
  · exact .inr (hp p h)

end Handle

variable {ι : Type*} {net : MqNet ι} {s s' : MqSystem ι} {c : ι}

/-- What every reachable state keeps. -/
structure MqInv (net : MqNet ι) (s : MqSystem ι) : Prop where
  wf : ∀ c, (s.clients c).Wf
  known : ∀ cl ∈ s.server.clients, ∀ c, cl.q = some c → (s.clients c).main.Submitted
  outgoing : ∀ p ∈ s.outgoing, (s.clients p.1).main.Submitted
  inbox : ∀ m ∈ s.inbox, m.type = 74 → ∀ c, (net.qname c).text = m.qname.text →
    (s.clients c).main.Submitted

theorem submitted_of_waitsOn (h : MqInv net s) (hw : s.WaitsOn c) :
    (s.clients c).main.Submitted := by
  obtain ⟨-, ⟨m, rest, hout⟩, -⟩ := hw
  exact h.outgoing (c, m) (by rw [hout]; exact List.mem_cons_self)

variable [DecidableEq ι]

theorem mqInv_update (h : MqInv net s) {cl : ChatClient} (hwf : cl.Wf)
    (hsub : (s.clients c).main.Submitted → cl.main.Submitted) :
    MqInv net { s with clients := Function.update s.clients c cl } := by
  have hmono : ∀ c', (s.clients c').main.Submitted →
      (Function.update s.clients c cl c').main.Submitted := by
    intro c' hc'
    by_cases he : c' = c
    · subst he
      rw [Function.update_self]
      exact hsub hc'
    · rw [Function.update_of_ne he]
      exact hc'
  refine ⟨fun c' => ?_, fun x hx c' hq => hmono c' (h.known x hx c' hq),
    fun p hp => hmono p.1 (h.outgoing p hp),
    fun m hm ht c' hq => hmono c' (h.inbox m hm ht c' hq)⟩
  by_cases he : c' = c
  · subst he
    simp only [Function.update_self]
    exact hwf
  · simp only [Function.update_of_ne he]
    exact h.wf c'

theorem mqInv_step {l : MqLabel ι} (h : MqInv net s) (hst : (mqLts net).step s l s') :
    MqInv net s' := by
  cases hst with
  | @client c a cl hcl =>
    exact mqInv_update h (wf_clientStep (h.wf c) hcl) fun hs => submitted_clientStep hs hcl
  | @join c hm hroom =>
    have hwf : ({ s.clients c with main := .joined } : ChatClient).Wf :=
      (h.wf c).goes_on (by simp [hm]) (by simp [hm]) (by simp [hm, MainPc.Spawned]) id (by simp)
    obtain ⟨hw, hk, ho, hi⟩ := mqInv_update h hwf fun _ => trivial
    refine ⟨hw, hk, ho, fun m hm ht c' hq => ?_⟩
    rcases List.mem_append.mp hm with hm | hm
    · exact hi m hm ht c' hq
    · rw [List.mem_singleton.mp hm, joinMsg_qname] at hq
      obtain rfl : c' = c := net.distinct hq
      simp [MainPc.Submitted]
  | @message c line hm hroom =>
    have hwf : ({ s.clients c with main := .top } : ChatClient).Wf :=
      (h.wf c).goes_on (by simp [hm]) (by simp [hm]) (by simp [hm, MainPc.Spawned]) id (by simp)
    obtain ⟨hw, hk, ho, hi⟩ := mqInv_update h hwf fun _ => trivial
    refine ⟨hw, hk, ho, fun m hm ht c' hq => ?_⟩
    rcases List.mem_append.mp hm with hm | hm
    · exact hi m hm ht c' hq
    · rw [List.mem_singleton.mp hm] at ht
      cases ht
  | @receive m rest opened hout hcall hin hopen =>
    have hm : ∀ c, m.type = 74 → opened = some c → (s.clients c).main.Submitted := by
      rintro c ht rfl
      exact h.inbox m (by rw [hin]; exact List.mem_cons_self) ht c hopen.2
    refine ⟨h.wf, fun cl hcl c hq => ?_, fun p hp => ?_, fun x hx => ?_⟩
    · rcases mem_clients_handleRequest hcl with hcl | ⟨ht, hcl⟩
      · exact h.known cl hcl c hq
      · exact hm c ht (hcl.symm.trans hq)
    · rcases mem_sends_handleRequest hp with ⟨cl, hcl, hq⟩ | ⟨ht, hq⟩
      · exact h.known cl hcl p.1 hq
      · exact hm p.1 ht hq
    · exact h.inbox x (by rw [hin]; exact List.mem_cons_of_mem _ hx)
  | call => exact ⟨h.wf, h.known, h.outgoing, h.inbox⟩
  | @deliver c m rest hout hcall hroom =>
    have hwf : ({ s.clients c with queue := (s.clients c).queue ++ [m] } : ChatClient).Wf :=
      ⟨(h.wf c).absent, (h.wf c).screen, (h.wf c).dead, (h.wf c).gone⟩
    obtain ⟨hw, hk, ho, hi⟩ := mqInv_update h hwf fun hs => hs
    exact ⟨hw, hk, fun p hp => ho p (by rw [hout]; exact List.mem_cons_of_mem _ hp), hi⟩

section Drain

theorem CanDrain.cons {l : MqLabel ι} (hst : (mqLts net).step s l s') (hl : Quiet c l)
    (h : CanDrain net s' c) : CanDrain net s c := by
  obtain ⟨tr, t, hp, hq, hempty⟩ := h
  refine ⟨_, t, .cons hst hp, fun p hmem => ?_, hempty⟩
  rcases List.mem_cons.mp hmem with rfl | hmem
  · exact hl
  · exact hq p hmem

theorem CanDrain.client {a : ClientAct} {cl : ChatClient} (hst : ClientStep (s.clients c) a cl)
    (ha : ∀ line, a ≠ .keys line)
    (h : CanDrain net { s with clients := Function.update s.clients c cl } c) :
    CanDrain net s c :=
  .cons (.client hst) (.inl ⟨a, rfl, ha⟩) h

/-- A receiver takes its messages one after another while the screen is free. -/
theorem drain_receiving : ∀ (n : ℕ) {s : MqSystem ι}, (s.clients c).queue.length = n →
    ¬ (s.clients c).main.HoldsScreen → (s.clients c).main ≠ .closed →
    (s.clients c).receiver = .receiving → CanDrain net s c
  | 0, s, hn, _, _, _ => ⟨[], s, .nil s, by simp, List.length_eq_zero_iff.mp hn⟩
  | n + 1, s, hn, hscreen, hopen, hrecv => by
    rcases hq : (s.clients c).queue with _ | ⟨m, rest⟩
    · simp [hq] at hn
    · have hlen : rest.length = n := by simpa [hq] using hn
      refine .client (.take hopen hrecv hq) (by simp) ?_
      refine .client (@ClientStep.grab _ m ?_ ?_) (by simp) ?_
      · simp only [Function.update_self]
      · simpa only [Function.update_self] using hscreen
      refine .client (.print ?_) (by simp) (drain_receiving n ?_ ?_ ?_ ?_)
      all_goals simp only [Function.update_self]
      · exact hlen
      · exact hscreen
      · exact hopen

theorem drain_free (hwf : (s.clients c).Wf) (hspawned : (s.clients c).main.Spawned)
    (hscreen : ¬ (s.clients c).main.HoldsScreen) (hclosed : (s.clients c).main ≠ .closed)
    (hgone : (s.clients c).main ≠ .gone) : CanDrain net s c := by
  have hprint : ∀ {t : MqSystem ι}, (t.clients c).main = (s.clients c).main →
      (t.clients c).receiver = .printing → CanDrain net t c := by
    intro t hm hr
    refine .client (.print hr) (by simp) (drain_receiving _ rfl ?_ ?_ ?_)
    all_goals simp only [Function.update_self]
    · rw [hm]
      exact hscreen
    · rw [hm]
      exact hclosed
  rcases hr : (s.clients c).receiver with _ | _ | m | _ | _
  · exact absurd hspawned (hwf.absent.mp hr)
  · exact drain_receiving _ rfl hscreen hclosed hr
  · refine .client (.grab hr hscreen) (by simp) (hprint ?_ ?_)
    all_goals simp only [Function.update_self]
  · exact hprint rfl hr
  · rcases hwf.dead hr with h | h
    · exact absurd h hclosed
    · exact absurd h hgone

theorem canDrain_of (h : MqInv net s) (hsub : (s.clients c).main.Submitted)
    (haway : ¬ (s.clients c).main.Away) : CanDrain net s c := by
  have hwf := h.wf c
  rcases hm : (s.clients c).main with _ | _ | _ | _ | _ | line | line | _ | _ | _
  · simp [hm, MainPc.Submitted] at hsub
  · simp [hm, MainPc.Submitted] at hsub
  · refine .client (.spawn hm) (by simp) (drain_receiving _ rfl ?_ ?_ ?_)
    all_goals simp [MainPc.HoldsScreen]
  · exact drain_free hwf (by simp [hm, MainPc.Spawned]) (by simp [hm, MainPc.HoldsScreen])
      (by simp [hm]) (by simp [hm])
  · simp [hm, MainPc.Away] at haway
  · refine .client (.unlock hm) (by simp) (drain_free ?_ ?_ ?_ ?_ ?_)
    · simp only [Function.update_self]
      exact wf_clientStep hwf (.unlock hm)
    all_goals
      simp only [Function.update_self]
      by_cases hq : line.text = ascii "/quit"
      · simp [hq, MainPc.Spawned, MainPc.HoldsScreen]
      · simp [hq, MainPc.Spawned, MainPc.HoldsScreen]
  · exact drain_free hwf (by simp [hm, MainPc.Spawned]) (by simp [hm, MainPc.HoldsScreen])
      (by simp [hm]) (by simp [hm])
  · exact drain_free hwf (by simp [hm, MainPc.Spawned]) (by simp [hm, MainPc.HoldsScreen])
      (by simp [hm]) (by simp [hm])
  · simp [hm, MainPc.Away] at haway
  · simp [hm, MainPc.Away] at haway

/-- A client with messages left that its own threads will not take. -/
def Held (cl : ChatClient) : Prop :=
  cl.queue ≠ [] ∧ ((cl.main = .prompt ∧ ((∃ m, cl.receiver = .holding m) ∨
    cl.receiver = .receiving ∧ 2 ≤ cl.queue.length)) ∨
    cl.main = .closed ∨ cl.main = .gone ∧ cl.receiver = .dead)

theorem held_quiet {l : MqLabel ι} (h : Held (s.clients c)) (hl : Quiet c l)
    (hst : (mqLts net).step s l s') : Held (s'.clients c) := by
  rcases hl with ⟨a, rfl, ha⟩ | rfl
  · cases hst with
    | @client _ _ cl hcl =>
      simp only [Function.update_self]
      obtain ⟨hne, hcase⟩ := h
      cases hcl with
      | create hm => simp [hm] at hcase
      | spawn hm => simp [hm] at hcase
      | lock hm => simp [hm] at hcase
      | keys line => exact absurd rfl (ha line)
      | unlock hm => simp [hm] at hcase
      | close hm => simp [hm] at hcase
      | leave hm hd => exact ⟨hne, .inr (.inr ⟨rfl, hd⟩)⟩
      | @take m rest hopen hrecv hq =>
        rcases hcase with ⟨hp, ⟨m', hm'⟩ | ⟨-, h2⟩⟩ | hcl | ⟨-, hd⟩
        · rw [hrecv] at hm'
          cases hm'
        · refine ⟨?_, .inl ⟨hp, .inl ⟨m, rfl⟩⟩⟩
          rw [hq, List.length_cons] at h2
          exact List.ne_nil_of_length_pos (show 0 < rest.length by omega)
        · exact absurd hcl hopen
        · rw [hrecv] at hd
          cases hd
      | grab hr hscreen =>
        rcases hcase with ⟨hp, -⟩ | hcl | ⟨-, hd⟩
        · simp [hp, MainPc.HoldsScreen] at hscreen
        · exact ⟨hne, .inr (.inl hcl)⟩
        · rw [hr] at hd
          cases hd
      | print hr =>
        rcases hcase with ⟨-, ⟨m, hm⟩ | ⟨hm, -⟩⟩ | hcl | ⟨-, hd⟩
        · rw [hr] at hm
          cases hm
        · rw [hr] at hm
          cases hm
        · exact ⟨hne, .inr (.inl hcl)⟩
        · rw [hr] at hd
          cases hd
      | fail hm hr => exact ⟨hne, .inr (.inl hm)⟩
  · cases hst with
    | join hm => simp [hm, Held] at h
    | message hm => simp [hm, Held] at h

/-- The client a full queue belongs to can drain it exactly when it is not away. -/
theorem canDrain_iff (h : MqInv net s) (hsub : (s.clients c).main.Submitted)
    (hfull : MAXMSG ≤ (s.clients c).queue.length) :
    CanDrain net s c ↔ ¬ (s.clients c).main.Away := by
  refine ⟨fun ⟨tr, t, hp, hq, hempty⟩ haway => ?_, canDrain_of h hsub⟩
  have hwf := h.wf c
  have h2 : 2 ≤ (s.clients c).queue.length := le_trans (by decide) hfull
  have hheld : Held (s.clients c) := by
    refine ⟨List.ne_nil_of_length_pos (by omega), ?_⟩
    rcases hm : (s.clients c).main with _ | _ | _ | _ | _ | line | line | _ | _ | _
    all_goals simp only [hm, MainPc.Away] at haway
    · left
      rcases hr : (s.clients c).receiver with _ | _ | m | _ | _
      · exact absurd (by simp [hm, MainPc.Spawned]) (hwf.absent.mp hr)
      · exact ⟨rfl, .inr ⟨rfl, h2⟩⟩
      · exact ⟨rfl, .inl ⟨m, rfl⟩⟩
      · exact absurd (by simp [hm, MainPc.HoldsScreen]) (hwf.screen hr)
      · have := hwf.dead hr
        simp [hm] at this
    · exact .inr (.inl rfl)
    · exact .inr (.inr ⟨rfl, hwf.gone hm⟩)
  have := hp.inv_when (fun _ _ _ hI hl hst => held_quiet hI hl hst) hq hheld
  exact this.1 hempty

end Drain

theorem mqInv_run {tr : List (MqSystem ι × MqLabel ι)} (h : (mqLts net).Run tr s) :
    MqInv net s := by
  refine h.inv (fun s hs => ?_) fun _ _ _ hI hst => mqInv_step hI hst
  rw [show s = _ from hs]
  exact ⟨fun _ => ⟨by simp [MainPc.Spawned], by simp, by simp, by simp⟩, by simp, by simp, by simp⟩

theorem neverHangs_iff (h : MqInv net s) :
    NeverHangs net s ↔ ∀ c, s.WaitsOn c → ¬ (s.clients c).main.Away := by
  refine forall_congr' fun c => ?_
  refine ⟨fun hd hw => ?_, fun ha hw => ?_⟩
  · exact (canDrain_iff h (submitted_of_waitsOn h hw) hw.2.2).mp (hd hw)
  · exact (canDrain_iff h (submitted_of_waitsOn h hw) hw.2.2).mpr (ha hw)

section Wait

theorem queue_clientStep {cl cl' : ChatClient} {a : ClientAct} (hst : ClientStep cl a cl') :
    cl'.queue.length ≤ cl.queue.length := by
  cases hst with
  | take _ _ hq =>
    rw [hq]
    exact Nat.le_succ _
  | _ => exact le_rfl

/-- A client goes away by taking the screen for its prompt or by closing its queue. -/
theorem away_clientStep {cl cl' : ChatClient} {a : ClientAct} (hst : ClientStep cl a cl')
    (haway : cl'.main.Away) : cl.main.Away ∨ a = .lock ∨ a = .close := by
  cases hst with
  | lock => exact .inr (.inl rfl)
  | close => exact .inr (.inr rfl)
  | leave hm =>
    rw [hm]
    exact .inl trivial
  | unlock =>
    simp only [] at haway
    split_ifs at haway
    · exact absurd haway id
    · exact absurd haway id
  | create => exact absurd haway id
  | spawn => exact absurd haway id
  | keys => exact absurd haway id
  | take => exact .inl haway
  | grab => exact .inl haway
  | print => exact .inl haway
  | fail => exact .inl haway

theorem clear_step {l : MqLabel ι} (hI : ∀ c, s.WaitsOn c → ¬ (s.clients c).main.Away)
    (hclear : Clear s l) (hst : (mqLts net).step s l s') :
    ∀ c, s'.WaitsOn c → ¬ (s'.clients c).main.Away := by
  intro c' hw
  cases hst with
  | @client c a cl hcl =>
    obtain ⟨hcall, hout, hlen⟩ := hw
    by_cases he : c' = c
    · subst he
      simp only [Function.update_self] at hlen ⊢
      have hw' : s.WaitsOn c' := ⟨hcall, hout, hlen.trans (queue_clientStep hcl)⟩
      intro haway
      rcases away_clientStep hcl haway with h | rfl | rfl
      · exact hI c' hw' h
      · exact hclear hw'
      · exact hclear hw'
    · simp only [Function.update_of_ne he] at hlen ⊢
      exact hI c' ⟨hcall, hout, hlen⟩
  | @join c hm hroom =>
    obtain ⟨hcall, hout, hlen⟩ := hw
    by_cases he : c' = c
    · subst he
      simp only [Function.update_self]
      exact id
    · simp only [Function.update_of_ne he] at hlen ⊢
      exact hI c' ⟨hcall, hout, hlen⟩
  | @message c line hm hroom =>
    obtain ⟨hcall, hout, hlen⟩ := hw
    by_cases he : c' = c
    · subst he
      simp only [Function.update_self]
      exact id
    · simp only [Function.update_of_ne he] at hlen ⊢
      exact hI c' ⟨hcall, hout, hlen⟩
  | receive _ hcall => exact absurd (hcall.symm.trans hw.1) (by simp)
  | call hp =>
    obtain ⟨-, ⟨m, rest, hout⟩, hlen⟩ := hw
    exact hclear c' m rest hout hlen
  | deliver => exact absurd hw.1 (by simp)

/-- A step that is not clear leaves the server waiting on a client that is away. -/
theorem not_clear_step {l : MqLabel ι} (hclear : ¬ Clear s l) (hst : (mqLts net).step s l s') :
    ∃ c, s'.WaitsOn c ∧ (s'.clients c).main.Away := by
  cases hst with
  | @client c a cl hcl =>
    refine ⟨c, ?_⟩
    cases hcl with
    | lock hm =>
      obtain ⟨hcall, hout, hlen⟩ := not_not.mp hclear
      refine ⟨⟨hcall, hout, ?_⟩, ?_⟩
      all_goals simp only [Function.update_self]
      · exact hlen
      · trivial
    | close hm =>
      obtain ⟨hcall, hout, hlen⟩ := not_not.mp hclear
      refine ⟨⟨hcall, hout, ?_⟩, ?_⟩
      all_goals simp only [Function.update_self]
      · exact hlen
      · trivial
    | _ => exact absurd trivial hclear
  | call hp =>
    unfold Clear at hclear
    push Not at hclear
    obtain ⟨c, m, rest, hout, hlen, haway⟩ := hclear
    exact ⟨c, ⟨rfl, ⟨m, rest, hout⟩, hlen⟩, haway⟩
  | _ => exact absurd trivial hclear

end Wait

/-- In exactly the runs whose steps are all clear, the server never waits on a queue that its client
cannot drain. -/
theorem server_never_hangs_iff {tr : List (MqSystem ι × MqLabel ι)} (h : (mqLts net).Run tr s) :
    (∀ u ∈ Lts.visited tr s, NeverHangs net u) ↔ ∀ p ∈ tr, Clear p.1 p.2 := by
  constructor
  · rintro hall ⟨u, l⟩ hp
    by_contra hclear
    obtain ⟨v, hv, hst⟩ := h.after hp
    obtain ⟨c, hw, haway⟩ := not_clear_step hclear hst
    obtain ⟨tr₁, -, -, hrun⟩ := h.visited hv
    exact (neverHangs_iff (mqInv_run hrun)).mp (hall v hv) c hw haway
  · intro hclear u hu
    obtain ⟨tr₁, tr₂, rfl, hrun⟩ := h.visited hu
    refine (neverHangs_iff (mqInv_run hrun)).mpr ?_
    refine hrun.inv_when (C := Clear) (fun s hs => ?_)
      (fun _ _ _ hI hc hst => clear_step hI hc hst)
      (fun p hp => hclear p (List.mem_append_left _ hp))
    rw [show s = _ from hs]
    rintro c ⟨hcall, -⟩
    cases hcall

section OneClient

/-- A client with process id 7. -/
def oneMqClient : MqNet Unit where
  pid _ := 7
  nickname _ := .print (ascii "ann") MAX_NAME_pos
  distinct := Function.injective_of_subsingleton _

def hello : CharArray MAX_TEXT := .print (ascii "hello") MAX_TEXT_pos

/-- A run of clear steps leads to the state. -/
def ClearRun (s : MqSystem Unit) : Prop :=
  ∃ tr, (mqLts oneMqClient).Run tr s ∧ ∀ p ∈ tr, Clear p.1 p.2

theorem ClearRun.snoc {s s' : MqSystem Unit} {l : MqLabel Unit} (h : ClearRun s)
    (hst : (mqLts oneMqClient).step s l s') (hc : Clear s l) : ClearRun s' := by
  obtain ⟨tr, hrun, hclear⟩ := h
  refine ⟨_, hrun.snoc hst, fun p hp => ?_⟩
  rcases List.mem_append.mp hp with hp | hp
  · exact hclear p hp
  · rw [List.mem_singleton.mp hp]
    exact hc

/-- A state of the system with one client. -/
def single (server : ChatServer Unit) (outgoing : List (Unit × ChatMsg)) (calling : Bool)
    (inbox : List ChatMsg) (cl : ChatClient) : MqSystem Unit :=
  ⟨server, outgoing, calling, inbox, fun _ => cl⟩

theorem update_single (cl cl' : ChatClient) :
    Function.update (fun _ : Unit => cl) () cl' = fun _ => cl' := by
  funext ⟨⟩
  rfl

variable {sv : ChatServer Unit} {out : List (Unit × ChatMsg)} {b : Bool} {inb : List ChatMsg}
  {cl cl' : ChatClient} {m : ChatMsg}

theorem step_client {a : ClientAct} (hst : ClientStep cl a cl') :
    (mqLts oneMqClient).step (single sv out b inb cl) (.client () a) (single sv out b inb cl') := by
  have := @MqStep.client Unit _ oneMqClient (single sv out b inb cl) () a cl' hst
  rwa [show (single sv out b inb cl).clients = fun _ => cl from rfl, update_single] at this

theorem ClearRun.client (h : ClearRun (single sv out b inb cl)) {a : ClientAct}
    (hst : ClientStep cl a cl') (hc : Clear (single sv out b inb cl) (.client () a)) :
    ClearRun (single sv out b inb cl') := h.snoc (step_client hst) hc

theorem ClearRun.join (h : ClearRun (single sv out b inb cl)) (hm : cl.main = .opened)
    (hroom : inb.length < MAXMSG) :
    ClearRun (single sv out b (inb ++ [oneMqClient.joinMsg ()]) { cl with main := .joined }) := by
  have := h.snoc (.join (c := ()) hm hroom) trivial
  rwa [show (single sv out b inb cl).clients = fun _ => cl from rfl, update_single] at this

theorem ClearRun.message {line : CharArray MAX_TEXT} (h : ClearRun (single sv out b inb cl))
    (hm : cl.main = .sending line) (hroom : inb.length < MAXMSG) :
    ClearRun (single sv out b (inb ++ [oneMqClient.lineMsg () line]) { cl with main := .top }) := by
  have := h.snoc (.message (c := ()) hm hroom) trivial
  rwa [show (single sv out b inb cl).clients = fun _ => cl from rfl, update_single] at this

theorem ClearRun.call {p : Unit × ChatMsg} (h : ClearRun (single sv (p :: out) false inb cl))
    (ha : ¬ cl.main.Away) : ClearRun (single sv (p :: out) true inb cl) :=
  h.snoc (.call rfl rfl) fun _ _ _ _ _ => ha

theorem ClearRun.deliver (h : ClearRun (single sv (((), m) :: out) true inb cl))
    (hroom : cl.queue.length < MAXMSG) :
    ClearRun (single sv out false inb { cl with queue := cl.queue ++ [m] }) := by
  have := h.snoc (.deliver rfl rfl hroom) trivial
  rwa [show (single sv (((), m) :: out) true inb cl).clients = fun _ => cl from rfl,
    update_single] at this

theorem ClearRun.receive (h : ClearRun (single sv [] false (m :: inb) cl)) (opened : Option Unit)
    (ho : (single sv [] false (m :: inb) cl).Opens oneMqClient m.qname.text opened) :
    ClearRun (single (handleRequest sv m opened).server (handleRequest sv m opened).sends false inb
      cl) := h.snoc (.receive rfl rfl rfl ho) trivial

/-- The client is at the top of its loop and `n` messages behind, its receiver having one in hand,
and the server is about to send it another. -/
def Sending (n : ℕ) : Prop :=
  ∃ info history m m' queue, info.q = some () ∧ queue.length = n ∧
    ClearRun (single ⟨[info], history⟩ [((), m')] true [] ⟨.top, .holding m, queue⟩)

/-- The same with the server idle. -/
def Behind (n : ℕ) : Prop :=
  ∃ info history m queue, info.q = some () ∧ queue.length = n ∧
    ClearRun (single ⟨[info], history⟩ [] false [] ⟨.top, .holding m, queue⟩)

/-- The client types a line and the server starts to broadcast it. -/
theorem sending_of_behind {n : ℕ} (h : Behind n) : Sending n := by
  obtain ⟨info, history, m, queue, hq, hn, hrun⟩ := h
  have h1 := hrun.client (.lock rfl (by simp)) (fun hw => by cases hw.1)
  have h2 := h1.client (.keys hello rfl) trivial
  have h3 := h2.client (.unlock rfl) trivial
  rw [if_neg (by decide)] at h3
  have h4 := h3.message rfl (by decide)
  have hreq : handleRequest ⟨[info], history⟩ (oneMqClient.lineMsg () hello) none
      = ⟨⟨[info], remember history (oneMqClient.lineMsg () hello)⟩,
          [((), oneMqClient.lineMsg () hello)]⟩ := by
    unfold handleRequest
    rw [if_neg (by decide), if_pos (by rfl), handleMessage, sendToAll_cons, hq]
    rfl
  have hname : (oneMqClient.qname ()).text ≠ (oneMqClient.lineMsg () hello).qname.text := by decide
  have h5 := h4.receive none fun _ _ => hname
  rw [hreq] at h5
  exact ⟨info, _, m, _, queue, hq, hn, h5.call id⟩

theorem behind_of_sending {n : ℕ} (hn : n < MAXMSG) (h : Sending n) : Behind (n + 1) := by
  obtain ⟨info, history, m, m', queue, hq, hlen, hrun⟩ := h
  refine ⟨info, history, m, queue ++ [m'], hq, ?_, hrun.deliver (by rw [hlen]; exact hn)⟩
  rw [List.length_append, hlen]
  rfl

/-- The client joins and its receiver takes the notice. -/
theorem behind_zero : Behind 0 := by
  have h0 : ClearRun (single ⟨[], []⟩ [] false [] ⟨.starting, .absent, []⟩) :=
    ⟨[], ⟨_, rfl, .nil _⟩, by simp⟩
  have h1 := h0.client (.create rfl) trivial
  have h2 := h1.join rfl (by decide)
  have h3 := h2.client (.spawn rfl) trivial
  have h4 := h3.receive (some ()) ⟨trivial, (joinMsg_qname _ _).symm⟩
  have h5 := ClearRun.call h4 id
  have h6 := h5.deliver (by decide)
  have h7 := h6.client (.take (by simp) rfl rfl) trivial
  exact ⟨_, _, _, _, rfl, rfl, h7⟩

theorem sending_all : ∀ (n : ℕ), n ≤ MAXMSG → Sending n
  | 0, _ => sending_of_behind behind_zero
  | n + 1, hn => sending_of_behind (behind_of_sending hn (sending_all n (Nat.le_of_succ_le hn)))

/-- The server waits on a client at the top of its loop, ten messages behind. -/
theorem server_never_hangs_top : ∃ (tr : _) (s : MqSystem Unit), (mqLts oneMqClient).Run tr s ∧
    s.WaitsOn () ∧ CanDrain oneMqClient s () := by
  obtain ⟨info, history, m, m', queue, -, hlen, tr, hrun, hclear⟩ := sending_all MAXMSG le_rfl
  have hvisited := List.mem_append_right (tr.map Prod.fst) (List.mem_singleton_self
    (single ⟨[info], history⟩ [((), m')] true [] ⟨.top, .holding m, queue⟩))
  have hw : (single ⟨[info], history⟩ [((), m')] true []
      ⟨.top, .holding m, queue⟩).WaitsOn () := ⟨rfl, ⟨m', [], rfl⟩, hlen.ge⟩
  exact ⟨tr, _, hrun, hw, (server_never_hangs_iff hrun).mpr hclear _ hvisited () hw⟩

/-- From there the client takes the screen for its prompt, and nothing but a key will let its
receiver, which has a message in hand, take another. -/
theorem server_hangs_prompt : ∃ (tr : _) (s : MqSystem Unit), (mqLts oneMqClient).Run tr s ∧
    s.WaitsOn () ∧ (s.clients ()).main = .prompt ∧ ¬ CanDrain oneMqClient s () := by
  obtain ⟨info, history, m, m', queue, -, hlen, tr, hrun, -⟩ := sending_all MAXMSG le_rfl
  have hrun' := hrun.snoc (step_client (.lock rfl (by simp)))
  have hw : (single ⟨[info], history⟩ [((), m')] true []
      ⟨.prompt, .holding m, queue⟩).WaitsOn () := ⟨rfl, ⟨m', [], rfl⟩, hlen.ge⟩
  refine ⟨_, _, hrun', hw, rfl, fun hdrain => ?_⟩
  have hinv := mqInv_run hrun'
  exact (canDrain_iff hinv (submitted_of_waitsOn hinv hw) hw.2.2).mp hdrain trivial

end OneClient

end EltexSystems
