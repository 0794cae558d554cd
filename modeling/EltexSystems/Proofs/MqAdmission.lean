import EltexSystems.Lib.Positions
import EltexSystems.MqAdmission
import EltexSystems.Proofs.MqChatSystem

/-!
# Refused clients are heard

A client joins once, before anything else it sends, so the server takes its chat messages when it
has decided on its request: the client has a slot, or it was refused (`Standing`).  The handler of
chat messages does not look the sender up: what it takes it stores while there is room and sends to
the clients there are (`relays_of_takes`).  So only members are heard exactly in the runs in which
no refused client is then taken a message from (`only_members_iff`).
-/

namespace EltexSystems

open CStr Positions

variable {ι : Type*} {net : MqNet ι} {s s' : MqSystem ι} {c : ι}
  {tr : List (MqSystem ι × MqLabel ι)} {l : MqLabel ι}

section Trace

theorem sendersOf_concat (tr : List (MqSystem ι × MqLabel ι)) (s : MqSystem ι) (l : MqLabel ι) :
    sendersOf (tr ++ [(s, l)]) = sendersOf tr ++ l.sender.toList := by
  unfold sendersOf
  rw [List.filterMap_append]
  rcases h : l.sender with _ | c
  · simp [h]
  · simp [h]

theorem takenOf_concat (tr : List (MqSystem ι × MqLabel ι)) (s : MqSystem ι) (l : MqLabel ι) :
    takenOf (tr ++ [(s, l)]) = takenOf tr + if l.takes then 1 else 0 := by
  unfold takenOf
  rw [List.countP_append, List.countP_singleton]

/-- A client is refused by the last step or has been before. -/
theorem refused_concat : Refused (tr ++ [(s, l)]) c ↔ Refused tr c ∨
    ∃ opened, nextSender tr = some c ∧ Takes 74 s opened l ∧
      (MAX_CLIENTS ≤ s.server.clients.length ∨ opened = none) := by
  constructor
  · rintro ⟨tr₁, u, a, tr₂, opened, htr, hrest⟩
    rcases concat_eq_append_cons htr with ⟨-, rfl, hlast⟩ | ⟨tr₃, -, rfl⟩
    · cases hlast
      exact .inr ⟨opened, hrest⟩
    · exact .inl ⟨tr₁, u, a, tr₃, opened, rfl, hrest⟩
  · rintro (⟨tr₁, u, a, tr₂, opened, rfl, hrest⟩ | ⟨opened, hrest⟩)
    · exact ⟨tr₁, u, a, tr₂ ++ [(s, l)], opened, by simp, hrest⟩
    · exact ⟨tr, s, l, [], opened, rfl, hrest⟩

theorem refused_concat_of_not_takes (h : l.takes = false) :
    Refused (tr ++ [(s, l)]) c ↔ Refused tr c := by
  rw [refused_concat, or_iff_left]
  rintro ⟨opened, -, ⟨rfl, -⟩, -⟩
  cases h

/-- A chat message that is taken is stored or broadcast where there is room or a client. -/
theorem relays_of_takes {opened : Option ι} (ht : Takes 77 s opened l) : Relays s l ↔ s.Hears := by
  obtain ⟨rfl, m, rest, hm, htype⟩ := ht
  have hreq : handleRequest s.server m opened = handleMessage s.server m := by
    rw [handleRequest, if_neg (by rw [htype]; decide), if_pos htype]
  have hstored : (handleMessage s.server m).server.history = s.server.history ++ [m] ↔
      s.server.history.length < MAX_HISTORY := by
    show remember s.server.history m = s.server.history ++ [m] ↔ _
    unfold remember
    split_ifs with hroom
    · exact ⟨fun _ => hroom, fun _ => rfl⟩
    · exact ⟨fun heq => by simp at heq, fun h => absurd h hroom⟩
  have hsent : (∃ d, (d, m) ∈ (handleMessage s.server m).sends) ↔ ∃ d, HoldsSlot s d := by
    refine exists_congr fun d => mem_sendToAll.trans ?_
    rw [and_iff_left rfl, List.mem_map]
    rfl
  rw [MqSystem.Hears, ← hstored, ← hsent, ← hreq]
  constructor
  · rintro ⟨opened', m', rest', hl, hm', -, hheard⟩
    cases hl
    cases hm.symm.trans hm'
    exact hheard
  · exact fun hheard => ⟨opened, m, rest, rfl, hm, htype, hheard⟩

theorem Relays.takes (h : Relays s l) : ∃ opened, Takes 77 s opened l := by
  obtain ⟨opened, m, rest, hl, hm, htype, -⟩ := h
  exact ⟨opened, hl, m, rest, hm, htype⟩

end Trace

section Standing

/-- Where a client stands, by where its main thread is, its messages in the server's queue, whether
it has a slot and whether it was refused. -/
inductive Standing (join : ChatMsg) (main : MainPc) (own : List ChatMsg) (slot refused : Prop) :
    Prop where
  | new : ¬ main.Submitted → own = [] → ¬ slot → ¬ refused → Standing join main own slot refused
  | waiting (lines : List ChatMsg) : main.Submitted → own = join :: lines →
      (∀ m ∈ lines, m.type = 77) → ¬ slot → ¬ refused → Standing join main own slot refused
  | decided : main.Submitted → (∀ m ∈ own, m.type = 77) → (slot ↔ ¬ refused) →
      Standing join main own slot refused

theorem Standing.congr {join : ChatMsg} {main main' : MainPc} {own : List ChatMsg}
    {slot slot' refused refused' : Prop} (h : Standing join main own slot refused)
    (hmain : main'.Submitted ↔ main.Submitted) (hslot : slot' ↔ slot)
    (hrefused : refused' ↔ refused) : Standing join main' own slot' refused' := by
  cases h with
  | new hm ho hs hr => exact .new (mt hmain.mp hm) ho (mt hslot.mp hs) (mt hrefused.mp hr)
  | waiting lines hm ho hl hs hr =>
    exact .waiting lines (hmain.mpr hm) ho hl (mt hslot.mp hs) (mt hrefused.mp hr)
  | decided hm ho hs =>
    exact .decided (hmain.mpr hm) ho (hslot.trans (hs.trans (not_congr hrefused.symm)))

variable [DecidableEq ι]

/-- The messages of a client among those of all. -/
def ownOf (ps : List (ι × ChatMsg)) (c : ι) : List ChatMsg :=
  (ps.filter fun p => p.1 = c).map Prod.snd

theorem ownOf_cons_self (c : ι) (m : ChatMsg) (ps : List (ι × ChatMsg)) :
    ownOf ((c, m) :: ps) c = m :: ownOf ps c := by
  simp [ownOf]

theorem ownOf_cons_of_ne {d : ι} (h : d ≠ c) (m : ChatMsg) (ps : List (ι × ChatMsg)) :
    ownOf ((d, m) :: ps) c = ownOf ps c := by
  simp [ownOf, h]

theorem ownOf_concat_self (c : ι) (m : ChatMsg) (ps : List (ι × ChatMsg)) :
    ownOf (ps ++ [(c, m)]) c = ownOf ps c ++ [m] := by
  simp [ownOf]

theorem ownOf_concat_of_ne {d : ι} (h : d ≠ c) (m : ChatMsg) (ps : List (ι × ChatMsg)) :
    ownOf (ps ++ [(d, m)]) c = ownOf ps c := by
  simp [ownOf, h]

/-- The messages in the server's queue with their senders, and where each client stands. -/
structure AdmissionInv (net : MqNet ι) (tr : List (MqSystem ι × MqLabel ι)) (s : MqSystem ι)
    (ps : List (ι × ChatMsg)) : Prop where
  inbox : s.inbox = ps.map Prod.snd
  taken : takenOf tr ≤ (sendersOf tr).length
  senders : ps.map Prod.fst = (sendersOf tr).drop (takenOf tr)
  standing : ∀ c, Standing (net.joinMsg c) (s.clients c).main (ownOf ps c) (HoldsSlot s c)
    (Refused tr c)

variable {ps : List (ι × ChatMsg)}

theorem AdmissionInv.nextSender (h : AdmissionInv net tr s ps) {d : ι} {m : ChatMsg}
    {rest : List (ι × ChatMsg)} (hps : ps = (d, m) :: rest) : nextSender tr = some d := by
  have hhead := congrArg List.head? h.senders
  rw [hps, List.head?_drop] at hhead
  exact hhead.symm

theorem submitted_clientStep_iff {cl cl' : ChatClient} {a : ClientAct} (hst : ClientStep cl a cl') :
    cl'.main.Submitted ↔ cl.main.Submitted := by
  refine ⟨fun h => ?_, fun h => submitted_clientStep h hst⟩
  cases hst with
  | create => exact h.elim
  | spawn hm => rw [hm]; trivial
  | lock hm => rw [hm]; trivial
  | keys _ hm => rw [hm]; trivial
  | unlock hm => rw [hm]; trivial
  | close hm => rw [hm]; trivial
  | leave hm => rw [hm]; trivial
  | take => exact h
  | grab => exact h
  | print => exact h
  | fail => exact h

/-- A request gives a slot to the client whose queue is opened for a join there is room for. -/
theorem slot_handleRequest {δ : Type*} {sv : ChatServer δ} {m : ChatMsg} {opened : Option δ}
    {e : δ} :
    (∃ cl ∈ (handleRequest sv m opened).server.clients, cl.q = some e) ↔
      (∃ cl ∈ sv.clients, cl.q = some e) ∨
        m.type = 74 ∧ sv.clients.length < MAX_CLIENTS ∧ opened = some e := by
  unfold handleRequest handleJoin handleMessage
  by_cases hj : m.type = 74
  · rw [if_pos hj]
    by_cases hfull : sv.clients.length ≥ MAX_CLIENTS
    · rw [if_pos hfull]
      refine ⟨.inl, fun h => h.resolve_right fun hroom => ?_⟩
      exact absurd hroom.2.1 (Nat.not_lt_of_le hfull)
    · rw [if_neg hfull]
      have hroom := Nat.lt_of_not_le hfull
      rcases opened with _ | q
      · simp
      · simp [hj, hroom, or_and_right, exists_or]
  · rw [if_neg hj]
    split_ifs
    · simp [hj]
    · simp [hj]

/-- A step that sends and takes nothing, and keeps the table, keeps where the clients stand. -/
theorem AdmissionInv.quiet (h : AdmissionInv net tr s ps) (hinbox : s'.inbox = s.inbox)
    (hserver : s'.server = s.server) (hsender : l.sender = none) (htakes : l.takes = false)
    (hmain : ∀ c, (s'.clients c).main.Submitted ↔ (s.clients c).main.Submitted) :
    AdmissionInv net (tr ++ [(s, l)]) s' ps := by
  refine ⟨hinbox.trans h.inbox, ?_, ?_, fun c => ?_⟩
  · rw [sendersOf_concat, takenOf_concat, hsender, htakes]
    simpa using h.taken
  · rw [sendersOf_concat, takenOf_concat, hsender, htakes]
    simpa using h.senders
  · refine (h.standing c).congr (hmain c) ?_ (refused_concat_of_not_takes htakes)
    unfold HoldsSlot
    rw [hserver]

/-- A client sends its join request or a line. -/
theorem AdmissionInv.submit (h : AdmissionInv net tr s ps) {m : ChatMsg} {pc : MainPc}
    (hs' : s' = { s with
      inbox := s.inbox ++ [m]
      clients := Function.update s.clients c { s.clients c with main := pc } })
    (hm : Standing (net.joinMsg c) (s.clients c).main (ownOf ps c) (HoldsSlot s c) (Refused tr c) →
      Standing (net.joinMsg c) pc (ownOf ps c ++ [m]) (HoldsSlot s c) (Refused tr c)) :
    AdmissionInv net (tr ++ [(s, .submit c)]) s' (ps ++ [(c, m)]) := by
  subst hs'
  have hsender : (MqLabel.submit c).sender = some c := rfl
  have htakes : (MqLabel.submit c).takes = false := rfl
  refine ⟨?_, ?_, ?_, fun d => ?_⟩
  · rw [List.map_append, ← h.inbox]
    rfl
  · rw [sendersOf_concat, takenOf_concat, hsender, htakes, List.length_append]
    have := h.taken
    simp only [Bool.false_eq_true, if_false]
    omega
  · rw [sendersOf_concat, takenOf_concat, hsender, htakes, List.map_append, h.senders]
    exact (List.drop_append_of_le_length h.taken).symm
  · by_cases hd : c = d
    · subst hd
      rw [ownOf_concat_self]
      refine (hm (h.standing c)).congr ?_ Iff.rfl (refused_concat_of_not_takes htakes)
      dsimp only
      rw [Function.update_self]
    · rw [ownOf_concat_of_ne hd]
      refine (h.standing d).congr ?_ Iff.rfl (refused_concat_of_not_takes htakes)
      dsimp only
      rw [Function.update_of_ne (Ne.symm hd)]

/-- The server takes a message: a join request that it grants or refuses, or a line. -/
theorem AdmissionInv.receive (h : AdmissionInv net tr s ps) {m : ChatMsg} {rest : List ChatMsg}
    {opened : Option ι} (hm : s.inbox = m :: rest) (ho : s.Opens net m.qname.text opened)
    (hserver : s'.server = (handleRequest s.server m opened).server) (hinbox : s'.inbox = rest)
    (hclients : s'.clients = s.clients) :
    ∃ ps', AdmissionInv net (tr ++ [(s, .receive opened)]) s' ps' := by
  obtain ⟨⟨d, m'⟩, ps', rfl⟩ : ∃ p ps', ps = p :: ps' := by
    rcases ps with _ | ⟨p, ps'⟩
    · rw [h.inbox] at hm
      cases hm
    · exact ⟨p, ps', rfl⟩
  have hcons := h.inbox
  rw [hm, List.map_cons] at hcons
  obtain ⟨rfl, hrest⟩ := List.cons.inj hcons
  have hnext := h.nextSender rfl
  have htakes : (MqLabel.receive opened).takes = true := rfl
  have hsender : (MqLabel.receive opened).sender = none := rfl
  have hslot : ∀ e, HoldsSlot s' e ↔ HoldsSlot s e ∨
      m.type = 74 ∧ s.server.clients.length < MAX_CLIENTS ∧ opened = some e := by
    intro e
    unfold HoldsSlot
    rw [hserver]
    exact slot_handleRequest
  have hrefused : ∀ e, Refused (tr ++ [(s, .receive opened)]) e ↔ Refused tr e ∨ d = e ∧
      m.type = 74 ∧ (MAX_CLIENTS ≤ s.server.clients.length ∨ opened = none) := by
    intro e
    rw [refused_concat, hnext, Option.some.injEq]
    refine or_congr_right ⟨?_, ?_⟩
    · rintro ⟨o, hde, ⟨ho, m₁, rest₁, hinb, ht⟩, hr⟩
      cases ho
      cases hm.symm.trans hinb
      exact ⟨hde, ht, hr⟩
    · rintro ⟨hde, ht, hr⟩
      exact ⟨opened, hde, ⟨rfl, m, rest, hm, ht⟩, hr⟩
  have hd := h.standing d
  rw [ownOf_cons_self] at hd
  refine ⟨ps', hinbox.trans hrest, ?_, ?_, fun e => ?_⟩
  · have hlen := congrArg List.length h.senders
    rw [List.length_map, List.length_cons, List.length_drop] at hlen
    rw [sendersOf_concat, takenOf_concat, hsender, htakes, Option.toList_none, List.append_nil,
      if_pos rfl]
    omega
  · have htail := congrArg List.tail h.senders
    rw [List.map_cons, List.tail_cons, List.tail_drop] at htail
    rw [sendersOf_concat, takenOf_concat, hsender, htakes, Option.toList_none, List.append_nil,
      if_pos rfl, htail]
  · rw [hclients]
    cases hd with
    | new _ hown => cases hown
    | waiting lines hsub hown hlines hno hnot =>
      obtain ⟨rfl, rfl⟩ := List.cons.inj hown
      have hjoin : (net.joinMsg d).type = 74 := rfl
      have hhearsed : ∀ e, opened = some e → d = e := by
        rintro e rfl
        exact (net.distinct (ho.2.trans (joinMsg_qname net d))).symm
      by_cases hde : d = e
      · subst hde
        refine .decided hsub hlines ?_
        rw [hslot, hrefused, or_iff_right hno, or_iff_right hnot, and_iff_right hjoin,
          and_iff_right rfl, and_iff_right hjoin, not_or, Nat.not_le]
        refine and_congr_right fun _ => ⟨fun heq hnone => ?_, fun hsome => ?_⟩
        · rw [heq] at hnone
          cases hnone
        · obtain ⟨e, he⟩ := Option.ne_none_iff_exists'.mp hsome
          rw [he, hhearsed e he]
      · have hstand := h.standing e
        rw [ownOf_cons_of_ne hde] at hstand
        refine hstand.congr Iff.rfl ?_ ?_
        · rw [hslot, or_iff_left]
          exact fun hnew => hde (hhearsed e hnew.2.2)
        · rw [hrefused, or_iff_left]
          exact fun hnew => hde hnew.1
    | decided hsub hown hiff =>
      have hline : m.type ≠ 74 := by
        rw [hown m List.mem_cons_self]
        decide
      have hkeep : Standing (net.joinMsg e) (s.clients e).main (ownOf ps' e) (HoldsSlot s e)
          (Refused tr e) := by
        by_cases hde : d = e
        · subst hde
          exact .decided hsub (fun m hm => hown m (List.mem_cons_of_mem _ hm)) hiff
        · have hstand := h.standing e
          rwa [ownOf_cons_of_ne hde] at hstand
      refine hkeep.congr Iff.rfl ?_ ?_
      · rw [hslot, or_iff_left]
        exact fun hnew => hline hnew.1
      · rw [hrefused, or_iff_left]
        exact fun hnew => hline hnew.2.1

theorem AdmissionInv.step (h : AdmissionInv net tr s ps) (hst : (mqLts net).step s l s') :
    ∃ ps', AdmissionInv net (tr ++ [(s, l)]) s' ps' := by
  cases hst with
  | @client c a cl hcl =>
    refine ⟨ps, h.quiet rfl rfl rfl rfl fun d => ?_⟩
    by_cases hd : d = c
    · subst hd
      dsimp only
      rw [Function.update_self]
      exact submitted_clientStep_iff hcl
    · dsimp only
      rw [Function.update_of_ne hd]
  | @join c hmain =>
    refine ⟨_, h.submit rfl fun hc => ?_⟩
    rw [hmain] at hc
    cases hc with
    | new _ hown hno hnot =>
      rw [hown]
      exact .waiting [] trivial rfl (fun _ hm => nomatch hm) hno hnot
    | waiting _ hsub => exact hsub.elim
    | decided hsub => exact hsub.elim
  | @message c line hmain =>
    refine ⟨_, h.submit rfl fun hc => ?_⟩
    rw [hmain] at hc
    cases hc with
    | new hsub => exact absurd trivial hsub
    | waiting lines _ hown hlines hno hnot =>
      rw [hown]
      refine .waiting (lines ++ [net.lineMsg c line]) trivial rfl (fun m hm => ?_) hno hnot
      rcases List.mem_append.mp hm with hm | hm
      · exact hlines m hm
      · rw [List.mem_singleton.mp hm]
        rfl
    | decided _ hown hiff =>
      refine .decided trivial (fun m hm => ?_) hiff
      rcases List.mem_append.mp hm with hm | hm
      · exact hown m hm
      · rw [List.mem_singleton.mp hm]
        rfl
  | receive _ _ hm ho => exact h.receive hm ho rfl rfl rfl
  | call => exact ⟨ps, h.quiet rfl rfl rfl rfl fun _ => Iff.rfl⟩
  | @deliver c m rest hout hcall hroom =>
    refine ⟨ps, h.quiet rfl rfl rfl rfl fun d => ?_⟩
    by_cases hd : d = c
    · subst hd
      dsimp only
      rw [Function.update_self]
    · dsimp only
      rw [Function.update_of_ne hd]

theorem admissionInv_run (h : (mqLts net).Run tr s) : ∃ ps, AdmissionInv net tr s ps := by
  refine h.induction (P := fun tr s => ∃ ps, AdmissionInv net tr s ps) ?_ ?_
  · rintro s rfl
    refine ⟨[], rfl, le_rfl, rfl, fun c => .new id rfl ?_ ?_⟩
    · rintro ⟨cl, hcl, -⟩
      cases hcl
    · rintro ⟨tr₁, u, a, tr₂, opened, htr, -⟩
      exact absurd htr (by simp)
  · rintro tr s l t - ⟨ps, hI⟩ hst
    exact hI.step hst

/-- The sender of a chat message has a slot unless it was refused. -/
theorem slot_of_takes (h : (mqLts net).Run tr s) {opened : Option ι} (ht : Takes 77 s opened l) :
    ∃ c, nextSender tr = some c ∧ (HoldsSlot s c ↔ ¬ Refused tr c) := by
  obtain ⟨ps, hI⟩ := admissionInv_run h
  obtain ⟨-, m, rest, hm, htype⟩ := ht
  rcases ps with _ | ⟨⟨d, m'⟩, ps⟩
  · rw [hI.inbox] at hm
    cases hm
  · have hcons := hI.inbox
    rw [hm, List.map_cons] at hcons
    obtain ⟨rfl, -⟩ := List.cons.inj hcons
    refine ⟨d, hI.nextSender rfl, ?_⟩
    have hd := hI.standing d
    rw [ownOf_cons_self] at hd
    cases hd with
    | new _ hown => cases hown
    | waiting _ _ hown =>
      obtain ⟨rfl, -⟩ := List.cons.inj hown
      exact absurd htype (show (74 : UInt8) ≠ 77 by decide)
    | decided _ _ hiff => exact hiff

/-- In every run only members are heard exactly when no refused client is. -/
theorem only_members_iff (h : (mqLts net).Run tr s) : OnlyMembers tr ↔ NoneRefused tr := by
  constructor
  · rintro hall tr₁ u l tr₂ opened rfl ht hhears c hc
    obtain ⟨d, hd, hslot⟩ := hall tr₁ u l tr₂ rfl ((relays_of_takes ht).mpr hhears)
    obtain ⟨-, hrun, -, -⟩ := h.through
    obtain ⟨e, he, hiff⟩ := slot_of_takes hrun ht
    cases hd.symm.trans hc
    cases hd.symm.trans he
    exact hiff.mp hslot
  · rintro hall tr₁ u l tr₂ rfl hheard
    obtain ⟨opened, ht⟩ := hheard.takes
    obtain ⟨-, hrun, -, -⟩ := h.through
    obtain ⟨e, he, hiff⟩ := slot_of_takes hrun ht
    have hhears := (relays_of_takes ht).mp hheard
    exact ⟨e, he, hiff.mpr (hall tr₁ u l tr₂ opened rfl ht hhears e he)⟩

end Standing

section OneClient

theorem Refused.append {tr' : List (MqSystem ι × MqLabel ι)} (h : Refused tr c) :
    Refused (tr ++ tr') c := by
  obtain ⟨tr₁, u, a, tr₂, opened, rfl, hrest⟩ := h
  exact ⟨tr₁, u, a, tr₂ ++ tr', opened, by simp, hrest⟩

theorem step_receive {sv : ChatServer Unit} {m : ChatMsg} {inb : List ChatMsg} {cl : ChatClient}
    (opened : Option Unit)
    (ho : (single sv [] false (m :: inb) cl).Opens oneMqClient m.qname.text opened) :
    (mqLts oneMqClient).step (single sv [] false (m :: inb) cl) (.receive opened)
      (single (handleRequest sv m opened).server (handleRequest sv m opened).sends false inb cl) :=
  .receive rfl rfl rfl ho

/-- A client types a line behind a state in which it is at the top of its loop. -/
theorem ClearRun.types {sv : ChatServer Unit} {inb : List ChatMsg} {receiver : ReceiverPc}
    {queue : List ChatMsg} (h : ClearRun (single sv [] false inb ⟨.top, receiver, queue⟩))
    (hr : receiver ≠ .printing) (line : CharArray MAX_TEXT) :
    ClearRun (single sv [] false inb
      ⟨if line.text = ascii "/quit" then .quitting else .sending line, receiver, queue⟩) := by
  have h1 := h.client (.lock rfl hr) (fun hw => by cases hw.1)
  have h2 := h1.client (.keys line rfl) trivial
  exact h2.client (.unlock rfl) trivial

/-- A client joins, says hello and is heard. -/
theorem only_members_iff_hello : ∃ (tr : _) (s : MqSystem Unit), (mqLts oneMqClient).Run tr s ∧
    (∃ p ∈ tr, Relays p.1 p.2) ∧ OnlyMembers tr := by
  obtain ⟨info, history, m, queue, hq, -, h⟩ := behind_zero
  have h1 := h.types (by simp) hello
  rw [if_neg (by decide)] at h1
  obtain ⟨tr, hrun, -⟩ := h1.message rfl (by decide)
  have hname : (oneMqClient.qname ()).text ≠ (oneMqClient.lineMsg () hello).qname.text := by decide
  have hrun' := hrun.snoc (step_receive none fun _ _ => hname)
  have hslot : HoldsSlot (single ⟨[info], history⟩ [] false [oneMqClient.lineMsg () hello]
      ⟨.top, .holding m, queue⟩) () := ⟨info, List.mem_singleton_self _, hq⟩
  have hnot : ¬ Refused tr () := by
    obtain ⟨ps, hI⟩ := admissionInv_run hrun
    cases hI.standing () with
    | new _ _ hno => exact absurd hslot hno
    | waiting _ _ _ _ hno => exact absurd hslot hno
    | decided _ _ hiff => exact hiff.mp hslot
  have ht : Takes 77 (single ⟨[info], history⟩ [] false [oneMqClient.lineMsg () hello]
      ⟨.top, .holding m, queue⟩) none (.receive none) := ⟨rfl, _, [], rfl, rfl⟩
  refine ⟨_, _, hrun', ⟨_, List.mem_append_right _ (List.mem_singleton_self _),
    (relays_of_takes ht).mpr (.inr ⟨(), hslot⟩)⟩, (only_members_iff hrun').mpr ?_⟩
  rintro tr₁ u l tr₂ opened htr - - ⟨⟩ - hrefused
  refine hnot ?_
  rcases concat_eq_append_cons htr with ⟨-, rfl, -⟩ | ⟨tr₃, -, rfl⟩
  · exact hrefused
  · exact hrefused.append

def quit : CharArray MAX_TEXT := .print (ascii "/quit") MAX_TEXT_pos

/-- A client says hello and quits before the server has come to its join request: its queue is not
to be opened any more, and what it said is stored and would be broadcast. -/
theorem refused_client_heard : ∃ (tr : _) (s : MqSystem Unit), (mqLts oneMqClient).Run tr s ∧
    s.server.clients = [] ∧ s.server.history = [oneMqClient.lineMsg () hello] ∧
    ¬ OnlyMembers tr := by
  have h0 : ClearRun (single ⟨[], []⟩ [] false [] ⟨.starting, .absent, []⟩) :=
    ⟨[], ⟨_, rfl, .nil _⟩, by simp⟩
  have h1 := h0.client (.create rfl) trivial
  have h2 := h1.join rfl (by decide)
  have h3 := h2.client (.spawn rfl) trivial
  have h4 := ClearRun.types h3 (by simp) hello
  rw [if_neg (by decide)] at h4
  have h5 := h4.message rfl (by decide)
  have h6 := ClearRun.types h5 (by simp) quit
  rw [if_pos (by decide)] at h6
  have h7 := h6.client (.close rfl) fun hw => by cases hw.1
  obtain ⟨tr, hrun, -⟩ := ClearRun.receive h7 none fun _ hl => hl.elim
  have hrun' := hrun.snoc (step_receive none fun _ hl => hl.elim)
  refine ⟨_, _, hrun', rfl, rfl, fun hall => ?_⟩
  obtain ⟨c, -, cl, hcl, -⟩ := hall tr _ _ [] rfl ⟨none, _, [], rfl, rfl, rfl, .inl rfl⟩
  cases hcl

end OneClient

end EltexSystems
