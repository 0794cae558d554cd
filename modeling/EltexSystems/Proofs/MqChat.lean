import EltexSystems.Lib.Positions
import EltexSystems.MqChat
import Mathlib.Data.List.Nodup

/-!
# Delivery in the message queue chat

The history is the first hundred messages of the log, so a replay brings a new client up to it, and
every later broadcast goes once to each slot.  Over any run of requests whose joins name different
queues, a client has been sent the first hundred messages logged before it and all from its own
notice on (`chat_delivery`).
-/

namespace EltexSystems

open CStr Positions

section Sends

variable {δ : Type*}

variable {q : QueueName} {m : ChatMsg}

theorem sentVia_append (as bs : List (QueueName × ChatMsg)) (q : QueueName) :
    sentVia (as ++ bs) q = sentVia as q ++ sentVia bs q := by
  unfold sentVia
  rw [List.filter_append, List.map_append]

theorem sentVia_eq_nil {sends : List (QueueName × ChatMsg)} (h : ∀ p ∈ sends, p.1 ≠ q) :
    sentVia sends q = [] := by
  unfold sentVia
  rw [List.filter_eq_nil_iff.mpr (by simpa using h), List.map_nil]

theorem sendToAll_cons (cl : ClientInfo δ) (clients : List (ClientInfo δ)) (m : ChatMsg) :
    sendToAll (cl :: clients) m = (cl.q.map fun q => (q, m)).toList ++ sendToAll clients m := by
  unfold sendToAll
  rcases h : cl.q with _ | q
  · rw [List.filterMap_cons_none (by rw [h, Option.map_none])]
    rfl
  · rw [List.filterMap_cons_some (by rw [h, Option.map_some])]
    rfl

theorem mem_sendToAll {clients : List (ClientInfo δ)} {p : δ × ChatMsg} :
    p ∈ sendToAll clients m ↔ some p.1 ∈ clients.map ClientInfo.q ∧ p.2 = m := by
  unfold sendToAll
  simp only [List.mem_filterMap, Option.map_eq_some_iff, List.mem_map]
  constructor
  · rintro ⟨cl, hcl, q, hq, rfl⟩
    exact ⟨⟨cl, hcl, hq⟩, rfl⟩
  · rintro ⟨⟨cl, hcl, hq⟩, rfl⟩
    exact ⟨cl, hcl, p.1, hq, rfl⟩

theorem sentVia_sendToAll : ∀ {clients : List (ClientInfo QueueName)},
    (clients.map ClientInfo.q).Nodup → some q ∈ clients.map ClientInfo.q →
      sentVia (sendToAll clients m) q = [m]
  | [], _, h => by simp at h
  | cl :: clients, hnd, h => by
    simp only [List.map_cons, List.nodup_cons] at hnd
    rw [sendToAll_cons, sentVia_append]
    rcases List.mem_cons.mp h with hq | h
    · have hrest : sentVia (sendToAll clients m) q = [] := sentVia_eq_nil fun p hp hpq =>
        hnd.1 (by rw [← hq, ← hpq]; exact (mem_sendToAll.mp hp).1)
      rw [← hq, hrest]
      simp [sentVia]
    · have hhead : sentVia (cl.q.map fun q => (q, m)).toList q = [] := sentVia_eq_nil fun p hp => by
        intro hpq
        obtain ⟨q', hq', rfl⟩ := Option.map_eq_some_iff.mp (Option.mem_toList.mp hp)
        exact hnd.1 (by rw [hq', show q' = q from hpq]; exact h)
      rw [hhead, sentVia_sendToAll hnd.2 h]
      rfl

theorem sentVia_replay (history : List ChatMsg) (q q' : QueueName) :
    sentVia (history.map fun m => (q, m)) q' = if q = q' then history else [] := by
  unfold sentVia
  by_cases h : q = q'
  · rw [if_pos h, List.filter_eq_self.mpr (by simp [h]), List.map_map]
    exact List.map_id' history
  · rw [if_neg h, List.filter_eq_nil_iff.mpr (by simp [h]), List.map_nil]

end Sends

theorem remember_take {log : List ChatMsg} {m : ChatMsg} :
    remember (log.take MAX_HISTORY) m = (log ++ [m]).take MAX_HISTORY := by
  unfold remember
  by_cases h : log.length < MAX_HISTORY
  · rw [if_pos (by rw [List.length_take]; omega), List.take_of_length_le h.le,
      List.take_of_length_le (by rw [List.length_append, List.length_singleton]; omega)]
  · rw [if_neg (by rw [List.length_take]; omega), List.take_append_of_le_length (by omega)]

/-- What a request comes to: a broadcast to the clients there are, a new client brought up to the
history and announced to all, or no change. -/
theorem handleRequest_cases {δ : Type*} (s : ChatServer δ) (m : ChatMsg) (opened : Option δ) :
    (m.type = 77 ∧ handleRequest s m opened
      = ⟨⟨s.clients, remember s.history m⟩, sendToAll s.clients m⟩) ∨
    (m.type = 74 ∧ s.clients.length < MAX_CLIENTS ∧ ∃ (q : δ) (cl : ClientInfo δ),
      opened = some q ∧ cl.q = some q ∧ handleRequest s m opened
        = ⟨⟨s.clients ++ [cl], remember s.history (joinNotice m)⟩,
            (s.history.map fun h => (q, h)) ++ sendToAll (s.clients ++ [cl]) (joinNotice m)⟩) ∨
    (m.type ≠ 77 ∧ ¬ (m.type = 74 ∧ opened ≠ none ∧ s.clients.length < MAX_CLIENTS) ∧
      (handleRequest s m opened).server = s ∧
      ∀ p ∈ (handleRequest s m opened).sends, m.type = 74 ∧ opened = some p.1) := by
  unfold handleRequest
  by_cases hj : m.type = 74
  · rw [if_pos hj]
    unfold handleJoin
    by_cases hfull : s.clients.length ≥ MAX_CLIENTS
    · rw [if_pos hfull]
      right
      right
      refine ⟨by rw [hj]; decide, fun h => absurd hfull (Nat.not_le_of_lt h.2.2), rfl,
        fun p hp => ⟨hj, ?_⟩⟩
      obtain ⟨q, hq, rfl⟩ := Option.map_eq_some_iff.mp (Option.mem_toList.mp hp)
      exact hq
    · rw [if_neg hfull]
      rcases opened with _ | q
      · right
        right
        exact ⟨by rw [hj]; decide, fun h => h.2.1 rfl, rfl, fun p hp => nomatch hp⟩
      · right
        left
        exact ⟨hj, by omega, q, _, rfl, rfl, rfl⟩
  · rw [if_neg hj]
    by_cases hm : m.type = 77
    · rw [if_pos hm]
      exact .inl ⟨hm, rfl⟩
    · rw [if_neg hm]
      right
      right
      simp [hj, hm]

theorem openedBy_eq_some {req : ChatMsg × Bool} {q : QueueName} :
    openedBy req = some q ↔ req.2 = true ∧ req.1.qname.text = q := by
  unfold openedBy
  by_cases h : req.2 = true
  · simp [h]
  · simp [h]

theorem chatRun_concat (reqs : List (ChatMsg × Bool)) (req : ChatMsg × Bool) :
    chatRun (reqs ++ [req]) = (chatRun reqs).next req := by
  unfold chatRun
  rw [List.foldl_append]
  rfl

theorem chatLog_concat (reqs : List (ChatMsg × Bool)) (req : ChatMsg × Bool) :
    chatLog (reqs ++ [req]) = (chatLog reqs).next req := by
  unfold chatLog
  rw [List.foldl_append]
  rfl

theorem joinNames_concat (reqs : List (ChatMsg × Bool)) (req : ChatMsg × Bool) :
    joinNames (reqs ++ [req])
      = joinNames reqs ++ if req.1.type = 74 then [req.1.qname.text] else [] := by
  unfold joinNames
  rw [List.filter_append, List.map_append]
  congr 1
  by_cases h : req.1.type = 74
  · simp [h]
  · simp [h]

section Slots

variable {reqs : List (ChatMsg × Bool)} {req : ChatMsg × Bool} {i : ℕ} {cl : ClientInfo QueueName}

theorem Delivered.name_mem (h : Delivered reqs i cl) :
    ∃ q, cl.q = some q ∧ q ∈ joinNames reqs := by
  obtain ⟨before, j, after, rfl, hj, -, hq, -, -⟩ := h
  refine ⟨_, hq, ?_⟩
  unfold joinNames
  exact List.mem_map.mpr ⟨(j, true), List.mem_filter.mpr ⟨by simp, by simpa using hj⟩, rfl⟩

/-- A slot is delivered to as long as it is sent what is logged. -/
theorem Delivered.concat (h : Delivered reqs i cl) (msgs : List ChatMsg)
    (hlog : (chatLog (reqs ++ [req])).msgs = (chatLog reqs).msgs ++ msgs)
    (hsends : ∀ q, cl.q = some q → sentVia (chatRun (reqs ++ [req])).sends q
      = sentVia (chatRun reqs).sends q ++ msgs) : Delivered (reqs ++ [req]) i cl := by
  obtain ⟨before, j, after, hreqs, hj, hi, hq, hsent, hnotice⟩ := h
  have hlt := (List.getElem?_eq_some_iff.mp hnotice).1
  refine ⟨before, j, after ++ [req], by simp [hreqs], hj, hi, hq, ?_, ?_⟩
  · rw [hsends _ hq, hsent, hlog, List.drop_append_of_le_length hlt.le, List.append_assoc]
  · rw [hlog, List.getElem?_append_left hlt, hnotice]

end Slots

/-- What every run of requests with different queue names keeps. -/
structure ChatInv (reqs : List (ChatMsg × Bool)) : Prop where
  count : (chatRun reqs).server.clients.length ≤ MAX_CLIENTS
  history : (chatRun reqs).server.history = (chatLog reqs).msgs.take MAX_HISTORY
  admitted : (chatLog reqs).admitted = (chatRun reqs).server.clients.length
  known : ∀ p ∈ (chatRun reqs).sends, p.1 ∈ joinNames reqs
  distinct : ((chatRun reqs).server.clients.map ClientInfo.q).Nodup
  slots : ∀ (i : ℕ) cl, (chatRun reqs).server.clients[i]? = some cl → Delivered reqs i cl

section Step

variable {reqs : List (ChatMsg × Bool)} {m : ChatMsg} {opens : Bool}

theorem ChatInv.mem_joinNames (h : ChatInv reqs) {q : QueueName}
    (hq : some q ∈ (chatRun reqs).server.clients.map ClientInfo.q) : q ∈ joinNames reqs := by
  obtain ⟨cl, hcl, hclq⟩ := List.mem_map.mp hq
  obtain ⟨i, hi⟩ := List.mem_iff_getElem?.mp hcl
  obtain ⟨q', hq', hmem⟩ := (h.slots i cl hi).name_mem
  obtain rfl : q' = q := Option.some.inj (hq'.symm.trans hclq)
  exact hmem

theorem ChatInv.q_mem {i : ℕ} {cl : ClientInfo QueueName} {q : QueueName}
    (hi : (chatRun reqs).server.clients[i]? = some cl) (hq : cl.q = some q) :
    some q ∈ (chatRun reqs).server.clients.map ClientInfo.q :=
  List.mem_map.mpr ⟨cl, List.mem_of_getElem? hi, hq⟩

theorem mem_joinNames_concat {q : QueueName} (h : q ∈ joinNames reqs) (req : ChatMsg × Bool) :
    q ∈ joinNames (reqs ++ [req]) := by
  rw [joinNames_concat]
  exact List.mem_append_left _ h

theorem mem_joinNames_join (ht : m.type = 74) (opens : Bool) :
    m.qname.text ∈ joinNames (reqs ++ [(m, opens)]) := by
  rw [joinNames_concat, if_pos ht]
  simp

theorem chatInv_broadcast (h : ChatInv reqs) (ht : m.type = 77)
    (he : handleRequest (chatRun reqs).server m (openedBy (m, opens))
      = ⟨⟨(chatRun reqs).server.clients, remember (chatRun reqs).server.history m⟩,
          sendToAll (chatRun reqs).server.clients m⟩) :
    ChatInv (reqs ++ [(m, opens)]) := by
  have hrun : chatRun (reqs ++ [(m, opens)]) = ⟨⟨(chatRun reqs).server.clients,
      remember (chatRun reqs).server.history m⟩, (chatRun reqs).sends
        ++ sendToAll (chatRun reqs).server.clients m⟩ := by
    rw [chatRun_concat, ChatRun.next, he]
  have hlog : chatLog (reqs ++ [(m, opens)])
      = ⟨(chatLog reqs).admitted, (chatLog reqs).msgs ++ [m]⟩ := by
    rw [chatLog_concat, ChatLog.next, if_pos ht]
  refine ⟨?_, ?_, ?_, ?_, ?_, ?_⟩
  · rw [hrun]
    exact h.count
  · rw [hrun, hlog]
    simp only [h.history, remember_take]
  · rw [hrun, hlog]
    exact h.admitted
  · intro p hp
    rw [hrun] at hp
    rcases List.mem_append.mp hp with hp | hp
    · exact mem_joinNames_concat (h.known p hp) _
    · exact mem_joinNames_concat (h.mem_joinNames (mem_sendToAll.mp hp).1) _
  · rw [hrun]
    exact h.distinct
  · intro i cl hi
    have hi' : (chatRun reqs).server.clients[i]? = some cl := by rw [hrun] at hi; exact hi
    refine (h.slots i cl hi').concat [m] (by rw [hlog]) fun q hq => ?_
    rw [hrun, sentVia_append, sentVia_sendToAll h.distinct (ChatInv.q_mem hi' hq)]

theorem chatInv_refused (h : ChatInv reqs) (hnew : m.type = 74 → m.qname.text ∉ joinNames reqs)
    (ht : m.type ≠ 77) (hno : ¬ (m.type = 74 ∧ openedBy (m, opens) ≠ none ∧
      (chatRun reqs).server.clients.length < MAX_CLIENTS))
    (hs : (handleRequest (chatRun reqs).server m (openedBy (m, opens))).server
      = (chatRun reqs).server)
    (hp : ∀ p ∈ (handleRequest (chatRun reqs).server m (openedBy (m, opens))).sends,
      m.type = 74 ∧ openedBy (m, opens) = some p.1) : ChatInv (reqs ++ [(m, opens)]) := by
  have hrun : chatRun (reqs ++ [(m, opens)]) = ⟨(chatRun reqs).server, (chatRun reqs).sends
      ++ (handleRequest (chatRun reqs).server m (openedBy (m, opens))).sends⟩ := by
    rw [chatRun_concat, ChatRun.next, hs]
  have hlog : chatLog (reqs ++ [(m, opens)]) = chatLog reqs := by
    rw [chatLog_concat, ChatLog.next, if_neg ht, if_neg]
    rintro ⟨hj, hopens, hroom⟩
    refine hno ⟨hj, ?_, h.admitted ▸ hroom⟩
    rw [openedBy, if_pos hopens]
    exact Option.some_ne_none _
  refine ⟨?_, ?_, ?_, ?_, ?_, ?_⟩
  · rw [hrun]
    exact h.count
  · rw [hrun, hlog]
    exact h.history
  · rw [hrun, hlog]
    exact h.admitted
  · intro p hps
    rw [hrun] at hps
    rcases List.mem_append.mp hps with hps | hps
    · exact mem_joinNames_concat (h.known p hps) _
    · obtain ⟨ht, hq⟩ := hp p hps
      rw [← (openedBy_eq_some.mp hq).2]
      exact mem_joinNames_join ht opens
  · rw [hrun]
    exact h.distinct
  · intro i cl hi
    have hi' : (chatRun reqs).server.clients[i]? = some cl := by rw [hrun] at hi; exact hi
    refine (h.slots i cl hi').concat [] (by rw [hlog, List.append_nil]) fun q hq => ?_
    have hother : ∀ p ∈ (handleRequest (chatRun reqs).server m (openedBy (m, opens))).sends,
        p.1 ≠ q := by
      rintro p hps rfl
      obtain ⟨ht, hpq⟩ := hp p hps
      rw [← (openedBy_eq_some.mp hpq).2] at hq
      exact hnew ht (h.mem_joinNames (ChatInv.q_mem hi' hq))
    rw [hrun, sentVia_append, sentVia_eq_nil hother]

theorem distinct_joined (h : ChatInv reqs) (hnew : m.qname.text ∉ joinNames reqs)
    {cl : ClientInfo QueueName} (hcl : cl.q = some m.qname.text) :
    (((chatRun reqs).server.clients ++ [cl]).map ClientInfo.q).Nodup := by
  rw [List.map_append, List.map_singleton, hcl]
  refine h.distinct.append (List.nodup_singleton _) ?_
  rw [List.disjoint_singleton]
  exact fun hmem => hnew (h.mem_joinNames hmem)

theorem chatInv_joined (h : ChatInv reqs) (ht : m.type = 74) (hnew : m.qname.text ∉ joinNames reqs)
    (hroom : (chatRun reqs).server.clients.length < MAX_CLIENTS) {cl : ClientInfo QueueName}
    (hcl : cl.q = some m.qname.text)
    (he : handleRequest (chatRun reqs).server m (openedBy (m, true))
      = ⟨⟨(chatRun reqs).server.clients ++ [cl],
          remember (chatRun reqs).server.history (joinNotice m)⟩,
          ((chatRun reqs).server.history.map fun x => (m.qname.text, x))
            ++ sendToAll ((chatRun reqs).server.clients ++ [cl]) (joinNotice m)⟩) :
    ChatInv (reqs ++ [(m, true)]) := by
  have hrun : chatRun (reqs ++ [(m, true)])
      = ⟨⟨(chatRun reqs).server.clients ++ [cl],
          remember (chatRun reqs).server.history (joinNotice m)⟩,
        (chatRun reqs).sends ++ (((chatRun reqs).server.history.map fun x => (m.qname.text, x))
          ++ sendToAll ((chatRun reqs).server.clients ++ [cl]) (joinNotice m))⟩ := by
    rw [chatRun_concat, ChatRun.next, he]
  have hlog : chatLog (reqs ++ [(m, true)])
      = ⟨(chatLog reqs).admitted + 1, (chatLog reqs).msgs ++ [joinNotice m]⟩ := by
    rw [chatLog_concat, ChatLog.next, if_neg (by rw [ht]; decide),
      if_pos ⟨ht, rfl, h.admitted ▸ hroom⟩]
  have hname : m.qname.text ∈ joinNames (reqs ++ [(m, true)]) := mem_joinNames_join ht true
  have hdistinct := distinct_joined h hnew hcl
  have hsends : ∀ q, some q ∈ ((chatRun reqs).server.clients ++ [cl]).map ClientInfo.q →
      sentVia (chatRun (reqs ++ [(m, true)])).sends q = sentVia (chatRun reqs).sends q
        ++ ((if m.qname.text = q then (chatRun reqs).server.history else [])
          ++ [joinNotice m]) := by
    intro q hq
    rw [hrun, sentVia_append, sentVia_append, sentVia_replay, sentVia_sendToAll hdistinct hq]
  refine ⟨?_, ?_, ?_, ?_, ?_, ?_⟩
  · rw [hrun]
    simpa using hroom
  · rw [hrun, hlog]
    simp only [h.history, remember_take]
  · rw [hrun, hlog, h.admitted, List.length_append, List.length_singleton]
  · intro p hp
    rw [hrun] at hp
    rcases List.mem_append.mp hp with hp | hp
    · exact mem_joinNames_concat (h.known p hp) _
    rcases List.mem_append.mp hp with hp | hp
    · obtain ⟨x, -, rfl⟩ := List.mem_map.mp hp
      exact hname
    · have hq := (mem_sendToAll.mp hp).1
      rw [List.map_append, List.mem_append] at hq
      rcases hq with hq | hq
      · exact mem_joinNames_concat (h.mem_joinNames hq) _
      · rw [List.map_singleton, List.mem_singleton, hcl, Option.some.injEq] at hq
        rw [hq]
        exact hname
  · rw [hrun]
    exact hdistinct
  · intro i c hi
    rw [hrun] at hi
    rcases getElem?_concat_iff.mp hi with hi | ⟨rfl, rfl⟩
    · refine (h.slots i c hi).concat [joinNotice m] (by rw [hlog]) fun q hq => ?_
      have hmem := ChatInv.q_mem hi hq
      have hne : m.qname.text ≠ q := by
        rintro rfl
        exact hnew (h.mem_joinNames hmem)
      rw [hsends q (by rw [List.map_append]; exact List.mem_append_left _ hmem), if_neg hne]
      rfl
    · have hbefore : sentVia (chatRun reqs).sends m.qname.text = [] :=
        sentVia_eq_nil fun p hp hq => hnew (hq ▸ h.known p hp)
      refine ⟨reqs, m, [], rfl, ht, rfl, hcl, ?_, ?_⟩
      · rw [hsends _ (by rw [List.map_append, List.map_singleton, hcl]; simp), if_pos rfl, hbefore,
          h.history, hlog]
        simp
      · rw [hlog]
        simp

end Step

theorem chatInv_run : ∀ {reqs : List (ChatMsg × Bool)}, (joinNames reqs).Nodup →
    ChatInv reqs := by
  intro reqs
  induction reqs using List.reverseRecOn with
  | nil =>
    exact fun _ => ⟨by decide, rfl, rfl, by simp [chatRun], by simp [chatRun], by simp [chatRun]⟩
  | append_singleton reqs req ih =>
    intro hnd
    rcases req with ⟨m, opens⟩
    rw [joinNames_concat] at hnd
    have h := ih (List.nodup_append.mp hnd).1
    have hnew : m.type = 74 → m.qname.text ∉ joinNames reqs := by
      intro ht hmem
      rw [if_pos ht] at hnd
      exact (List.nodup_append.mp hnd).2.2 _ hmem _ (List.mem_singleton_self _) rfl
    rcases handleRequest_cases (chatRun reqs).server m (openedBy (m, opens)) with
      ⟨ht, he⟩ | ⟨ht, hroom, q, cl, hq, hcl, he⟩ | ⟨ht, hno, hs, hp⟩
    · exact chatInv_broadcast h ht he
    · obtain ⟨rfl, rfl⟩ := openedBy_eq_some.mp hq
      exact chatInv_joined h ht (hnew ht) hroom hcl he
    · exact chatInv_refused h hnew ht hno hs hp

theorem handleJoin_refused {δ : Type*} {s : ChatServer δ} {j : ChatMsg} {opened : Option δ}
    (h : MAX_CLIENTS ≤ s.clients.length ∨ opened = none) : (handleJoin s j opened).server = s := by
  unfold handleJoin
  by_cases hfull : s.clients.length ≥ MAX_CLIENTS
  · rw [if_pos hfull]
  · rw [if_neg hfull]
    rcases h with h | rfl
    · exact absurd h hfull
    · rfl

/-- In every run of requests whose joins name different queues, each client is sent what it should
be, the table and the history keep to their sizes, and a refused or failed join changes neither. -/
theorem chat_delivery {reqs : List (ChatMsg × Bool)} (h : (joinNames reqs).Nodup) :
    ChatDelivery reqs := by
  have hinv := chatInv_run h
  refine ⟨hinv.slots, hinv.count, ?_, fun _ _ hfull => handleJoin_refused hfull⟩
  rw [hinv.history]
  exact List.length_take_le _ _

/-- One client joins and sends a message, then a second joins. -/
theorem chat_delivery_two_clients :
    let join := fun q : List UInt8 => ChatMsg.mk 74 (.print (ascii "ann") MAX_NAME_pos)
      (.print q MAX_QNAME_pos) (.print [] MAX_TEXT_pos)
    let hello := ChatMsg.mk 77 (.print (ascii "ann") MAX_NAME_pos) (.print [] MAX_QNAME_pos)
      (.print (ascii "hello") MAX_TEXT_pos)
    ChatDelivery [(join (ascii "/chat_1"), true), (hello, true), (join (ascii "/chat_2"), true)] :=
  chat_delivery (by decide)

end EltexSystems
