import EltexSystems.EchoSession
import EltexSystems.Lib.Positions
import EltexSystems.Proofs.Echo

/-!
# Every line that fits is answered

In a run whose lines all fit, each packet on its way to the server decodes to the line it was built
for, and a client has exactly one unanswered line or unread reply while it waits and none otherwise
(`SessionInv`).  So the server answers every line with its number and a waiting client's reply is on
its way or will be (`echo_session`).  A line of 1399 bytes does not fit: the server counts it and
sends nothing, and its client waits with nothing on its way (`echo_session_silent`).
-/

namespace EltexSystems

open CStr Mem Positions

section Lines

theorem replyTexts_append : ∀ (n : ℕ) (ls ms : List (List UInt8)),
    replyTexts n (ls ++ ms) = replyTexts n ls ++ replyTexts (ls.foldl countLine n) ms
  | _, [], _ => rfl
  | n, l :: ls, ms => by
    simp only [List.cons_append, replyTexts, List.foldl_cons, replyTexts_append _ ls ms,
      List.append_assoc]

theorem replyTexts_singleton (n : ℕ) (line : List UInt8) :
    replyTexts n [line] = if line = SHUTDOWN then [] else [replyText line (n + 1)] := by
  simp only [replyTexts, List.append_nil]

theorem linesSince_concat (ls : List (List UInt8)) (line : List UInt8) :
    linesSince (ls ++ [line]) = countLine (linesSince ls) line := by
  unfold linesSince
  rw [List.foldl_append]
  rfl

theorem countP_concat (ls : List (List UInt8)) (line : List UInt8) :
    (ls ++ [line]).countP (· ≠ SHUTDOWN)
      = ls.countP (· ≠ SHUTDOWN) + if line = SHUTDOWN then 0 else 1 := by
  rw [List.countP_append, List.countP_singleton]
  by_cases h : line = SHUTDOWN
  · simp [h]
  · simp [h]

theorem countP_line_cons (line : List UInt8) (ls : List (List UInt8)) :
    (line :: ls).countP (· ≠ SHUTDOWN)
      = ls.countP (· ≠ SHUTDOWN) + if line = SHUTDOWN then 0 else 1 := by
  rw [List.countP_cons]
  by_cases h : line = SHUTDOWN
  · simp [h]
  · simp [h]

end Lines

variable {ι : Type*} {net : EchoNet ι} {s : Session ι}

namespace Session

/-- The lines of a client the server has handled. -/
def handled (s : Session ι) (c : ι) : List (List UInt8) := (s.lines c).take (s.acts c).length

/-- The lines of a client on their way to the server. -/
def pending (s : Session ι) (c : ι) : List (List UInt8) := (s.lines c).drop (s.acts c).length

/-- The replies on their way to a client. -/
def flight (net : EchoNet ι) (s : Session ι) (c : ι) : List (List UInt8) :=
  (s.chan none (some c)).filterMap (net.accept c)

theorem handled_append_pending (s : Session ι) (c : ι) :
    s.handled c ++ s.pending c = s.lines c := List.take_append_drop _ _

end Session

/-- A request of a client for a line, on the wire. -/
def IsRequest (net : EchoNet ι) (c : ι) (line pkt : List UInt8) : Prop :=
  Decodes pkt (net.key c).ip net.serverIp (net.key c).port net.listenPort line

theorem accept_request {c : ι} {line pkt : List UInt8} (h : IsRequest net c line pkt) (c' : ι) :
    net.accept c' pkt = none := by
  unfold EchoNet.accept
  rw [echoClientAccept_of h, if_neg fun hc => net.port_ne c hc.2.1]

theorem flight_cons {c : ι} {buf : List UInt8} {rest : List (List UInt8)}
    (h : s.chan none (some c) = buf :: rest) :
    s.flight net c = (net.accept c buf).toList ++ rest.filterMap (net.accept c) := by
  unfold Session.flight
  rw [h]
  rcases hb : net.accept c buf with _ | text
  · rw [List.filterMap_cons_none hb]
    rfl
  · rw [List.filterMap_cons_some hb]
    rfl

variable [DecidableEq ι]

section Channels

theorem transmit_of {chan : Option ι → Option ι → List (List UInt8)} {src a b : Option ι}
    {dst : UInt32} {pkt : List UInt8} (h : ¬ (a = src ∧ net.addr b = dst)) :
    net.transmit chan src dst pkt a b = chan a b := if_neg h

theorem transmit_to {chan : Option ι → Option ι → List (List UInt8)} {src b : Option ι}
    {dst : UInt32} {pkt : List UInt8} (h : net.addr b = dst) :
    net.transmit chan src dst pkt src b = chan src b ++ [pkt] := if_pos ⟨rfl, h⟩

theorem mem_transmit {chan : Option ι → Option ι → List (List UInt8)} {src a b : Option ι}
    {dst : UInt32} {pkt p : List UInt8} (h : p ∈ net.transmit chan src dst pkt a b) :
    p ∈ chan a b ∨ a = src ∧ net.addr b = dst ∧ p = pkt := by
  unfold EchoNet.transmit at h
  split_ifs at h with hc
  · rcases List.mem_append.mp h with h | h
    · exact .inl h
    · exact .inr ⟨hc.1, hc.2, List.mem_singleton.mp h⟩
  · exact .inl h

theorem pop_of {a b a' b' : Option ι} (h : ¬ (a' = a ∧ b' = b)) : s.pop a b a' b' = s.chan a' b' :=
  if_neg h

theorem pop_self {a b : Option ι} : s.pop a b a b = (s.chan a b).tail := if_pos ⟨rfl, rfl⟩

theorem mem_pop {a b a' b' : Option ι} {p : List UInt8} (h : p ∈ s.pop a b a' b') :
    p ∈ s.chan a' b' := by
  unfold Session.pop at h
  split_ifs at h with hc
  · obtain ⟨rfl, rfl⟩ := hc
    exact List.mem_of_mem_tail h
  · exact h

end Channels

/-- A reply to a client is taken by that client and by no other on its host. -/
theorem accept_reply {c : ι} {text pkt : List UInt8}
    (h : Decodes pkt net.serverIp (net.key c).ip net.listenPort (net.key c).port text) {c' : ι}
    (hip : (net.key c').ip = (net.key c).ip) :
    net.accept c' pkt = if c' = c then some text else none := by
  unfold EchoNet.accept
  rw [echoClientAccept_of h]
  by_cases hc : c' = c
  · subst hc
    rw [if_pos ⟨rfl, rfl, rfl⟩, if_pos rfl]
  · rw [if_neg hc, if_neg]
    rintro ⟨-, -, hport⟩
    refine hc (net.distinct ?_)
    rcases hk : net.key c with ⟨ip, port⟩
    rcases hk' : net.key c' with ⟨ip', port'⟩
    simp only [hk, hk'] at hip hport
    rw [hip, hport]

/-- What every state keeps of a run whose lines all fit. -/
structure SessionInv (net : EchoNet ι) (s : Session ι) : Prop where
  counts : ∃ t n, s.table = some t ∧ CountsAre t n ∧
    ∀ c, n (net.key c) = linesSince (s.handled c)
  acts : ∀ c (k : ℕ) a, (s.acts c)[k]? = some a →
    ∃ line, (s.lines c)[k]? = some line ∧ Answers net c ((s.lines c).take k) line a
  left : ∀ c, ∀ q ∈ s.sent c, q.left = true ↔ q.line = SHUTDOWN
  fits : ∀ c (k : ℕ) line, (s.lines c)[k]? = some line → (∀ b ∈ line, b ≠ 0) ∧
    line.length ≤ 1400 ∧ (line ≠ SHUTDOWN →
      (replyText line (linesSince ((s.lines c).take k) + 1)).length ≤ 1400)
  requests : ∀ c, List.Forall₂ (IsRequest net c) (s.pending c) (s.chan (some c) none)
  own : ∀ pkt ∈ s.chan none none, ∃ src dst sport dport payload,
    Decodes pkt src dst sport dport payload ∧ dport ≠ net.listenPort
  peers : ∀ c c', ∀ pkt ∈ s.chan (some c) (some c'), net.accept c' pkt = none
  replies : ∀ c, s.printed c ++ s.flight net c = replyTexts 0 (s.handled c)
  owed : ∀ c, (s.pending c).countP (· ≠ SHUTDOWN) + (s.flight net c).length
    = if s.pc c = .waiting then 1 else 0
  len : ∀ c, (s.acts c).length ≤ (s.sent c).length

theorem sessionInv_init (h : (sessionLts net).init s) : SessionInv net s := by
  obtain ⟨ht, hchan, hpc, hsent, hacts, hprinted⟩ := h
  have hl : ∀ c, s.lines c = [] := fun c => by rw [Session.lines, hsent]; rfl
  have hh : ∀ c, s.handled c = [] := fun c => by rw [Session.handled, hl, List.take_nil]
  have hp : ∀ c, s.pending c = [] := fun c => by rw [Session.pending, hl, List.drop_nil]
  have hf : ∀ c, s.flight net c = [] := fun c => by rw [Session.flight, hchan]; rfl
  have hcounts : ∃ t n, s.table = some t ∧ CountsAre t n ∧
      ∀ c, n (net.key c) = linesSince (s.handled c) := by
    obtain ⟨t, hcreate, hcounts⟩ := countsAre_created
    refine ⟨t, fun _ => 0, ht.trans hcreate, hcounts, fun c => ?_⟩
    rw [hh]
    rfl
  refine ⟨hcounts, ?_, ?_, ?_, ?_, ?_, ?_, ?_, ?_, ?_⟩
  · intro c k a hk
    simp [hacts] at hk
  · intro c q hq
    simp [hsent] at hq
  · intro c k line hk
    simp [hl] at hk
  · intro c
    rw [hp, hchan]
    exact .nil
  · intro pkt hpkt
    simp [hchan] at hpkt
  · intro c c' pkt hpkt
    simp [hchan] at hpkt
  · intro c
    rw [hprinted, hf, hh]
    rfl
  · intro c
    rw [hp, hf, hpc]
    rfl
  · intro c
    simp [hacts]

/-- Starting, reaching the end of the input and sending nothing change no queue and no ghost. -/
theorem sessionInv_pc (h : SessionInv net s) {c : ι} {p : ClientPc} (hc : s.pc c ≠ .waiting)
    (hp : p ≠ .waiting) : SessionInv net { s with pc := Function.update s.pc c p } := by
  refine ⟨h.counts, h.acts, h.left, h.fits, h.requests, h.own, h.peers, h.replies, ?_, h.len⟩
  intro c'
  have ho := h.owed c'
  by_cases he : c' = c
  · subst he
    rw [if_neg hc] at ho
    simp only [Function.update_self, if_neg hp]
    exact ho
  · simp only [Function.update_of_ne he]
    exact ho

section Line

variable {c c' : ι} {ident : UInt16} {pkt line : List UInt8}

theorem chan_afterLine : (s.afterLine net c ident pkt line).chan
    = net.transmit s.chan (some c) net.serverIp (hdrincl (net.key c).ip ident pkt) := rfl

theorem sent_afterLine : (s.afterLine net c ident pkt line).sent c' = if c' = c then
    s.sent c ++ [⟨line, decide (EchoNet.pcAfter line = .off)⟩] else s.sent c' := by
  unfold Session.afterLine
  simp only [Function.update_apply]

theorem pc_afterLine : (s.afterLine net c ident pkt line).pc c'
    = if c' = c then EchoNet.pcAfter line else s.pc c' := by
  unfold Session.afterLine
  simp only [Function.update_apply]

theorem lines_afterLine : (s.afterLine net c ident pkt line).lines c'
    = if c' = c then s.lines c ++ [line] else s.lines c' := by
  unfold Session.lines
  rw [sent_afterLine]
  split_ifs
  · rw [List.map_append]
    rfl
  · rfl

theorem handled_afterLine (hlen : (s.acts c').length ≤ (s.sent c').length) :
    (s.afterLine net c ident pkt line).handled c' = s.handled c' := by
  have hl : (s.acts c').length ≤ (s.lines c').length := by simpa [Session.lines] using hlen
  unfold Session.handled
  rw [lines_afterLine]
  split_ifs with h
  · subst h
    exact List.take_append_of_le_length hl
  · rfl

theorem pending_afterLine (hlen : (s.acts c').length ≤ (s.sent c').length) :
    (s.afterLine net c ident pkt line).pending c'
      = if c' = c then s.pending c ++ [line] else s.pending c' := by
  have hl : (s.acts c').length ≤ (s.lines c').length := by simpa [Session.lines] using hlen
  unfold Session.pending
  rw [lines_afterLine]
  split_ifs with h
  · subst h
    exact List.drop_append_of_le_length hl
  · rfl

theorem flight_afterLine : (s.afterLine net c ident pkt line).flight net c' = s.flight net c' := by
  unfold Session.flight
  rw [chan_afterLine, transmit_of (by simp)]

/-- What the server has done answers the lines it did, with one more behind them. -/
theorem acts_afterLine (h : SessionInv net s) (c' : ι) (k : ℕ) (a : EchoAct)
    (hk : (s.acts c')[k]? = some a) :
    ∃ l, ((s.afterLine net c ident pkt line).lines c')[k]? = some l ∧
      Answers net c' (((s.afterLine net c ident pkt line).lines c').take k) l a := by
  obtain ⟨l, hl, ha⟩ := h.acts c' k a hk
  have hlt := (List.getElem?_eq_some_iff.mp hl).1
  rw [lines_afterLine]
  split_ifs with he
  · subst he
    refine ⟨l, by rw [List.getElem?_append_left hlt, hl], ?_⟩
    rw [List.take_append_of_le_length (by omega)]
    exact ha
  · exact ⟨l, hl, ha⟩

/-- A client that was reading waits for one more reply, unless it has left. -/
theorem owed_afterLine (h : SessionInv net s) (hpc : s.pc c = .reading) (c' : ι) :
    ((s.afterLine net c ident pkt line).pending c').countP (· ≠ SHUTDOWN)
      + ((s.afterLine net c ident pkt line).flight net c').length
      = if (s.afterLine net c ident pkt line).pc c' = .waiting then 1 else 0 := by
  have ho := h.owed c'
  rw [flight_afterLine, pending_afterLine (h.len c'), pc_afterLine]
  by_cases he : c' = c
  · subst he
    rw [hpc] at ho
    rw [if_pos rfl, if_pos rfl, countP_concat, EchoNet.pcAfter]
    by_cases hs : line = SHUTDOWN
    · rw [if_pos hs, if_pos hs]
      exact ho
    · rw [if_neg hs, if_neg hs, if_pos rfl]
      rw [if_neg (by simp)] at ho
      omega
  · rw [if_neg he, if_neg he]
    exact ho

theorem sessionInv_line (h : SessionInv net s) (hpc : s.pc c = .reading)
    (hreq : IsRequest net c line (hdrincl (net.key c).ip ident pkt)) (hnul : ∀ b ∈ line, b ≠ 0)
    (hlen : line.length ≤ 1400)
    (hfit : line ≠ SHUTDOWN → (replyText line (linesSince (s.lines c) + 1)).length ≤ 1400) :
    SessionInv net (s.afterLine net c ident pkt line) := by
  refine ⟨?_, ?_, ?_, ?_, ?_, ?_, ?_, ?_, ?_, ?_⟩
  · obtain ⟨t, n, ht, hn, hk⟩ := h.counts
    exact ⟨t, n, ht, hn, fun c' => by rw [hk, handled_afterLine (h.len c')]⟩
  · exact acts_afterLine h
  · intro c' q hq
    rw [sent_afterLine] at hq
    split_ifs at hq with he
    · rcases List.mem_append.mp hq with hq | hq
      · exact h.left c q hq
      · rw [List.mem_singleton.mp hq]
        by_cases hs : line = SHUTDOWN
        · simp [EchoNet.pcAfter, hs]
        · simp [EchoNet.pcAfter, hs]
    · exact h.left c' q hq
  · intro c' k l hk
    rw [lines_afterLine] at hk ⊢
    split_ifs at hk ⊢ with he
    · exact forall_concat (P := fun before l => (∀ b ∈ l, b ≠ 0) ∧ l.length ≤ 1400 ∧
        (l ≠ SHUTDOWN → (replyText l (linesSince before + 1)).length ≤ 1400))
        (h.fits c) ⟨hnul, hlen, hfit⟩ k l hk
    · exact h.fits c' k l hk
  · intro c'
    rw [pending_afterLine (h.len c'), chan_afterLine]
    split_ifs with he
    · have haddr : net.addr none = net.serverIp := rfl
      rw [he, transmit_to haddr]
      exact List.rel_append (h.requests c) (.cons hreq .nil)
    · rw [transmit_of (by simp [he])]
      exact h.requests c'
  · intro p hp
    rw [chan_afterLine, transmit_of (by simp)] at hp
    exact h.own p hp
  · intro a b p hp
    rcases mem_transmit hp with hp | ⟨ha, -, rfl⟩
    · exact h.peers a b p hp
    · exact accept_request hreq b
  · intro c'
    rw [flight_afterLine, handled_afterLine (h.len c')]
    exact h.replies c'
  · exact owed_afterLine h hpc
  · intro c'
    have := h.len c'
    rw [sent_afterLine]
    split_ifs with he
    · subst he
      rw [List.length_append]
      exact this.trans (Nat.le_add_right _ _)
    · exact this

end Line

section Read

variable {a b : Option ι} {c : ι} {buf : List UInt8} {rest : List (List UInt8)}

theorem sessionInv_pop (h : SessionInv net s) (hbuf : s.chan a b = buf :: rest)
    (hreq : ∀ c, ¬ (some c = a ∧ none = b)) (hrep : ∀ c, none = a → some c = b →
      net.accept c buf = none) : SessionInv net { s with chan := s.pop a b } := by
  have hflight : ∀ c, ({ s with chan := s.pop a b } : Session ι).flight net c = s.flight net c := by
    intro c
    by_cases he : none = a ∧ some c = b
    · obtain ⟨rfl, rfl⟩ := he
      rw [flight_cons hbuf, hrep c rfl rfl]
      unfold Session.flight
      simp only [pop_self, hbuf]
      rfl
    · unfold Session.flight
      simp only [pop_of he]
  refine ⟨h.counts, h.acts, h.left, h.fits, ?_, ?_, ?_, ?_, ?_, h.len⟩
  · intro c
    simp only [pop_of (hreq c)]
    exact h.requests c
  · exact fun pkt hpkt => h.own pkt (mem_pop hpkt)
  · exact fun c c' pkt hpkt => h.peers c c' pkt (mem_pop hpkt)
  · intro c
    rw [hflight]
    exact h.replies c
  · intro c
    rw [hflight]
    exact h.owed c

theorem sessionInv_miss (h : SessionInv net s) (hpc : s.pc c = .off)
    (hbuf : s.chan a (some c) = buf :: rest) :
    SessionInv net { s with chan := s.pop a (some c) } := by
  refine sessionInv_pop h hbuf (by simp) fun c' ha hc => ?_
  obtain rfl : c' = c := Option.some.inj hc
  subst ha
  have ho := h.owed c'
  rw [hpc, flight_cons hbuf, if_neg (by simp)] at ho
  rcases hb : net.accept c' buf with _ | text
  · rfl
  · simp [hb] at ho

theorem afterRecv_accepted {text : List UInt8} (hb : net.accept c buf = some text) :
    s.afterRecv net c a buf = { s with
      chan := s.pop a (some c)
      pc := Function.update s.pc c .reading
      printed := Function.update s.printed c (s.printed c ++ [text]) } := by
  unfold Session.afterRecv
  rw [hb]

omit [DecidableEq ι] in
theorem accepted_from_server (h : SessionInv net s) (hbuf : s.chan a (some c) = buf :: rest)
    {text : List UInt8} (hb : net.accept c buf = some text) : a = none := by
  rcases a with _ | c'
  · rfl
  · have hnone := h.peers c' c buf (by rw [hbuf]; exact List.mem_cons_self)
    rw [hb] at hnone
    cases hnone

theorem chan_afterRecv : (s.afterRecv net c a buf).chan = s.pop a (some c) := by
  unfold Session.afterRecv
  rcases net.accept c buf with _ | text
  · rfl
  · rfl

theorem flight_afterRecv (hbuf : s.chan none (some c) = buf :: rest) (c' : ι) :
    (s.afterRecv net c none buf).flight net c'
      = if c' = c then rest.filterMap (net.accept c) else s.flight net c' := by
  unfold Session.flight
  rw [chan_afterRecv]
  split_ifs with he
  · rw [he, pop_self, hbuf, List.tail_cons]
  · rw [pop_of fun hc => he (Option.some.inj hc.2)]

theorem sessionInv_recv (h : SessionInv net s) (hpc : s.pc c = .waiting)
    (hbuf : s.chan a (some c) = buf :: rest) : SessionInv net (s.afterRecv net c a buf) := by
  rcases hb : net.accept c buf with _ | text
  · unfold Session.afterRecv
    rw [hb]
    refine sessionInv_pop h hbuf (by simp) fun c' ha hc => ?_
    rw [Option.some.inj hc, hb]
  obtain rfl := accepted_from_server h hbuf hb
  have hfl : s.flight net c = text :: rest.filterMap (net.accept c) := by
    rw [flight_cons hbuf, hb]
    rfl
  have hflight := @flight_afterRecv _ net s _ c buf rest hbuf
  rw [afterRecv_accepted hb] at hflight ⊢
  refine ⟨h.counts, h.acts, h.left, h.fits, ?_, ?_, ?_, ?_, ?_, h.len⟩
  · intro c'
    simp only [pop_of (show ¬ (some c' = none ∧ none = some c) by simp)]
    exact h.requests c'
  · exact fun pkt hpkt => h.own pkt (mem_pop (a := none) (b := some c) hpkt)
  · exact fun c₁ c₂ pkt hpkt => h.peers c₁ c₂ pkt (mem_pop (a := none) (b := some c) hpkt)
  · intro c'
    have hr := h.replies c'
    rw [hflight]
    by_cases he : c' = c
    · subst he
      rw [hfl] at hr
      simp only [Function.update_self, if_true]
      rw [List.append_assoc]
      exact hr
    · simp only [Function.update_of_ne he, if_neg he]
      exact hr
  · intro c'
    have ho := h.owed c'
    rw [hflight]
    by_cases he : c' = c
    · subst he
      rw [hfl, hpc, if_pos rfl, List.length_cons] at ho
      simp only [Function.update_self, if_true]
      rw [if_neg (by simp)]
      exact Nat.succ.inj ho
    · simp only [Function.update_of_ne he, if_neg he]
      exact ho

end Read

section Serve

variable {c : ι} {e : EchoEnv} {ident : UInt16} {buf line : List UInt8} {rest : List (List UInt8)}
  {ls : List (List UInt8)}

/-- The server forgets a client, or sends a reply that decodes to a text. -/
def Handles (net : EchoNet ι) (c : ι) (line text : List UInt8) (act : EchoAct) : Prop :=
  if line = SHUTDOWN then act = .forgot
  else ∃ pkt, act = .replied (net.key c).ip pkt ∧
    ∀ ident, Decodes (hdrincl net.serverIp ident pkt) net.serverIp (net.key c).ip
      net.listenPort (net.key c).port text

theorem serve_request (h : SessionInv net s) (hp : s.pending c = line :: ls)
    (hreq : IsRequest net c line buf) (he : e.calloc = true) :
    ∃ t n, (echoServerIter net.listenPort e s.table buf).2 = some t ∧ CountsAre t n ∧
      (∀ c', n (net.key c') = if c' = c then countLine (linesSince (s.handled c)) line
        else linesSince (s.handled c')) ∧
      Handles net c line (replyText line (linesSince (s.handled c) + 1))
        (echoServerIter net.listenPort e s.table buf).1 := by
  obtain ⟨-, -, hline⟩ := take_succ_of_drop hp
  obtain ⟨hnul, hlen, hfit⟩ := h.fits c _ line hline
  obtain ⟨t, n, ht, hn, hk⟩ := h.counts
  have hupd : ∀ m c', Function.update n (net.key c) m (net.key c')
      = if c' = c then m else linesSince (s.handled c') := by
    intro m c'
    by_cases hc : c' = c
    · rw [hc, Function.update_self, if_pos rfl]
    · rw [Function.update_of_ne (fun hkey => hc (net.distinct hkey)), if_neg hc, hk]
  unfold IsRequest at hreq
  unfold Handles
  by_cases hs : line = SHUTDOWN
  · rw [hs] at hreq
    obtain ⟨t', ht', hn'⟩ := reset_spec hn (net.key c)
    rw [ht, echoServerIter_shutdown hreq e (some t), if_pos hs]
    refine ⟨t', _, ht', hn', fun c' => ?_, rfl⟩
    rw [hupd, countLine, if_pos hs]
  · rcases next_spec hn (net.key c) e.cnt e.calloc with ⟨-, t', hnext, hn'⟩ | ⟨hfail, -, -⟩
    swap
    · rw [he] at hfail
      cases hfail
    obtain ⟨d, hsrc, hdst, hport, hiter⟩ := echoServerIter_counted hreq hs hnext
    rw [ht, hiter, if_neg hs]
    refine ⟨t', _, rfl, hn', fun c' => ?_, ?_⟩
    · rw [hupd, countLine, if_neg hs, hk]
    · rw [hk]
      obtain ⟨pkt, hr, hd⟩ := @echoReply_fits net.listenPort e d line
        (linesSince (s.handled c) + 1) hnul hlen (hfit hs)
      rw [hsrc, hport, hdst] at hd
      refine ⟨pkt, by rw [← hsrc]; exact hr, fun ident => ?_⟩
      simpa only [ite_self] using hd net.serverIp ident

section Handled

variable (c : ι) (e : EchoEnv) (ident : UInt16) (buf : List UInt8)

theorem acts_afterServe {c' : ι} : (s.afterServe net (some c) e ident buf).acts c'
    = if c' = c then s.acts c ++ [(echoServerIter net.listenPort e s.table buf).1]
      else s.acts c' := by
  unfold Session.afterServe
  simp only [Option.some.injEq]
  split_ifs with h1 h2 h2
  · rw [h1]
  · exact absurd h1.symm h2
  · exact absurd h2.symm h1
  · rfl

variable {c}

theorem handled_afterServe (hp : s.pending c = line :: ls) {c' : ι} :
    (s.afterServe net (some c) e ident buf).handled c'
      = if c' = c then s.handled c ++ [line] else s.handled c' := by
  obtain ⟨htake, -, -⟩ := take_succ_of_drop hp
  unfold Session.handled
  rw [acts_afterServe]
  split_ifs with h
  · subst h
    rw [List.length_append, List.length_singleton]
    exact htake
  · rfl

theorem pending_afterServe (hp : s.pending c = line :: ls) {c' : ι} :
    (s.afterServe net (some c) e ident buf).pending c' = if c' = c then ls else s.pending c' := by
  obtain ⟨-, hdrop, -⟩ := take_succ_of_drop hp
  unfold Session.pending
  rw [acts_afterServe]
  split_ifs with h
  · subst h
    rw [List.length_append, List.length_singleton]
    exact hdrop
  · rfl

end Handled

section Sent

variable {act : EchoAct}

theorem afterAct_request {r b : Option ι} (c' : ι) :
    s.afterAct net r ident act (some c') b = s.pop r none (some c') b := by
  unfold Session.afterAct
  rcases act with _ | _ | _ | ⟨dst, pkt⟩
  · rfl
  · rfl
  · rfl
  · exact transmit_of (by simp)

/-- What a handled request leaves on its way from the server: what was, and the reply. -/
theorem afterAct_reply {text : List UInt8} (hact : Handles net c line text act) (b : Option ι) :
    (line = SHUTDOWN ∨ net.addr b ≠ (net.key c).ip) ∧
        s.afterAct net (some c) ident act none b = s.chan none b ∨
      ∃ pkt, line ≠ SHUTDOWN ∧ net.addr b = (net.key c).ip ∧
        Decodes pkt net.serverIp (net.key c).ip net.listenPort (net.key c).port text ∧
        s.afterAct net (some c) ident act none b = s.chan none b ++ [pkt] := by
  have hpop : s.pop (some c) none none b = s.chan none b := pop_of (by simp)
  unfold Handles at hact
  split_ifs at hact with hs
  · subst hact
    exact .inl ⟨.inl hs, hpop⟩
  · obtain ⟨pkt, rfl, hd⟩ := hact
    unfold Session.afterAct
    simp only []
    by_cases hb : net.addr b = (net.key c).ip
    · right
      refine ⟨_, hs, hb, hd ident, ?_⟩
      rw [transmit_to hb, hpop]
    · left
      rw [transmit_of (fun hc => hb hc.2), hpop]
      exact ⟨.inr hb, rfl⟩

end Sent

omit [DecidableEq ι] in
/-- The packet at the head of a client's queue is the request for its next line. -/
theorem next_request (h : SessionInv net s) (hbuf : s.chan (some c) none = buf :: rest) :
    ∃ line ls, IsRequest net c line buf ∧ List.Forall₂ (IsRequest net c) ls rest ∧
      s.pending c = line :: ls := by
  have hr := h.requests c
  rw [hbuf] at hr
  rcases hpc : s.pending c with _ | ⟨line, ls⟩
  · rw [hpc] at hr
    cases hr
  · rw [hpc] at hr
    cases hr with
    | cons h1 h2 => exact ⟨line, ls, h1, h2, rfl⟩

/-- A handled request puts its reply behind those on their way, and no other client's. -/
theorem flight_afterServe (hact : Handles net c line
      (replyText line (linesSince (s.handled c) + 1))
      (echoServerIter net.listenPort e s.table buf).1) (c' : ι) :
    (s.afterServe net (some c) e ident buf).flight net c' = s.flight net c'
      ++ if c' = c then replyTexts (linesSince (s.handled c)) [line] else [] := by
  have hchan : (s.afterServe net (some c) e ident buf).chan none (some c')
      = s.afterAct net (some c) ident (echoServerIter net.listenPort e s.table buf).1 none
        (some c') := rfl
  unfold Session.flight
  rw [hchan, replyTexts_singleton]
  rcases @afterAct_reply _ net s _ c ident line _ _ hact (some c') with
    ⟨hno, hb⟩ | ⟨pkt, hs, hip, hd, hb⟩
  · rw [hb]
    by_cases hc : c' = c
    · subst hc
      rcases hno with hs | hip
      · rw [if_pos rfl, if_pos hs, List.append_nil]
      · exact absurd rfl hip
    · rw [if_neg hc, List.append_nil]
  · rw [hb, List.filterMap_append, if_neg hs]
    congr 1
    have hacc := accept_reply hd hip
    split_ifs at hacc ⊢ with hc
    · exact List.filterMap_cons_some hacc
    · exact List.filterMap_cons_none hacc

theorem Handles.answers {act : EchoAct} {before : List (List UInt8)}
    (hact : Handles net c line (replyText line (linesSince before + 1)) act) :
    Answers net c before line act := by
  unfold Handles at hact
  unfold Answers
  split_ifs at hact ⊢ with hs
  · exact hact
  · obtain ⟨pkt, hpkt, hd⟩ := hact
    refine ⟨pkt, hpkt, fun ident => ?_⟩
    rw [accept_reply (hd ident) rfl, if_pos rfl]

/-- The actions are still those owed, the new one for the line handled now. -/
theorem acts_answered (h : SessionInv net s) (hp : s.pending c = line :: ls)
    (hact : Handles net c line (replyText line (linesSince (s.handled c) + 1))
      (echoServerIter net.listenPort e s.table buf).1) (c' : ι) (k : ℕ) (a : EchoAct)
    (hk : ((s.afterServe net (some c) e ident buf).acts c')[k]? = some a) :
    ∃ l, (s.lines c')[k]? = some l ∧ Answers net c' ((s.lines c').take k) l a := by
  rw [acts_afterServe] at hk
  split_ifs at hk with hc
  · subst hc
    rcases getElem?_concat_iff.mp hk with hk | ⟨rfl, rfl⟩
    · exact h.acts c' k a hk
    · exact ⟨line, (take_succ_of_drop hp).2.2, hact.answers⟩
  · exact h.acts c' k a hk

/-- The line handled leaves the lines on their way, and its reply joins the replies. -/
theorem owed_afterServe (h : SessionInv net s) (hp : s.pending c = line :: ls)
    (hact : Handles net c line (replyText line (linesSince (s.handled c) + 1))
      (echoServerIter net.listenPort e s.table buf).1) (c' : ι) :
    ((s.afterServe net (some c) e ident buf).pending c').countP (· ≠ SHUTDOWN)
      + ((s.afterServe net (some c) e ident buf).flight net c').length
      = if s.pc c' = .waiting then 1 else 0 := by
  have ho := h.owed c'
  rw [flight_afterServe hact, pending_afterServe _ _ _ hp]
  by_cases hc : c' = c
  · subst hc
    rw [hp, countP_line_cons] at ho
    rw [if_pos rfl, if_pos rfl, replyTexts_singleton, List.length_append]
    by_cases hs : line = SHUTDOWN
    · rw [if_pos hs] at ho ⊢
      exact ho
    · rw [if_neg hs] at ho ⊢
      rw [List.length_singleton]
      omega
  · rw [if_neg hc, if_neg hc, List.append_nil]
    exact ho

theorem sessionInv_serve (h : SessionInv net s) (hbuf : s.chan (some c) none = buf :: rest)
    (he : e.calloc = true) : SessionInv net (s.afterServe net (some c) e ident buf) := by
  obtain ⟨line, ls, hreq, hrest, hp⟩ := next_request h hbuf
  obtain ⟨t, n, htab, hn, hk, hact⟩ := serve_request h hp hreq he
  have hchan : (s.afterServe net (some c) e ident buf).chan = s.afterAct net (some c) ident
      (echoServerIter net.listenPort e s.table buf).1 := rfl
  refine ⟨?_, acts_answered h hp hact, h.left, h.fits, ?_, ?_, ?_, ?_, owed_afterServe h hp hact,
    ?_⟩
  · refine ⟨t, n, htab, hn, fun c' => ?_⟩
    rw [hk, handled_afterServe _ _ _ hp]
    split_ifs
    · rw [linesSince_concat]
    · rfl
  · intro c'
    rw [pending_afterServe _ _ _ hp, hchan, afterAct_request]
    split_ifs with hc
    · rw [hc, pop_self, hbuf]
      exact hrest
    · rw [pop_of (by simp [hc])]
      exact h.requests c'
  · intro p hpkt
    rw [hchan] at hpkt
    rcases @afterAct_reply _ net s _ c ident line _ _ hact none with
      ⟨-, hb⟩ | ⟨pkt, -, -, hd, hb⟩
    · rw [hb] at hpkt
      exact h.own p hpkt
    · rw [hb] at hpkt
      rcases List.mem_append.mp hpkt with hpkt | hpkt
      · exact h.own p hpkt
      · rw [List.mem_singleton.mp hpkt]
        exact ⟨_, _, _, _, _, hd, net.port_ne c⟩
  · intro a b p hpkt
    rw [hchan, afterAct_request] at hpkt
    exact h.peers a b p (mem_pop hpkt)
  · intro c'
    have hr := h.replies c'
    rw [flight_afterServe hact, handled_afterServe _ _ _ hp]
    by_cases hc : c' = c
    · subst hc
      rw [if_pos rfl, if_pos rfl, replyTexts_append, ← hr, List.append_assoc]
      rfl
    · rw [if_neg hc, if_neg hc, List.append_nil]
      exact hr
  · intro c'
    have hlen := h.len c'
    rw [acts_afterServe]
    split_ifs with hc
    · subst hc
      have := (List.getElem?_eq_some_iff.mp (take_succ_of_drop hp).2.2).1
      simp only [Session.lines, List.length_map] at this
      rw [List.length_append, List.length_singleton]
      exact this
    · exact hlen

end Serve

theorem sessionInv_step {l : SessionLabel ι} {s' : Session ι} (h : SessionInv net s)
    (hfit : Fits s l) (hst : (sessionLts net).step s l s') : SessionInv net s' := by
  cases hst with
  | start hpc => exact sessionInv_pc h (by simp [hpc]) (by simp)
  | eof hpc => exact sessionInv_pc h (by simp [hpc]) (by simp)
  | @line c e ident text pkt hpc hlen hreq =>
    obtain ⟨pkt', hpkt, hd⟩ := echoClientLine_spec e net.serverIp net.listenPort (net.key c).port
      (hlen.trans (by omega))
    obtain rfl : pkt' = pkt := Option.some.inj (hpkt.symm.trans hreq)
    have hle := length_chomp_le text
    exact sessionInv_line h hpc (hd _ _) (chomp_ne_zero text) (by omega) hfit
  | refused => exact h
  | lineUnsent => exact h
  | @serve r e ident buf rest hbuf =>
    rcases r with _ | c
    · obtain ⟨src, dst, sport, dport, payload, hd, hne⟩ := h.own buf (by simp [hbuf])
      have hpop : s.afterServe net none e ident buf = { s with chan := s.pop none none } := by
        unfold Session.afterServe
        rw [echoServerIter_other hd hne]
        simp [Session.afterAct]
      rw [hpop]
      exact sessionInv_pop h hbuf (by simp) (by simp)
    · exact sessionInv_serve h hbuf hfit
  | recv hpc hbuf => exact sessionInv_recv h hpc hbuf
  | miss hpc hbuf => exact sessionInv_miss h hpc hbuf

/-- Handling a waiting client's requests one after another puts the reply on its way. -/
theorem waiting_served {c : ι} : ∀ (n : ℕ) {s : Session ι}, SessionInv net s →
    s.pc c = .waiting → (s.chan (some c) none).length = n →
    ∃ tr s', (sessionLts net).Path s tr s' ∧
      (∀ p ∈ tr, ∃ e ident, p.2 = .serve (some c) e ident) ∧
      ∃ pkt ∈ s'.chan none (some c), (net.accept c pkt).isSome
  | 0, s, h, hpc, hn => by
    have ho := h.owed c
    have hp : s.pending c = [] := by
      have := (h.requests c).length_eq
      rw [hn] at this
      exact List.length_eq_zero_iff.mp this
    rw [hp, hpc, if_pos rfl, List.countP_nil, Nat.zero_add] at ho
    obtain ⟨text, htext⟩ := List.exists_mem_of_length_pos (by omega : 0 < (s.flight net c).length)
    obtain ⟨pkt, hpkt, hacc⟩ := List.mem_filterMap.mp htext
    exact ⟨[], s, .nil s, by simp, pkt, hpkt, by simp [hacc]⟩
  | n + 1, s, h, hpc, hn => by
    rcases hbuf : s.chan (some c) none with _ | ⟨buf, rest⟩
    · simp [hbuf] at hn
    · have hinv := @sessionInv_serve _ net s _ c ⟨0, true, [], 0⟩ 0 _ _ h hbuf rfl
      have hlen : ((s.afterServe net (some c) ⟨0, true, [], 0⟩ 0 buf).chan (some c) none).length
          = n := by
        rw [show (s.afterServe net (some c) ⟨0, true, [], 0⟩ 0 buf).chan (some c) none = _ from
          afterAct_request c, pop_self, hbuf]
        simpa [hbuf] using hn
      obtain ⟨tr, s', hpath, htr, hpkt⟩ := waiting_served n hinv hpc hlen
      refine ⟨_, s', .cons (.serve hbuf) hpath, ?_, hpkt⟩
      intro p hp
      rcases List.mem_cons.mp hp with rfl | hp
      · exact ⟨_, _, rfl⟩
      · exact htr p hp

theorem sessionInv_run {tr : List (Session ι × SessionLabel ι)} (h : (sessionLts net).Run tr s)
    (hfit : ∀ p ∈ tr, Fits p.1 p.2) : SessionInv net s :=
  h.inv_when (fun _ => sessionInv_init) (fun _ _ _ hI hf hst => sessionInv_step hI hf hst) hfit

/-- In every run whose lines fit, every line is answered as it should be, a client leaves its loop
exactly where the server forgets it, and no client waits for a reply that will not come. -/
theorem echo_session {tr : List (Session ι × SessionLabel ι)} (h : (sessionLts net).Run tr s)
    (hfit : ∀ p ∈ tr, Fits p.1 p.2) : SessionSpec net s := by
  have hinv := sessionInv_run h hfit
  refine ⟨?_, ?_, ?_, ?_⟩
  · intro c k a hk
    obtain ⟨line, hline, ha⟩ := hinv.acts c k a hk
    rw [Session.lines, List.getElem?_map, Option.map_eq_some_iff] at hline
    obtain ⟨q, hq, rfl⟩ := hline
    refine ⟨q, hq, ha, ?_⟩
    rw [hinv.left c q (List.mem_of_getElem? hq)]
    unfold Answers at ha
    split_ifs at ha with hs
    · simp [hs, ha]
    · obtain ⟨pkt, rfl, -⟩ := ha
      simp [hs]
  · intro c
    rw [← s.handled_append_pending c, replyTexts_append, ← hinv.replies c, List.append_assoc]
    exact List.prefix_append _ _
  · intro c
    have hl := (hinv.requests c).length_eq
    have hlen := hinv.len c
    simp only [Session.pending, Session.lines, List.length_drop, List.length_map] at hl
    omega
  · exact fun c hpc => waiting_served _ hinv hpc rfl

section OneClient

/-- A client at 10.0.0.2 port 5000 of a server at 10.0.0.1 port 7000. -/
def oneClient : EchoNet Unit where
  serverIp := 0x0100000A
  listenPort := 7000
  key _ := ⟨0x0200000A, 5000⟩
  distinct := Function.injective_of_subsingleton _
  port_ne _ := by decide

def freshSession : Session Unit :=
  ⟨rawudpCtCreate true true, fun _ _ => [], fun _ => .off, fun _ => [], fun _ => [], fun _ => []⟩

def startedSession : Session Unit :=
  { freshSession with pc := Function.update freshSession.pc () .reading }

theorem run_line {text : List UInt8} (hlen : text.length ≤ 1399) :
    ∃ pkt, IsRequest oneClient () (chomp text) (hdrincl 0x0200000A 1 pkt) ∧
      (sessionLts oneClient).Run
        [(freshSession, .start ()), (startedSession, .line () ⟨1, true, [], 0⟩ 1 text)]
        (startedSession.afterLine oneClient () 1 pkt (chomp text)) := by
  obtain ⟨pkt, hpkt, hd⟩ := echoClientLine_spec ⟨1, true, [], 0⟩ oneClient.serverIp
    oneClient.listenPort (oneClient.key ()).port (hlen.trans (by omega))
  refine ⟨pkt, hd _ _, freshSession, ⟨rfl, fun _ _ => rfl, fun _ => rfl, fun _ => rfl,
    fun _ => rfl, fun _ => rfl⟩, ?_⟩
  exact .cons (.start rfl) (.single (.line rfl hlen hpkt))

/-- The server handles the first line in the queue, and the client prints the reply. -/
theorem run_reply {s : Session Unit} {tr : List (Session Unit × SessionLabel Unit)}
    {line buf : List UInt8} (h : (sessionLts oneClient).Run tr s)
    (hfit : ∀ p ∈ tr, Fits p.1 p.2) (hbuf : s.chan (some ()) none = [buf])
    (hback : s.chan none (some ()) = []) (hp : s.pending () = [line])
    (hreq : IsRequest oneClient () line buf) (hne : line ≠ SHUTDOWN) (hpc : s.pc () = .waiting) :
    ∃ tr' s', (sessionLts oneClient).Run tr' s' ∧ (∀ p ∈ tr', Fits p.1 p.2) ∧
      s'.pc () = .reading ∧ s'.acts () ≠ [] ∧ s'.sent () = s.sent () ∧
      s'.printed () = s.printed () ++ [replyText line (linesSince (s.handled ()) + 1)] := by
  obtain ⟨e, he⟩ : ∃ e : EchoEnv, e = ⟨2, true, [], 0⟩ := ⟨_, rfl⟩
  obtain ⟨-, -, -, -, -, hact⟩ := serve_request (sessionInv_run h hfit) hp hreq
    (show e.calloc = true by rw [he])
  have hans := hact.answers
  unfold Answers at hans
  rw [if_neg hne] at hans
  obtain ⟨pkt, hpkt, haccept⟩ := hans
  have hserve := h.snoc (@SessionStep.serve Unit _ oneClient s (some ()) e 1 _ _ hbuf)
  have hchan : (s.afterServe oneClient (some ()) e 1 buf).chan none (some ())
      = [hdrincl oneClient.serverIp 1 pkt] := by
    unfold Session.afterServe
    simp only [hpkt, Session.afterAct]
    rw [EchoNet.transmit, if_pos ⟨rfl, rfl⟩, pop_of (by simp), hback]
    rfl
  have hrecv := hserve.snoc (.recv (r := none) hpc hchan)
  refine ⟨_, _, hrecv, ?_, ?_⟩
  · intro p hp
    rcases List.mem_append.mp hp with hp | hp
    · rcases List.mem_append.mp hp with hp | hp
      · exact hfit p hp
      · rw [List.mem_singleton.mp hp]
        exact congrArg EchoEnv.calloc he
    · rw [List.mem_singleton.mp hp]
      trivial
  · rw [afterRecv_accepted (haccept 1)]
    refine ⟨by simp only [Function.update_self], ?_, rfl, ?_⟩
    · show (s.afterServe oneClient (some ()) e 1 buf).acts () ≠ []
      rw [acts_afterServe, if_pos rfl]
      exact List.append_ne_nil_of_right_ne_nil _ (List.cons_ne_nil _ _)
    · simp only [Function.update_self]
      rfl

/-- The client's first line is `hi`: it is answered and the reply printed, and the client sends the
line again. -/
theorem echo_session_hi : ∃ tr s, (sessionLts oneClient).Run tr s ∧ s.acts () ≠ [] ∧
    s.printed () = [replyText (ascii "hi") 1] ∧ s.pc () = .waiting ∧ SessionSpec oneClient s := by
  have hlen : (ascii "hi").length ≤ 1399 := by decide
  obtain ⟨pkt, hreq, hrun⟩ := run_line hlen
  have hchomp : chomp (ascii "hi") = ascii "hi" := by decide
  have hfit : ∀ p ∈ [(freshSession, SessionLabel.start ()),
      (startedSession, .line () ⟨1, true, [], 0⟩ 1 (ascii "hi"))], Fits p.1 p.2 := by
    intro p hp
    simp only [List.mem_cons, List.not_mem_nil, or_false] at hp
    rcases hp with rfl | rfl
    · trivial
    · intro _
      rw [hchomp]
      decide
  rw [hchomp] at hreq hrun
  obtain ⟨tr, s, hreply, hfits, hpc, hacts, hsent, hprinted⟩ := run_reply hrun hfit rfl rfl rfl hreq
    (by decide) (by rw [pc_afterLine, if_pos rfl]; decide)
  obtain ⟨pkt', hpkt', -⟩ := echoClientLine_spec ⟨1, true, [], 0⟩ oneClient.serverIp
    oneClient.listenPort (oneClient.key ()).port (hlen.trans (by omega))
  have hagain := hreply.snoc
    (show SessionStep _ s (.line () _ 1 (ascii "hi")) _ from .line hpc hlen hpkt')
  have hwaits : (s.afterLine oneClient () 1 pkt' (chomp (ascii "hi"))).pc () = .waiting := by
    rw [pc_afterLine, if_pos rfl, hchomp]
    decide
  refine ⟨_, _, hagain, hacts, hprinted, hwaits, echo_session hagain fun p hp => ?_⟩
  rcases List.mem_append.mp hp with hp | hp
  · exact hfits p hp
  · rw [List.mem_singleton.mp hp]
    intro _
    rw [Session.lines, hsent, sent_afterLine, if_pos rfl, hchomp]
    decide

theorem chomp_replicate (n : ℕ) : chomp (List.replicate n 97) = List.replicate n 97 := by
  unfold chomp
  rw [cstr_of_ne_zero (by simp), List.rdropWhile_eq_self_iff]
  intro hne
  rw [List.getLast_replicate]
  decide

/-- The client's first line is 1399 letters `a`: the server counts it and sends nothing, and the
client waits with no packet on its way. -/
theorem echo_session_silent : ∃ tr s, (sessionLts oneClient).Run tr s ∧
    s.sent () = [⟨List.replicate 1399 97, false⟩] ∧ s.acts () = [.skipped] ∧
    s.pc () = .waiting ∧ (∀ a b, s.chan a b = []) ∧ ¬ SessionSpec oneClient s := by
  obtain ⟨line, hline⟩ : ∃ line : List UInt8, line = List.replicate 1399 97 := ⟨_, rfl⟩
  have hlen : line.length = 1399 := by rw [hline, List.length_replicate]
  have hne : line ≠ SHUTDOWN := fun h => by
    rw [h] at hlen
    exact absurd hlen (by decide)
  have hnul : ∀ b ∈ line, b ≠ 0 := by
    intro b hb
    rw [hline] at hb
    rw [List.eq_of_mem_replicate hb]
    decide
  have hchomp : chomp line = line := by rw [hline, chomp_replicate]
  obtain ⟨pkt, hreq, hrun⟩ := run_line hlen.le
  rw [hchomp] at hreq hrun
  set s := startedSession.afterLine oneClient () 1 pkt line with hs
  have hchan : ∀ a b, s.chan a b = if a = some () ∧ b = none then [hdrincl 0x0200000A 1 pkt]
      else [] := by
    intro a b
    rcases a with _ | ⟨⟩
    · rfl
    · rcases b with _ | ⟨⟩
      · rfl
      · rfl
  -- the server counts the line and cannot build the reply
  obtain ⟨t, hcreate, hcounts⟩ := countsAre_created
  have hserve : (echoServerIter oneClient.listenPort ⟨2, true, [], 0⟩ s.table
      (hdrincl 0x0200000A 1 pkt)).1 = .skipped := by
    rcases next_spec hcounts (oneClient.key ()) 0 true with
      ⟨-, t', hnext, -⟩ | ⟨hfail, -, -⟩
    · obtain ⟨d, -, -, -, hiter⟩ := echoServerIter_counted (e := ⟨2, true, [], 0⟩) hreq hne hnext
      rw [show s.table = some t from hcreate, hiter]
      refine echoReply_long _ d _ hnul (by omega) ?_
      rw [replyText, List.length_append, List.length_append, hlen]
      decide
    · cases hfail
  have hstep := @SessionStep.serve Unit _ oneClient s (some ()) ⟨2, true, [], 0⟩ 1 _ _
    (hchan (some ()) none)
  have hacts : (s.afterServe oneClient (some ()) ⟨2, true, [], 0⟩ 1
      (hdrincl 0x0200000A 1 pkt)).acts () = [.skipped] := by
    rw [acts_afterServe, if_pos rfl, hserve]
    rfl
  have hsent : s.sent () = [⟨line, false⟩] := by
    rw [hs, sent_afterLine, if_pos rfl, EchoNet.pcAfter, if_neg hne]
    rfl
  refine ⟨_, _, hrun.snoc hstep, hline ▸ hsent, hacts, ?_, ?_, fun hspec => ?_⟩
  · rw [show (s.afterServe oneClient (some ()) ⟨2, true, [], 0⟩ 1 _).pc () = s.pc () from rfl, hs,
      pc_afterLine, if_pos rfl, EchoNet.pcAfter, if_neg hne]
  · intro a b
    unfold Session.afterServe
    simp only [hserve, Session.afterAct]
    by_cases hab : a = some () ∧ b = none
    · obtain ⟨rfl, rfl⟩ := hab
      rw [pop_self, hchan, if_pos ⟨rfl, rfl⟩]
      rfl
    · rw [pop_of hab, hchan, if_neg hab]
  · obtain ⟨q, hq, hans, -⟩ := hspec.answered () 0 .skipped (by rw [hacts]; rfl)
    rw [show (s.afterServe oneClient (some ()) ⟨2, true, [], 0⟩ 1 _).sent () = s.sent () from rfl,
      hsent] at hq
    obtain rfl : ⟨line, false⟩ = q := Option.some.inj hq
    unfold Answers at hans
    rw [if_neg hne] at hans
    obtain ⟨_, hreplied, -⟩ := hans
    cases hreplied

end OneClient

end EltexSystems
