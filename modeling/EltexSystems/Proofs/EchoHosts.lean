import EltexSystems.EchoHosts
import EltexSystems.Proofs.EchoServer

/-!
# Own packets on a shared host

While no client on the server's host has the server's port, a packet in the server's queue that is a
request is the only one for its line, and neither program takes its own packet (`HostsInv`); so each
line is counted once at most and replied to once at most.  A client there with the server's port has
its reply come back to the server as a new request (`self_loop`), so the condition is exact
(`own_packets_ignored_iff`).
-/

namespace EltexSystems

open CStr Mem

section Server

variable {buf : List UInt8} {d : Datagram}

theorem requestOf_of_decodes (listenPort : UInt16) {src dst : UInt32} {sport dport : UInt16}
    {payload : List UInt8} (h : Decodes buf src dst sport dport payload) :
    ∃ d, rawudpParseIpv4Udp buf buf.length = some d ∧ d.srcIp = src ∧ d.srcPort = sport ∧
      d.slice buf = payload ∧ requestOf listenPort buf = if dport = listenPort then some d else none
    := by
  obtain ⟨d, hp, hsrc, -, hsport, rfl, -, hs⟩ := h
  refine ⟨d, hp, hsrc, hsport, hs, ?_⟩
  unfold requestOf
  rw [hp]
  by_cases hport : d.dstPort = listenPort
  · simp [hport]
  · simp [hport]

theorem EchoAct.eq_replied {a : EchoAct} (h : a.isReply = true) :
    ∃ dst pkt, a = .replied dst pkt := by
  cases a with
  | replied dst pkt => exact ⟨dst, pkt, rfl⟩
  | _ => cases h

theorem countsRequest_none (h : requestOf listenPort buf = none) (e : EchoEnv)
    (ct : Option ClientTable) : countsRequest listenPort e ct buf = false := by
  unfold countsRequest
  rw [h]

/-- A reply is to a request that has been counted, and goes back to its sender. -/
theorem reply_counts (h : requestOf listenPort buf = some d) {e : EchoEnv}
    {ct : Option ClientTable} {dst : UInt32} {pkt : List UInt8}
    (hact : (echoServerIter listenPort e ct buf).1 = .replied dst pkt) :
    countsRequest listenPort e ct buf = true ∧ dst = d.srcIp ∧ ∃ text : List UInt8,
      text.length ≤ 1400 ∧ pkt = packet e.pid d.dstIp d.srcIp listenPort d.srcPort text 64 := by
  rw [iter_request h] at hact
  unfold countsRequest
  rw [h]
  by_cases hs : d.slice buf = SHUTDOWN
  · rw [if_pos hs] at hact
    cases hact
  rw [if_neg hs] at hact
  revert hact
  simp only [Bool.and_eq_true, bne_iff_ne, beq_iff_eq]
  generalize rawudpCtNext ct d.sender (some e.cnt) e.calloc = r
  split
  · intro hact
    rw [echoReply_eq] at hact
    split_ifs at hact with hfit
    simp only [EchoAct.replied.injEq] at hact
    exact ⟨⟨hs, rfl⟩, hact.1.symm, _, hfit, hact.2.symm⟩
  · intro hact
    cases hact

end Server

variable {ι κ : Type*} {net : EchoHosts ι κ} {s : HostsState ι} {f : Flight ι}

/-- The requests in a queue, as the lines they are for. -/
def requestsIn (l : List (Flight ι)) : List (Origin ι) :=
  (l.filter fun f => !f.reply).map Flight.origin

theorem requestsIn_append (l₁ l₂ : List (Flight ι)) :
    requestsIn (l₁ ++ l₂) = requestsIn l₁ ++ requestsIn l₂ := by
  unfold requestsIn
  rw [List.filter_append, List.map_append]

theorem requestsIn_cons_of_reply (h : f.reply = true) (l : List (Flight ι)) :
    requestsIn (f :: l) = requestsIn l := by
  unfold requestsIn
  rw [List.filter_cons_of_neg (by simp [h])]

theorem requestsIn_cons_of_request (h : f.reply = false) (l : List (Flight ι)) :
    requestsIn (f :: l) = f.origin :: requestsIn l := by
  unfold requestsIn
  rw [List.filter_cons_of_pos (by simp [h]), List.map_cons]

/-- A request decodes to a packet of its client to the server, a reply to one back. -/
def Flight.Genuine (net : EchoHosts ι κ) (f : Flight ι) : Prop :=
  if f.reply then ∃ src payload, Decodes f.pkt src (net.key f.origin.client).ip net.listenPort
    (net.key f.origin.client).port payload
  else ∃ payload, Decodes f.pkt (net.key f.origin.client).ip (net.target f.origin.client)
    (net.key f.origin.client).port net.listenPort payload

/-- The address a packet goes to. -/
def Flight.dst (net : EchoHosts ι κ) (f : Flight ι) : UInt32 :=
  if f.reply then (net.key f.origin.client).ip else net.target f.origin.client

/-- What every state keeps. -/
structure HostsInv (net : EchoHosts ι κ) (s : HostsState ι) : Prop where
  flights : ∀ b, ∀ f ∈ s.inbox b, f.Genuine net ∧ net.hostOf b = net.home (f.dst net)
  nodup : (s.counted ++ requestsIn (s.inbox none)).Nodup
  fresh : ∀ o ∈ s.counted ++ requestsIn (s.inbox none), o.index < s.lines o.client
  replied : s.replied.Sublist s.counted

/-- A client on the server's host never has the server's port. -/
def PortsApart (net : EchoHosts ι κ) : Prop :=
  ∀ c, net.home (net.key c).ip = net.serverHost → (net.key c).port ≠ net.listenPort

theorem requestOf_reply (hports : PortsApart net) (hf : f.Genuine net)
    (hhost : net.serverHost = net.home (f.dst net)) (hr : f.reply = true) :
    requestOf net.listenPort f.pkt = none := by
  unfold Flight.Genuine at hf
  unfold Flight.dst at hhost
  rw [if_pos hr] at hf hhost
  obtain ⟨src, payload, hd⟩ := hf
  obtain ⟨d, -, -, -, -, hreq⟩ := requestOf_of_decodes net.listenPort hd
  rw [hreq, if_neg (hports _ hhost.symm)]

/-- A client passes over its own request on the server's host. -/
theorem accept_own (hports : PortsApart net) {c : ι} (hf : f.Genuine net)
    (hhost : net.hostOf (some c) = net.home (f.dst net)) (hr : f.reply = false)
    (hc : f.origin.client = c) : net.accept c f.pkt = none := by
  unfold Flight.Genuine at hf
  unfold Flight.dst at hhost
  rw [if_neg (by simp [hr])] at hf hhost
  obtain ⟨payload, hd⟩ := hf
  subst hc
  rw [net.target_home] at hhost
  unfold EchoHosts.accept
  rw [echoClientAccept_of hd, if_neg fun h => hports _ hhost h.2.1]

theorem genuine_reply {e : EchoEnv} (addr : UInt32) (ident : UInt16) (hf : f.Genuine net)
    (hr : f.reply = false) {ct : Option ClientTable} {dst : UInt32} {pkt : List UInt8}
    (hact : (echoServerIter net.listenPort e ct f.pkt).1 = .replied dst pkt) :
    countsRequest net.listenPort e ct f.pkt = true ∧
      (⟨hdrincl addr ident pkt, f.origin, true⟩ : Flight ι).Genuine net ∧
      dst = (net.key f.origin.client).ip := by
  unfold Flight.Genuine at hf
  rw [if_neg (by simp [hr])] at hf
  obtain ⟨payload, hd⟩ := hf
  obtain ⟨d, -, hsrc, hsport, -, hreq⟩ := requestOf_of_decodes net.listenPort hd
  rw [if_pos rfl] at hreq
  obtain ⟨hcount, rfl, text, hlen, rfl⟩ := reply_counts hreq hact
  refine ⟨hcount, ?_, hsrc⟩
  unfold Flight.Genuine
  rw [if_pos rfl, ← hsrc, ← hsport]
  exact ⟨_, text, decodes_hdrincl addr ident e.pid d.dstIp d.srcIp net.listenPort d.srcPort hlen 64⟩

section Queues

variable [DecidableEq κ] {inbox : Option ι → List (Flight ι)} {b : Option ι}

theorem mem_deliver {dst : UInt32} {p : Flight ι} (h : p ∈ net.deliver inbox dst f b) :
    p ∈ inbox b ∨ p = f ∧ net.hostOf b = net.home dst := by
  unfold EchoHosts.deliver at h
  split_ifs at h with hb
  · rcases List.mem_append.mp h with h | h
    · exact .inl h
    · exact .inr ⟨List.mem_singleton.mp h, hb⟩
  · exact .inl h

theorem mem_afterAct {o : Origin ι} {addr : UInt32} {ident : UInt16} {act : EchoAct} {p : Flight ι}
    (h : p ∈ HostsState.afterAct net inbox o addr ident act b) :
    p ∈ inbox b ∨ ∃ dst pkt, act = .replied dst pkt ∧ p = ⟨hdrincl addr ident pkt, o, true⟩ ∧
      net.hostOf b = net.home dst := by
  rcases act with _ | _ | _ | ⟨dst, pkt⟩
  · exact .inl h
  · exact .inl h
  · exact .inl h
  · rcases mem_deliver h with h | ⟨hp, hb⟩
    · exact .inl h
    · exact .inr ⟨dst, pkt, rfl, hp, hb⟩

theorem requestsIn_afterAct (o : Origin ι) (addr : UInt32) (ident : UInt16) (act : EchoAct) :
    requestsIn (HostsState.afterAct net inbox o addr ident act none)
      = requestsIn (inbox none) := by
  rcases act with _ | _ | _ | ⟨dst, pkt⟩
  · rfl
  · rfl
  · rfl
  · show requestsIn (net.deliver inbox dst _ none) = _
    unfold EchoHosts.deliver
    split_ifs
    · rw [requestsIn_append, requestsIn_cons_of_reply rfl]
      exact List.append_nil _
    · rfl

end Queues

section Removal

variable [DecidableEq ι] {b : Option ι} {l₁ l₂ : List (Flight ι)}

theorem mem_update_inbox (hb : s.inbox b = l₁ ++ f :: l₂) {b' : Option ι} {p : Flight ι}
    (h : p ∈ Function.update s.inbox b (l₁ ++ l₂) b') : p ∈ s.inbox b' := by
  by_cases he : b' = b
  · subst he
    rw [Function.update_self] at h
    rw [hb]
    rcases List.mem_append.mp h with h | h
    · exact List.mem_append_left _ h
    · exact List.mem_append_right _ (List.mem_cons_of_mem _ h)
  · rwa [Function.update_of_ne he] at h

theorem requestsIn_remove (hb : s.inbox b = l₁ ++ f :: l₂) :
    (requestsIn (Function.update s.inbox b (l₁ ++ l₂) none)).Sublist
      (requestsIn (s.inbox none)) := by
  by_cases he : none = b
  · subst he
    rw [Function.update_self, hb]
    exact ((((List.sublist_cons_self f l₂).append_left l₁).filter _).map _)
  · rw [Function.update_of_ne he]

theorem hostsInv_remove (h : HostsInv net s) (hb : s.inbox b = l₁ ++ f :: l₂) :
    HostsInv net { s with inbox := Function.update s.inbox b (l₁ ++ l₂) } := by
  have hsub := (requestsIn_remove hb).append_left s.counted
  refine ⟨fun b' p hp => h.flights b' p (mem_update_inbox hb hp), h.nodup.sublist hsub,
    fun o ho => h.fresh o (hsub.subset ho), h.replied⟩

end Removal

variable [DecidableEq ι] [DecidableEq κ]

theorem hostsInv_init (h : (hostsLts net).init s) : HostsInv net s := by
  obtain rfl := h
  exact ⟨fun b f hf => by simp at hf, by simp [requestsIn], fun o ho => by simp [requestsIn] at ho,
    .slnil⟩

section Line

variable {c : ι} {ident : UInt16} {pkt line : List UInt8}

theorem hostsInv_line (h : HostsInv net s)
    (hreq : Decodes (hdrincl (net.key c).ip ident pkt) (net.key c).ip (net.target c)
      (net.key c).port net.listenPort line) :
    HostsInv net (s.afterLine net c ident pkt line) := by
  have hrequests : requestsIn ((s.afterLine net c ident pkt line).inbox none)
      = requestsIn (s.inbox none) ++ [⟨c, s.lines c⟩] := by
    have hhost : net.hostOf none = net.home (net.target c) := (net.target_home c).symm
    show requestsIn (net.deliver s.inbox (net.target c) _ none) = _
    rw [EchoHosts.deliver, if_pos hhost, requestsIn_append,
      requestsIn_cons_of_request rfl]
    rfl
  refine ⟨?_, ?_, ?_, h.replied⟩
  · intro b p hp
    rcases mem_deliver hp with hp | ⟨rfl, hb⟩
    · exact h.flights b p hp
    · refine ⟨?_, hb⟩
      unfold Flight.Genuine
      rw [if_neg (by simp)]
      exact ⟨line, hreq⟩
  · rw [hrequests, ← List.append_assoc]
    refine List.nodup_append.mpr ⟨h.nodup, List.nodup_singleton _, ?_⟩
    rintro o ho _ ho' rfl
    have hlt := h.fresh o ho
    rw [List.mem_singleton.mp ho'] at hlt
    exact absurd hlt (Nat.lt_irrefl _)
  · intro o ho
    show o.index < Function.update s.lines c (s.lines c + 1) o.client
    rw [hrequests, ← List.append_assoc] at ho
    rcases List.mem_append.mp ho with ho | ho
    · have hlt := h.fresh o ho
      by_cases hc : o.client = c
      · rw [hc, Function.update_self]
        rw [hc] at hlt
        omega
      · rwa [Function.update_of_ne hc]
    · rw [List.mem_singleton.mp ho, Function.update_self]
      exact Nat.lt_succ_self _

end Line

section Serve

variable {l₁ l₂ : List (Flight ι)} {e : EchoEnv} {addr : UInt32} {ident : UInt16}

theorem afterServe_ignored (hreq : requestOf net.listenPort f.pkt = none) :
    s.afterServe net f (l₁ ++ l₂) e addr ident
      = { s with inbox := Function.update s.inbox none (l₁ ++ l₂) } := by
  unfold HostsState.afterServe
  simp only [iter_ignored hreq, countsRequest_none hreq, HostsState.afterAct, EchoAct.isReply,
    Bool.false_eq_true, if_false]

theorem inbox_afterServe : (s.afterServe net f (l₁ ++ l₂) e addr ident).inbox
    = HostsState.afterAct net (Function.update s.inbox none (l₁ ++ l₂)) f.origin addr ident
      (echoServerIter net.listenPort e s.table f.pkt).1 := rfl

/-- Handling a request counts its line, for the only time, or leaves it uncounted. -/
theorem hostsInv_request (h : HostsInv net s) (hb : s.inbox none = l₁ ++ f :: l₂)
    (hr : f.reply = false) : HostsInv net (s.afterServe net f (l₁ ++ l₂) e addr ident) := by
  have hmem : f ∈ s.inbox none := by
    rw [hb]
    exact List.mem_append_right _ List.mem_cons_self
  have hrequests : requestsIn ((s.afterServe net f (l₁ ++ l₂) e addr ident).inbox none)
      = requestsIn l₁ ++ requestsIn l₂ := by
    rw [inbox_afterServe, requestsIn_afterAct, Function.update_self, requestsIn_append]
  have hbefore : requestsIn (s.inbox none) = requestsIn l₁ ++ f.origin :: requestsIn l₂ := by
    rw [hb, requestsIn_append, requestsIn_cons_of_request hr]
  -- the origin of the request moves from the queue to the counted lines, or goes
  have hsub : ((s.afterServe net f (l₁ ++ l₂) e addr ident).counted
      ++ (requestsIn l₁ ++ requestsIn l₂)).Subperm (s.counted ++ requestsIn (s.inbox none)) := by
    rw [hbefore]
    show ((if countsRequest net.listenPort e s.table f.pkt then s.counted ++ [f.origin]
      else s.counted) ++ _).Subperm _
    split_ifs
    · rw [List.append_assoc, List.singleton_append]
      exact (List.perm_middle.symm.append_left _).subperm
    · exact ((List.Sublist.append_left
        (List.Sublist.append_left (List.sublist_cons_self _ _) _) _)).subperm
  refine ⟨?_, ?_, ?_, ?_⟩
  · intro b p hp
    rw [inbox_afterServe] at hp
    rcases mem_afterAct hp with hp | ⟨dst, pkt, hact, rfl, hdst⟩
    · exact h.flights b p (mem_update_inbox hb hp)
    · obtain ⟨-, hgenuine, hip⟩ :=
        genuine_reply addr ident (h.flights none f hmem).1 hr hact
      refine ⟨hgenuine, ?_⟩
      rw [hdst, hip]
      rfl
  · rw [hrequests]
    obtain ⟨l, hperm, hsub⟩ := hsub
    exact hperm.nodup_iff.mp (h.nodup.sublist hsub)
  · intro o ho
    rw [hrequests] at ho
    exact h.fresh o (hsub.subset ho)
  · have hcounted : s.counted.Sublist (s.afterServe net f (l₁ ++ l₂) e addr ident).counted := by
      show s.counted.Sublist (if _ then _ else _)
      split_ifs
      · exact List.sublist_append_left _ _
      · exact .refl _
    show List.Sublist (if (echoServerIter net.listenPort e s.table f.pkt).1.isReply then
      s.replied ++ [f.origin] else s.replied) _
    split_ifs with hreply
    · obtain ⟨dst, pkt, hact⟩ := EchoAct.eq_replied hreply
      obtain ⟨hcount, -, -⟩ :=
        genuine_reply addr ident (h.flights none f hmem).1 hr hact
      show (s.replied ++ [f.origin]).Sublist (if _ then _ else _)
      rw [if_pos hcount]
      exact h.replied.append_right _
    · exact h.replied.trans hcounted

end Serve

theorem hostsInv_step (hports : PortsApart net) {l : HostsLabel ι} {t : HostsState ι}
    (h : HostsInv net s) (hst : (hostsLts net).step s l t) : HostsInv net t := by
  cases hst with
  | start hpc => exact ⟨h.flights, h.nodup, h.fresh, h.replied⟩
  | eof hpc => exact ⟨h.flights, h.nodup, h.fresh, h.replied⟩
  | line hpc hlen hreq =>
    obtain ⟨pkt', hpkt, hdec⟩ := echoClientLine_spec _ _ _ _ (hlen.trans (by omega))
    obtain rfl := Option.some.inj (hreq.symm.trans hpkt)
    exact hostsInv_line h (hdec _ _)
  | unsent hpc => exact h
  | @serve f l₁ l₂ e addr ident hb =>
    have hf := h.flights none f (by simp [hb])
    cases hr : f.reply with
    | true =>
      rw [afterServe_ignored (requestOf_reply hports hf.1 hf.2 hr)]
      exact hostsInv_remove h hb
    | false => exact hostsInv_request h hb hr
  | recv hpc hb =>
    have hrem := hostsInv_remove h hb
    exact ⟨hrem.flights, hrem.nodup, hrem.fresh, hrem.replied⟩
  | drop hb => exact hostsInv_remove h hb

/-- With the ports apart, neither program takes its own packet in a step. -/
theorem peersOnly_step (hports : PortsApart net) {l : HostsLabel ι} {t : HostsState ι}
    (h : HostsInv net s) (hst : (hostsLts net).step s l t) : PeersOnly net s l := by
  cases hst with
  | @serve f l₁ l₂ e addr ident hb =>
    intro hr
    have hf := h.flights none f (by simp [hb])
    rw [iter_ignored (requestOf_reply hports hf.1 hf.2 hr)]
  | @recv c f l₁ l₂ hpc hb =>
    intro hr hc
    have hf := h.flights (some c) f (by simp [hb])
    exact accept_own hports hf.1 hf.2 hr hc
  | _ => trivial

section Loop

/-- The server handles a short request, the only packet in its queue: the request is counted, and
the reply goes back to its sender, into the server's own queue where the sender is on its host. -/
theorem serve_short {t : ClientTable} {c : ClientKey → ℕ} (ht : s.table = some t)
    (hc : CountsAre t c) (hinbox : s.inbox none = [f]) {src dst : UInt32} {sport : UInt16}
    {payload : List UInt8} (hd : Decodes f.pkt src dst sport net.listenPort payload)
    (hs : payload ≠ SHUTDOWN) (hlen : payload.length ≤ 1389) {e : EchoEnv} (he : e.calloc = true) :
    ∃ s' t' c' pkt cnt src', (hostsLts net).step s (.serve f e 0 1) s' ∧
      (echoServerIter net.listenPort e s.table f.pkt).1 = .replied src pkt ∧
      s'.table = some t' ∧ CountsAre t' c' ∧ s'.counted = s.counted ++ [f.origin] ∧
      (net.serverHost = net.home src → s'.inbox none = [⟨hdrincl 0 1 pkt, f.origin, true⟩]) ∧
      Decodes (hdrincl 0 1 pkt) src' src net.listenPort sport (echoText payload cnt) := by
  obtain ⟨d, -, rfl, rfl, rfl, hreq⟩ := requestOf_of_decodes net.listenPort hd
  rw [if_pos rfl] at hreq
  obtain ⟨t', ht', hiter⟩ := iter_counted hc hreq hs he
  have hfit : (echoText (d.slice f.pkt) (UInt32.ofNat (c d.sender + 1))).length ≤ 1400 := by
    have := length_echoText_le (d.slice f.pkt) (UInt32.ofNat (c d.sender + 1))
    omega
  rw [echoReply_eq, if_pos hfit, ← ht] at hiter
  have hcount := (reply_counts hreq (congrArg Prod.fst hiter)).1
  refine ⟨s.afterServe net f ([] ++ []) e 0 1, t', _, _, _, _, .serve hinbox,
    congrArg Prod.fst hiter, congrArg Prod.snd hiter, ht', if_pos hcount, fun hhost => ?_,
    decodes_hdrincl 0 1 e.pid d.dstIp d.srcIp net.listenPort d.srcPort hfit 64⟩
  rw [inbox_afterServe, hiter]
  refine (if_pos hhost).trans ?_
  rw [Function.update_self]
  rfl

/-- A client on the server's host with the server's port: the server handles its own reply to the
client's first line as a second request. -/
theorem self_loop {c : ι} (hhost : net.home (net.key c).ip = net.serverHost)
    (hport : (net.key c).port = net.listenPort) : ∃ tr s, (hostsLts net).Run tr s ∧
      (∃ p ∈ tr, ¬ PeersOnly net p.1 p.2) ∧ s.counted = [⟨c, 0⟩, ⟨c, 0⟩] := by
  obtain ⟨e, he⟩ : ∃ e : EchoEnv, e.calloc = true := ⟨⟨1, true, [], 0⟩, rfl⟩
  obtain ⟨t₀, ht₀, hc₀⟩ := countsAre_created
  -- the client sends the line `a`
  have hchomp : chomp [97] = [97] := by decide
  obtain ⟨pkt, hreq, hdec⟩ := echoClientLine_spec e (net.target c) net.listenPort (net.key c).port
    (show ([97] : List UInt8).length ≤ 1400 by decide)
  rw [hchomp] at hdec
  set s₀ : HostsState ι :=
    ⟨rawudpCtCreate true true, fun _ => [], fun _ => .off, fun _ => 0, [], []⟩ with hs₀
  set s₁ : HostsState ι := { s₀ with pc := Function.update s₀.pc c .reading } with hs₁
  set s₂ := s₁.afterLine net c 1 pkt (chomp [97]) with hs₂
  have hstart : (hostsLts net).step s₀ (.start c) s₁ := .start rfl
  have hline : (hostsLts net).step s₁ (.line c e 1 [97]) s₂ :=
    .line (Function.update_self _ _ _) (by decide) hreq
  have hinbox : s₂.inbox none = [⟨hdrincl (net.key c).ip 1 pkt, ⟨c, 0⟩, false⟩] :=
    if_pos (net.target_home c).symm
  -- the server replies, to its own host
  obtain ⟨s₃, t₁, c₁, pkt₁, cnt₁, src₁, hserve₁, -, ht₁, hc₁, hcounted₁, hback, hdec₁⟩ :=
    serve_short (show s₂.table = some t₀ from ht₀) hc₀ hinbox (hdec (net.key c).ip 1) (by decide)
      (by decide) he
  rw [hport] at hdec₁
  have hne : echoText [97] cnt₁ ≠ SHUTDOWN := fun h => by
    have := congrArg List.head? h
    simp [echoText, cstr, SHUTDOWN, ascii, RAWUDP_MAX_PAYLOAD] at this
  have hlen : (echoText [97] cnt₁).length ≤ 1389 :=
    (length_echoText_le [97] cnt₁).trans (by decide)
  obtain ⟨s₄, -, -, pkt₂, -, -, hserve₂, hact, -, -, hcounted₂, -, -⟩ :=
    serve_short ht₁ hc₁ (hback hhost.symm) hdec₁ hne hlen he
  refine ⟨_, s₄, ⟨s₀, rfl, .cons hstart (.cons hline (.cons hserve₁ (.single hserve₂)))⟩,
    ⟨(s₃, .serve ⟨hdrincl 0 1 pkt₁, ⟨c, 0⟩, true⟩ e 0 1), by simp, fun hpeers => ?_⟩, ?_⟩
  · have hignored := hpeers rfl
    rw [hact] at hignored
    cases hignored
  · rw [hcounted₂, hcounted₁]
    rfl

end Loop

/-- In every run neither program takes its own packet for the peer's, and no line is counted or
replied to twice, exactly when no client on the server's host has the server's port. -/
theorem own_packets_ignored_iff (net : EchoHosts ι κ) :
    (∀ tr s, (hostsLts net).Run tr s → (∀ p ∈ tr, PeersOnly net p.1 p.2) ∧ s.counted.Nodup ∧
        s.replied.Nodup)
      ↔ ∀ c, net.home (net.key c).ip = net.serverHost → (net.key c).port ≠ net.listenPort := by
  constructor
  · intro h c hhost hport
    obtain ⟨tr, s, hrun, -, hcounted⟩ := self_loop hhost hport
    obtain ⟨-, hnodup, -⟩ := h tr s hrun
    rw [hcounted] at hnodup
    simp at hnodup
  · intro hports tr s hrun
    have hinv : ∀ {tr s}, (hostsLts net).Run tr s → HostsInv net s := fun hrun =>
      hrun.inv (fun _ => hostsInv_init) fun _ _ _ h hst => hostsInv_step hports h hst
    refine ⟨fun p hp => ?_, ?_, ?_⟩
    · obtain ⟨_, _, _, -, hbefore, hst, -⟩ := hrun.before hp
      exact peersOnly_step hports (hinv hbefore) hst
    · exact (hinv hrun).nodup.sublist (List.sublist_append_left _ _)
    · exact ((hinv hrun).nodup.sublist (List.sublist_append_left _ _)).sublist (hinv hrun).replied

theorem seven_ne : (7 : UInt16) ≠ 0 := by decide

/-- The server and a client on port 7 of one host. -/
def sharedPort : EchoHosts Unit Unit where
  home _ := ()
  serverHost := ()
  listenPort := 7
  key _ := ⟨0x0100007F, 7⟩
  target _ := 0x0100007F
  listenPort_ne := seven_ne
  port_ne _ := seven_ne
  target_home _ := rfl

theorem shared_port_loop : ∃ tr s, (hostsLts sharedPort).Run tr s ∧
    (∃ p ∈ tr, ¬ PeersOnly sharedPort p.1 p.2) ∧ s.counted = [⟨(), 0⟩, ⟨(), 0⟩] :=
  self_loop rfl rfl

end EltexSystems
