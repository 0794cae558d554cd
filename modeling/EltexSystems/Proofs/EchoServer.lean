import EltexSystems.EchoServer
import EltexSystems.Proofs.Echo

/-!
# What each client sees of the echo server

A datagram is no request, a `shutdown`, a request counted or one refused (`iter_cases`), and the
reply to a counted request depends on the request and its number alone.  A reply too long for a
payload is dropped after its request has been counted, so the numbers a client is sent are
consecutive while every reply fits (`replies_consecutive_iff`).  What a client is sent is a function
of its own datagrams (`packetsTo_eq`), the same in any two runs that agree on those
(`clients_isolated`).
-/

namespace EltexSystems

open CStr Mem

variable {listenPort : UInt16}

section Step

variable {t : ClientTable} {c : ClientKey → ℕ} {buf : List UInt8} {d : Datagram}

theorem requestOf_eq_some : requestOf listenPort buf = some d ↔
    rawudpParseIpv4Udp buf buf.length = some d ∧ d.dstPort = listenPort := by
  unfold requestOf
  rw [Option.filter_eq_some_iff, beq_iff_eq]

theorem iter_ignored (h : requestOf listenPort buf = none) (e : EchoEnv)
    (t : Option ClientTable) : echoServerIter listenPort e t buf = (.ignored, t) := by
  unfold echoServerIter
  rcases hp : rawudpParseIpv4Udp buf buf.length with _ | d
  · rfl
  · have hd : d.dstPort ≠ listenPort := fun hd => by
      rw [requestOf_eq_some.mpr ⟨hp, hd⟩] at h
      cases h
    simp only [if_pos hd]

/-- A packet to the listening port is a request of its sender. -/
theorem requestOf_packet (pid srcIp dstIp : UInt32) (srcPort : UInt16) {payload : List UInt8}
    (hlen : payload.length < 65528) (ttl : UInt8) :
    ∃ d, requestOf listenPort (packet pid srcIp dstIp srcPort listenPort payload ttl) = some d ∧
      d.sender = ⟨srcIp, srcPort⟩ ∧
      d.slice (packet pid srcIp dstIp srcPort listenPort payload ttl) = payload := by
  have hd := decodes_packet pid srcIp dstIp srcPort listenPort hlen ttl []
  rw [List.append_nil] at hd
  obtain ⟨d, hp, rfl, -, rfl, hport, -, hs⟩ := hd
  exact ⟨d, requestOf_eq_some.mpr ⟨hp, hport⟩, rfl, hs⟩

/-- An iteration over a request is the part of the loop behind the two filters. -/
theorem iter_request (h : requestOf listenPort buf = some d) (e : EchoEnv)
    (t : Option ClientTable) : echoServerIter listenPort e t buf
      = if d.slice buf = SHUTDOWN then (.forgot, rawudpCtReset t d.sender)
        else match rawudpCtNext t d.sender (some e.cnt) e.calloc with
          | (0, ct, some cnt) => (echoReply listenPort e d (d.slice buf) cnt, ct)
          | (_, ct, _) => (.skipped, ct) := by
  obtain ⟨hp, hport⟩ := requestOf_eq_some.mp h
  have hlen : d.slice buf = SHUTDOWN → d.payloadLen = 8 := fun hs => by
    rw [← length_slice hp, hs]
    rfl
  unfold echoServerIter
  simp only [hp, if_neg (not_not_intro hport)]
  by_cases hs : d.slice buf = SHUTDOWN
  · rw [if_pos ⟨hlen hs, hs⟩, if_pos hs]
    rfl
  · rw [if_neg fun h => hs h.2, if_neg hs]
    rfl

theorem iter_counted (h : CountsAre t c) (hr : requestOf listenPort buf = some d)
    (hs : d.slice buf ≠ SHUTDOWN) {e : EchoEnv} (hc : e.calloc = true) :
    ∃ t', CountsAre t' (Function.update c d.sender (c d.sender + 1)) ∧
      echoServerIter listenPort e (some t) buf
        = (echoReply listenPort e d (d.slice buf) (UInt32.ofNat (c d.sender + 1)), some t') := by
  rw [iter_request hr, if_neg hs]
  rcases next_spec h d.sender e.cnt e.calloc with ⟨-, t', he, ht'⟩ | ⟨hf, -, -⟩
  · rw [he]
    exact ⟨t', ht', rfl⟩
  · rw [hc] at hf
    cases hf

theorem iter_cases (listenPort : UInt16) (h : CountsAre t c) (a : Arrival) :
    requestOf listenPort a.buf = none ∧
      echoServerIter listenPort a.env (some t) a.buf = (.ignored, some t) ∨
    ∃ d, requestOf listenPort a.buf = some d ∧
      (d.slice a.buf = SHUTDOWN ∧ (∃ t', CountsAre t' (Function.update c d.sender 0) ∧
          echoServerIter listenPort a.env (some t) a.buf = (.forgot, some t')) ∨
        d.slice a.buf ≠ SHUTDOWN ∧ (a.env.calloc = true ∨ 0 < c d.sender) ∧
          (∃ t', CountsAre t' (Function.update c d.sender (c d.sender + 1)) ∧
            echoServerIter listenPort a.env (some t) a.buf
              = (echoReply listenPort a.env d (d.slice a.buf) (UInt32.ofNat (c d.sender + 1)),
                some t')) ∨
        d.slice a.buf ≠ SHUTDOWN ∧ a.env.calloc = false ∧ c d.sender = 0 ∧
          echoServerIter listenPort a.env (some t) a.buf = (.skipped, some t)) := by
  rcases hr : requestOf listenPort a.buf with _ | d
  · exact .inl ⟨rfl, iter_ignored hr _ _⟩
  right
  refine ⟨d, rfl, ?_⟩
  rw [iter_request hr]
  by_cases hs : d.slice a.buf = SHUTDOWN
  · obtain ⟨t', he, ht'⟩ := reset_spec h d.sender
    rw [if_pos hs, he]
    exact .inl ⟨hs, t', ht', rfl⟩
  · rw [if_neg hs]
    right
    rcases next_spec h d.sender a.env.cnt a.env.calloc with ⟨hc, t', he, ht'⟩ | ⟨hc, h0, he⟩
    · rw [he]
      exact .inl ⟨hs, hc, t', ht', rfl⟩
    · rw [he]
      exact .inr ⟨hs, hc, h0, rfl⟩

theorem counts_step (h : CountsAre t c) {a : Arrival} {u : Option ClientTable}
    (hst : (serverLts listenPort).step (some t) a u) : ∃ t' c', u = some t' ∧ CountsAre t' c' := by
  obtain rfl : u = (echoServerIter listenPort a.env (some t) a.buf).2 := hst
  rcases iter_cases listenPort h a with ⟨-, he⟩ | ⟨d, -, ⟨-, t', ht', he⟩ |
    ⟨-, -, t', ht', he⟩ | ⟨-, -, -, he⟩⟩
  · exact ⟨t, c, congrArg Prod.snd he, h⟩
  · exact ⟨t', _, congrArg Prod.snd he, ht'⟩
  · exact ⟨t', _, congrArg Prod.snd he, ht'⟩
  · exact ⟨t, c, congrArg Prod.snd he, h⟩

theorem run_counts {tr : List (Option ClientTable × Arrival)} {u : Option ClientTable}
    (h : (serverLts listenPort).Run tr u) : ∃ t c, u = some t ∧ CountsAre t c := by
  refine h.inv (I := fun u => ∃ t c, u = some t ∧ CountsAre t c) ?_ ?_
  · rintro s rfl
    obtain ⟨t, ht, hc⟩ := countsAre_created
    exact ⟨t, _, ht, hc⟩
  · rintro s a u ⟨t, c, rfl, hc⟩ hst
    exact counts_step hc hst

end Step

section Replies

variable {key : ClientKey}

theorem packetTo_packet (pid srcIp dstIp : UInt32) (srcPort dstPort : UInt16)
    {payload : List UInt8} (hlen : payload.length ≤ 1400) (ttl : UInt8) :
    packetTo key (.replied dstIp (packet pid srcIp dstIp srcPort dstPort payload ttl))
      = if (⟨dstIp, dstPort⟩ : ClientKey) = key then
          some (packet pid srcIp dstIp srcPort dstPort payload ttl)
        else none := by
  have hd := decodes_packet pid srcIp dstIp srcPort dstPort (show payload.length < 65528 by omega)
    ttl []
  rw [List.append_nil] at hd
  obtain ⟨d, hp, -, -, -, hport, -, -⟩ := hd
  rcases key with ⟨ip, port⟩
  simp only [packetTo, hp, Option.map_some, hport, Option.some.injEq, ClientKey.mk.injEq]

theorem echoReply_ne_forgot (e : EchoEnv) (d : Datagram) (payload : List UInt8) (cnt : UInt32) :
    echoReply listenPort e d payload cnt ≠ .forgot := by
  rw [echoReply_eq]
  split_ifs <;> simp

theorem packetTo_echoReply (e : EchoEnv) (d : Datagram) (payload : List UInt8) (cnt : UInt32) :
    packetTo key (echoReply listenPort e d payload cnt)
      = if d.sender = key ∧ (echoText payload cnt).length ≤ 1400 then
          some (packet e.pid d.dstIp d.srcIp listenPort d.srcPort (echoText payload cnt) 64)
        else none := by
  rw [echoReply_eq]
  by_cases hfit : (echoText payload cnt).length ≤ 1400
  · rw [if_pos hfit, packetTo_packet _ _ _ _ _ hfit]
    simp only [Datagram.sender, hfit, and_true]
  · rw [if_neg hfit, if_neg fun h => hfit h.2]
    rfl

theorem rtakeWhile_echoText (payload : List UInt8) (cnt : UInt32) :
    (echoText payload cnt).rtakeWhile isdigit = decimal cnt.toNat := by
  have hspace : ((cstr (payload.take RAWUDP_MAX_PAYLOAD) ++ ascii " ").reverse).takeWhile isdigit
      = [] := by
    rw [List.reverse_append]
    exact List.takeWhile_cons_of_neg (by decide)
  have hdigits : ∀ b ∈ (decimal cnt.toNat).reverse, isdigit b = true := fun b hb =>
    isdigit_of_mem_decimal (List.mem_reverse.mp hb)
  unfold echoText List.rtakeWhile
  rw [List.reverse_append, List.takeWhile_append_of_pos hdigits, hspace, List.append_nil,
    List.reverse_reverse]

theorem replyNumber_packet (pid srcIp dstIp : UInt32) (srcPort dstPort : UInt16)
    {payload : List UInt8} {cnt : UInt32} (hlen : (echoText payload cnt).length ≤ 1400)
    (ttl : UInt8) :
    replyNumber (packet pid srcIp dstIp srcPort dstPort (echoText payload cnt) ttl)
      = some cnt.toNat := by
  have hd := decodes_packet pid srcIp dstIp srcPort dstPort
    (show (echoText payload cnt).length < 65528 by omega) ttl []
  rw [List.append_nil] at hd
  obtain ⟨d, hp, -, -, -, -, -, hs⟩ := hd
  unfold replyNumber
  rw [hp, Option.map_some, hs, rtakeWhile_echoText, digitsValue_decimal]

end Replies

section Numbers

variable {key : ClientKey}

theorem numbersUpTo_succ (n : ℕ) : numbersUpTo (n + 1) = numbersUpTo n ++ [(n + 1) % 2 ^ 32] := by
  unfold numbersUpTo
  rw [List.range_succ, List.map_append]
  rfl

/-- A reply adds its number to those of the client it goes to. -/
theorem noteReply_reply {t : Option ClientTable} {a : Arrival} {d : Datagram} {n : ℕ} (ns : List ℕ)
    (he : actOf listenPort (t, a)
      = echoReply listenPort a.env d (d.slice a.buf) (UInt32.ofNat n))
    (hlen : (echoText (d.slice a.buf) (UInt32.ofNat n)).length ≤ 1400) :
    noteReply listenPort key ns (t, a) = if d.sender = key then ns ++ [n % 2 ^ 32] else ns := by
  unfold noteReply
  simp only [he, packetTo_echoReply, hlen, and_true]
  rw [if_neg fun hf => echoReply_ne_forgot _ _ _ _ hf.1]
  split_ifs
  · rw [Option.bind_some, replyNumber_packet _ _ _ _ _ hlen, UInt32.toNat_ofNat']
    rfl
  · exact List.append_nil _

theorem reply_fits {t : ClientTable} {c : ClientKey → ℕ} (h : CountsAre t c) {a : Arrival}
    {d : Datagram} (hfit : ReplyFits listenPort (some t) a)
    (hr : requestOf listenPort a.buf = some d) (hs : d.slice a.buf ≠ SHUTDOWN)
    (hc : a.env.calloc = true ∨ 0 < c d.sender) :
    (echoText (d.slice a.buf) (UInt32.ofNat (c d.sender + 1))).length ≤ 1400 := by
  have hlen := hfit t d rfl hr hs (hc.imp_right h.counter_isSome.mpr)
  rwa [h.counter_getD, ← UInt32.ofNat_one, ← UInt32.ofNat_add] at hlen

/-- A step whose reply fits takes the numbers of a client as far as its count. -/
theorem noteReply_step (key : ClientKey) {t : ClientTable} {c : ClientKey → ℕ}
    (h : CountsAre t c) {a : Arrival} (hfit : ReplyFits listenPort (some t) a) :
    ∃ t' c', (echoServerIter listenPort a.env (some t) a.buf).2 = some t' ∧ CountsAre t' c' ∧
      noteReply listenPort key (numbersUpTo (c key)) (some t, a) = numbersUpTo (c' key) := by
  rcases iter_cases listenPort h a with ⟨hr, he⟩ | ⟨d, hr, ⟨hs, t', ht', he⟩ |
    ⟨hs, hc, t', ht', he⟩ | ⟨hs, hc, h0, he⟩⟩
  · refine ⟨t, c, congrArg Prod.snd he, h, ?_⟩
    simp [noteReply, actOf, he, packetTo]
  · refine ⟨t', _, congrArg Prod.snd he, ht', ?_⟩
    by_cases hk : d.sender = key
    · simp [noteReply, actOf, senderOf, he, hr, hk, numbersUpTo]
    · simp [noteReply, actOf, senderOf, he, hr, hk, packetTo, Function.update_of_ne (Ne.symm hk)]
  · refine ⟨t', _, congrArg Prod.snd he, ht', ?_⟩
    rw [noteReply_reply _ (congrArg Prod.fst he) (reply_fits h hfit hr hs hc)]
    split_ifs with hk
    · subst hk
      rw [Function.update_self, numbersUpTo_succ]
    · rw [Function.update_of_ne (Ne.symm hk)]
  · refine ⟨t, c, congrArg Prod.snd he, h, ?_⟩
    simp [noteReply, actOf, he, packetTo]

/-- A request that fits and gets no reply was refused by the table. -/
theorem skipped_keeps {t : ClientTable} {c : ClientKey → ℕ} (h : CountsAre t c) {a : Arrival}
    (hfit : ReplyFits listenPort (some t) a) (hskip : actOf listenPort (some t, a) = .skipped) :
    (echoServerIter listenPort a.env (some t) a.buf).2 = some t := by
  unfold actOf at hskip
  rcases iter_cases listenPort h a with ⟨-, he⟩ | ⟨d, hr, ⟨-, t', -, he⟩ |
    ⟨hs, hc, t', -, he⟩ | ⟨-, -, -, he⟩⟩
  · rw [he]
  · rw [he] at hskip
    cases hskip
  · have hlen := reply_fits h hfit hr hs hc
    rw [he, echoReply_eq, if_pos hlen] at hskip
    cases hskip
  · rw [he]

theorem noteReply_path {tr : List (Option ClientTable × Arrival)} :
    ∀ {s u : Option ClientTable} {t : ClientTable} {c : ClientKey → ℕ},
      (serverLts listenPort).Path s tr u → s = some t → CountsAre t c →
      (∀ p ∈ tr, ReplyFits listenPort p.1 p.2) →
      ∃ n, tr.foldl (noteReply listenPort key) (numbersUpTo (c key)) = numbersUpTo n := by
  induction tr with
  | nil => exact fun {_ _ _ c} _ _ _ _ => ⟨c key, rfl⟩
  | cons p tr ih =>
    rintro s u t c h rfl hc hfit
    cases h with
    | @cons _ v _ a _ hst hp =>
      obtain ⟨t', c', he, hc', hnote⟩ :=
        noteReply_step key hc (hfit _ List.mem_cons_self)
      rw [List.foldl_cons, hnote]
      exact ih hp (Eq.trans hst he) hc' fun p hp => hfit p (List.mem_cons_of_mem _ hp)

theorem skipped_of_not_fits {t : ClientTable} {c : ClientKey → ℕ} (h : CountsAre t c) {a : Arrival}
    (hfit : ¬ ReplyFits listenPort (some t) a) :
    actOf listenPort (some t, a) = .skipped ∧
      (echoServerIter listenPort a.env (some t) a.buf).2 ≠ some t := by
  unfold ReplyFits at hfit
  push Not at hfit
  obtain ⟨_, d, ⟨⟩, hr, hs, hc, hlong⟩ := hfit
  have hlong' : ¬ (echoText (d.slice a.buf) (UInt32.ofNat (c d.sender + 1))).length ≤ 1400 := by
    rw [h.counter_getD, ← UInt32.ofNat_one, ← UInt32.ofNat_add] at hlong
    exact Nat.not_le.mpr hlong
  unfold actOf
  rcases iter_cases listenPort h a with ⟨hr', -⟩ | ⟨d', hr', ⟨hs', -⟩ |
    ⟨-, -, t', ht', he⟩ | ⟨-, hc', h0, -⟩⟩
  · rw [hr] at hr'
    cases hr'
  · rw [hr] at hr'
    cases hr'
    exact absurd hs' hs
  · rw [hr] at hr'
    cases hr'
    refine ⟨?_, ?_⟩
    · rw [he, echoReply_eq, if_neg hlong']
    · -- the counter stored has moved on by one
      rw [he]
      rintro ⟨⟩
      have hv := (h.counter_getD d.sender).symm.trans (ht'.counter_getD d.sender)
      rw [Function.update_self, UInt32.ofNat_add] at hv
      simp at hv
  · rw [hr] at hr'
    cases hr'
    rcases hc with hc | hc
    · rw [hc] at hc'
      cases hc'
    · have := h.counter_isSome.mp hc
      omega

/-- A request of at most 1389 bytes is never dropped. -/
theorem replyFits_of_short {t : Option ClientTable} {a : Arrival}
    (h : ∀ d, requestOf listenPort a.buf = some d → d.payloadLen ≤ 1389) :
    ReplyFits listenPort t a := by
  intro t₁ d _ hr _ _
  have hlen := h d hr
  have hle := length_echoText_le (d.slice a.buf) ((t₁.counter d.sender).getD 0 + 1)
  rw [length_slice (requestOf_eq_some.mp hr).1] at hle
  simp only [RAWUDP_MAX_PAYLOAD]
  omega

/-- In a run, requests the server sends no reply to leave the table as it was, and the numbers each
client has been sent since its last `shutdown` are consecutive from 1 on, exactly when no request
that is counted has a reply too long for a payload. -/
theorem replies_consecutive_iff {tr : List (Option ClientTable × Arrival)}
    {u : Option ClientTable} (h : (serverLts listenPort).Run tr u) :
    ((∀ p ∈ tr, actOf listenPort p = .skipped →
          (echoServerIter listenPort p.2.env p.1 p.2.buf).2 = p.1) ∧
        ∀ tr', tr' <+: tr → ∀ key, ∃ n, numbersSent listenPort key tr' = numbersUpTo n)
      ↔ ∀ p ∈ tr, ReplyFits listenPort p.1 p.2 := by
  constructor
  · rintro ⟨hkept, -⟩ ⟨s, a⟩ hp
    obtain ⟨_, _, _, -, hrun, -, -⟩ := h.before hp
    obtain ⟨t, c, rfl, hc⟩ := run_counts hrun
    by_contra hfit
    obtain ⟨hskip, hne⟩ := skipped_of_not_fits hc hfit
    exact hne (hkept _ hp hskip)
  · intro hfit
    refine ⟨fun p hp hskip => ?_, ?_⟩
    · obtain ⟨s, a⟩ := p
      obtain ⟨_, _, _, -, hrun, -, -⟩ := h.before hp
      obtain ⟨t, c, rfl, hc⟩ := run_counts hrun
      exact skipped_keeps hc (hfit _ hp) hskip
    · rintro tr' ⟨tr₂, rfl⟩ key
      obtain ⟨s, hs, hpath⟩ := h
      obtain ⟨v, hpath', -⟩ := hpath.split
      obtain ⟨t, ht, hc⟩ := countsAre_created
      exact noteReply_path hpath' (hs.trans ht) hc fun p hp =>
        hfit p (List.mem_append_left _ hp)

/-- A request of two bytes, from port 5000 to port 7 of one host. -/
def shortArrival : Arrival :=
  ⟨⟨1, true, [], 0⟩, packet 1 0x0100007F 0x0100007F 5000 7 (ascii "hi") 64⟩

/-- A request of 1399 bytes from the same client. -/
def longArrival : Arrival :=
  ⟨⟨1, true, [], 0⟩, packet 1 0x0100007F 0x0100007F 5000 7 (List.replicate 1399 97) 64⟩

theorem replies_consecutive_iff_short : ∃ u,
    (serverLts 7).Run [(rawudpCtCreate true true, shortArrival)] u ∧
      ∀ key, ∃ n, numbersSent 7 key [(rawudpCtCreate true true, shortArrival)] = numbersUpTo n := by
  have hrun : (serverLts 7).Run [(rawudpCtCreate true true, shortArrival)]
      (echoServerIter 7 shortArrival.env (rawudpCtCreate true true) shortArrival.buf).2 :=
    ⟨_, rfl, .single rfl⟩
  refine ⟨_, hrun, fun key => ((replies_consecutive_iff hrun).mpr ?_).2 _ List.prefix_rfl key⟩
  intro p hp
  rw [List.mem_singleton.mp hp]
  refine replyFits_of_short fun d hd => ?_
  have hlen : (requestOf 7 shortArrival.buf).map Datagram.payloadLen = some 2 := by decide
  rw [show requestOf 7 shortArrival.buf = some d from hd] at hlen
  exact (Option.some.inj hlen).trans_le (by omega)

/-- A client's first request is 1399 letters `a`: the server counts it and sends nothing.  The reply
to the client's next request, the first reply it is sent, has the number 2. -/
theorem numbers_gap : ∃ t u, (serverLts 7).Run
      [(rawudpCtCreate true true, longArrival), (t, shortArrival)] u ∧
    actOf 7 (rawudpCtCreate true true, longArrival) = .skipped ∧ t ≠ rawudpCtCreate true true ∧
    numbersSent 7 ⟨0x0100007F, 5000⟩
      [(rawudpCtCreate true true, longArrival), (t, shortArrival)] = [2] := by
  obtain ⟨t₀, ht₀, hc₀⟩ := countsAre_created
  rw [ht₀]
  -- the first request
  obtain ⟨payload, hpayload⟩ : ∃ p : List UInt8, p = List.replicate 1399 97 := ⟨_, rfl⟩
  have hlen : payload.length = 1399 := by rw [hpayload, List.length_replicate]
  have hnul : ∀ b ∈ payload, b ≠ 0 := by
    intro b hb
    rw [hpayload] at hb
    rw [List.eq_of_mem_replicate hb]
    decide
  obtain ⟨d, hr, hsender, hslice⟩ : ∃ d, requestOf 7 longArrival.buf = some d ∧
      d.sender = ⟨0x0100007F, 5000⟩ ∧ d.slice longArrival.buf = payload := by
    rw [longArrival, ← hpayload]
    exact requestOf_packet 1 0x0100007F 0x0100007F 5000 (by omega) 64
  have hs : d.slice longArrival.buf ≠ SHUTDOWN := fun h => by
    rw [← hslice, h] at hlen
    exact absurd hlen (by decide)
  have hlong : ¬ ReplyFits 7 (some t₀) longArrival := fun hfit => by
    have hle := reply_fits hc₀ hfit hr hs (.inl rfl)
    rw [hslice, echoText_eq _ hnul (by omega), replyText, List.length_append, List.length_append,
      hlen] at hle
    exact absurd hle (by decide)
  obtain ⟨hskip, hne⟩ := skipped_of_not_fits hc₀ hlong
  obtain ⟨t₁, hc₁, he₁⟩ := iter_counted hc₀ hr hs (e := longArrival.env) rfl
  -- the second
  obtain ⟨d', hr', hsender', hslice'⟩ : ∃ d', requestOf 7 shortArrival.buf = some d' ∧
      d'.sender = ⟨0x0100007F, 5000⟩ ∧ d'.slice shortArrival.buf = ascii "hi" :=
    requestOf_packet 1 0x0100007F 0x0100007F 5000 (by decide) 64
  have hs' : d'.slice shortArrival.buf ≠ SHUTDOWN := by
    rw [hslice']
    decide
  obtain ⟨t₂, -, he₂⟩ := iter_counted hc₁ hr' hs' (e := shortArrival.env) rfl
  have hcount : Function.update (fun _ => 0) d.sender (0 + 1) d'.sender = 1 := by
    rw [hsender, hsender', Function.update_self]
  have hfits : (echoText (d'.slice shortArrival.buf) (UInt32.ofNat (1 + 1))).length ≤ 1400 := by
    rw [hslice']
    decide
  rw [hcount] at he₂
  refine ⟨some t₁, some t₂, ⟨_, ht₀.symm, .cons (congrArg Prod.snd he₁).symm (.single
    (congrArg Prod.snd he₂).symm)⟩, hskip, ?_, ?_⟩
  · rw [he₁] at hne
    exact hne
  · have hfirst : noteReply 7 ⟨0x0100007F, 5000⟩ [] (some t₀, longArrival) = [] := by
      simp [noteReply, hskip, packetTo]
    show noteReply 7 _ (noteReply 7 _ [] (some t₀, longArrival)) (some t₁, shortArrival) = [2]
    rw [hfirst, noteReply_reply (a := shortArrival) [] (congrArg Prod.fst he₂) hfits,
      if_pos hsender']
    rfl

end Numbers

section Isolation

variable {key : ClientKey} {pid : UInt32}

/-- The packets a client is sent for its datagrams, the server counting `n` requests of it before
them. -/
def soloReplies (listenPort : UInt16) (pid : UInt32) : ℕ → List (List UInt8) → List (List UInt8)
  | _, [] => []
  | n, buf :: bufs =>
    match requestOf listenPort buf with
    | none => soloReplies listenPort pid n bufs
    | some d =>
      if d.slice buf = SHUTDOWN then soloReplies listenPort pid 0 bufs
      else (packetTo d.sender (echoReply listenPort ⟨pid, true, [], 0⟩ d (d.slice buf)
          (UInt32.ofNat (n + 1)))).toList ++ soloReplies listenPort pid (n + 1) bufs

/-- The reply depends on the process id, not on what the buffer and the counter cell held. -/
theorem echoReply_congr {e : EchoEnv} (h : e.pid = pid) (d : Datagram) (payload : List UInt8)
    (cnt : UInt32) : echoReply listenPort e d payload cnt
      = echoReply listenPort ⟨pid, true, [], 0⟩ d payload cnt := by
  rw [echoReply_eq, echoReply_eq, h]

theorem packetTo_other {e : EchoEnv} {d : Datagram} (hd : d.sender ≠ key) (payload : List UInt8)
    (cnt : UInt32) : packetTo key (echoReply listenPort e d payload cnt) = none := by
  rw [packetTo_echoReply, if_neg fun h => hd h.1]

theorem packetsTo_cons (p : Option ClientTable × Arrival)
    (tr : List (Option ClientTable × Arrival)) : packetsTo listenPort key (p :: tr)
      = (packetTo key (actOf listenPort p)).toList ++ packetsTo listenPort key tr := by
  unfold packetsTo
  rw [List.filterMap_cons]
  rcases packetTo key (actOf listenPort p) with _ | pkt
  · rfl
  · rfl

theorem datagramsFrom_cons (p : Option ClientTable × Arrival)
    (tr : List (Option ClientTable × Arrival)) : datagramsFrom listenPort key (p :: tr)
      = if senderOf listenPort p.2.buf = some key then
          p.2.buf :: datagramsFrom listenPort key tr
        else datagramsFrom listenPort key tr := by
  unfold datagramsFrom
  rw [List.map_cons, List.filter_cons]
  simp only [beq_iff_eq]

/-- What a client is sent is a function of its own datagrams. -/
theorem packetsTo_eq {tr : List (Option ClientTable × Arrival)} :
    ∀ {s u : Option ClientTable} {t : ClientTable} {c : ClientKey → ℕ},
      (serverLts listenPort).Path s tr u → s = some t → CountsAre t c →
      (∀ p ∈ tr, p.2.env.calloc = true ∧ p.2.env.pid = pid) →
      packetsTo listenPort key tr
        = soloReplies listenPort pid (c key) (datagramsFrom listenPort key tr) := by
  induction tr with
  | nil => exact fun _ _ _ _ => rfl
  | cons p tr ih =>
    rintro s u t c h rfl hc henv
    cases h with
    | @cons _ v _ a _ hst hp =>
      obtain rfl : v = (echoServerIter listenPort a.env (some t) a.buf).2 := hst
      obtain ⟨hcalloc, hpid⟩ := henv _ List.mem_cons_self
      have henv' := fun p hp => henv p (List.mem_cons_of_mem _ hp)
      rw [packetsTo_cons, datagramsFrom_cons, actOf, senderOf]
      rcases iter_cases listenPort hc a with ⟨hr, he⟩ | ⟨d, hr, ⟨hs, t', ht', he⟩ |
        ⟨hs, -, t', ht', he⟩ | ⟨-, hf, -, -⟩⟩
      · simp only [he, hr]
        rw [ih hp (congrArg Prod.snd he) hc henv', if_neg (by simp)]
        rfl
      · simp only [he, hr, Option.map_some, Option.some.injEq]
        rw [ih hp (congrArg Prod.snd he) ht' henv']
        split_ifs with hk
        · subst hk
          rw [Function.update_self, soloReplies, hr]
          simp only [if_pos hs]
          rfl
        · rw [Function.update_of_ne (Ne.symm hk)]
          rfl
      · simp only [he, hr, Option.map_some, Option.some.injEq]
        rw [ih hp (congrArg Prod.snd he) ht' henv', echoReply_congr hpid]
        split_ifs with hk
        · subst hk
          rw [Function.update_self, soloReplies, hr]
          simp only [if_neg hs]
        · rw [Function.update_of_ne (Ne.symm hk), packetTo_other hk]
          rfl
      · rw [hcalloc] at hf
        cases hf

/-- Two runs that receive the same datagrams from a client send it the same packets, whatever else
they receive. -/
theorem clients_isolated (key : ClientKey) (pid : UInt32)
    {tr₁ tr₂ : List (Option ClientTable × Arrival)} {u₁ u₂ : Option ClientTable}
    (h₁ : (serverLts listenPort).Run tr₁ u₁) (h₂ : (serverLts listenPort).Run tr₂ u₂)
    (henv₁ : ∀ p ∈ tr₁, p.2.env.calloc = true ∧ p.2.env.pid = pid)
    (henv₂ : ∀ p ∈ tr₂, p.2.env.calloc = true ∧ p.2.env.pid = pid)
    (hsame : datagramsFrom listenPort key tr₁ = datagramsFrom listenPort key tr₂) :
    packetsTo listenPort key tr₁ = packetsTo listenPort key tr₂ := by
  obtain ⟨s₁, hs₁, hp₁⟩ := h₁
  obtain ⟨s₂, hs₂, hp₂⟩ := h₂
  obtain ⟨t, ht, hc⟩ := countsAre_created
  rw [packetsTo_eq hp₁ (hs₁.trans ht) hc henv₁, packetsTo_eq hp₂ (hs₂.trans ht) hc henv₂, hsame]

/-- A client is sent the same packets whether or not a byte of junk comes before its request. -/
theorem clients_isolated_junk :
    packetsTo 7 ⟨0x0100007F, 5000⟩ [(rawudpCtCreate true true, shortArrival)]
      = packetsTo 7 ⟨0x0100007F, 5000⟩ [(rawudpCtCreate true true, ⟨⟨1, true, [5], 9⟩, [0]⟩),
          (rawudpCtCreate true true, shortArrival)] := by
  have henv : shortArrival.env.calloc = true ∧ shortArrival.env.pid = 1 := ⟨rfl, rfl⟩
  have hjunk : (echoServerIter 7 ⟨1, true, [5], 9⟩ (rawudpCtCreate true true) [0]).2
      = rawudpCtCreate true true := rfl
  refine clients_isolated _ 1 ⟨_, rfl, .single rfl⟩ ⟨_, rfl, .cons hjunk.symm (.single rfl)⟩
    (by simp [henv]) (by simp [henv]) ?_
  rfl

end Isolation

end EltexSystems
