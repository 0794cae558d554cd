import EltexSystems.Proofs.ChecksumLaws
import EltexSystems.Proofs.EchoServer

/-!
# What the echo programs put on the wire

The builder refuses a packet, buffer untouched, exactly where its payload or its whole length is
over the limit, and else writes nothing past its end (`build_frame`).  The server's reply carries a
request's bytes on when there is no `NUL` among them (`echo_faithful_iff`).  The checksum the client
stores is the one over the datagram with the kernel's source address in it exactly when the two
halves of that address add up to a multiple of 65535 (`client_check_iff`).
-/

namespace EltexSystems

open CStr Mem OnesComplement

/-- A packet is refused with the buffer as it was, or takes its exact length and nothing behind that
changes, for lengths of any size. -/
theorem build_frame {pid : UInt32} {outBuf : List UInt8} {outCap : ℕ} {srcIp dstIp : UInt32}
    {srcPort dstPort : UInt16} {payload : List UInt8} {payloadLen : ℕ} {ttl : UInt8} {rc : ℤ}
    {buf : List UInt8} (hp : payloadLen ≤ 1400 → payloadLen ≤ payload.length)
    (h : rawudpBuildIpv4Udp pid outBuf outCap srcIp dstIp srcPort dstPort payload payloadLen ttl
      = (rc, buf)) :
    (rc = -1 ↔ 1400 < payloadLen ∨ outCap < 28 + payloadLen) ∧ (rc = -1 → buf = outBuf) ∧
      (rc ≠ -1 → rc = (28 + payloadLen : ℕ) ∧
        ∀ i, 28 + payloadLen ≤ i → buf[i]? = outBuf[i]?) := by
  by_cases hrefused : 1400 < payloadLen ∨ outCap < 28 + payloadLen
  · have hr : rawudpBuildIpv4Udp pid outBuf outCap srcIp dstIp srcPort dstPort payload payloadLen
        ttl = (-1, outBuf) := by
      by_cases h1400 : 1400 < payloadLen
      · exact build_refused h1400
      · -- without the wrap the first test is the exact one
        have htot : (iphdrSize + udphdrSize + payloadLen) % 2 ^ 64 = 28 + payloadLen := by
          simp only [iphdrSize, udphdrSize]
          omega
        simp only [rawudpBuildIpv4Udp, htot]
        rw [if_pos (by omega)]
    obtain ⟨rfl, rfl⟩ := Prod.mk.inj (hr.symm.trans h)
    exact ⟨⟨fun _ => hrefused, fun _ => rfl⟩, fun _ => rfl, fun h => absurd rfl h⟩
  · have hlen : (payload.take payloadLen).length = payloadLen := by
      rw [List.length_take]
      omega
    have hr := (build_layout (by omega) (hp (by omega)) (by omega)).symm.trans h
    obtain ⟨rfl, rfl⟩ := Prod.mk.inj hr
    have hne : ((28 + payloadLen : ℕ) : ℤ) ≠ -1 := by omega
    refine ⟨⟨fun h => absurd h hne, fun h => absurd h hrefused⟩, fun h => absurd h hne,
      fun _ => ⟨rfl, fun i hi => ?_⟩⟩
    rw [List.getElem?_append_right (by rw [length_packet, hlen]; exact hi), length_packet, hlen,
      List.getElem?_drop, Nat.add_sub_of_le hi]

theorem build_frame_full : ∃ rc buf,
    rawudpBuildIpv4Udp 1 (List.replicate 40 7) 40 0 0 5000 7 [104, 105] 1 64 = (rc, buf) ∧
      rc = 29 ∧ ∀ i, 29 ≤ i → buf[i]? = (List.replicate 40 (7 : UInt8))[i]? := by
  have hp : 1 ≤ 1400 → 1 ≤ [(104 : UInt8), 105].length := fun _ => by decide
  obtain ⟨rc, buf, h⟩ : ∃ rc buf, rawudpBuildIpv4Udp 1 (List.replicate 40 7) 40 0 0 5000 7
      [104, 105] 1 64 = (rc, buf) := ⟨_, _, rfl⟩
  obtain ⟨hrefused, -, htaken⟩ := build_frame hp h
  have hne : rc ≠ -1 := fun h => absurd (hrefused.mp h) (by decide)
  exact ⟨rc, buf, h, (htaken hne).1, (htaken hne).2⟩

section Echoed

variable {listenPort : UInt16} {buf : List UInt8} {d : Datagram}

theorem Decodes.payload_eq {pkt payload payload' : List UInt8} {src dst src' dst' : UInt32}
    {sport dport sport' dport' : UInt16} (h : Decodes pkt src dst sport dport payload)
    (h' : Decodes pkt src' dst' sport' dport' payload') : payload = payload' := by
  obtain ⟨d, hd, -, -, -, -, -, hs⟩ := h
  obtain ⟨d', hd', -, -, -, -, -, hs'⟩ := h'
  rw [hd] at hd'
  rw [← hs, ← hs', Option.some.inj hd']

/-- The reply to a counted request is a packet from where the request went back to its sender, with
the text the server prints. -/
theorem iter_replies (h : requestOf listenPort buf = some d) (hs : d.slice buf ≠ SHUTDOWN)
    {e : EchoEnv} {ct ct' : Option ClientTable} {n : UInt32}
    (hnext : rawudpCtNext ct d.sender (some e.cnt) e.calloc = (0, ct', some n))
    (hfit : (d.slice buf).length + 1 + (decimal n.toNat).length ≤ 1400) :
    ∃ pkt, (echoServerIter listenPort e ct buf).1 = .replied d.srcIp pkt ∧
      Decodes pkt d.dstIp d.srcIp listenPort d.srcPort
        (cstr (d.slice buf) ++ ascii " " ++ decimal n.toNat) := by
  have htext : echoText (d.slice buf) n = cstr (d.slice buf) ++ ascii " " ++ decimal n.toNat := by
    rw [echoText, List.take_of_length_le (by simp only [RAWUDP_MAX_PAYLOAD]; omega)]
  have hle := length_cstr_le (d.slice buf)
  have hlen : (echoText (d.slice buf) n).length ≤ 1400 := by
    rw [htext, List.length_append, List.length_append, show (ascii " ").length = 1 from rfl]
    omega
  have hd := decodes_packet e.pid d.dstIp d.srcIp listenPort d.srcPort
    (show (echoText (d.slice buf) n).length < 65528 by omega) 64 []
  rw [List.append_nil, htext] at hd
  refine ⟨_, ?_, hd⟩
  rw [iter_request h, if_neg hs, hnext]
  show echoReply listenPort e d (d.slice buf) n = _
  rw [echoReply_eq, if_pos hlen, htext]

/-- A request's payload comes back whole, a space and the number behind it, exactly when it has no
`NUL`. -/
theorem echo_faithful_iff (h : requestOf listenPort buf = some d) (hs : d.slice buf ≠ SHUTDOWN)
    {e : EchoEnv} {ct ct' : Option ClientTable} {n : UInt32}
    (hnext : rawudpCtNext ct d.sender (some e.cnt) e.calloc = (0, ct', some n))
    (hfit : (d.slice buf).length + 1 + (decimal n.toNat).length ≤ 1400) :
    (∃ pkt, (echoServerIter listenPort e ct buf).1 = .replied d.srcIp pkt ∧
      Decodes pkt d.dstIp d.srcIp listenPort d.srcPort
        (d.slice buf ++ ascii " " ++ decimal n.toNat)) ↔ (0 : UInt8) ∉ d.slice buf := by
  obtain ⟨pkt, hpkt, hd⟩ := iter_replies h hs hnext hfit
  constructor
  · rintro ⟨pkt', hpkt', hd'⟩ h0
    rw [hpkt] at hpkt'
    obtain rfl : pkt = pkt' := by injection hpkt'
    have heq := hd.payload_eq hd'
    rw [List.append_assoc, List.append_assoc] at heq
    have hcstr := List.append_cancel_right heq
    rw [← hcstr] at h0
    exact ne_zero_of_mem_cstr h0 rfl
  · intro h0
    rw [cstr_of_ne_zero fun b hb hb0 => h0 (hb0 ▸ hb)] at hd
    exact ⟨pkt, hpkt, hd⟩

/-- A new server counts a client's first request as its first, and has room for its reply. -/
theorem first_request (srcPort : UInt16) {payload : List UInt8} (hs : payload ≠ SHUTDOWN)
    (hlen : payload.length ≤ 1398) :
    ∃ buf d ct', requestOf 7 buf = some d ∧ d.slice buf = payload ∧
      rawudpCtNext (rawudpCtCreate true true) d.sender (some 0) true = (0, ct', some 1) ∧
      d.slice buf ≠ SHUTDOWN ∧
      (d.slice buf).length + 1 + (decimal (1 : UInt32).toNat).length ≤ 1400 := by
  obtain ⟨d, hr, -, hslice⟩ : ∃ d, requestOf 7 (packet 1 0x0100007F 0x0100007F srcPort 7 payload 64)
        = some d ∧ d.sender = ⟨0x0100007F, srcPort⟩ ∧
      d.slice (packet 1 0x0100007F 0x0100007F srcPort 7 payload 64) = payload :=
    requestOf_packet 1 0x0100007F 0x0100007F srcPort (by omega) 64
  have hdigits : (decimal (1 : UInt32).toNat).length = 1 := by decide
  obtain ⟨t, ht, hc⟩ := countsAre_created
  rcases next_spec hc d.sender 0 true with ⟨-, t', he, -⟩ | ⟨hf, -⟩
  · refine ⟨_, d, some t', hr, hslice, ht ▸ he, ?_, ?_⟩
    · rwa [hslice]
    · rw [hslice, hdigits]
      omega
  · exact absurd hf (by decide)

theorem echo_faithful_iff_hi : ∃ buf d pkt, requestOf 7 buf = some d ∧
    (echoServerIter 7 ⟨1, true, [], 0⟩ (rawudpCtCreate true true) buf).1 = .replied d.srcIp pkt ∧
    Decodes pkt d.dstIp d.srcIp 7 d.srcPort (ascii "hi" ++ ascii " " ++ decimal 1) := by
  have hne : ascii "hi" ≠ SHUTDOWN := by decide
  obtain ⟨buf, d, ct', hr, hslice, hnext, hs, hfit⟩ := first_request 5000 hne (by decide)
  have hnul : (0 : UInt8) ∉ d.slice buf := by
    rw [hslice]
    decide
  obtain ⟨pkt, hpkt, hd⟩ :=
    (echo_faithful_iff hr hs (e := ⟨1, true, [], 0⟩) hnext hfit).mpr hnul
  rw [hslice] at hd
  exact ⟨buf, d, pkt, hr, hpkt, hd⟩

/-- A new server's first request is an `a`, a `NUL` and a `b`: the reply has the payload `a 1`. -/
theorem echo_cut_at_nul : ∃ buf d ct' pkt, requestOf 7 buf = some d ∧
    d.slice buf = [97, 0, 98] ∧
    rawudpCtNext (rawudpCtCreate true true) d.sender (some 0) true = (0, ct', some 1) ∧
    (echoServerIter 7 ⟨1, true, [], 0⟩ (rawudpCtCreate true true) buf).1 = .replied d.srcIp pkt ∧
    Decodes pkt d.dstIp d.srcIp 7 d.srcPort (ascii "a 1") ∧
    ¬ Decodes pkt d.dstIp d.srcIp 7 d.srcPort ([97, 0, 98] ++ ascii " " ++ decimal 1) := by
  have hne : [(97 : UInt8), 0, 98] ≠ SHUTDOWN := by decide
  obtain ⟨buf, d, ct', hr, hslice, hnext, hs, hfit⟩ := first_request 5000 hne (by decide)
  obtain ⟨pkt, hpkt, hd⟩ := iter_replies hr hs (e := ⟨1, true, [], 0⟩) hnext hfit
  rw [hslice] at hd
  change Decodes pkt _ _ _ _ (ascii "a 1") at hd
  exact ⟨buf, d, ct', pkt, hr, hslice, hnext, hpkt, hd,
    fun h => absurd (hd.payload_eq h) (by decide)⟩

end Echoed

section Completed

/-- The stored UDP checksum of a packet without IP options. -/
def storedCheck (pkt : List UInt8) : UInt16 := load16 pkt 26

/-- The UDP segment of a packet without IP options, the checksum field zeroed. -/
def zeroedSegment (pkt : List UInt8) : List UInt8 := store16 (pkt.drop 20) 6 0

theorem wordSum_pseudo_src (src dst : UInt32) (p : List UInt8) :
    wordSum (pseudo src dst p.length ++ p)
      = wordSum (pseudo 0 dst p.length ++ p) + wordSum (le32 src) := by
  have hzero : wordSum (le32 0) = 0 := rfl
  simp only [pseudo, List.append_assoc, wordSum_le32, hzero]
  omega

theorem wordSum_pseudo_pos (src dst : UInt32) (p : List UInt8) :
    0 < wordSum (pseudo src dst p.length ++ p) := by
  have hproto : (17 : UInt8).toNat = 17 := rfl
  simp only [pseudo, List.append_assoc, wordSum_le32, List.cons_append, List.nil_append,
    wordSum_cons, hproto]
  omega

/-- Two source addresses give a segment one checksum exactly when the sums have one
representative. -/
theorem udpChecksum_eq_iff (src src' dst : UInt32) {p : List UInt8} (h : p.length ≤ 65535) :
    rawudpUdpChecksum src dst p = rawudpUdpChecksum src' dst p ↔
      rep 65536 (wordSum (pseudo src dst p.length ++ p))
        = rep 65536 (wordSum (pseudo src' dst p.length ++ p)) := by
  have hlt := rep_lt (B := 65536) (by omega) (wordSum (pseudo src dst p.length ++ p))
  have hlt' := rep_lt (B := 65536) (by omega) (wordSum (pseudo src' dst p.length ++ p))
  have hpos := rep_pos (B := 65536) (wordSum_pseudo_pos src dst p)
  have hpos' := rep_pos (B := 65536) (wordSum_pseudo_pos src' dst p)
  rw [← UInt16.toNat_inj, toNat_rawudpUdpChecksum _ _ h, toNat_rawudpUdpChecksum _ _ h,
    onesSum_eq_rep, onesSum_eq_rep]
  split_ifs <;> omega

/-- The packet the client sends, and what the kernel makes of it. -/
theorem client_packet {e : EchoEnv} {serverIp : UInt32} {serverPort localPort : UInt16}
    {line pkt : List UInt8} (h : echoClientLine e serverIp serverPort localPort line = some pkt)
    (addr : UInt32) (ident : UInt16) : ∃ seg, seg.length ≤ 65535 ∧
      storedCheck pkt = rawudpUdpChecksum 0 serverIp seg ∧
      zeroedSegment (hdrincl addr ident pkt) = seg := by
  have h1400 : (chomp line).length ≤ 1400 := by
    by_contra hlong
    rw [echoClientLine, build_refused (by omega)] at h
    cases h
  have hpkt : pkt = packet e.pid 0 serverIp localPort serverPort (chomp line) 64 := by
    have hcap : 28 + (chomp line).length ≤ 65536 := by omega
    rw [echoClientLine, build_layout h1400 le_rfl hcap, List.take_length] at h
    simp only [Int.toNat_natCast] at h
    rw [if_neg (by omega), List.take_left' (length_packet _ _ _ _ _ _ _)] at h
    exact (Option.some.inj h).symm
  refine ⟨udpBytes localPort serverPort (8 + (chomp line).length) 0 ++ chomp line, ?_, ?_, ?_⟩
  · rw [List.length_append, length_udpBytes]
    omega
  · rw [hpkt]
    exact host16_le16 _
  · obtain ⟨pid', total', check', hsent⟩ :=
      hdrincl_packet addr ident e.pid 0 serverIp localPort serverPort (chomp line) 64
    rw [hpkt, hsent, zeroedSegment, List.drop_left' (length_ipBytes _ _ _ _ _ _)]
    rfl

/-- The checksum the client stores is that of the datagram with the kernel's source address exactly
when the two halves of the address add up to a multiple of 65535. -/
theorem client_check_iff {e : EchoEnv} {serverIp : UInt32} {serverPort localPort : UInt16}
    {line pkt : List UInt8} (h : echoClientLine e serverIp serverPort localPort line = some pkt)
    (addr : UInt32) (ident : UInt16) :
    storedCheck pkt = rawudpUdpChecksum addr serverIp (zeroedSegment (hdrincl addr ident pkt)) ↔
      65535 ∣ wordSum (le32 addr) := by
  obtain ⟨seg, hlen, hstored, hseg⟩ := client_packet h addr ident
  rw [hstored, hseg, udpChecksum_eq_iff 0 addr serverIp hlen, wordSum_pseudo_src addr]
  exact eq_comm.trans (rep_add_eq_iff (wordSum_pseudo_pos 0 serverIp seg) _)

theorem client_sends_hi : ∃ pkt,
    echoClientLine ⟨1, true, [], 0⟩ 0x0100007F 7 5000 (ascii "hi") = some pkt := by
  have hlen : (ascii "hi").length ≤ 1400 := by decide
  obtain ⟨pkt, hpkt, -⟩ := echoClientLine_spec ⟨1, true, [], 0⟩ 0x0100007F 7 5000 hlen
  exact ⟨pkt, hpkt⟩

theorem client_check_iff_hi : ∃ pkt,
    echoClientLine ⟨1, true, [], 0⟩ 0x0100007F 7 5000 (ascii "hi") = some pkt ∧
    (storedCheck pkt = rawudpUdpChecksum 0xFF80007F 0x0100007F
      (zeroedSegment (hdrincl 0xFF80007F 1 pkt)) ↔ 65535 ∣ wordSum (le32 0xFF80007F)) := by
  obtain ⟨pkt, hpkt⟩ := client_sends_hi
  exact ⟨pkt, hpkt, client_check_iff hpkt 0xFF80007F 1⟩

/-- From 127.0.0.1 the checksum is not the one the client stored. -/
theorem client_check_loopback : ∃ pkt,
    echoClientLine ⟨1, true, [], 0⟩ 0x0100007F 7 5000 (ascii "hi") = some pkt ∧
    storedCheck pkt ≠ rawudpUdpChecksum 0x0100007F 0x0100007F
      (zeroedSegment (hdrincl 0x0100007F 1 pkt)) := by
  obtain ⟨pkt, hpkt⟩ := client_sends_hi
  obtain ⟨seg, hlen, hstored, hseg⟩ := client_packet hpkt 0x0100007F 1
  refine ⟨pkt, hpkt, fun h => ?_⟩
  rw [hstored, hseg, udpChecksum_eq_iff 0 0x0100007F _ hlen, wordSum_pseudo_src 0x0100007F] at h
  have hdvd := (rep_add_eq_iff (wordSum_pseudo_pos 0 _ seg) _).mp h.symm
  exact absurd hdvd (by decide)

end Completed

end EltexSystems
