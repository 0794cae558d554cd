import EltexSystems.Echo
import EltexSystems.Proofs.ClientTable
import EltexSystems.Proofs.Packet

/-!
# One packet through the echo programs

What either program does with a packet depends only on the addresses, ports and payload it decodes
to, and the kernel's additions to a packet change none of these but a zero source address
(`decodes_hdrincl`).  A request that decodes to a line without `NUL` is answered exactly when the
line, the space and the digits of its number fit into a payload (`echoReply_fits`,
`echoReply_long`).
-/

namespace EltexSystems

open CStr Mem

section Kernel

theorem toUInt16_toUInt32_and (v : UInt16) :
    (v.toUInt32 &&& (0xFFFF : UInt32)).toUInt16 = v := by
  have hand : v.toNat &&& 65535 = v.toNat % 65536 := Nat.and_two_pow_sub_one_eq_mod _ 16
  have hv := v.toNat_lt
  apply UInt16.toNat_inj.mp
  rw [UInt32.toNat_toUInt16, UInt32.toNat_and, UInt16.toNat_toUInt32, UInt32.toNat_ofNat,
    Nat.mod_eq_of_lt (by omega : 65535 < 2 ^ 32), hand]
  omega

theorem load32_src (pid : UInt32) (total : ℕ) (srcIp dstIp : UInt32) (ttl : UInt8) (check : UInt16)
    (m : List UInt8) : load32 (ipBytes pid total srcIp dstIp ttl check ++ m) 12 = srcIp :=
  host32_le32 srcIp

theorem store32_src (pid : UInt32) (total : ℕ) (srcIp dstIp addr : UInt32) (ttl : UInt8)
    (check : UInt16) (m : List UInt8) :
    store32 (ipBytes pid total srcIp dstIp ttl check ++ m) 12 addr
      = ipBytes pid total addr dstIp ttl check ++ m := rfl

theorem store16_id (pid : UInt32) (total : ℕ) (srcIp dstIp : UInt32) (ttl : UInt8)
    (check ident : UInt16) (m : List UInt8) :
    store16 (ipBytes pid total srcIp dstIp ttl check ++ m) 4 ident
      = ipBytes (htons ident).toUInt32 total srcIp dstIp ttl check ++ m := by
  unfold ipBytes
  rw [toUInt16_toUInt32_and, htons_htons]
  rfl

theorem store16_total (pid : UInt32) (total total' : ℕ) (srcIp dstIp : UInt32) (ttl : UInt8)
    (check : UInt16) (m : List UInt8) :
    store16 (ipBytes pid total srcIp dstIp ttl check ++ m) 2 (htons (UInt16.ofNat total'))
      = ipBytes pid total' srcIp dstIp ttl check ++ m := rfl

theorem store16_check (pid : UInt32) (total : ℕ) (srcIp dstIp : UInt32) (ttl : UInt8)
    (check check' : UInt16) (m : List UInt8) :
    store16 (ipBytes pid total srcIp dstIp ttl check ++ m) 10 check'
      = ipBytes pid total srcIp dstIp ttl check' ++ m := rfl

/-- On the wire a packet is a packet still, its source filled in where it was zero. -/
theorem hdrincl_ipBytes (addr : UInt32) (ident : UInt16) (pid : UInt32) (total : ℕ)
    (srcIp dstIp : UInt32) (ttl : UInt8) (check : UInt16) (m : List UInt8) :
    ∃ pid' total' check',
      hdrincl addr ident (ipBytes pid total srcIp dstIp ttl check ++ m)
        = ipBytes pid' total' (if srcIp = 0 then addr else srcIp) dstIp ttl check' ++ m := by
  have hsrc : (if load32 (ipBytes pid total srcIp dstIp ttl check ++ m) 12 = 0 then
        store32 (ipBytes pid total srcIp dstIp ttl check ++ m) 12 addr
      else ipBytes pid total srcIp dstIp ttl check ++ m)
      = ipBytes pid total (if srcIp = 0 then addr else srcIp) dstIp ttl check ++ m := by
    rw [load32_src]
    by_cases h : srcIp = 0
    · rw [if_pos h, if_pos h, store32_src]
    · rw [if_neg h, if_neg h]
  unfold hdrincl
  simp only [hsrc]
  by_cases h : load16 (ipBytes pid total (if srcIp = 0 then addr else srcIp) dstIp ttl check ++ m)
      4 = 0
  · simp only [if_pos h, store16_id, store16_total, store16_check]
    exact ⟨_, _, _, rfl⟩
  · simp only [if_neg h, store16_total, store16_check]
    exact ⟨_, _, _, rfl⟩

/-- What leaves the host for a packet the builder built has its UDP segment. -/
theorem hdrincl_packet (addr : UInt32) (ident : UInt16) (pid srcIp dstIp : UInt32)
    (srcPort dstPort : UInt16) (payload : List UInt8) (ttl : UInt8) :
    ∃ pid' total' check',
      hdrincl addr ident (packet pid srcIp dstIp srcPort dstPort payload ttl)
        = ipBytes pid' total' (if srcIp = 0 then addr else srcIp) dstIp ttl check'
          ++ (udpBytes srcPort dstPort (8 + payload.length) (rawudpUdpChecksum srcIp dstIp
            (udpBytes srcPort dstPort (8 + payload.length) 0 ++ payload)) ++ payload) :=
  hdrincl_ipBytes addr ident ..

theorem decodes_hdrincl (addr : UInt32) (ident : UInt16) (pid srcIp dstIp : UInt32)
    (srcPort dstPort : UInt16) {payload : List UInt8} (hlen : payload.length ≤ 1400)
    (ttl : UInt8) :
    Decodes (hdrincl addr ident (packet pid srcIp dstIp srcPort dstPort payload ttl))
      (if srcIp = 0 then addr else srcIp) dstIp srcPort dstPort payload := by
  obtain ⟨pid', total', check', h⟩ :=
    hdrincl_packet addr ident pid srcIp dstIp srcPort dstPort payload ttl
  have hd := decodes_headers pid' (if srcIp = 0 then addr else srcIp) dstIp total' srcPort dstPort
    check' (rawudpUdpChecksum srcIp dstIp
      (udpBytes srcPort dstPort (8 + payload.length) 0 ++ payload)) ttl
    (show payload.length < 65528 by omega) []
  rw [h]
  simpa using hd

end Kernel

section Programs

variable {pkt : List UInt8} {src dst : UInt32} {sport dport : UInt16} {payload : List UInt8}

theorem echoClientAccept_of (h : Decodes pkt src dst sport dport payload) (serverIp : UInt32)
    (serverPort localPort : UInt16) :
    echoClientAccept serverIp serverPort localPort pkt
      = if src = serverIp ∧ sport = serverPort ∧ dport = localPort then some payload else none := by
  obtain ⟨d, hd, rfl, -, rfl, rfl, -, hs⟩ := h
  unfold echoClientAccept
  simp only [hd, hs]
  split_ifs <;> simp_all

theorem chomp_ne_zero (line : List UInt8) : ∀ b ∈ chomp line, b ≠ 0 := fun _ hb =>
  ne_zero_of_mem_cstr ((List.rdropWhile_prefix _ _).subset hb)

theorem length_chomp_le (line : List UInt8) : (chomp line).length ≤ line.length := by
  have h1 := (List.rdropWhile_prefix (fun b : UInt8 => b == 10 || b == 13) (cstr line)).length_le
  exact h1.trans (length_cstr_le line)

/-- The client's request for a line decodes to that line, from the address the kernel fills in. -/
theorem echoClientLine_spec (e : EchoEnv) (serverIp : UInt32) (serverPort localPort : UInt16)
    {line : List UInt8} (hlen : line.length ≤ 1400) :
    ∃ pkt, echoClientLine e serverIp serverPort localPort line = some pkt ∧
      ∀ addr ident, Decodes (hdrincl addr ident pkt) addr serverIp localPort serverPort
        (chomp line) := by
  have hle := length_chomp_le line
  have hcap : 28 + (chomp line).length ≤ 65536 := by omega
  unfold echoClientLine
  rw [build_layout (by omega) le_rfl hcap, List.take_length]
  refine ⟨_, if_neg (by omega), fun addr ident => ?_⟩
  rw [Int.toNat_natCast, List.take_left' (length_packet _ _ _ _ _ _ _)]
  simpa using decodes_hdrincl addr ident e.pid 0 serverIp localPort serverPort (by omega) 64

theorem echoServerIter_other (h : Decodes pkt src dst sport dport payload) {listenPort : UInt16}
    (hne : dport ≠ listenPort) (e : EchoEnv) (ct : Option ClientTable) :
    echoServerIter listenPort e ct pkt = (.ignored, ct) := by
  obtain ⟨d, hd, -, -, -, rfl, -, -⟩ := h
  unfold echoServerIter
  simp only [hd]
  rw [if_pos hne]

theorem echoServerIter_shutdown {listenPort : UInt16}
    (h : Decodes pkt src dst sport listenPort SHUTDOWN) (e : EchoEnv) (ct : Option ClientTable) :
    echoServerIter listenPort e ct pkt = (.forgot, rawudpCtReset ct ⟨src, sport⟩) := by
  obtain ⟨d, hd, rfl, -, rfl, hp, hl, hs⟩ := h
  unfold echoServerIter
  simp only [hd, hs]
  rw [if_neg (by simp [hp]), if_pos ⟨hl, trivial⟩]

/-- A counted request is answered or skipped as the builder takes the reply or not. -/
theorem echoServerIter_counted {listenPort : UInt16} {e : EchoEnv} {t t' : ClientTable}
    {cnt : UInt32} (h : Decodes pkt src dst sport listenPort payload) (hne : payload ≠ SHUTDOWN)
    (hnext : rawudpCtNext (some t) ⟨src, sport⟩ (some e.cnt) e.calloc = (0, some t', some cnt)) :
    ∃ d : Datagram, d.srcIp = src ∧ d.dstIp = dst ∧ d.srcPort = sport ∧
      echoServerIter listenPort e (some t) pkt
        = (echoReply listenPort e d payload cnt, some t') := by
  obtain ⟨d, hd, rfl, rfl, rfl, hp, hl, hs⟩ := h
  refine ⟨d, rfl, rfl, rfl, ?_⟩
  unfold echoServerIter
  simp only [hd, hs]
  rw [if_neg (by simp [hp]), if_neg (fun h => hne h.2), hnext]
  rfl

theorem build_refused {pid srcIp dstIp : UInt32} {srcPort dstPort : UInt16}
    {payload outBuf : List UInt8} {payloadLen outCap : ℕ} {ttl : UInt8} (h : 1400 < payloadLen) :
    rawudpBuildIpv4Udp pid outBuf outCap srcIp dstIp srcPort dstPort payload payloadLen ttl
      = (-1, outBuf) := by
  unfold rawudpBuildIpv4Udp
  have hmax : payloadLen > RAWUDP_MAX_PAYLOAD := h
  simp only [if_pos hmax, ite_self]

end Programs

section Reply

variable {listenPort : UInt16} (e : EchoEnv) (d : Datagram) {line : List UInt8} (n : ℕ)

theorem echoText_eq (hnul : ∀ b ∈ line, b ≠ 0) (hlen : line.length ≤ 1400) :
    echoText line (UInt32.ofNat n) = replyText line n := by
  unfold echoText replyText
  rw [List.take_of_length_le (by simpa [RAWUDP_MAX_PAYLOAD] using hlen), cstr_of_ne_zero hnul,
    UInt32.toNat_ofNat']

/-- A 32-bit number has ten digits at most. -/
theorem length_echoText_le (payload : List UInt8) (cnt : UInt32) :
    (echoText payload cnt).length ≤ min payload.length 1400 + 11 := by
  have hcstr := length_cstr_le (payload.take RAWUDP_MAX_PAYLOAD)
  have hcnt := cnt.toNat_lt
  have hdec : (decimal cnt.toNat).length ≤ 10 := length_decimal_le (by omega) (by omega)
  have hspace : (ascii " ").length = 1 := rfl
  rw [List.length_take] at hcstr
  simp only [RAWUDP_MAX_PAYLOAD] at hcstr
  simp only [echoText, RAWUDP_MAX_PAYLOAD, List.length_append]
  omega

/-- A reply is the packet for its text, where that fits into a payload. -/
theorem echoReply_eq (payload : List UInt8) (cnt : UInt32) :
    echoReply listenPort e d payload cnt
      = if (echoText payload cnt).length ≤ 1400 then
          .replied d.srcIp
            (packet e.pid d.dstIp d.srcIp listenPort d.srcPort (echoText payload cnt) 64)
        else .skipped := by
  unfold echoReply
  by_cases hfit : (echoText payload cnt).length ≤ 1400
  · have hcap : 28 + (echoText payload cnt).length ≤ 65536 := by omega
    have hresp : snprintf (RAWUDP_MAX_PAYLOAD + 128) (echoText payload cnt)
        = echoText payload cnt :=
      List.take_of_length_le (by simp only [RAWUDP_MAX_PAYLOAD]; omega)
    simp only [hresp, if_pos hfit]
    rw [build_layout hfit le_rfl hcap, List.take_length, if_neg (by omega), Int.toNat_natCast,
      List.take_left' (length_packet _ _ _ _ _ _ _)]
  · simp only [if_neg hfit]
    rw [build_refused (by omega)]
    rfl

/-- The reply to a line that fits is a packet back to its sender with the line, a space and its
number. -/
theorem echoReply_fits (hnul : ∀ b ∈ line, b ≠ 0) (hlen : line.length ≤ 1400)
    (hfit : (replyText line n).length ≤ 1400) :
    ∃ pkt, echoReply listenPort e d line (UInt32.ofNat n) = .replied d.srcIp pkt ∧
      ∀ addr ident, Decodes (hdrincl addr ident pkt) (if d.dstIp = 0 then addr else d.dstIp)
        d.srcIp listenPort d.srcPort (replyText line n) := by
  rw [echoReply_eq, echoText_eq n hnul hlen, if_pos hfit]
  exact ⟨_, rfl, fun addr ident =>
    decodes_hdrincl addr ident e.pid d.dstIp d.srcIp listenPort d.srcPort hfit 64⟩

theorem echoReply_long (hnul : ∀ b ∈ line, b ≠ 0) (hlen : line.length ≤ 1400)
    (hfit : 1400 < (replyText line n).length) :
    echoReply listenPort e d line (UInt32.ofNat n) = .skipped := by
  rw [echoReply_eq, echoText_eq n hnul hlen, if_neg (Nat.not_le.mpr hfit)]

end Reply

end EltexSystems
