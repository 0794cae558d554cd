import EltexSystems.Packet
import EltexSystems.Proofs.Checksum

/-!
# The packets the builder writes

Within its two limits the builder leaves in the buffer one fixed packet, the two headers followed by
the payload, and touches nothing past it (`build_layout`).  The parser reads every field of such a
packet back, whatever follows it in memory (`decodes_packet`).  The checksums are stored in host
order, so on the wire their bytes are swapped, and a header's sum comes out as all ones exactly when
swapping the two bytes of the checksum changes nothing modulo 65535: when the sum of the other
words is a multiple of 257 (`ones_swap_iff`).
-/

namespace EltexSystems

open Mem OnesComplement

/-- The IPv4 header as it lies in the buffer, given the stored checksum. -/
def ipBytes (pid : UInt32) (total : ℕ) (srcIp dstIp : UInt32) (ttl : UInt8) (check : UInt16) :
    List UInt8 :=
  [0x45, 0] ++ le16 (htons (UInt16.ofNat total))
    ++ le16 (htons (pid &&& (0xFFFF : UInt32)).toUInt16) ++ [0, 0]
    ++ [if ttl ≠ 0 then ttl else 64, IPPROTO_UDP] ++ le16 check ++ le32 srcIp ++ le32 dstIp

def udpBytes (srcPort dstPort : UInt16) (len : ℕ) (check : UInt16) : List UInt8 :=
  le16 (htons srcPort) ++ le16 (htons dstPort) ++ le16 (htons (UInt16.ofNat len)) ++ le16 check

theorem writeIphdr_zeros (pid : UInt32) (total : ℕ) (srcIp dstIp : UInt32) (ttl : UInt8)
    (m : List UInt8) :
    writeIphdr (List.replicate 28 0 ++ m) pid total srcIp dstIp ttl
      = ipBytes pid total srcIp dstIp ttl (rawudpChecksum16 (ipBytes pid total srcIp dstIp ttl 0))
        ++ (List.replicate 8 0 ++ m) := by
  have hv : ((0 : UInt8) &&& (0x0F : UInt8)) ||| ((4 : UInt8) <<< 4) = 0x40 := by decide
  have hi : ((0x40 : UInt8) &&& (0xF0 : UInt8)) ||| (UInt8.ofNat (20 / 4) &&& (0x0F : UInt8))
      = 0x45 := by decide
  simp only [writeIphdr, setVersion, setIhl, store32, store16, store8, load8, List.replicate,
    List.cons_append, List.nil_append, List.set_cons_zero, List.set_cons_succ,
    List.getD_cons_zero, hv, hi, iphdrSize, List.take_succ_cons, List.take_zero, ipBytes, le16,
    le32]
  rfl

theorem writeUdp_zeros (srcIp dstIp : UInt32) (srcPort dstPort : UInt16)
    (payload : List UInt8) (payloadLen : ℕ) {ip m : List UInt8} (hip : ip.length = 20)
    (hp : payloadLen ≤ payload.length) :
    writeUdp (ip ++ (List.replicate 8 0 ++ (List.replicate payloadLen 0 ++ m))) srcIp dstIp
        srcPort dstPort payload payloadLen
      = ip ++ (udpBytes srcPort dstPort (8 + payloadLen)
          (rawudpUdpChecksum srcIp dstIp (udpBytes srcPort dstPort (8 + payloadLen) 0
            ++ payload.take payloadLen)) ++ (payload.take payloadLen ++ m)) := by
  set body := payload.take payloadLen with hbody
  have hlen : body.length = payloadLen := by simp [hbody, hp]
  have hhdr : ∀ z, store16 (store16 (store16 (store16 (List.replicate 8 0 ++ z) 0 (htons srcPort))
      2 (htons dstPort)) 4 (htons (UInt16.ofNat (8 + payloadLen)))) 6 0
      = udpBytes srcPort dstPort (8 + payloadLen) 0 ++ z := fun _ => rfl
  have hchk : ∀ z c, store16 (udpBytes srcPort dstPort (8 + payloadLen) 0 ++ z) 6 c
      = udpBytes srcPort dstPort (8 + payloadLen) c ++ z := fun _ _ => rfl
  have hcpy : (if payloadLen ≠ 0 then
      memcpy (ip ++ (udpBytes srcPort dstPort (8 + payloadLen) 0
        ++ (List.replicate payloadLen 0 ++ m))) (iphdrSize + udphdrSize) payload payloadLen
      else ip ++ (udpBytes srcPort dstPort (8 + payloadLen) 0
        ++ (List.replicate payloadLen 0 ++ m)))
      = ip ++ (udpBytes srcPort dstPort (8 + payloadLen) 0 ++ (body ++ m)) := by
    split_ifs with h0
    · simp only [← List.append_assoc ip]
      exact memcpy_append (by simp [hip, udpBytes, le16, iphdrSize, udphdrSize])
        List.length_replicate _ _
    · obtain rfl : payloadLen = 0 := by omega
      simp [hbody]
  have hseg : ((ip ++ (udpBytes srcPort dstPort (8 + payloadLen) 0 ++ (body ++ m))).drop
      iphdrSize).take (udphdrSize + payloadLen)
      = udpBytes srcPort dstPort (8 + payloadLen) 0 ++ body := by
    rw [show iphdrSize = 20 from rfl, List.drop_left' hip, ← List.append_assoc]
    exact List.take_left' (by simp [udpBytes, le16, hlen, udphdrSize]; omega)
  have h20 := store16_append hip
  simp only [writeUdp]
  rw [show (20 : ℕ) = 20 + 0 from rfl, h20, show (22 : ℕ) = 20 + 2 from rfl, h20,
    show (24 : ℕ) = 20 + 4 from rfl, h20, show (26 : ℕ) = 20 + 6 from rfl, h20]
  rw [show UInt16.ofNat (udphdrSize + payloadLen) = UInt16.ofNat (8 + payloadLen) from rfl, hhdr,
    hcpy, h20, hseg, hchk]

/-- The packet as it lies in the buffer. -/
def packet (pid srcIp dstIp : UInt32) (srcPort dstPort : UInt16) (payload : List UInt8)
    (ttl : UInt8) : List UInt8 :=
  ipBytes pid (28 + payload.length) srcIp dstIp ttl
      (rawudpChecksum16 (ipBytes pid (28 + payload.length) srcIp dstIp ttl 0))
    ++ (udpBytes srcPort dstPort (8 + payload.length)
      (rawudpUdpChecksum srcIp dstIp (udpBytes srcPort dstPort (8 + payload.length) 0 ++ payload))
    ++ payload)

/-- Within both limits the builder writes the packet at the front of the buffer and nothing
past it. -/
theorem build_layout {pid srcIp dstIp : UInt32} {srcPort dstPort : UInt16}
    {payload outBuf : List UInt8} {payloadLen outCap : ℕ} {ttl : UInt8} (h1400 : payloadLen ≤ 1400)
    (hp : payloadLen ≤ payload.length) (hcap : 28 + payloadLen ≤ outCap) :
    rawudpBuildIpv4Udp pid outBuf outCap srcIp dstIp srcPort dstPort payload payloadLen ttl
      = (((28 + payloadLen : ℕ) : ℤ),
          packet pid srcIp dstIp srcPort dstPort (payload.take payloadLen) ttl
            ++ outBuf.drop (28 + payloadLen)) := by
  have htot : (iphdrSize + udphdrSize + payloadLen) % 2 ^ 64 = 28 + payloadLen := by
    simp only [iphdrSize, udphdrSize]
    omega
  have hlen : (payload.take payloadLen).length = payloadLen := by simp [hp]
  have hz : memset outBuf 0 (28 + payloadLen)
      = List.replicate 28 0 ++ (List.replicate payloadLen 0 ++ outBuf.drop (28 + payloadLen)) := by
    rw [memset, List.replicate_add, List.append_assoc]
  unfold rawudpBuildIpv4Udp
  simp only [htot]
  rw [if_neg (by omega), if_neg (by simp only [RAWUDP_MAX_PAYLOAD]; omega), hz, writeIphdr_zeros,
    writeUdp_zeros _ _ _ _ _ _ rfl hp]
  simp only [packet, hlen, List.append_assoc]

@[simp] theorem length_ipBytes (pid : UInt32) (total : ℕ) (srcIp dstIp : UInt32) (ttl : UInt8)
    (check : UInt16) : (ipBytes pid total srcIp dstIp ttl check).length = 20 := rfl

@[simp] theorem length_udpBytes (srcPort dstPort : UInt16) (len : ℕ) (check : UInt16) :
    (udpBytes srcPort dstPort len check).length = 8 := rfl

theorem length_packet (pid srcIp dstIp : UInt32) (srcPort dstPort : UInt16)
    (payload : List UInt8) (ttl : UInt8) :
    (packet pid srcIp dstIp srcPort dstPort payload ttl).length = 28 + payload.length := by
  simp only [packet, List.length_append, length_ipBytes, length_udpBytes]
  omega

theorem ntohs_load16 {m : List UInt8} {i : ℕ} {v : UInt16} (hlo : load8 m i = (htons v).toUInt8)
    (hhi : load8 m (i + 1) = (htons v >>> 8).toUInt8) : ntohs (load16 m i) = v := by
  rw [load16, hlo, hhi, host16_le16, ntohs, htons_htons]

/-- What the parser reports of two headers and a payload, whatever the checksums, the `id` and the
total length hold and whatever follows in memory. -/
theorem parse_headers (pid srcIp dstIp : UInt32) (total : ℕ) (srcPort dstPort ipCheck udpCheck :
    UInt16) (ttl : UInt8) {payload : List UInt8} (hlen : payload.length < 65528)
    (trail : List UInt8) {pktLen : ℕ} (hpkt : 28 + payload.length ≤ pktLen) :
    rawudpParseIpv4Udp (ipBytes pid total srcIp dstIp ttl ipCheck
        ++ (udpBytes srcPort dstPort (8 + payload.length) udpCheck ++ (payload ++ trail))) pktLen
      = some ⟨srcIp, dstIp, srcPort, dstPort, 28, payload.length⟩ := by
  set m := ipBytes pid total srcIp dstIp ttl ipCheck
    ++ (udpBytes srcPort dstPort (8 + payload.length) udpCheck ++ (payload ++ trail)) with hm
  have h0 : load8 m 0 = 0x45 := rfl
  have h9 : load8 m 9 = IPPROTO_UDP := rfl
  have hsrc : load32 m 12 = srcIp := host32_le32 srcIp
  have hdst : load32 m 16 = dstIp := host32_le32 dstIp
  have hsp : ntohs (load16 m 20) = srcPort := ntohs_load16 rfl rfl
  have hdp : ntohs (load16 m 22) = dstPort := ntohs_load16 rfl rfl
  have hul : (ntohs (load16 m 24)).toNat = 8 + payload.length := by
    rw [ntohs_load16 (v := UInt16.ofNat (8 + payload.length)) rfl rfl, UInt16.toNat_ofNat',
      Nat.mod_eq_of_lt (by omega)]
  have hver : (0x45 : UInt8) >>> 4 = 4 := by decide
  have hihl : ((0x45 : UInt8) &&& (0x0F : UInt8)).toNat * 4 = 20 := by decide
  unfold rawudpParseIpv4Udp
  simp only [h0, hver, hihl, h9, hsrc, hdst, hsp, hdp, hul, iphdrSize, udphdrSize]
  rw [if_neg (by omega), if_neg (by simp), if_neg (by omega), if_neg (by simp), if_neg (by omega),
    if_neg (by omega), Nat.add_sub_cancel_left]

/-- The payload slice behind two 20 and 8 byte headers. -/
theorem slice_headers {ip udp payload trail : List UInt8} (hip : ip.length = 20)
    (hudp : udp.length = 8) (srcIp dstIp : UInt32) (srcPort dstPort : UInt16) :
    Datagram.slice ⟨srcIp, dstIp, srcPort, dstPort, 28, payload.length⟩
      (ip ++ (udp ++ (payload ++ trail))) = payload := by
  rw [Datagram.slice, ← List.append_assoc, List.drop_left' (by simp [hip, hudp]), List.take_left]

theorem decodes_headers (pid srcIp dstIp : UInt32) (total : ℕ) (srcPort dstPort ipCheck udpCheck :
    UInt16) (ttl : UInt8) {payload : List UInt8} (hlen : payload.length < 65528)
    (trail : List UInt8) :
    Decodes (ipBytes pid total srcIp dstIp ttl ipCheck
        ++ (udpBytes srcPort dstPort (8 + payload.length) udpCheck ++ (payload ++ trail)))
      srcIp dstIp srcPort dstPort payload :=
  ⟨_, parse_headers _ _ _ _ _ _ _ _ _ hlen _ (by simp; omega), rfl, rfl, rfl, rfl, rfl,
    slice_headers rfl rfl _ _ _ _⟩

/-- The payload lies behind both headers and inside the packet. -/
theorem parse_bounds {pkt : List UInt8} {pktLen : ℕ} {d : Datagram}
    (h : rawudpParseIpv4Udp pkt pktLen = some d) :
    28 ≤ d.payload ∧ d.payload + d.payloadLen ≤ pktLen := by
  unfold rawudpParseIpv4Udp iphdrSize udphdrSize at h
  simp only at h
  split_ifs at h with h1 h2 h3 h4 h5 h6
  obtain rfl := (Option.some.inj h).symm
  simp only
  omega

theorem length_slice {pkt : List UInt8} {d : Datagram}
    (h : rawudpParseIpv4Udp pkt pkt.length = some d) : (d.slice pkt).length = d.payloadLen := by
  obtain ⟨-, hle⟩ := parse_bounds h
  rw [Datagram.slice, List.length_take, List.length_drop]
  omega

/-- A packet decodes, whatever follows it in memory. -/
theorem decodes_packet (pid srcIp dstIp : UInt32) (srcPort dstPort : UInt16) {payload : List UInt8}
    (hlen : payload.length < 65528) (ttl : UInt8) (trail : List UInt8) :
    Decodes (packet pid srcIp dstIp srcPort dstPort payload ttl ++ trail) srcIp dstIp srcPort
      dstPort payload := by
  rw [packet, List.append_assoc, List.append_assoc]
  exact decodes_headers _ _ _ _ _ _ _ _ _ hlen _

/-- Decoding undoes encoding. -/
theorem parse_build {pid srcIp dstIp : UInt32} {srcPort dstPort : UInt16}
    {payload outBuf : List UInt8} {payloadLen outCap : ℕ} {ttl : UInt8} (h1400 : payloadLen ≤ 1400)
    (hp : payloadLen ≤ payload.length) (hcap : 28 + payloadLen ≤ outCap) (trail : List UInt8) :
    (rawudpBuildIpv4Udp pid outBuf outCap srcIp dstIp srcPort dstPort payload payloadLen ttl).1
        = (28 + payloadLen : ℕ) ∧
      Decodes ((rawudpBuildIpv4Udp pid outBuf outCap srcIp dstIp srcPort dstPort payload payloadLen
          ttl).2.take (28 + payloadLen) ++ trail)
        srcIp dstIp srcPort dstPort (payload.take payloadLen) := by
  have hlen : (payload.take payloadLen).length = payloadLen := by simp [hp]
  rw [build_layout h1400 hp hcap]
  refine ⟨rfl, ?_⟩
  rw [List.take_left' (by rw [length_packet, hlen])]
  exact decodes_packet _ _ _ _ _ (by omega) _ _

/-- An output buffer of 30 bytes. -/
def out30 : List UInt8 := List.replicate 30 0

theorem parse_build_hi :
    (rawudpBuildIpv4Udp 1 out30 30 0x0100007F 0x0100007F 5000 7 [104, 105] 2 64).1 = 30 ∧
      Decodes ((rawudpBuildIpv4Udp 1 out30 30 0x0100007F 0x0100007F 5000 7 [104, 105] 2
        64).2.take 30 ++ [255]) 0x0100007F 0x0100007F 5000 7 [104, 105] := by
  have h2 : 2 ≤ 1400 := by decide
  exact parse_build h2 (by decide) (by decide) [255]

/-! ## The checksums on the wire -/

/-- The plain sum of the IPv4 header's words other than the checksum. -/
def ipSum (pid srcIp dstIp : UInt32) (payloadLen : ℕ) (ttl : UInt8) : ℕ :=
  0x4500 + (28 + payloadLen) + pid.toNat % 65536
    + (256 * (if ttl ≠ 0 then ttl else 64).toNat + 17) + wordSum (le32 srcIp) + wordSum (le32 dstIp)

/-- The plain sum of the words of the UDP pseudo-header, header and payload other than the
checksum. -/
def udpSum (srcIp dstIp : UInt32) (srcPort dstPort : UInt16) (payload : List UInt8) : ℕ :=
  wordSum (le32 srcIp) + wordSum (le32 dstIp) + 17 + 2 * (8 + payload.length) + srcPort.toNat
    + dstPort.toNat + wordSum payload

/-- What the two bytes of a host order store read as in network order. -/
def swapped (c : ℕ) : ℕ := 256 * (c % 256) + c / 256

@[simp] theorem swapped_htons (v : UInt16) : swapped (htons v).toNat = v.toNat := by
  have h := congrArg UInt16.toNat (be16_htons v)
  rwa [toNat_be16, toNat_hi, toNat_lo] at h

theorem wordSum_le16 (c : UInt16) (p : List UInt8) :
    wordSum (le16 c ++ p) = swapped c.toNat + wordSum p := by
  rw [le16, List.cons_append, List.cons_append, List.nil_append, wordSum_cons, toNat_hi, toNat_lo,
    swapped]

theorem wordSum_le32 (a : UInt32) (p : List UInt8) :
    wordSum (le32 a ++ p) = wordSum (le32 a) + wordSum p :=
  wordSum_append (by simp [le32]) p

theorem toNat_pid16 (pid : UInt32) :
    (pid &&& (0xFFFF : UInt32)).toUInt16.toNat = pid.toNat % 65536 := by
  have hand : pid.toNat &&& 65535 = pid.toNat % 65536 := Nat.and_two_pow_sub_one_eq_mod _ 16
  rw [UInt32.toNat_toUInt16, UInt32.toNat_and, UInt32.toNat_ofNat,
    Nat.mod_eq_of_lt (by omega : 65535 < 2 ^ 32), hand]
  omega

theorem wordSum_ipBytes (pid srcIp dstIp : UInt32) {payloadLen : ℕ} (h : payloadLen ≤ 1400)
    (ttl : UInt8) (check : UInt16) :
    wordSum (ipBytes pid (28 + payloadLen) srcIp dstIp ttl check)
      = ipSum pid srcIp dstIp payloadLen ttl + swapped check.toNat := by
  have htot : (UInt16.ofNat (28 + payloadLen)).toNat = 28 + payloadLen := by
    rw [UInt16.toNat_ofNat', Nat.mod_eq_of_lt (by omega)]
  have hproto : IPPROTO_UDP.toNat = 17 := rfl
  have hver : (0x45 : UInt8).toNat = 0x45 := rfl
  have hzero : (0 : UInt8).toNat = 0 := rfl
  rw [ipBytes, ipSum]
  simp only [List.append_assoc, List.cons_append, List.nil_append, wordSum_cons,
    wordSum_le16, wordSum_le32, swapped_htons, htot, toNat_pid16, hproto, hver, hzero]
  omega

theorem wordSum_udpSegment (srcIp dstIp : UInt32) (srcPort dstPort : UInt16) {payload : List UInt8}
    (h : payload.length ≤ 1400) (check : UInt16) :
    wordSum (pseudo srcIp dstIp (8 + payload.length)
        ++ (udpBytes srcPort dstPort (8 + payload.length) check ++ payload))
      = udpSum srcIp dstIp srcPort dstPort payload + swapped check.toNat := by
  have hlen : (UInt16.ofNat (8 + payload.length)).toNat = 8 + payload.length := by
    rw [UInt16.toNat_ofNat', Nat.mod_eq_of_lt (by omega)]
  have hproto : (17 : UInt8).toNat = 17 := rfl
  have hzero : (0 : UInt8).toNat = 0 := rfl
  rw [pseudo, udpBytes, udpSum]
  simp only [List.append_assoc, List.cons_append, List.nil_append, wordSum_cons,
    wordSum_le16, wordSum_le32, swapped_htons, hlen, hproto, hzero]
  omega

theorem swapped_zero : swapped (0 : UInt16).toNat = 0 := rfl

/-- Beside words of plain sum `x`, the checksum of `x` with its bytes swapped completes the sum to a
multiple of 65535 exactly when `x` is a multiple of 257. -/
theorem ones_swap_iff {x c : ℕ} (hx : 0 < x)
    (hc : c = 65535 - rep 65536 x ∨ rep 65536 x = 65535 ∧ c = 65535) :
    65535 ∣ x + swapped c ↔ 257 ∣ x := by
  obtain ⟨k, hk⟩ := exists_eq_rep_add (B := 65536) x
  have hlt := rep_lt (B := 65536) (by omega) x
  have hpos := rep_pos (B := 65536) hx
  generalize rep 65536 x = r at hk hlt hpos hc
  obtain ⟨a, b, hb, rfl⟩ : ∃ a b, b < 256 ∧ r = 256 * a + b :=
    ⟨r / 256, r % 256, by omega, by omega⟩
  have hs : swapped c + 256 * b + a = 65535 ∨ swapped c = 65535 ∧ a = 255 ∧ b = 255 := by
    rcases hc with rfl | ⟨hr, rfl⟩
    · left
      have h1 : 65535 - (256 * a + b) = 256 * (255 - a) + (255 - b) := by omega
      simp only [swapped, h1]
      omega
    · right
      exact ⟨rfl, by omega, by omega⟩
  subst hk
  rcases hs with hs | ⟨hs, rfl, rfl⟩
  · constructor
    · rintro ⟨j, hj⟩
      omega
    · rintro ⟨j, hj⟩
      obtain rfl : a = b := by omega
      omega
  · rw [hs]
    constructor <;> intro <;> omega

theorem ipSum_pos (pid srcIp dstIp : UInt32) (payloadLen : ℕ) (ttl : UInt8) :
    0 < ipSum pid srcIp dstIp payloadLen ttl := by
  simp only [ipSum]
  omega

theorem udpSum_pos (srcIp dstIp : UInt32) (srcPort dstPort : UInt16) (payload : List UInt8) :
    0 < udpSum srcIp dstIp srcPort dstPort payload := by
  simp only [udpSum]
  omega

/-- The stored IPv4 checksum verifies exactly when the other words sum to a multiple of 257. -/
theorem ipBytes_verifies_iff (pid srcIp dstIp : UInt32) {payloadLen : ℕ} (h : payloadLen ≤ 1400)
    (ttl : UInt8) :
    onesSum (ipBytes pid (28 + payloadLen) srcIp dstIp ttl
        (rawudpChecksum16 (ipBytes pid (28 + payloadLen) srcIp dstIp ttl 0))) = 0xFFFF
      ↔ 257 ∣ ipSum pid srcIp dstIp payloadLen ttl := by
  have hpos := ipSum_pos pid srcIp dstIp payloadLen ttl
  have hc : (rawudpChecksum16 (ipBytes pid (28 + payloadLen) srcIp dstIp ttl 0)).toNat
      = 65535 - rep 65536 (ipSum pid srcIp dstIp payloadLen ttl) := by
    rw [toNat_rawudpChecksum16 (by simp), onesSum_eq_rep, wordSum_ipBytes _ _ _ h, swapped_zero,
      Nat.add_zero]
  rw [onesSum_eq_ones, wordSum_ipBytes _ _ _ h, hc, ones_swap_iff hpos (.inl rfl)]
  exact and_iff_right (by omega)

/-- The stored UDP checksum verifies exactly when the other words sum to a multiple of 257. -/
theorem udpBytes_verifies_iff (srcIp dstIp : UInt32) (srcPort dstPort : UInt16)
    {payload : List UInt8} (h : payload.length ≤ 1400) :
    onesSum (pseudo srcIp dstIp (8 + payload.length)
        ++ (udpBytes srcPort dstPort (8 + payload.length)
          (rawudpUdpChecksum srcIp dstIp
            (udpBytes srcPort dstPort (8 + payload.length) 0 ++ payload))
        ++ payload)) = 0xFFFF
      ↔ 257 ∣ udpSum srcIp dstIp srcPort dstPort payload := by
  have hpos := udpSum_pos srcIp dstIp srcPort dstPort payload
  have hlen : (udpBytes srcPort dstPort (8 + payload.length) 0 ++ payload).length
      = 8 + payload.length := by simp
  have hones : onesSum (pseudo srcIp dstIp (8 + payload.length)
      ++ (udpBytes srcPort dstPort (8 + payload.length) 0 ++ payload))
      = rep 65536 (udpSum srcIp dstIp srcPort dstPort payload) := by
    rw [onesSum_eq_rep, wordSum_udpSegment _ _ _ _ h, swapped_zero, Nat.add_zero]
  have h64k : (udpBytes srcPort dstPort (8 + payload.length) 0 ++ payload).length ≤ 65535 := by
    omega
  have hc := toNat_rawudpUdpChecksum srcIp dstIp h64k
  rw [hlen, hones] at hc
  rw [onesSum_eq_ones, wordSum_udpSegment _ _ _ _ h, ones_swap_iff hpos]
  · exact and_iff_right (by omega)
  · split_ifs at hc with h1
    · exact .inr ⟨h1, hc⟩
    · exact .inl hc

theorem take_packet (pid srcIp dstIp : UInt32) (srcPort dstPort : UInt16)
    (payload : List UInt8) (ttl : UInt8) (rest : List UInt8) :
    (packet pid srcIp dstIp srcPort dstPort payload ttl ++ rest).take 20
      = ipBytes pid (28 + payload.length) srcIp dstIp ttl
        (rawudpChecksum16 (ipBytes pid (28 + payload.length) srcIp dstIp ttl 0)) := by
  rw [packet, List.append_assoc, List.take_left' (length_ipBytes _ _ _ _ _ _)]

theorem drop_packet (pid srcIp dstIp : UInt32) (srcPort dstPort : UInt16)
    (payload : List UInt8) (ttl : UInt8) (rest : List UInt8) :
    ((packet pid srcIp dstIp srcPort dstPort payload ttl ++ rest).drop 20).take (8 + payload.length)
      = udpBytes srcPort dstPort (8 + payload.length)
        (rawudpUdpChecksum srcIp dstIp (udpBytes srcPort dstPort (8 + payload.length) 0 ++ payload))
        ++ payload := by
  rw [packet, List.append_assoc, List.drop_left' (length_ipBytes _ _ _ _ _ _),
    List.take_left' (by simp)]

/-- The packet carries valid checksums on the wire exactly when the words each covers, other than
the checksum itself, sum to a multiple of 257. -/
theorem build_checksums_iff {pid srcIp dstIp : UInt32} {srcPort dstPort : UInt16}
    {payload outBuf : List UInt8} {payloadLen outCap : ℕ} {ttl : UInt8} (h1400 : payloadLen ≤ 1400)
    (hp : payloadLen ≤ payload.length) (hcap : 28 + payloadLen ≤ outCap) :
    WireChecksums (rawudpBuildIpv4Udp pid outBuf outCap srcIp dstIp srcPort dstPort payload
        payloadLen ttl).2 srcIp dstIp payloadLen
      ↔ 257 ∣ ipSum pid srcIp dstIp payloadLen ttl ∧
        257 ∣ udpSum srcIp dstIp srcPort dstPort (payload.take payloadLen) := by
  obtain ⟨body, hbody⟩ : ∃ body, body = payload.take payloadLen := ⟨_, rfl⟩
  have hlen : body.length = payloadLen := by simp [hbody, hp]
  rw [build_layout h1400 hp hcap, ← hbody]
  subst hlen
  unfold WireChecksums
  rw [take_packet, drop_packet, ipBytes_verifies_iff _ _ _ h1400,
    udpBytes_verifies_iff _ _ _ _ h1400]

theorem build_checksums_iff_hi :
    WireChecksums
        (rawudpBuildIpv4Udp 1234 out30 30 0x0100007F 0x0100007F 5000 7000 [104, 105] 2 64).2
        0x0100007F 0x0100007F 2
      ↔ 257 ∣ ipSum 1234 0x0100007F 0x0100007F 2 64 ∧
        257 ∣ udpSum 0x0100007F 0x0100007F 5000 7000 [104, 105] := by
  have h2 : 2 ≤ 1400 := by decide
  exact build_checksums_iff h2 (by decide) (by decide)

/-- From 127.0.0.1 port 5000 to 127.0.0.1 port 7000 with payload "hi", neither checksum verifies. -/
theorem build_checksums_fail :
    onesSum ((rawudpBuildIpv4Udp 1234 out30 30 0x0100007F 0x0100007F 5000 7000 [104, 105] 2
        64).2.take 20) ≠ 0xFFFF ∧
      onesSum (pseudo 0x0100007F 0x0100007F 10
        ++ ((rawudpBuildIpv4Udp 1234 out30 30 0x0100007F 0x0100007F 5000 7000 [104, 105] 2
          64).2.drop 20).take 10) ≠ 0xFFFF := by
  have h2 : 2 ≤ 1400 := by decide
  have h20 := take_packet 1234 0x0100007F 0x0100007F 5000 7000 [104, 105] 64 (out30.drop 30)
  have h10 := drop_packet 1234 0x0100007F 0x0100007F 5000 7000 [104, 105] 64 (out30.drop 30)
  have hip := ipBytes_verifies_iff 1234 0x0100007F 0x0100007F h2 64
  have hudp := udpBytes_verifies_iff 0x0100007F 0x0100007F 5000 7000
    (show [104, 105].length ≤ 1400 by decide)
  rw [build_layout h2 (by decide) (by decide)]
  refine ⟨fun h => ?_, fun h => ?_⟩
  · exact absurd (hip.mp (h20 ▸ h)) (by decide)
  · exact absurd (hudp.mp (h10 ▸ h)) (by decide)

end EltexSystems
