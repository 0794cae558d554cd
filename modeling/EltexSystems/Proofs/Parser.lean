import EltexSystems.Parser
import EltexSystems.Proofs.Packet

/-!
# What the parser accepts

Into the caller's cells the parser writes what the datagram parser of `Packet` reports, or nothing,
and it loads only bytes it has checked the packet to have (`rawudpParseIpv4UdpInto_eq`).  It accepts
the IPv4 packets that carry a whole UDP datagram and no others (`parse_eq_some_iff`), so the two
together say what every packet gives (`parser_exact`).
-/

namespace EltexSystems

open CheckedMem Mem

@[simp] theorem storeOut_some {α : Type} (cell : Option α) (v : α) :
    storeOut cell (some v) = some (cell.map fun _ => v) := by
  rcases cell with _ | c
  · rfl
  · rfl

theorem rawudpParseIpv4UdpInto_eq (pktAddr : ℕ) (pkt : List UInt8) (out : ParseOut) :
    rawudpParseIpv4UdpInto pktAddr pkt pkt.length out
      = some ((rawudpParseIpv4Udp pkt pkt.length).elim (-1, out)
          fun d => (0, out.report pktAddr d)) := by
  unfold rawudpParseIpv4UdpInto rawudpParseIpv4Udp
  by_cases hlen : pkt.length < iphdrSize
  · rw [if_pos hlen, if_pos hlen]
    rfl
  have h20 : 20 ≤ pkt.length := Nat.not_lt.mp hlen
  rw [if_neg hlen, if_neg hlen]
  refine bind_of_eq (load8_eq (by omega)) ?_
  by_cases hver : Mem.load8 pkt 0 >>> 4 ≠ 4
  · rw [if_pos hver, if_pos hver]
    rfl
  rw [if_neg hver, if_neg hver]
  by_cases hihl : (Mem.load8 pkt 0 &&& (0x0F : UInt8)).toNat * 4 < iphdrSize ∨
      pkt.length < (Mem.load8 pkt 0 &&& (0x0F : UInt8)).toNat * 4 + udphdrSize
  · rw [if_pos hihl, if_pos hihl]
    rfl
  rw [if_neg hihl, if_neg hihl]
  simp only [iphdrSize, udphdrSize, not_or] at hihl
  refine bind_of_eq (load8_eq (by omega)) ?_
  by_cases hproto : Mem.load8 pkt 9 ≠ IPPROTO_UDP
  · rw [if_pos hproto, if_pos hproto]
    rfl
  rw [if_neg hproto, if_neg hproto]
  refine bind_of_eq (load16_eq (by omega)) ?_
  simp only
  split_ifs with hudp htotal
  · rfl
  · rfl
  -- past the last guard every load the report needs is inside
  rw [load32_eq (by omega), load32_eq (by omega), load16_eq (by omega), load16_eq (by omega)]
  simp only [Option.map_some, storeOut_some, Option.bind_eq_bind, Option.bind_some, Nat.add_assoc]
  rfl

section Accepted

variable {pkt : List UInt8}

theorem version_iff (b : UInt8) : b >>> 4 = 4 ↔ b.toNat / 16 = 4 := by
  rw [← UInt8.toNat_inj, UInt8.toNat_shiftRight]
  show b.toNat >>> 4 = 4 ↔ _
  rw [Nat.shiftRight_eq_div_pow]

theorem toNat_ihl (b : UInt8) : (b &&& (0x0F : UInt8)).toNat * 4 = 4 * (b.toNat % 16) := by
  rw [UInt8.toNat_and]
  show (b.toNat &&& (2 ^ 4 - 1)) * 4 = _
  rw [Nat.and_two_pow_sub_one_eq_mod, Nat.mul_comm]

theorem toNat_ntohs_load16 (m : List UInt8) (i : ℕ) :
    (ntohs (Mem.load16 m i)).toNat = netAt m i := by
  have ha := (Mem.load8 m i).toNat_lt
  have hb := (Mem.load8 m (i + 1)).toNat_lt
  rw [ntohs, toNat_htons, Mem.load16, toNat_host16, netAt, byteAt, byteAt]
  omega

/-- What the parser reports of a packet it accepts. -/
def reported (pkt : List UInt8) : Datagram where
  srcIp := Mem.load32 pkt 12
  dstIp := Mem.load32 pkt 16
  srcPort := ntohs (Mem.load16 pkt (headerLen pkt))
  dstPort := ntohs (Mem.load16 pkt (headerLen pkt + 2))
  payload := headerLen pkt + 8
  payloadLen := netAt pkt (headerLen pkt + 4) - 8

theorem parse_eq_some_iff {d : Datagram} :
    rawudpParseIpv4Udp pkt pkt.length = some d ↔ IsIpv4Udp pkt ∧ d = reported pkt := by
  have hihl : (Mem.load8 pkt 0 &&& (0x0F : UInt8)).toNat * 4 = headerLen pkt := toNat_ihl _
  have hver : Mem.load8 pkt 0 >>> 4 = 4 ↔ byteAt pkt 0 / 16 = 4 := version_iff _
  have hproto : Mem.load8 pkt 9 = IPPROTO_UDP ↔ byteAt pkt 9 = 17 := UInt8.toNat_inj.symm
  unfold rawudpParseIpv4Udp
  simp only [hihl, toNat_ntohs_load16, iphdrSize, udphdrSize, ne_eq, hver, hproto]
  constructor
  · intro h
    split_ifs at h with h1 h2 h3 h4 h5 h6
    exact ⟨⟨by omega, h2, by omega, h4, by omega, by omega, by omega⟩,
      (Option.some.inj h).symm⟩
  · rintro ⟨h, rfl⟩
    have h1 := h.fixed
    have h3 := h.header
    have h3' := h.udp_header
    have h5 := h.udp_min
    have h6 := h.udp_fits
    rw [if_neg (by omega), if_neg (not_not.mpr h.version), if_neg (by omega),
      if_neg (not_not.mpr h.protocol), if_neg (by omega), if_neg (by omega)]
    rfl

theorem parse_eq_none_iff : rawudpParseIpv4Udp pkt pkt.length = none ↔ ¬ IsIpv4Udp pkt := by
  rw [Option.eq_none_iff_forall_ne_some]
  constructor
  · intro h hp
    exact h _ (parse_eq_some_iff.mpr ⟨hp, rfl⟩)
  · intro h d hd
    exact h (parse_eq_some_iff.mp hd).1

end Accepted

/-- Every packet is parsed without a load from outside it.  The return value is 0 exactly for an
IPv4 packet that carries a whole UDP datagram, whose addresses, ports and payload inside the packet
are then in the cells; every other packet leaves them as they were. -/
theorem parser_exact (pktAddr : ℕ) (pkt : List UInt8) (out : ParseOut) :
    ∃ rc out', rawudpParseIpv4UdpInto pktAddr pkt pkt.length out = some (rc, out') ∧
      (rc = 0 ↔ IsIpv4Udp pkt) ∧
      (¬ IsIpv4Udp pkt → rc = -1 ∧ out' = out) ∧
      (IsIpv4Udp pkt →
        (out'.srcIp = out.srcIp.map fun _ => Mem.load32 pkt 12) ∧
        (out'.dstIp = out.dstIp.map fun _ => Mem.load32 pkt 16) ∧
        (out'.srcPort.map UInt16.toNat = out.srcPort.map fun _ => netAt pkt (headerLen pkt)) ∧
        (out'.dstPort.map UInt16.toNat
          = out.dstPort.map fun _ => netAt pkt (headerLen pkt + 2)) ∧
        (out'.payload = out.payload.map fun _ => pktAddr + (headerLen pkt + 8)) ∧
        (out'.payloadLen
          = out.payloadLen.map fun _ => netAt pkt (headerLen pkt + 4) - 8) ∧
        (headerLen pkt + 8) + (netAt pkt (headerLen pkt + 4) - 8) ≤ pkt.length) := by
  rw [rawudpParseIpv4UdpInto_eq]
  by_cases h : IsIpv4Udp pkt
  · have hsome := parse_eq_some_iff.mpr ⟨h, rfl⟩
    have hmin := h.udp_min
    have hfits := h.udp_fits
    refine ⟨0, out.report pktAddr (reported pkt), by rw [hsome]; rfl, ⟨fun _ => h, fun _ => rfl⟩,
      fun hn => absurd h hn, fun _ => ⟨rfl, rfl, ?_, ?_, rfl, rfl, by omega⟩⟩
    · simp only [ParseOut.report, reported, Option.map_map, Function.comp_def, toNat_ntohs_load16]
    · simp only [ParseOut.report, reported, Option.map_map, Function.comp_def, toNat_ntohs_load16]
  · have hnone := parse_eq_none_iff.mpr h
    refine ⟨-1, out, by rw [hnone]; rfl, ⟨fun h0 => absurd h0 (by decide), fun hp => absurd hp h⟩,
      fun _ => ⟨rfl, rfl⟩, fun hp => absurd hp h⟩

end EltexSystems
