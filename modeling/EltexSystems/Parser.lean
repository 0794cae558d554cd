import EltexSystems.Packet
import EltexSystems.Lib.CheckedMem

/-!
# The parser and its out parameters

`rawudp_parse_ipv4_udp` of `echo_raw/src/packet.c` with the cells its pointers go to: a caller may
pass `NULL` for any of them, and a cell that is not written keeps what it held.  The packet is an
array of `pkt_len` bytes at some address, and every load from it is checked.
-/

namespace EltexSystems

open CheckedMem Mem

/-- The cells the out parameters point to; `none` is a `NULL` pointer.  `payload` holds an
address. -/
structure ParseOut where
  srcIp : Option UInt32
  dstIp : Option UInt32
  srcPort : Option UInt16
  dstPort : Option UInt16
  payload : Option ℕ
  payloadLen : Option ℕ
  deriving DecidableEq, Repr

/-- `if (p) *p = v;`: the value is loaded only where it is stored. -/
def storeOut {α : Type} (cell v : Option α) : Option (Option α) :=
  match cell with
  | none => some none
  | some _ => v.map some

/-- The return value and the cells afterwards; `none` is a load from outside the packet. -/
def rawudpParseIpv4UdpInto (pktAddr : ℕ) (pkt : List UInt8) (pktLen : ℕ) (out : ParseOut) :
    Option (ℤ × ParseOut) :=
  if pktLen < iphdrSize then some (-1, out)
  else do
    let b ← CheckedMem.load8 pkt 0
    if b >>> 4 ≠ 4 then some (-1, out)
    else
      let ipHl := (b &&& (0x0F : UInt8)).toNat * 4
      if ipHl < iphdrSize ∨ pktLen < ipHl + udphdrSize then some (-1, out)
      else do
        let protocol ← CheckedMem.load8 pkt 9
        if protocol ≠ IPPROTO_UDP then some (-1, out)
        else do
          let len ← CheckedMem.load16 pkt (ipHl + 4)
          let udpLen := (ntohs len).toNat
          if udpLen < udphdrSize then some (-1, out)
          else if pktLen < ipHl + udpLen then some (-1, out)
          else do
            let srcIp ← storeOut out.srcIp (CheckedMem.load32 pkt 12)
            let dstIp ← storeOut out.dstIp (CheckedMem.load32 pkt 16)
            let srcPort ← storeOut out.srcPort ((CheckedMem.load16 pkt ipHl).map ntohs)
            let dstPort ← storeOut out.dstPort ((CheckedMem.load16 pkt (ipHl + 2)).map ntohs)
            let payload ← storeOut out.payload (some (pktAddr + ipHl + udphdrSize))
            let payloadLen ← storeOut out.payloadLen (some (udpLen - udphdrSize))
            return (0, ⟨srcIp, dstIp, srcPort, dstPort, payload, payloadLen⟩)

/-- The cells after a datagram is reported into them. -/
def ParseOut.report (out : ParseOut) (pktAddr : ℕ) (d : Datagram) : ParseOut where
  srcIp := out.srcIp.map fun _ => d.srcIp
  dstIp := out.dstIp.map fun _ => d.dstIp
  srcPort := out.srcPort.map fun _ => d.srcPort
  dstPort := out.dstPort.map fun _ => d.dstPort
  payload := out.payload.map fun _ => pktAddr + d.payload
  payloadLen := out.payloadLen.map fun _ => d.payloadLen

/-- The byte at an offset as a number. -/
def byteAt (pkt : List UInt8) (i : ℕ) : ℕ := (Mem.load8 pkt i).toNat

/-- The pair of bytes at an offset as a number in network order. -/
def netAt (pkt : List UInt8) (i : ℕ) : ℕ := 256 * byteAt pkt i + byteAt pkt (i + 1)

/-- The IPv4 header's length, four times its second nibble. -/
def headerLen (pkt : List UInt8) : ℕ := 4 * (byteAt pkt 0 % 16)

/-- An IPv4 packet that carries a whole UDP datagram. -/
structure IsIpv4Udp (pkt : List UInt8) : Prop where
  fixed : 20 ≤ pkt.length
  version : byteAt pkt 0 / 16 = 4
  header : 20 ≤ headerLen pkt
  protocol : byteAt pkt 9 = 17
  udp_header : headerLen pkt + 8 ≤ pkt.length
  udp_min : 8 ≤ netAt pkt (headerLen pkt + 4)
  udp_fits : headerLen pkt + netAt pkt (headerLen pkt + 4) ≤ pkt.length

end EltexSystems
