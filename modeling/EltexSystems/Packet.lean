import EltexSystems.Checksum

/-!
# IPv4/UDP packets of `echo_raw/src/packet.c`

The builder writes the fields of `struct iphdr` (20 bytes from offset 0) and `struct udphdr`
(8 bytes from offset 20) one store at a time into the caller's buffer, in the order of the source;
the parser reads them back by offset.  A `struct in_addr` is its `s_addr`, the four network order
bytes read as one host value.  The process id the builder puts in the `id` field is a parameter.
-/

namespace EltexSystems

open Mem

def RAWUDP_MAX_PAYLOAD : ℕ := 1400

/-- `sizeof(struct iphdr)`. -/
def iphdrSize : ℕ := 20

/-- `sizeof(struct udphdr)`. -/
def udphdrSize : ℕ := 8

def IPPROTO_UDP : UInt8 := 17

/-- `ip->version = v`: the bit-field is the high nibble of the first byte. -/
def setVersion (m : List UInt8) (v : UInt8) : List UInt8 :=
  store8 m 0 ((load8 m 0 &&& (0x0F : UInt8)) ||| (v <<< 4))

/-- `ip->ihl = v`: the low nibble. -/
def setIhl (m : List UInt8) (v : UInt8) : List UInt8 :=
  store8 m 0 ((load8 m 0 &&& (0xF0 : UInt8)) ||| (v &&& (0x0F : UInt8)))

/-- The stores into `struct iphdr`, up to and with its checksum. -/
def writeIphdr (m : List UInt8) (pid : UInt32) (total : ℕ) (srcIp dstIp : UInt32) (ttl : UInt8) :
    List UInt8 :=
  let m := setVersion m 4
  let m := setIhl m (UInt8.ofNat (iphdrSize / 4))
  let m := store8 m 1 0
  let m := store16 m 2 (htons (UInt16.ofNat total))
  let m := store16 m 4 (htons (pid &&& (0xFFFF : UInt32)).toUInt16)
  let m := store16 m 6 0
  let m := store8 m 8 (if ttl ≠ 0 then ttl else 64)
  let m := store8 m 9 IPPROTO_UDP
  let m := store32 m 12 srcIp
  let m := store32 m 16 dstIp
  let m := store16 m 10 0
  store16 m 10 (rawudpChecksum16 (m.take iphdrSize))

/-- The stores into `struct udphdr`, the copy of the payload and the UDP checksum. -/
def writeUdp (m : List UInt8) (srcIp dstIp : UInt32) (srcPort dstPort : UInt16)
    (payload : List UInt8) (payloadLen : ℕ) : List UInt8 :=
  let m := store16 m 20 (htons srcPort)
  let m := store16 m 22 (htons dstPort)
  let m := store16 m 24 (htons (UInt16.ofNat (udphdrSize + payloadLen)))
  let m := store16 m 26 0
  let m := if payloadLen ≠ 0 then memcpy m (iphdrSize + udphdrSize) payload payloadLen else m
  store16 m 26
    (rawudpUdpChecksum srcIp dstIp ((m.drop iphdrSize).take (udphdrSize + payloadLen)))

/-- The return value and the buffer afterwards.  `total` is computed in a 64-bit `size_t`. -/
def rawudpBuildIpv4Udp (pid : UInt32) (outBuf : List UInt8) (outCap : ℕ) (srcIp dstIp : UInt32)
    (srcPort dstPort : UInt16) (payload : List UInt8) (payloadLen : ℕ) (ttl : UInt8) :
    ℤ × List UInt8 :=
  let total := (iphdrSize + udphdrSize + payloadLen) % 2 ^ 64
  if total > outCap then (-1, outBuf)
  else if payloadLen > RAWUDP_MAX_PAYLOAD then (-1, outBuf)
  else
    let m := memset outBuf 0 total
    let m := writeIphdr m pid total srcIp dstIp ttl
    let m := writeUdp m srcIp dstIp srcPort dstPort payload payloadLen
    (total, m)

/-- What the parser's out parameters receive; `payload` is the offset of the payload pointer. -/
structure Datagram where
  srcIp : UInt32
  dstIp : UInt32
  srcPort : UInt16
  dstPort : UInt16
  payload : ℕ
  payloadLen : ℕ
  deriving DecidableEq, Repr

/-- The bytes the payload pointer and length denote. -/
def Datagram.slice (d : Datagram) (pkt : List UInt8) : List UInt8 :=
  (pkt.drop d.payload).take d.payloadLen

/-- `none` is the return value -1, with no out parameter written. -/
def rawudpParseIpv4Udp (pkt : List UInt8) (pktLen : ℕ) : Option Datagram :=
  if pktLen < iphdrSize then none
  else if load8 pkt 0 >>> 4 ≠ 4 then none
  else
    let ipHl := (load8 pkt 0 &&& (0x0F : UInt8)).toNat * 4
    if ipHl < iphdrSize ∨ pktLen < ipHl + udphdrSize then none
    else if load8 pkt 9 ≠ IPPROTO_UDP then none
    else
      let udpLen := (ntohs (load16 pkt (ipHl + 4))).toNat
      if udpLen < udphdrSize then none
      else if pktLen < ipHl + udpLen then none
      else some
        { srcIp := load32 pkt 12
          dstIp := load32 pkt 16
          srcPort := ntohs (load16 pkt ipHl)
          dstPort := ntohs (load16 pkt (ipHl + 2))
          payload := ipHl + udphdrSize
          payloadLen := udpLen - udphdrSize }

/-- The parser accepts the packet and reports these addresses and ports and this payload. -/
def Decodes (pkt : List UInt8) (srcIp dstIp : UInt32) (srcPort dstPort : UInt16)
    (payload : List UInt8) : Prop :=
  ∃ d, rawudpParseIpv4Udp pkt pkt.length = some d ∧ d.srcIp = srcIp ∧ d.dstIp = dstIp ∧
    d.srcPort = srcPort ∧ d.dstPort = dstPort ∧ d.payloadLen = payload.length ∧
    d.slice pkt = payload

/-- The words of the IPv4 header, and those of the UDP pseudo-header, header and payload, add up to
all ones. -/
def WireChecksums (pkt : List UInt8) (srcIp dstIp : UInt32) (payloadLen : ℕ) : Prop :=
  onesSum (pkt.take 20) = 0xFFFF ∧
    onesSum (pseudo srcIp dstIp (8 + payloadLen) ++ (pkt.drop 20).take (8 + payloadLen)) = 0xFFFF

end EltexSystems
