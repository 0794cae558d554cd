import EltexSystems.Echo
import EltexSystems.Lib.CheckedMem

/-!
# The echo server's iteration with its memory accesses checked

The functions of `echo_server.c` and of the packet and checksum code below it, each load, store and
copy checked against the array it goes to; `none` is an access outside.  The received datagram is an
array of the bytes received, `msg` and `resp` are arrays with whatever they held before.
-/

namespace EltexSystems

/-- `msg` and `resp` of the server's loop. -/
structure TextArrays where
  msg : List UInt8
  resp : List UInt8
  msg_size : msg.length = RAWUDP_MAX_PAYLOAD + 64
  resp_size : resp.length = RAWUDP_MAX_PAYLOAD + 128

/-- The table has as many buckets as it says, 1024. -/
def ClientTable.Sized (t : ClientTable) : Prop := t.nb = 1024 ∧ t.buckets.length = 1024

namespace Checked

open CheckedMem CStr Mem

/-- The summing loop from offset `i` on, with `len` bytes to go. -/
def sumLoop (m : List UInt8) : ℕ → UInt32 → ℕ → Option UInt32
  | i, sum, len + 2 => do
    let a ← CheckedMem.load8 m i
    let b ← CheckedMem.load8 m (i + 1)
    sumLoop m (i + 2) (sum + (be16 a b).toUInt32) len
  | i, sum, 1 => do
    let a ← CheckedMem.load8 m i
    return sum + (a.toUInt16 <<< 8).toUInt32
  | _, sum, 0 => return sum

def rawudpChecksum16 (m : List UInt8) (i len : ℕ) : Option UInt16 := do
  let sum ← sumLoop m i 0 len
  return ~~~(foldLoop sum).toUInt16

def rawudpUdpChecksum (src dst : UInt32) (m : List UInt8) (i udpLen : ℕ) : Option UInt16 := do
  let c1 ← rawudpChecksum16 (pseudo src dst udpLen) 0 12
  let sum ← sumLoop m i (0 + (~~~c1).toUInt32) udpLen
  let res := ~~~(foldLoop sum).toUInt16
  return if res = 0 then 0xFFFF else res

def setVersion (m : List UInt8) (v : UInt8) : Option (List UInt8) := do
  let b ← CheckedMem.load8 m 0
  CheckedMem.store8 m 0 ((b &&& (0x0F : UInt8)) ||| (v <<< 4))

def setIhl (m : List UInt8) (v : UInt8) : Option (List UInt8) := do
  let b ← CheckedMem.load8 m 0
  CheckedMem.store8 m 0 ((b &&& (0xF0 : UInt8)) ||| (v &&& (0x0F : UInt8)))

def writeIphdr (m : List UInt8) (pid : UInt32) (total : ℕ) (srcIp dstIp : UInt32) (ttl : UInt8) :
    Option (List UInt8) := do
  let m ← setVersion m 4
  let m ← setIhl m (UInt8.ofNat (iphdrSize / 4))
  let m ← CheckedMem.store8 m 1 0
  let m ← CheckedMem.store16 m 2 (htons (UInt16.ofNat total))
  let m ← CheckedMem.store16 m 4 (htons (pid &&& (0xFFFF : UInt32)).toUInt16)
  let m ← CheckedMem.store16 m 6 0
  let m ← CheckedMem.store8 m 8 (if ttl ≠ 0 then ttl else 64)
  let m ← CheckedMem.store8 m 9 IPPROTO_UDP
  let m ← CheckedMem.store32 m 12 srcIp
  let m ← CheckedMem.store32 m 16 dstIp
  let m ← CheckedMem.store16 m 10 0
  let check ← rawudpChecksum16 m 0 iphdrSize
  CheckedMem.store16 m 10 check

/-- `if (payload_len) memcpy(...)`. -/
def copyPayload (m payload : List UInt8) (payloadLen : ℕ) : Option (List UInt8) :=
  if payloadLen ≠ 0 then CheckedMem.memcpy m (iphdrSize + udphdrSize) payload 0 payloadLen
  else some m

def writeUdp (m : List UInt8) (srcIp dstIp : UInt32) (srcPort dstPort : UInt16)
    (payload : List UInt8) (payloadLen : ℕ) : Option (List UInt8) := do
  let m ← CheckedMem.store16 m 20 (htons srcPort)
  let m ← CheckedMem.store16 m 22 (htons dstPort)
  let m ← CheckedMem.store16 m 24 (htons (UInt16.ofNat (udphdrSize + payloadLen)))
  let m ← CheckedMem.store16 m 26 0
  let m ← copyPayload m payload payloadLen
  let check ← rawudpUdpChecksum srcIp dstIp m iphdrSize (udphdrSize + payloadLen)
  CheckedMem.store16 m 26 check

def rawudpBuildIpv4Udp (pid : UInt32) (outBuf : List UInt8) (outCap : ℕ) (srcIp dstIp : UInt32)
    (srcPort dstPort : UInt16) (payload : List UInt8) (payloadLen : ℕ) (ttl : UInt8) :
    Option (ℤ × List UInt8) :=
  let total := (iphdrSize + udphdrSize + payloadLen) % 2 ^ 64
  if total > outCap then some (-1, outBuf)
  else if payloadLen > RAWUDP_MAX_PAYLOAD then some (-1, outBuf)
  else do
    let m ← CheckedMem.memset outBuf 0 total
    let m ← writeIphdr m pid total srcIp dstIp ttl
    let m ← writeUdp m srcIp dstIp srcPort dstPort payload payloadLen
    return ((total : ℤ), m)

def rawudpParseIpv4Udp (pkt : List UInt8) (pktLen : ℕ) : Option (Option Datagram) :=
  if pktLen < iphdrSize then some none
  else do
    let b ← CheckedMem.load8 pkt 0
    if b >>> 4 ≠ 4 then some none
    else
      let ipHl := (b &&& (0x0F : UInt8)).toNat * 4
      if ipHl < iphdrSize ∨ pktLen < ipHl + udphdrSize then some none
      else do
        let protocol ← CheckedMem.load8 pkt 9
        if protocol ≠ IPPROTO_UDP then some none
        else do
          let len ← CheckedMem.load16 pkt (ipHl + 4)
          let udpLen := (ntohs len).toNat
          if udpLen < udphdrSize then some none
          else if pktLen < ipHl + udpLen then some none
          else do
            let saddr ← CheckedMem.load32 pkt 12
            let daddr ← CheckedMem.load32 pkt 16
            let source ← CheckedMem.load16 pkt ipHl
            let dest ← CheckedMem.load16 pkt (ipHl + 2)
            return some
              { srcIp := saddr
                dstIp := daddr
                srcPort := ntohs source
                dstPort := ntohs dest
                payload := ipHl + udphdrSize
                payloadLen := udpLen - udphdrSize }

/-- `t->buckets[idx]` for the bucket of a key; the nodes behind it are no array. -/
def bucket (t : Option ClientTable) (key : ClientKey) : Option Unit :=
  match t with
  | none => some ()
  | some t => if bucketOf t.nb key < t.buckets.length then some () else none

/-- `plen == 8 && memcmp(payload, "shutdown", 8) == 0`. -/
def isShutdown (buf : List UInt8) (d : Datagram) : Option Bool :=
  if d.payloadLen = 8 then (slice buf d.payload 8).map fun p => decide (p = SHUTDOWN)
  else some false

/-- `snprintf(resp, size, "%s %u", msg, cnt)`: the return value and `resp` afterwards. -/
def formatReply (resp : List UInt8) (size : ℕ) (msg : List UInt8) (cnt : UInt32) :
    Option (ℕ × List UInt8) := do
  let s ← string msg
  let text := s ++ ascii " " ++ decimal cnt.toNat
  let shown := snprintf size text ++ [0]
  let resp ← CheckedMem.memcpy resp 0 shown 0 shown.length
  return (text.length, resp)

def echoReply (listenPort : UInt16) (e : EchoEnv) (arrays : TextArrays) (d : Datagram)
    (buf : List UInt8) (cnt : UInt32) : Option EchoAct := do
  let copy := min d.payloadLen RAWUDP_MAX_PAYLOAD
  let msg ← CheckedMem.memcpy arrays.msg 0 buf d.payload copy
  let msg ← CheckedMem.store8 msg copy 0
  let (rlen, resp) ← formatReply arrays.resp (RAWUDP_MAX_PAYLOAD + 128) msg cnt
  let (pktLen, out) ← rawudpBuildIpv4Udp e.pid e.out 65536 d.dstIp d.srcIp listenPort d.srcPort resp
    rlen 64
  if pktLen < 0 then some .skipped
  else do
    let pkt ← slice out 0 pktLen.toNat
    return .replied d.srcIp pkt

/-- An iteration of the server's loop. -/
def echoServerIter (listenPort : UInt16) (e : EchoEnv) (arrays : TextArrays)
    (ct : Option ClientTable) (buf : List UInt8) : Option (EchoAct × Option ClientTable) := do
  match ← rawudpParseIpv4Udp buf buf.length with
  | none => return (.ignored, ct)
  | some d =>
    if d.dstPort ≠ listenPort then return (.ignored, ct)
    else
      let shutdown ← isShutdown buf d
      bucket ct ⟨d.srcIp, d.srcPort⟩
      if shutdown then return (.forgot, rawudpCtReset ct ⟨d.srcIp, d.srcPort⟩)
      else
        match rawudpCtNext ct ⟨d.srcIp, d.srcPort⟩ (some e.cnt) e.calloc with
        | (0, ct, some cnt) => do
          let act ← echoReply listenPort e arrays d buf cnt
          return (act, ct)
        | (_, ct, _) => return (.skipped, ct)

end Checked

end EltexSystems
