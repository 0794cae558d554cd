import EltexSystems.ClientTable
import EltexSystems.Lib.CString
import EltexSystems.Packet
import Mathlib.Data.List.DropRight

/-!
# The programs of `echo_raw/server/echo_server.c` and `echo_raw/client/echo_client.c`

One iteration of the server's loop over a received packet, what the client does with a line from
`fgets`, its filter on received packets, and what the kernel fills in when a packet leaves through a
raw socket with `IP_HDRINCL`.
-/

namespace EltexSystems

open CStr Mem

def SHUTDOWN : List UInt8 := ascii "shutdown"

/-- What an iteration finds: the process id, whether `calloc` succeeds, and what `out` and the
counter cell hold from before. -/
structure EchoEnv where
  pid : UInt32
  calloc : Bool
  out : List UInt8
  cnt : UInt32

/-- What an iteration of the server does with a packet. -/
inductive EchoAct where
  | ignored
  | forgot
  | skipped
  | replied (dst : UInt32) (pkt : List UInt8)
  deriving DecidableEq

/-- `"%s %u"` over the first bytes of the payload. -/
def echoText (payload : List UInt8) (cnt : UInt32) : List UInt8 :=
  cstr (payload.take RAWUDP_MAX_PAYLOAD) ++ ascii " " ++ decimal cnt.toNat

/-- The server's reply to a counted request. -/
def echoReply (listenPort : UInt16) (e : EchoEnv) (d : Datagram) (payload : List UInt8)
    (cnt : UInt32) : EchoAct :=
  let text := echoText payload cnt
  let resp := snprintf (RAWUDP_MAX_PAYLOAD + 128) text
  let r := rawudpBuildIpv4Udp e.pid e.out 65536 d.dstIp d.srcIp listenPort d.srcPort resp
    text.length 64
  if r.1 < 0 then .skipped else .replied d.srcIp (r.2.take r.1.toNat)

/-- An iteration of the server's loop. -/
def echoServerIter (listenPort : UInt16) (e : EchoEnv) (ct : Option ClientTable)
    (buf : List UInt8) : EchoAct × Option ClientTable :=
  match rawudpParseIpv4Udp buf buf.length with
  | none => (.ignored, ct)
  | some d =>
    if d.dstPort ≠ listenPort then (.ignored, ct)
    else if d.payloadLen = 8 ∧ d.slice buf = SHUTDOWN then
      (.forgot, rawudpCtReset ct ⟨d.srcIp, d.srcPort⟩)
    else
      match rawudpCtNext ct ⟨d.srcIp, d.srcPort⟩ (some e.cnt) e.calloc with
      | (0, ct, some cnt) => (echoReply listenPort e d (d.slice buf) cnt, ct)
      | (_, ct, _) => (.skipped, ct)

/-- The line with its trailing line feeds and carriage returns cut off. -/
def chomp (line : List UInt8) : List UInt8 := (cstr line).rdropWhile fun b => b == 10 || b == 13

/-- The packet the client builds for a line, `none` when the builder refuses it. -/
def echoClientLine (e : EchoEnv) (serverIp : UInt32) (serverPort localPort : UInt16)
    (line : List UInt8) : Option (List UInt8) :=
  let r := rawudpBuildIpv4Udp e.pid e.out 65536 0 serverIp localPort serverPort (chomp line)
    (chomp line).length 64
  if r.1 < 0 then none else some (r.2.take r.1.toNat)

/-- The payload of a received packet, if the client takes it for the reply. -/
def echoClientAccept (serverIp : UInt32) (serverPort localPort : UInt16) (inbuf : List UInt8) :
    Option (List UInt8) :=
  match rawudpParseIpv4Udp inbuf inbuf.length with
  | none => none
  | some d =>
    if d.srcIp ≠ serverIp then none
    else if d.srcPort ≠ serverPort then none
    else if d.dstPort ≠ localPort then none
    else some (d.slice inbuf)

/-- The line, a space and the 32-bit number of the line in decimal. -/
def replyText (line : List UInt8) (n : ℕ) : List UInt8 :=
  line ++ ascii " " ++ decimal (n % 2 ^ 32)

/-- The packet on the wire: the kernel fills in the total length and the header checksum, and the
source address and the `id` where they are zero. -/
def hdrincl (addr : UInt32) (ident : UInt16) (pkt : List UInt8) : List UInt8 :=
  let m := if load32 pkt 12 = 0 then store32 pkt 12 addr else pkt
  let m := if load16 m 4 = 0 then store16 m 4 ident else m
  let m := store16 m 2 (htons (UInt16.ofNat m.length))
  let m := store16 m 10 0
  store16 m 10 (htons (rawudpChecksum16 (m.take iphdrSize)))

end EltexSystems
