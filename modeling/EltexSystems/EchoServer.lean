import EltexSystems.Echo
import EltexSystems.Lib.Lts

/-!
# Runs of the echo server

The server's loop over whatever datagrams `recv` returns, the requests among them, and what each
client sees of it: the packets sent to its address and port and the numbers they carry.
-/

namespace EltexSystems

open CStr

/-- A datagram `recv` returns, and what the iteration over it finds. -/
structure Arrival where
  env : EchoEnv
  buf : List UInt8

/-- The server's loop, from the table it creates. -/
def serverLts (listenPort : UInt16) : Lts (Option ClientTable) Arrival where
  init t := t = rawudpCtCreate true true
  step t a t' := t' = (echoServerIter listenPort a.env t a.buf).2

/-- What the server does in a step of a run. -/
def actOf (listenPort : UInt16) (p : Option ClientTable × Arrival) : EchoAct :=
  (echoServerIter listenPort p.2.env p.1 p.2.buf).1

/-- A datagram that parses and is addressed to the listening port. -/
def requestOf (listenPort : UInt16) (buf : List UInt8) : Option Datagram :=
  (rawudpParseIpv4Udp buf buf.length).filter fun d => d.dstPort == listenPort

def Datagram.sender (d : Datagram) : ClientKey := ⟨d.srcIp, d.srcPort⟩

def senderOf (listenPort : UInt16) (buf : List UInt8) : Option ClientKey :=
  (requestOf listenPort buf).map Datagram.sender

/-- The datagrams received from a client, in order. -/
def datagramsFrom (listenPort : UInt16) (key : ClientKey)
    (tr : List (Option ClientTable × Arrival)) : List (List UInt8) :=
  (tr.map fun p => p.2.buf).filter fun buf => senderOf listenPort buf == some key

/-- The packet sent, if it goes to a client's address and port. -/
def packetTo (key : ClientKey) : EchoAct → Option (List UInt8)
  | .replied dst pkt =>
    if dst = key.ip ∧ (rawudpParseIpv4Udp pkt pkt.length).map Datagram.dstPort = some key.port then
      some pkt
    else none
  | _ => none

/-- The packets sent to a client, in order. -/
def packetsTo (listenPort : UInt16) (key : ClientKey) (tr : List (Option ClientTable × Arrival)) :
    List (List UInt8) := tr.filterMap fun p => packetTo key (actOf listenPort p)

/-- The number at the end of a packet's payload. -/
def replyNumber (pkt : List UInt8) : Option ℕ :=
  (rawudpParseIpv4Udp pkt pkt.length).map fun d => digitsValue ((d.slice pkt).rtakeWhile isdigit)

/-- A client's numbers after a step, those before it given: a `shutdown` of the client begins
them anew. -/
def noteReply (listenPort : UInt16) (key : ClientKey) (ns : List ℕ)
    (p : Option ClientTable × Arrival) : List ℕ :=
  if actOf listenPort p = .forgot ∧ senderOf listenPort p.2.buf = some key then []
  else ns ++ ((packetTo key (actOf listenPort p)).bind replyNumber).toList

/-- The numbers in the replies sent to a client since its last `shutdown`. -/
def numbersSent (listenPort : UInt16) (key : ClientKey)
    (tr : List (Option ClientTable × Arrival)) : List ℕ := tr.foldl (noteReply listenPort key) []

/-- `1, 2, 3, …` modulo `2 ^ 32`. -/
def numbersUpTo (n : ℕ) : List ℕ := (List.range n).map fun i => (i + 1) % 2 ^ 32

/-- If the datagram is a request the server counts, the reply with the client's next number fits
into a payload. -/
def ReplyFits (listenPort : UInt16) (t : Option ClientTable) (a : Arrival) : Prop :=
  ∀ t₁ d, t = some t₁ → requestOf listenPort a.buf = some d → d.slice a.buf ≠ SHUTDOWN →
    (a.env.calloc = true ∨ (t₁.counter d.sender).isSome) →
      (echoText (d.slice a.buf) ((t₁.counter d.sender).getD 0 + 1)).length ≤ RAWUDP_MAX_PAYLOAD

end EltexSystems
