import EltexSystems.EchoServer
import EltexSystems.EchoSession

/-!
# Echo programs on their hosts

The server and any number of clients on hosts that each own some addresses, the server's host or
others.  A packet is received by every program on the host its destination belongs to, so the server
and a client on its host receive their own packets too.  Packets in flight may be reordered and
lost.  Each packet carries the line it was sent for, and whether it is a reply.
-/

namespace EltexSystems

/-- A client and the number of a line it has sent. -/
structure Origin (ι : Type*) where
  client : ι
  index : ℕ
  deriving DecidableEq

/-- A packet on its way to a program. -/
structure Flight (ι : Type*) where
  pkt : List UInt8
  origin : Origin ι
  reply : Bool

/-- The programs' addresses and ports, as their argument checks admit them.  Each client is told an
address of the server's host, and the server's port. -/
structure EchoHosts (ι κ : Type*) where
  home : UInt32 → κ
  serverHost : κ
  listenPort : UInt16
  key : ι → ClientKey
  target : ι → UInt32
  listenPort_ne : listenPort ≠ 0
  port_ne : ∀ c, (key c).port ≠ 0
  target_home : ∀ c, home (target c) = serverHost

/-- The server's table, the packets that have reached each program and where each client is.  Beside
them, the number of lines each client has sent, and the lines whose packets the server has counted
and has replied to. -/
structure HostsState (ι : Type*) where
  table : Option ClientTable
  inbox : Option ι → List (Flight ι)
  pc : ι → ClientPc
  lines : ι → ℕ
  counted : List (Origin ι)
  replied : List (Origin ι)

inductive HostsLabel (ι : Type*) where
  | start (c : ι)
  | eof (c : ι)
  | line (c : ι) (e : EchoEnv) (ident : UInt16) (text : List UInt8)
  | unsent (c : ι)
  | serve (f : Flight ι) (e : EchoEnv) (addr : UInt32) (ident : UInt16)
  | recv (c : ι) (f : Flight ι)
  | drop (b : Option ι) (f : Flight ι)

/-- An iteration increments a counter. -/
def countsRequest (listenPort : UInt16) (e : EchoEnv) (ct : Option ClientTable)
    (buf : List UInt8) : Bool :=
  match requestOf listenPort buf with
  | none => false
  | some d => d.slice buf != SHUTDOWN &&
    (rawudpCtNext ct d.sender (some e.cnt) e.calloc).1 == 0

def EchoAct.isReply : EchoAct → Bool
  | .replied _ _ => true
  | _ => false

variable {ι κ : Type*} [DecidableEq ι] [DecidableEq κ]

namespace EchoHosts

variable (net : EchoHosts ι κ)

def hostOf : Option ι → κ
  | none => net.serverHost
  | some c => net.home (net.key c).ip

/-- A packet to an address reaches every program on its host. -/
def deliver (inbox : Option ι → List (Flight ι)) (dst : UInt32) (f : Flight ι) :
    Option ι → List (Flight ι) :=
  fun b => if net.hostOf b = net.home dst then inbox b ++ [f] else inbox b

/-- The packet a client builds for a line. -/
def request (c : ι) (e : EchoEnv) (text : List UInt8) : Option (List UInt8) :=
  echoClientLine e (net.target c) net.listenPort (net.key c).port text

/-- What a client takes a packet for. -/
def accept (c : ι) (pkt : List UInt8) : Option (List UInt8) :=
  echoClientAccept (net.target c) net.listenPort (net.key c).port pkt

end EchoHosts

namespace HostsState

variable (net : EchoHosts ι κ) (s : HostsState ι)

def afterLine (c : ι) (ident : UInt16) (pkt line : List UInt8) : HostsState ι :=
  { s with
    inbox := net.deliver s.inbox (net.target c)
      ⟨hdrincl (net.key c).ip ident pkt, ⟨c, s.lines c⟩, false⟩
    pc := Function.update s.pc c (EchoNet.pcAfter line)
    lines := Function.update s.lines c (s.lines c + 1) }

/-- The packets in flight after what the server does for a packet. -/
def afterAct (inbox : Option ι → List (Flight ι)) (o : Origin ι) (addr : UInt32)
    (ident : UInt16) : EchoAct → Option ι → List (Flight ι)
  | .replied dst pkt => net.deliver inbox dst ⟨hdrincl addr ident pkt, o, true⟩
  | _ => inbox

/-- The server handles a packet, with the rest of its packets left. -/
def afterServe (f : Flight ι) (rest : List (Flight ι)) (e : EchoEnv) (addr : UInt32)
    (ident : UInt16) : HostsState ι :=
  let res := echoServerIter net.listenPort e s.table f.pkt
  { s with
    table := res.2
    inbox := afterAct net (Function.update s.inbox none rest) f.origin addr ident res.1
    counted := if countsRequest net.listenPort e s.table f.pkt then s.counted ++ [f.origin]
      else s.counted
    replied := if res.1.isReply then s.replied ++ [f.origin] else s.replied }

/-- A waiting client reads a packet. -/
def afterRecv (c : ι) (f : Flight ι) (rest : List (Flight ι)) : HostsState ι :=
  { s with
    inbox := Function.update s.inbox (some c) rest
    pc := if (net.accept c f.pkt).isSome then Function.update s.pc c .reading else s.pc }

end HostsState

/-- A line may also go unsent, when the builder or `sendto` fails. -/
inductive HostsStep (net : EchoHosts ι κ) : HostsState ι → HostsLabel ι → HostsState ι → Prop where
  | start {s : HostsState ι} {c : ι} : s.pc c = .off →
      HostsStep net s (.start c) { s with pc := Function.update s.pc c .reading }
  | eof {s : HostsState ι} {c : ι} : s.pc c = .reading →
      HostsStep net s (.eof c) { s with pc := Function.update s.pc c .off }
  | line {s : HostsState ι} {c : ι} {e : EchoEnv} {ident : UInt16} {text pkt : List UInt8} :
      s.pc c = .reading → text.length ≤ 1399 → net.request c e text = some pkt →
      HostsStep net s (.line c e ident text) (s.afterLine net c ident pkt (chomp text))
  | unsent {s : HostsState ι} {c : ι} : s.pc c = .reading → HostsStep net s (.unsent c) s
  | serve {s : HostsState ι} {f : Flight ι} {l₁ l₂ : List (Flight ι)} {e : EchoEnv}
      {addr : UInt32} {ident : UInt16} : s.inbox none = l₁ ++ f :: l₂ →
      HostsStep net s (.serve f e addr ident) (s.afterServe net f (l₁ ++ l₂) e addr ident)
  | recv {s : HostsState ι} {c : ι} {f : Flight ι} {l₁ l₂ : List (Flight ι)} :
      s.pc c = .waiting → s.inbox (some c) = l₁ ++ f :: l₂ →
      HostsStep net s (.recv c f) (s.afterRecv net c f (l₁ ++ l₂))
  | drop {s : HostsState ι} {b : Option ι} {f : Flight ι} {l₁ l₂ : List (Flight ι)} :
      s.inbox b = l₁ ++ f :: l₂ →
      HostsStep net s (.drop b f) { s with inbox := Function.update s.inbox b (l₁ ++ l₂) }

def hostsLts (net : EchoHosts ι κ) : Lts (HostsState ι) (HostsLabel ι) where
  init s := s = ⟨rawudpCtCreate true true, fun _ => [], fun _ => .off, fun _ => 0, [], []⟩
  step := HostsStep net

/-- The server passes over its own replies, and a client over its own requests. -/
def PeersOnly (net : EchoHosts ι κ) (s : HostsState ι) : HostsLabel ι → Prop
  | .serve f e _ _ => f.reply = true →
      (echoServerIter net.listenPort e s.table f.pkt).1 = .ignored
  | .recv c f => f.reply = false → f.origin.client = c → net.accept c f.pkt = none
  | _ => True

end EltexSystems
