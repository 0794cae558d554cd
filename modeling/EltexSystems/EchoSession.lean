import EltexSystems.Echo
import EltexSystems.Lib.Lts
import Mathlib.Logic.Function.Basic

/-!
# Echo clients and the server on a network

The server and any number of clients, each pair of programs joined by a queue of packets in each
direction.  A packet goes to every program on the host it is addressed to, the sender's own host
included, since a raw socket receives all of them; `none` is the server, `some c` a client.  A
client that has left may be started again on its address and port.
-/

namespace EltexSystems

/-- The programs' addresses and ports. -/
structure EchoNet (ι : Type*) where
  serverIp : UInt32
  listenPort : UInt16
  key : ι → ClientKey
  distinct : Function.Injective key
  port_ne : ∀ c, (key c).port ≠ listenPort

inductive ClientPc where
  | off
  | reading
  | waiting
  deriving DecidableEq

/-- A line a client has sent, as stripped, and whether it left its loop on it. -/
structure SentLine where
  line : List UInt8
  left : Bool

/-- The server's table, the packets in flight and where each client is.  Beside them, for each
client, the lines sent, what the server did with each, and the payloads printed. -/
structure Session (ι : Type*) where
  table : Option ClientTable
  chan : Option ι → Option ι → List (List UInt8)
  pc : ι → ClientPc
  sent : ι → List SentLine
  acts : ι → List EchoAct
  printed : ι → List (List UInt8)

inductive SessionLabel (ι : Type*) where
  | start (c : ι)
  | eof (c : ι)
  | line (c : ι) (e : EchoEnv) (ident : UInt16) (text : List UInt8)
  | lineUnsent (c : ι) (text : List UInt8)
  | serve (r : Option ι) (e : EchoEnv) (ident : UInt16)
  | recv (c : ι) (r : Option ι)
  | miss (c : ι) (r : Option ι)

variable {ι : Type*} [DecidableEq ι]

namespace EchoNet

variable (net : EchoNet ι)

def addr : Option ι → UInt32
  | none => net.serverIp
  | some c => (net.key c).ip

/-- A packet from a program, on its way to every program at its destination. -/
def transmit (chan : Option ι → Option ι → List (List UInt8)) (src : Option ι) (dst : UInt32)
    (pkt : List UInt8) : Option ι → Option ι → List (List UInt8) :=
  fun a b => if a = src ∧ net.addr b = dst then chan a b ++ [pkt] else chan a b

/-- What a client takes a packet for. -/
def accept (c : ι) (pkt : List UInt8) : Option (List UInt8) :=
  echoClientAccept net.serverIp net.listenPort (net.key c).port pkt

/-- The packet a client builds for a line. -/
def request (c : ι) (e : EchoEnv) (text : List UInt8) : Option (List UInt8) :=
  echoClientLine e net.serverIp net.listenPort (net.key c).port text

/-- Where a client is after sending a line: it breaks on `shutdown` and else waits for a reply. -/
def pcAfter (line : List UInt8) : ClientPc := if line = SHUTDOWN then .off else .waiting

end EchoNet

namespace Session

variable (net : EchoNet ι) (s : Session ι)

/-- The queue without its first packet. -/
def pop (a b : Option ι) : Option ι → Option ι → List (List UInt8) :=
  fun a' b' => if a' = a ∧ b' = b then (s.chan a b).tail else s.chan a' b'

def afterLine (c : ι) (ident : UInt16) (pkt line : List UInt8) : Session ι :=
  { s with
    chan := net.transmit s.chan (some c) net.serverIp (hdrincl (net.key c).ip ident pkt)
    pc := Function.update s.pc c (EchoNet.pcAfter line)
    sent := Function.update s.sent c
      (s.sent c ++ [⟨line, decide (EchoNet.pcAfter line = .off)⟩]) }

/-- The packets in flight after what the server does. -/
def afterAct (r : Option ι) (ident : UInt16) : EchoAct → Option ι → Option ι → List (List UInt8)
  | .replied dst pkt => net.transmit (s.pop r none) none dst (hdrincl net.serverIp ident pkt)
  | _ => s.pop r none

def afterServe (r : Option ι) (e : EchoEnv) (ident : UInt16) (buf : List UInt8) : Session ι :=
  let res := echoServerIter net.listenPort e s.table buf
  { s with
    table := res.2
    chan := s.afterAct net r ident res.1
    acts := fun c => if r = some c then s.acts c ++ [res.1] else s.acts c }

/-- A packet read by a waiting client: printed if it passes the filter, passed over else. -/
def afterRecv (c : ι) (r : Option ι) (buf : List UInt8) : Session ι :=
  match net.accept c buf with
  | none => { s with chan := s.pop r (some c) }
  | some text =>
    { s with
      chan := s.pop r (some c)
      pc := Function.update s.pc c .reading
      printed := Function.update s.printed c (s.printed c ++ [text]) }

end Session

/-- `fgets` into 1400 bytes delivers at most 1399; a packet reaching a host while the client there
is not running is lost to it. -/
inductive SessionStep (net : EchoNet ι) : Session ι → SessionLabel ι → Session ι → Prop where
  | start {s : Session ι} {c : ι} : s.pc c = .off →
      SessionStep net s (.start c) { s with pc := Function.update s.pc c .reading }
  | eof {s : Session ι} {c : ι} : s.pc c = .reading →
      SessionStep net s (.eof c) { s with pc := Function.update s.pc c .off }
  | line {s : Session ι} {c : ι} {e : EchoEnv} {ident : UInt16} {text pkt : List UInt8} :
      s.pc c = .reading → text.length ≤ 1399 → net.request c e text = some pkt →
      SessionStep net s (.line c e ident text) (s.afterLine net c ident pkt (chomp text))
  | refused {s : Session ι} {c : ι} {e : EchoEnv} {ident : UInt16} {text : List UInt8} :
      s.pc c = .reading → text.length ≤ 1399 → net.request c e text = none →
      SessionStep net s (.line c e ident text) s
  | lineUnsent {s : Session ι} {c : ι} {text : List UInt8} : s.pc c = .reading →
      SessionStep net s (.lineUnsent c text) s
  | serve {s : Session ι} {r : Option ι} {e : EchoEnv} {ident : UInt16} {buf : List UInt8}
      {rest : List (List UInt8)} : s.chan r none = buf :: rest →
      SessionStep net s (.serve r e ident) (s.afterServe net r e ident buf)
  | recv {s : Session ι} {c : ι} {r : Option ι} {buf : List UInt8} {rest : List (List UInt8)} :
      s.pc c = .waiting → s.chan r (some c) = buf :: rest →
      SessionStep net s (.recv c r) (s.afterRecv net c r buf)
  | miss {s : Session ι} {c : ι} {r : Option ι} {buf : List UInt8} {rest : List (List UInt8)} :
      s.pc c = .off → s.chan r (some c) = buf :: rest →
      SessionStep net s (.miss c r) { s with chan := s.pop r (some c) }

def sessionLts (net : EchoNet ι) : Lts (Session ι) (SessionLabel ι) where
  init s := s.table = rawudpCtCreate true true ∧ (∀ a b, s.chan a b = []) ∧ (∀ c, s.pc c = .off) ∧
    (∀ c, s.sent c = []) ∧ (∀ c, s.acts c = []) ∧ ∀ c, s.printed c = []
  step := SessionStep net

def countLine (n : ℕ) (line : List UInt8) : ℕ := if line = SHUTDOWN then 0 else n + 1

/-- The number of lines since the last `shutdown`. -/
def linesSince (lines : List (List UInt8)) : ℕ := lines.foldl countLine 0

/-- The texts of the replies to a sequence of lines, `n` lines having gone before. -/
def replyTexts : ℕ → List (List UInt8) → List (List UInt8)
  | _, [] => []
  | n, line :: lines =>
    (if line = SHUTDOWN then [] else [replyText line (n + 1)])
      ++ replyTexts (countLine n line) lines

def Session.lines (s : Session ι) (c : ι) : List (List UInt8) := (s.sent c).map SentLine.line

/-- A line other than `shutdown` goes out only where the reply to it will fit into a payload, and
the server's `calloc` succeeds. -/
def Fits (s : Session ι) : SessionLabel ι → Prop
  | .line c _ _ text =>
    chomp text ≠ SHUTDOWN → (replyText (chomp text) (linesSince (s.lines c) + 1)).length ≤ 1400
  | .serve _ e _ => e.calloc = true
  | _ => True

/-- What the server owes a client for a line, after the lines before it. -/
def Answers (net : EchoNet ι) (c : ι) (before : List (List UInt8)) (line : List UInt8)
    (a : EchoAct) : Prop :=
  if line = SHUTDOWN then a = .forgot
  else ∃ pkt, a = .replied (net.key c).ip pkt ∧ ∀ ident,
    net.accept c (hdrincl net.serverIp ident pkt) = some (replyText line (linesSince before + 1))

/-- What a session is for. -/
structure SessionSpec (net : EchoNet ι) (s : Session ι) : Prop where
  /-- What the server did with a client's `k`-th line is what it owed, and it forgot the client's
  counter exactly where the client left its loop. -/
  answered : ∀ c (k : ℕ) a, (s.acts c)[k]? = some a → ∃ q, (s.sent c)[k]? = some q ∧
    Answers net c ((s.lines c).take k) q.line a ∧ (q.left = true ↔ a = .forgot)
  /-- A client has printed the replies to its lines, in order. -/
  printed : ∀ c, s.printed c <+: replyTexts 0 (s.lines c)
  /-- Every line sent has been handled or is on its way. -/
  queued : ∀ c, (s.acts c).length + (s.chan (some c) none).length = (s.sent c).length
  /-- The server handling a waiting client's queue puts the reply on its way. -/
  waiting : ∀ c, s.pc c = .waiting → ∃ tr s', (sessionLts net).Path s tr s' ∧
    (∀ p ∈ tr, ∃ e ident, p.2 = .serve (some c) e ident) ∧
    ∃ pkt ∈ s'.chan none (some c), (net.accept c pkt).isSome

end EltexSystems
