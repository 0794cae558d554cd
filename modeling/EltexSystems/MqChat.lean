import EltexSystems.Lib.CString

/-!
# The message queue chat server of `message_queues/chat_server.c`

The handlers of the server's loop.  The first `client_count` entries of `clients` and the first
`history_count` of `history` are lists; of what type descriptors are is left open, and `none` is
`(mqd_t)-1`.  A handler returns the messages it sends, in order, each with its descriptor.  The
clients fill every array of a message with a terminated string.
-/

namespace EltexSystems

open CStr

def MAX_NAME : ℕ := 32

def MAX_QNAME : ℕ := 64

def MAX_TEXT : ℕ := 256

def MAX_CLIENTS : ℕ := 10

def MAX_HISTORY : ℕ := 100

theorem MAX_NAME_pos : 0 < MAX_NAME := by decide

theorem MAX_QNAME_pos : 0 < MAX_QNAME := by decide

theorem MAX_TEXT_pos : 0 < MAX_TEXT := by decide

structure ChatMsg where
  type : UInt8
  name : CharArray MAX_NAME
  qname : CharArray MAX_QNAME
  text : CharArray MAX_TEXT
  deriving DecidableEq

/-- The name of a message queue. -/
abbrev QueueName := List UInt8

structure ClientInfo (δ : Type*) where
  name : CharArray MAX_NAME
  qname : CharArray MAX_QNAME
  q : Option δ

structure ChatServer (δ : Type*) where
  clients : List (ClientInfo δ)
  history : List ChatMsg

/-- What a handler leaves behind. -/
structure Handled (δ : Type*) where
  server : ChatServer δ
  sends : List (δ × ChatMsg)

variable {δ : Type*}

/-- A message of the server itself. -/
def systemMsg (text : List UInt8) : ChatMsg where
  type := 83
  name := .print (ascii "Server") MAX_NAME_pos
  qname := .print [] MAX_QNAME_pos
  text := .print text MAX_TEXT_pos

def joinNotice (msg : ChatMsg) : ChatMsg := systemMsg (msg.name.text ++ ascii " joined chat")

def sendToAll (clients : List (ClientInfo δ)) (msg : ChatMsg) : List (δ × ChatMsg) :=
  clients.filterMap fun cl => cl.q.map fun q => (q, msg)

/-- `history[history_count++] = msg` while there is room. -/
def remember (history : List ChatMsg) (msg : ChatMsg) : List ChatMsg :=
  if history.length < MAX_HISTORY then history ++ [msg] else history

/-- `opened` is what `mq_open` of the queue named in the request returns. -/
def handleJoin (s : ChatServer δ) (msg : ChatMsg) (opened : Option δ) : Handled δ :=
  if s.clients.length ≥ MAX_CLIENTS then
    let sys := systemMsg (ascii "Too many clients, " ++ msg.name.text ++ ascii " rejected")
    ⟨s, (opened.map fun tmp => (tmp, sys)).toList⟩
  else
    match opened with
    | none => ⟨s, []⟩
    | some cq =>
      let cl : ClientInfo δ :=
        ⟨.print msg.name.text MAX_NAME_pos, .print msg.qname.text MAX_QNAME_pos, some cq⟩
      let clients := s.clients ++ [cl]
      let replay := s.history.map fun m => (cq, m)
      ⟨⟨clients, remember s.history (joinNotice msg)⟩, replay ++ sendToAll clients (joinNotice msg)⟩

def handleMessage (s : ChatServer δ) (msg : ChatMsg) : Handled δ :=
  ⟨⟨s.clients, remember s.history msg⟩, sendToAll s.clients msg⟩

/-- An iteration of the server's loop over a received message. -/
def handleRequest (s : ChatServer δ) (msg : ChatMsg) (opened : Option δ) : Handled δ :=
  if msg.type = 74 then handleJoin s msg opened
  else if msg.type = 77 then handleMessage s msg
  else ⟨s, []⟩

/-- The server after some requests, and all it has sent.  A descriptor is the name of the queue it
was opened by. -/
structure ChatRun where
  server : ChatServer QueueName
  sends : List (QueueName × ChatMsg)

/-- The queue a request names, if `mq_open` succeeds. -/
def openedBy (req : ChatMsg × Bool) : Option QueueName :=
  if req.2 then some req.1.qname.text else none

def ChatRun.next (r : ChatRun) (req : ChatMsg × Bool) : ChatRun :=
  let h := handleRequest r.server req.1 (openedBy req)
  ⟨h.server, r.sends ++ h.sends⟩

def chatRun (reqs : List (ChatMsg × Bool)) : ChatRun := reqs.foldl ChatRun.next ⟨⟨[], []⟩, []⟩

/-- What the requests alone make of the chat: how many joins are admitted, and the log, every chat
message and the notice of every join that is admitted. -/
structure ChatLog where
  admitted : ℕ
  msgs : List ChatMsg

/-- A join is admitted while there is room and its queue can be opened. -/
def ChatLog.next (l : ChatLog) (req : ChatMsg × Bool) : ChatLog :=
  if req.1.type = 77 then ⟨l.admitted, l.msgs ++ [req.1]⟩
  else if req.1.type = 74 ∧ req.2 = true ∧ l.admitted < MAX_CLIENTS then
    ⟨l.admitted + 1, l.msgs ++ [joinNotice req.1]⟩
  else l

def chatLog (reqs : List (ChatMsg × Bool)) : ChatLog := reqs.foldl ChatLog.next ⟨0, []⟩

/-- The messages sent through a descriptor. -/
def sentVia (sends : List (QueueName × ChatMsg)) (q : QueueName) : List ChatMsg :=
  (sends.filter fun p => p.1 = q).map Prod.snd

/-- The queue names the join requests carry. -/
def joinNames (reqs : List (ChatMsg × Bool)) : List QueueName :=
  (reqs.filter fun r => r.1.type = 74).map fun r => r.1.qname.text

/-- What the client in slot `i` has been sent: the first 100 messages logged before the request that
took the slot, then all logged from its own notice on. -/
def Delivered (reqs : List (ChatMsg × Bool)) (i : ℕ) (cl : ClientInfo QueueName) :
    Prop :=
  ∃ before j after, reqs = before ++ (j, true) :: after ∧ j.type = 74 ∧
    (chatRun before).server.clients.length = i ∧ cl.q = some j.qname.text ∧
    sentVia (chatRun reqs).sends j.qname.text = (chatLog before).msgs.take MAX_HISTORY
      ++ (chatLog reqs).msgs.drop (chatLog before).msgs.length ∧
    (chatLog reqs).msgs[(chatLog before).msgs.length]? = some (joinNotice j)

structure ChatDelivery (reqs : List (ChatMsg × Bool)) : Prop where
  delivered : ∀ (i : ℕ) cl, (chatRun reqs).server.clients[i]? = some cl → Delivered reqs i cl
  count : (chatRun reqs).server.clients.length ≤ MAX_CLIENTS
  history : (chatRun reqs).server.history.length ≤ MAX_HISTORY
  refused : ∀ j opened, MAX_CLIENTS ≤ (chatRun reqs).server.clients.length ∨ opened = none →
    (handleJoin (chatRun reqs).server j opened).server = (chatRun reqs).server

end EltexSystems
