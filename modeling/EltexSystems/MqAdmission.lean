import EltexSystems.MqChatSystem

/-!
# Who is heard in the message queue chat

The server's queue hands over messages in the order in which they were sent, so the sender of the
one it takes next is read off the sends and receives of a run so far.
-/

namespace EltexSystems

variable {ι : Type*}

/-- The client that sends to the server's queue. -/
def MqLabel.sender : MqLabel ι → Option ι
  | .submit c => some c
  | _ => none

/-- The server takes a message from its queue. -/
def MqLabel.takes : MqLabel ι → Bool
  | .receive _ => true
  | _ => false

/-- The senders of the messages sent to the server, in order. -/
def sendersOf (tr : List (MqSystem ι × MqLabel ι)) : List ι := tr.filterMap fun p => p.2.sender

def takenOf (tr : List (MqSystem ι × MqLabel ι)) : ℕ := tr.countP fun p => p.2.takes

/-- The sender of the message the server takes next. -/
def nextSender (tr : List (MqSystem ι × MqLabel ι)) : Option ι := (sendersOf tr)[takenOf tr]?

/-- A step that takes a message of some type. -/
def Takes (type : UInt8) (s : MqSystem ι) (opened : Option ι) (l : MqLabel ι) : Prop :=
  l = .receive opened ∧ ∃ m rest, s.inbox = m :: rest ∧ m.type = type

/-- A client in the table of the server. -/
def HoldsSlot (s : MqSystem ι) (c : ι) : Prop := ∃ cl ∈ s.server.clients, cl.q = some c

/-- The client's join request has been taken with the table full or its queue not to be opened. -/
def Refused (tr : List (MqSystem ι × MqLabel ι)) (c : ι) : Prop :=
  ∃ tr₁ s l tr₂ opened, tr = tr₁ ++ (s, l) :: tr₂ ∧ nextSender tr₁ = some c ∧ Takes 74 s opened l ∧
    (MAX_CLIENTS ≤ s.server.clients.length ∨ opened = none)

/-- A step that takes a chat message which the handler stores in the history or sends to a
client. -/
def Relays (s : MqSystem ι) (l : MqLabel ι) : Prop :=
  ∃ opened m rest, l = .receive opened ∧ s.inbox = m :: rest ∧ m.type = 77 ∧
    ((handleRequest s.server m opened).server.history = s.server.history ++ [m] ∨
      ∃ d, (d, m) ∈ (handleRequest s.server m opened).sends)

/-- Every chat message the server stores or broadcasts is from a client with a slot. -/
def OnlyMembers (tr : List (MqSystem ι × MqLabel ι)) : Prop :=
  ∀ tr₁ s l tr₂, tr = tr₁ ++ (s, l) :: tr₂ → Relays s l →
    ∃ c, nextSender tr₁ = some c ∧ HoldsSlot s c

/-- There is room in the history, or a client in the table. -/
def MqSystem.Hears (s : MqSystem ι) : Prop :=
  s.server.history.length < MAX_HISTORY ∨ ∃ d, HoldsSlot s d

/-- Where there is room in the history or a client in the table, no chat message is taken from a
client whose join request was refused before. -/
def NoneRefused (tr : List (MqSystem ι × MqLabel ι)) : Prop :=
  ∀ tr₁ s l tr₂ opened, tr = tr₁ ++ (s, l) :: tr₂ → Takes 77 s opened l → s.Hears →
    ∀ c, nextSender tr₁ = some c → ¬ Refused tr₁ c

end EltexSystems
