import EltexSystems.Lib.GrowingTable
import EltexSystems.ShmChat

/-!
# The log of the shared memory chat

The names and the messages of the segment as two tables, and what a run says of them: the messages
whose critical section a step ends, whether there was room for them or not, the lines that a
client's sender has read, and the one it is still to submit.
-/

namespace EltexSystems.ShmChat

open CStr

def Chat.names (chat : Chat) : GrowingTable (CharArray NAME_LEN) :=
  ⟨chat.client_count, chat.client_names⟩

def Chat.log (chat : Chat) : GrowingTable ChatMessage := ⟨chat.message_count, chat.messages⟩

variable {ι : Type*}

/-- The message of a thread whose critical section ends with this access. -/
def Phase.submits (count : ℕ) (msg : ChatMessage) (p : Phase) : List ChatMessage :=
  if p.next MAX_MESSAGES count = none then [msg] else []

/-- The message whose critical section the step ends, whether or not it was stored. -/
def submitted (w : World ι) : Label ι → List ChatMessage
  | .client i (.main _) =>
    match (w.clients i).main with
    | .append p => p.submits w.mem.chat.message_count (joinMessage (w.clients i))
    | _ => []
  | .client i (.sender _) =>
    match (w.clients i).sender with
    | .append p => p.submits w.mem.chat.message_count (lineMessage (w.clients i))
    | _ => []
  | _ => []

/-- The line a sender has read and has not submitted yet. -/
def Client.pending (c : Client) : List ChatMessage :=
  match c.sender with
  | .lock => [lineMessage c]
  | .append _ => [lineMessage c]
  | _ => []

/-- A `lock_sem` finds the semaphore. -/
def Present (w : World ι) : Label ι → Prop
  | .client i a => (w.clients i).Locking a.role → w.mem.sem ≠ none
  | .server _ => True

variable [DecidableEq ι]

/-- The line that the client's sender reads, one it is to submit. -/
def typed (i : ι) (w : World ι) : Label ι → List ChatMessage
  | .client j (.sender line) =>
    if j = i ∧ (w.clients i).sender = .getnstr ∧ line.text ≠ ascii "/quit" ∧ line.text ≠ [] then
      [lineMessage { w.clients i with buf := line }]
    else []
  | _ => []

/-- The line of the client's sender whose critical section the step ends. -/
def submittedBy (i : ι) (w : World ι) : Label ι → List ChatMessage
  | .client j (.sender line) => if j = i then submitted w (.client j (.sender line)) else []
  | _ => []

/-- What a run has kept of the log. -/
structure LogKept (tr : List (World ι × Label ι)) (w : World ι) : Prop where
  client_count : w.mem.chat.client_count ≤ MAX_CLIENTS
  message_count : w.mem.chat.message_count ≤ MAX_MESSAGES
  /-- A slot that was below `message_count` is as it was. -/
  slots : ∀ {tr₁ tr₂ : List (World ι × Label ι)} {v : World ι}, tr = tr₁ ++ tr₂ →
    shmLts.Run tr₁ v → shmLts.Path v tr₂ w → v.mem.chat.message_count ≤ w.mem.chat.message_count ∧
      ∀ k < v.mem.chat.message_count, w.mem.chat.messages k = v.mem.chat.messages k
  /-- The messages stored are the first hundred submitted, each stored once. -/
  stored : w.mem.chat.log.stored =
    (tr.flatMap fun p => submitted p.1 p.2).take MAX_MESSAGES
  /-- The lines a sender has read are those it has submitted, each once, and the pending one. -/
  lines : ∀ i, (tr.flatMap fun p => typed i p.1 p.2) =
    (tr.flatMap fun p => submittedBy i p.1 p.2) ++ (w.clients i).pending
  /-- With all slots in use, a sender's step leaves the segment as it is. -/
  full : ∀ {v v' : World ι} {i : ι} {line : CharArray TEXT_LEN},
    (v, .client i (.sender line)) ∈ tr → step v (.client i (.sender line)) = some v' →
      v.mem.chat.message_count = MAX_MESSAGES → v'.mem.chat = v.mem.chat
  last_seen : ∀ i, (w.clients i).last_seen ≤ w.mem.chat.message_count
  /-- A receiver has shown the first `last_seen` messages, in their order. -/
  shown : ∀ i, (w.clients i).shown =
    (List.range (w.clients i).last_seen).map w.mem.chat.messages
  /-- What two clients have shown is one a prefix of the other. -/
  displays : ∀ i j, (w.clients i).shown <+: (w.clients j).shown ∨
    (w.clients j).shown <+: (w.clients i).shown

end EltexSystems.ShmChat
