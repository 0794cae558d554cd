import EltexSystems.ShmLog

/-!
# The startup of the shared memory chat

The server's steps up to the set semaphore and the steps of clients that interleave with them, the
order in which the clients' main threads obtain the lock, and what of it the segment's names keep.
-/

namespace EltexSystems.ShmChat

open CStr

variable {ι : Type*}

/-- The server's startup, in the order of its steps. -/
def ServerPc.startup : List ServerPc := [.shmget, .shmat, .memset, .running, .semget, .setval]

/-- The server's steps are those of its startup. -/
def Startup (w : World ι) : Label ι → Prop
  | .server _ => w.server ∈ ServerPc.startup
  | .client _ _ => True

/-- The step zeroes the segment. -/
def Zeroes (w : World ι) : Label ι → Prop
  | .server _ => w.server = .memset
  | .client _ _ => False

/-- The main thread is registering its name. -/
def Client.Registering (c : Client) : Prop := ∃ p, c.main = .register p

/-- The client whose main thread obtains the lock in the step. -/
def joined (w : World ι) : Label ι → List ι
  | .client i (.main _) => if (w.clients i).main = .lock then [i] else []
  | _ => []

/-- The client whose registration the step ends, whether or not there was room for its name. -/
def registered (w : World ι) : Label ι → List ι
  | .client i (.main _) =>
    match (w.clients i).main with
    | .register p => if p.next MAX_CLIENTS w.mem.chat.client_count = none then [i] else []
    | _ => []
  | _ => []

/-- The name as it stands in the segment. -/
def Client.printed (c : Client) : CharArray NAME_LEN := .print c.name.text NAME_LEN_pos

variable [DecidableEq ι]

/-- What a run has kept of the startup. -/
structure Started (tr : List (World ι × Label ι)) (w : World ι) : Prop where
  /-- The segment has been zeroed before a client's critical section, and is not after it. -/
  zeroed : ∀ {tr₁ tr₂ : List (World ι × Label ι)} {v : World ι} {i : ι} {ok : Bool},
    tr = tr₁ ++ (v, .client i (.main ok)) :: tr₂ → (v.clients i).Inside .main →
      (∃ p ∈ tr₁, Zeroes p.1 p.2) ∧ ∀ p ∈ tr₂, ¬ Zeroes p.1 p.2
  /-- The names and messages that were stored are stored still. -/
  kept : ∀ {tr₁ tr₂ : List (World ι × Label ι)} {v : World ι}, tr = tr₁ ++ tr₂ →
    shmLts.Run tr₁ v → shmLts.Path v tr₂ w →
      v.mem.chat.names.Grows w.mem.chat.names ∧ v.mem.chat.log.Grows w.mem.chat.log
  alone : ∀ i j, (w.clients i).Inside .main → (w.clients j).Inside .main → i = j
  once : (tr.flatMap fun p => joined p.1 p.2).Nodup
  /-- The clients that obtained the lock have registered in that order, but for one that still is
  registering, and the names are those of the first ten. -/
  names : ∃ done pending, (tr.flatMap fun p => joined p.1 p.2) = done ++ pending ∧
    pending.length ≤ 1 ∧ (∀ i, i ∈ pending ↔ (w.clients i).Registering) ∧
    w.mem.chat.names.stored = (done.map fun i => (w.clients i).printed).take MAX_CLIENTS

end EltexSystems.ShmChat
