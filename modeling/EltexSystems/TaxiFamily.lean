import EltexSystems.TaxiTable
import EltexSystems.TaxiTask

/-!
# The taxi CLI and its driver processes

The CLI of `taxi_control/main.c` together with the processes it has forked.  A child inherits the
CLI's ends of the sockets that are open at the `fork`, and `driver_loop` keeps them open, so a
driver sees the hang-up of its own socket only when the CLI has closed its end and every driver
forked meanwhile has exited.  A driver passes when `poll` has something for it: the hang-up, its
timer, or a message.  The last loop of `shutdown_all` waits for one child after another.
-/

namespace EltexSystems

open CStr

/-- A driver process, the messages that wait in its socket and the drivers of whose sockets it has
inherited the CLI's end. -/
structure DriverProc where
  pid : ℤ
  state : DriverState
  inbox : List (List UInt8)
  inherited : List ℕ
  reaped : Bool

/-- Where the CLI's process is: in `main`'s loop or before the wait, in the last loop of
`shutdown_all`, behind it, or killed. -/
inductive CliLife where
  | serving
  | waiting
  | returned
  | killed
  deriving DecidableEq, Repr

/-- The CLI and its children; the `k`-th child is the one of the `k`-th entry of the table. -/
structure Family where
  taxi : Taxi
  procs : List DriverProc
  life : CliLife

inductive FamilyLabel where
  | iter (e : LoopEnv)
  | shutdown (send : ℕ → SendResult)
  | wait (k : ℕ)
  | finish
  | abort
  | pass (k : ℕ) (w : Wake)
  | dies (k : ℕ)

/-- The entries with an open socket. -/
def openEntries (drivers : List DriverEntry) : List ℕ :=
  (List.range drivers.length).filter fun k => drivers[k]?.any fun d => decide (0 ≤ d.fd)

/-- The messages among some that go to the `k`-th driver. -/
def mailFor (drivers : List DriverEntry) (k : ℕ) (msgs : List (ℤ × List UInt8)) :
    List (List UInt8) :=
  (msgs.filter fun m => drivers[k]?.any fun d => d.alive && d.fd == m.1).map Prod.snd

def deliver (drivers : List DriverEntry) (msgs : List (ℤ × List UInt8))
    (procs : List DriverProc) : List DriverProc :=
  procs.mapIdx fun k q => { q with inbox := q.inbox ++ mailFor drivers k msgs }

/-- The messages a table has sent since it was another. -/
def sentSince (c c' : Cli) : List (ℤ × List UInt8) := c'.sent.drop c.sent.length

/-- `waitpid` gives the pids of children that have exited. -/
def DriverProc.reap (ps : List ℤ) (q : DriverProc) : DriverProc :=
  if q.state.exited && ps.contains q.pid then { q with reaped := true } else q

/-- The child as `fork` leaves it. -/
def DriverProc.fork (drivers : List DriverEntry) (pid : ℤ) : DriverProc where
  pid := pid
  state := ⟨⟨false, none⟩, 0, false⟩
  inbox := []
  inherited := openEntries drivers
  reaped := false

namespace Family

variable (s : Family)

def iterate (e : LoopEnv) : Family where
  taxi := s.taxi.iterate e
  procs := deliver (mainIter s.taxi.cli e).polled (sentSince s.taxi.cli (s.taxi.iterate e).cli)
      (s.procs.map (DriverProc.reap e.reaped)) ++
    ((forked e).map fun q => DriverProc.fork (mainIter s.taxi.cli e).polled q.1).toList
  life := s.life

/-- The first two loops of `shutdown_all`. -/
def shutdown (send : ℕ → SendResult) : Family where
  taxi := s.taxi.shutdown send
  procs := deliver s.taxi.cli.drivers (sentSince s.taxi.cli (s.taxi.shutdown send).cli) s.procs
  life := .waiting

/-- The CLI holds its end of the `k`-th socket. -/
def cliHolds (k : ℕ) : Bool :=
  s.taxi.stage != .ended && s.taxi.cli.drivers[k]?.any fun d => decide (0 ≤ d.fd)

/-- Some process holds the CLI's end of the `k`-th socket. -/
def held (k : ℕ) : Bool :=
  s.cliHolds k || s.procs.any fun q => !q.state.exited && q.inherited.contains k

/-- What `poll` and `recv` find in a pass of the `k`-th driver. -/
def Wakes (k : ℕ) (q : DriverProc) (w : Wake) : Prop :=
  if s.held k then
    w.hangup = false ∧
      match w.recv with
      | none => timerPollin q.state.driver.tfd w.polled = true
      | some r => ∃ m, q.inbox.head? = some m ∧ r = .data m
  else w.hangup = true ∧ w.recv = none

/-- The process is gone, through the end of `main` or another way. -/
def Gone : Prop := s.life = .returned ∨ s.life = .killed ∨ s.life = .serving ∧ s.taxi.stage = .ended

end Family

/-- The driver after a pass. -/
def DriverProc.after (q : DriverProc) (w : Wake) (d : DriverState) : DriverProc :=
  { q with state := d, inbox := if w.recv.isSome then q.inbox.tail else q.inbox }

/-- What the calls of an iteration report of the children is so: `waitpid` gives children that have
exited, and where `send`, `recv` or an entry of the `pollfd` array says that the other end of a
driver's socket is gone, the driver has exited. -/
structure Observed (s : Family) (e : LoopEnv) : Prop where
  reaped : ∀ p ∈ e.reaped, ∃ (k : ℕ) (q : DriverProc), s.procs[k]? = some q ∧ q.pid = p ∧
    q.state.exited = true ∧ q.reaped = false
  send : ∀ (k : ℕ) (q : DriverProc), s.procs[k]? = some q → e.send k = .dead →
    q.state.exited = true
  recv : ∀ (k : ℕ) (q : DriverProc), s.procs[k]? = some q →
    (.error ∈ e.recv k ∨ .data [] ∈ e.recv k) → q.state.exited = true
  hangup : ∀ revents, e.poll = .ready revents → ∀ (k idx : ℕ) (q : DriverProc) (d : DriverEntry),
    s.procs[k]? = some q → (mainIter s.taxi.cli e).polled[k]? = some d → d.alive = true →
    0 < idx → (mainIter s.taxi.cli e).pfds[idx]? = some d.fd → (revents idx).hangup = true →
    q.state.exited = true

/-- The steps; a driver also ends by a signal or where a call of `driver_loop` fails, and the CLI
by a signal. -/
inductive FamilyStep : Family → FamilyLabel → Family → Prop where
  | iter {s : Family} {e : LoopEnv} : s.life = .serving → s.taxi.stage = .running →
      Kernel s.taxi e → Observed s e → FamilyStep s (.iter e) (s.iterate e)
  | shutdown {s : Family} (send : ℕ → SendResult) : s.life = .serving →
      s.taxi.stage = .leaving → FamilyStep s (.shutdown send) (s.shutdown send)
  | wait {s : Family} {k : ℕ} {q : DriverProc} : s.life = .waiting → s.procs[k]? = some q →
      q.state.exited = true → q.reaped = false →
      FamilyStep s (.wait k) { s with procs := s.procs.set k { q with reaped := true } }
  | finish {s : Family} : s.life = .waiting → (∀ q ∈ s.procs, q.reaped = true) →
      FamilyStep s .finish { s with life := .returned }
  | abort {s : Family} : ¬ s.Gone →
      FamilyStep s .abort { s with taxi := { s.taxi with stage := .ended }, life := .killed }
  | pass {s : Family} {k : ℕ} {q : DriverProc} {w : Wake} {d : DriverState} :
      s.procs[k]? = some q → s.Wakes k q w → driverLts.step q.state w d →
      FamilyStep s (.pass k w) { s with procs := s.procs.set k (q.after w d) }
  | dies {s : Family} {k : ℕ} {q : DriverProc} : s.procs[k]? = some q →
      q.state.exited = false →
      FamilyStep s (.dies k)
        { s with procs := s.procs.set k { q with state := { q.state with exited := true } } }

def familyLts : Lts Family FamilyLabel where
  init s := s = ⟨⟨⟨[], 0, [], []⟩, [], [], .running⟩, [], .serving⟩
  step := FamilyStep

/-- The CLI is gone, with every child reaped if `main` returned, and every driver has exited. -/
structure Family.Over (s : Family) : Prop where
  gone : s.Gone
  reaped : s.life = .returned → ∀ q ∈ s.procs, q.reaped = true
  exited : ∀ q ∈ s.procs, q.state.exited = true

/-- The iteration judges the `k`-th driver by the events of another descriptor, or by what lies
behind the array. -/
def Misjudges (s : Family) (e : LoopEnv) (k : ℕ) : Prop :=
  ∃ idx, (k, idx) ∈ (mainIter s.taxi.cli e).examined ∧
    ∀ d, (mainIter s.taxi.cli e).polled[k]? = some d →
      (mainIter s.taxi.cli e).pfds[idx]? ≠ some d.fd

/-- The table is right about the processes as far as the CLI judges drivers by their own events: the
process of an alive entry runs unless it ended for its own reasons, and a process that runs has an
alive entry unless it was misjudged. -/
structure Attended (tr : List (Family × FamilyLabel)) (s : Family) : Prop where
  runs : ∀ (k : ℕ) (d : DriverEntry), s.taxi.cli.drivers[k]? = some d → d.alive = true →
    (∀ p ∈ tr, p.2 ≠ .dies k) →
    ∃ q, s.procs[k]? = some q ∧ q.pid = d.pid ∧ q.state.exited = false
  known : ∀ (k : ℕ) (q : DriverProc), s.procs[k]? = some q → q.state.exited = false →
    (∃ d, s.taxi.cli.drivers[k]? = some d ∧ d.alive = true) ∨
      ∃ p ∈ tr, ∃ e, p.2 = .iter e ∧ Misjudges p.1 e k

end EltexSystems
