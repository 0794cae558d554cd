import EltexSystems.Lib.Descriptors
import EltexSystems.TaxiCli

/-!
# The taxi CLI and the kernel

The runs of `taxi_control/main.c` from its start through the iterations of `main`'s loop to the
final `shutdown_all`, with the children that are not reaped and the sockets opened and closed beside
the table.  The kernel gives a new child the pid of none that is not reaped, and a new socket the
number of none that is open.
-/

namespace EltexSystems

open CStr Descriptors

/-- The first loop of `shutdown_all`, which ignores what `send` returns. -/
def quitEntry (r : SendResult) (d : DriverEntry) : DriverEntry × List Effect :=
  if !d.alive then (d, [])
  else
    match r with
    | .sent => (d, [.send d.fd (ascii "QUIT")])
    | _ => (d, [])

/-- The second loop. -/
def closeEntry (d : DriverEntry) : DriverEntry × List Effect :=
  ({ d with fd := -1, alive := false }, if d.fd ≥ 0 then [.close d.fd] else [])

def shutdownAll (c : Cli) (send : ℕ → SendResult) : Cli :=
  let c := (List.range c.drivers.length).foldl (fun c i => c.atEntry i (quitEntry (send i))) c
  (List.range c.drivers.length).foldl (fun c i => c.atEntry i closeEntry) c

/-- Whether the process is in `main`'s loop, behind it, or gone. -/
inductive Stage where
  | running
  | leaving
  | ended
  deriving DecidableEq, Repr

structure Taxi where
  cli : Cli
  children : List ℤ
  sockets : List (Event ℤ)
  stage : Stage

inductive TaxiLabel where
  | iter (e : LoopEnv)
  | shutdown (send : ℕ → SendResult)

/-- The closes among some effects. -/
def closesIn (es : List Effect) : List (Event ℤ) :=
  es.filterMap fun
    | .close fd => some (.closed fd)
    | _ => none

/-- The closes in the log of a table since it was another. -/
def closesSince (c c' : Cli) : List (Event ℤ) := closesIn (c'.log.drop c.log.length)

/-- The pid and the socket of the driver an iteration forks. -/
def forked (e : LoopEnv) : Option (ℤ × ℤ) :=
  if commandOf e = .createDriver then e.spawn else none

namespace Taxi

variable (s : Taxi)

/-- The children left after the reaping at the start of an iteration. -/
def unreaped (e : LoopEnv) : List ℤ := s.children.filter (· ∉ e.reaped)

def iterate (e : LoopEnv) : Taxi where
  cli := (mainIter s.cli e).cli
  children := s.unreaped e ++ ((forked e).map Prod.fst).toList
  sockets := s.sockets ++ closesSince s.cli (reapChildren s.cli e.reaped) ++
    ((forked e).map fun q => .opened q.2).toList ++
    closesSince (reapChildren s.cli e.reaped) (mainIter s.cli e).cli
  stage :=
    match (mainIter s.cli e).flow with
    | .again => .running
    | .shutdown => .leaving
    | .died => .ended

/-- The last wait leaves no child. -/
def shutdown (send : ℕ → SendResult) : Taxi where
  cli := shutdownAll s.cli send
  children := []
  sockets := s.sockets ++ closesSince s.cli (shutdownAll s.cli send)
  stage := .ended

end Taxi

/-- The kernel reuses neither the pid of a child that is not reaped nor the number of an open
socket. -/
structure Kernel (s : Taxi) (e : LoopEnv) : Prop where
  pid : ∀ pid fd, forked e = some (pid, fd) → pid ∉ s.unreaped e
  fd : ∀ pid fd, forked e = some (pid, fd) → 0 ≤ fd ∧ fd ∉ (reapChildren s.cli e.reaped).openFds

def taxiLts : Lts Taxi TaxiLabel where
  init s := s = ⟨⟨[], 0, [], []⟩, [], [], .running⟩
  step s l s' :=
    match l with
    | .iter e => s.stage = .running ∧ Kernel s e ∧ s' = s.iterate e
    | .shutdown send => s.stage = .leaving ∧ s' = s.shutdown send

/-- Alive entries differ in a field. -/
def DistinctBy (field : DriverEntry → ℤ) (drivers : List DriverEntry) : Prop :=
  ∀ (i j : ℕ) (a b : DriverEntry), drivers[i]? = some a → drivers[j]? = some b →
    a.alive = true → b.alive = true → field a = field b → i = j

/-- What holds of the table and the sockets. -/
structure TableOk (s : Taxi) : Prop where
  alive_iff : ∀ d ∈ s.cli.drivers, d.alive = true ↔ 0 ≤ d.fd
  pids : DistinctBy DriverEntry.pid s.cli.drivers
  fds : DistinctBy DriverEntry.fd s.cli.drivers
  room : s.cli.drivers.length ≤ s.cli.cap
  closed_once : ClosedOnce s.sockets

/-- The pids of the table, in order. -/
def Taxi.pids (s : Taxi) : List ℤ := s.cli.drivers.map DriverEntry.pid

/-- A command that sends `msg` to the `i`-th entry: what it adds to the log is no answer
`NoSuchDriver`, and where the `send` succeeds it is the message on the entry's socket. -/
def SendsTo (c c' : Cli) (e : LoopEnv) (i : ℕ) (d : DriverEntry) (msg : List UInt8) : Prop :=
  ∃ es, c'.log = c.log ++ es ∧ noSuchDriver ∉ es ∧ (e.send i = .sent → es = [.send d.fd msg])

/-- The commands to the driver with the entry's pid send to the entry. -/
structure Reached (c : Cli) (i : ℕ) (d : DriverEntry) : Prop where
  task : ∀ (sec : ℤ) (e : LoopEnv),
    SendsTo c (cmdSendTask c d.pid sec e) e i d (Command.task sec).text
  status : ∀ e : LoopEnv, SendsTo c (cmdGetStatus c d.pid e) e i d Command.status.text

end EltexSystems
