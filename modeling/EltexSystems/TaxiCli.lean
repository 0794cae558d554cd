import EltexSystems.TaxiLink

/-!
# The command line of `taxi_control/main.c`

The driver table, the commands on it and one iteration of `main`'s loop, over what the operating
system does in it: the children reaped, what `poll` reports, the line read, and how each call
returns.  An iteration also gives the table and the `pollfd` array as they were when `poll` was
called, and which entry of the array each driver was judged by.
-/

namespace EltexSystems

open CStr

/-- `driver_t`. -/
structure DriverEntry where
  pid : ℤ
  fd : ℤ
  alive : Bool
  deriving DecidableEq, Repr

/-- What the CLI does to the outside. -/
inductive Effect where
  | print (text : List UInt8)
  | send (fd : ℤ) (msg : List UInt8)
  | close (fd : ℤ)
  deriving DecidableEq, Repr

/-- The table and its capacity, the sockets the CLI holds open, and what it has done so far. -/
structure Cli where
  drivers : List DriverEntry
  cap : ℕ
  openFds : List ℤ
  log : List Effect

/-- How `send` returns: it sends, fails with `EPIPE` or `ECONNRESET`, or fails otherwise. -/
inductive SendResult where
  | sent
  | dead
  | failed
  deriving DecidableEq, Repr

/-- The `revents` of a `pollfd`: `POLLIN`, and any of `POLLHUP`, `POLLERR` and `POLLNVAL`. -/
structure Revents where
  pollin : Bool
  hangup : Bool
  deriving DecidableEq, Repr

/-- How `poll` returns; past the array the function gives what lies there in memory. -/
inductive PollResult where
  | interrupted
  | failed
  | ready (revents : ℕ → Revents)

/-- What an iteration finds: the pids `waitpid` returns, whether `calloc` and `realloc` succeed,
the poll result, the line `fgets` reads, the pid and socket of a new driver unless creating it
fails, and for each entry of the table how a `send` and what successive `recv`s on it return. -/
structure LoopEnv where
  reaped : List ℤ
  calloc : Bool
  poll : PollResult
  line : Option (List UInt8)
  spawn : Option (ℤ × ℤ)
  realloc : Bool
  send : ℕ → SendResult
  recv : ℕ → List Recv

namespace Cli

def emit (c : Cli) (es : List Effect) : Cli :=
  { c with openFds := c.openFds.filter fun fd => .close fd ∉ es, log := c.log ++ es }

/-- What is done to one entry of the table. -/
def atEntry (c : Cli) (i : ℕ) (f : DriverEntry → DriverEntry × List Effect) : Cli :=
  match c.drivers[i]? with
  | none => c
  | some d => { c with drivers := c.drivers.set i (f d).1 }.emit (f d).2

end Cli

/-- `d->alive = 0; close(d->fd); d->fd = -1`. -/
def bury (d : DriverEntry) : DriverEntry × List Effect :=
  ({ d with fd := -1, alive := false }, [.close d.fd])

def findDriver (c : Cli) (pid : ℤ) : Option ℕ := c.drivers.findIdx? fun d => d.pid == pid

/-- `none` is `die("realloc")`. -/
def driversPush (c : Cli) (pid fd : ℤ) (realloc : Bool) : Option Cli :=
  if c.drivers.length = c.cap then
    if realloc then
      some { c with
        cap := if c.cap ≠ 0 then c.cap * 2 else 8
        drivers := c.drivers ++ [⟨pid, fd, true⟩] }
    else none
  else some { c with drivers := c.drivers ++ [⟨pid, fd, true⟩] }

/-- The entry of a reaped child; one that is closed already is not closed again. -/
def reapEntry (d : DriverEntry) : DriverEntry × List Effect :=
  ({ d with fd := -1, alive := false }, if d.fd ≥ 0 then [.close d.fd] else [])

def reapChild (c : Cli) (p : ℤ) : Cli :=
  match c.drivers.findIdx? fun d => d.alive && d.pid == p with
  | none => c
  | some i => c.atEntry i reapEntry

def reapChildren (c : Cli) (ps : List ℤ) : Cli := ps.foldl reapChild c

def cmdCreateDriver (c : Cli) (e : LoopEnv) : Option Cli :=
  match e.spawn with
  | none => none
  | some (pid, fd) =>
    (driversPush { c with openFds := fd :: c.openFds } pid fd e.realloc).map
      (·.emit [.print (decimalInt pid ++ ascii "\n")])

def noSuchDriver : Effect := .print (ascii "Error NoSuchDriver\n")

def sendCmd (cmd : List UInt8) (r : SendResult) (d : DriverEntry) : DriverEntry × List Effect :=
  if !d.alive then (d, [noSuchDriver])
  else
    match r with
    | .sent => (d, [.send d.fd cmd])
    | .dead => ((bury d).1, .print (ascii "Error DriverDead\n") :: (bury d).2)
    | .failed => (d, [.print (ascii "Error SendFailed\n")])

/-- A command to the driver with a pid, as `cmd_send_task` and `cmd_get_status` give it. -/
def cmdToDriver (c : Cli) (pid : ℤ) (cmd : Command) (e : LoopEnv) : Cli :=
  match findDriver c pid with
  | none => c.emit [noSuchDriver]
  | some i => c.atEntry i fun d =>
    if !d.alive then (d, [noSuchDriver]) else sendCmd cmd.text (e.send i) d

def cmdSendTask (c : Cli) (pid sec : ℤ) (e : LoopEnv) : Cli := cmdToDriver c pid (.task sec) e

def cmdGetStatus (c : Cli) (pid : ℤ) (e : LoopEnv) : Cli := cmdToDriver c pid .status e

def statusEntry (r : SendResult) (d : DriverEntry) : DriverEntry × List Effect :=
  if !d.alive then (d, []) else sendCmd Command.status.text r d

def cmdGetDrivers (c : Cli) (e : LoopEnv) : Cli :=
  (List.range c.drivers.length).foldl (fun c i => c.atEntry i (statusEntry (e.send i))) c

/-- The next token, and the cursor behind it. -/
def nextTok (s : List UInt8) : Option (List UInt8) × List UInt8 :=
  let s := s.dropWhile isspace
  if s = [] then (none, [])
  else (some (s.takeWhile (!isspace ·)), (s.dropWhile (!isspace ·)).drop 1)

/-- The conversion of a `long` to `int`. -/
def toInt (z : ℤ) : ℤ := z.bmod (2 ^ 32)

/-- What a line asks for. -/
inductive CliCommand where
  | empty
  | createDriver
  | taskUsage
  | sendTask (pid sec : ℤ)
  | statusUsage
  | getStatus (pid : ℤ)
  | badArgs
  | getDrivers
  | quit
  | unknown
  deriving DecidableEq, Repr

def parseSendTask (p : List UInt8) : CliCommand :=
  let (spid, p) := nextTok p
  let (st, _) := nextTok p
  match spid, st with
  | some spid, some st =>
    let pid := toInt (strtol spid).1
    let t := toInt (strtol st).1
    if pid ≤ 0 ∨ t ≤ 0 then .badArgs else .sendTask pid t
  | _, _ => .taskUsage

def parseGetStatus (p : List UInt8) : CliCommand :=
  match (nextTok p).1 with
  | none => .statusUsage
  | some spid =>
    let pid := toInt (strtol spid).1
    if pid ≤ 0 then .badArgs else .getStatus pid

def parseLine (line : List UInt8) : CliCommand :=
  let (cmd, p) := nextTok (cstr line)
  match cmd with
  | none => .empty
  | some cmd =>
    if cmd = ascii "create_driver" then .createDriver
    else if cmd = ascii "send_task" then parseSendTask p
    else if cmd = ascii "get_status" then parseGetStatus p
    else if cmd = ascii "get_drivers" then .getDrivers
    else if cmd = ascii "exit" ∨ cmd = ascii "quit" then .quit
    else .unknown

/-- A command other than `exit` and `quit`; `none` where the CLI dies. -/
def runCommand (c : Cli) (e : LoopEnv) : CliCommand → Option Cli
  | .empty => some c
  | .createDriver => cmdCreateDriver c e
  | .taskUsage => some (c.emit [.print (ascii "Error Usage: send_task <pid> <task_timer>\n")])
  | .sendTask pid sec => some (cmdSendTask c pid sec e)
  | .statusUsage => some (c.emit [.print (ascii "Error Usage: get_status <pid>\n")])
  | .getStatus pid => some (cmdGetStatus c pid e)
  | .badArgs => some (c.emit [.print (ascii "Error BadArgs\n")])
  | .getDrivers => some (cmdGetDrivers c e)
  | .quit => some c
  | .unknown => some (c.emit [.print (ascii "Error UnknownCommand\n")])

/-- The reads on a readable driver, up to the one that finds nothing, an error or the end. -/
def handleDriverReadable : List Recv → DriverEntry → DriverEntry × List Effect
  | [], d => (d, [])
  | .again :: _, d => (d, [])
  | .error :: _, d => bury d
  | .data [] :: _, d => bury d
  | .data resp :: rs, d =>
    let r := handleDriverReadable rs d
    (r.1, .print (driverLine d.pid resp) :: r.2)

/-- What becomes of an entry that is judged by some `revents`. -/
def judge (ev : Revents) (rs : List Recv) (d : DriverEntry) : DriverEntry × List Effect :=
  if ev.hangup then bury d
  else if ev.pollin then handleDriverReadable rs d
  else (d, [])

/-- The dispatch loop over the entries listed, `idx` counting through the array; with the table, the
entries judged and the index each was judged at. -/
def dispatch (revents : ℕ → Revents) (recv : ℕ → List Recv) :
    List ℕ → ℕ → Cli → Cli × List (ℕ × ℕ)
  | [], _, c => (c, [])
  | i :: is, idx, c =>
    if (c.drivers[i]?.map DriverEntry.alive).getD false then
      let r := dispatch revents recv is (idx + 1) (c.atEntry i (judge (revents idx) (recv i)))
      (r.1, (i, idx) :: r.2)
    else dispatch revents recv is idx c

/-- The descriptors of the `pollfd` array, standard input first. -/
def pollFds (drivers : List DriverEntry) : List ℤ :=
  0 :: (drivers.filter DriverEntry.alive).map DriverEntry.fd

/-- Where an iteration leaves the loop for. -/
inductive Flow where
  | again
  | shutdown
  | died
  deriving DecidableEq, Repr

/-- The table after an iteration, where it goes on, and for the judging the table and the array at
the call of `poll` and the entries judged with their indices. -/
structure Iteration where
  cli : Cli
  flow : Flow
  polled : List DriverEntry
  pfds : List ℤ
  examined : List (ℕ × ℕ)

def dispatchAll (c : Cli) (e : LoopEnv) (revents : ℕ → Revents) : Cli × List (ℕ × ℕ) :=
  dispatch revents e.recv (List.range c.drivers.length) 1 c

/-- The part of an iteration behind a successful `poll`. -/
def afterPoll (c : Cli) (e : LoopEnv) (revents : ℕ → Revents) : Cli × Flow × List (ℕ × ℕ) :=
  if (revents 0).pollin then
    match e.line with
    | none => (c, .shutdown, [])
    | some line =>
      if parseLine line = .quit then (c, .shutdown, [])
      else
        match runCommand c e (parseLine line) with
        | none => (c, .died, [])
        | some c =>
          let r := dispatchAll c e revents
          (r.1, .again, r.2)
  else
    let r := dispatchAll c e revents
    (r.1, .again, r.2)

/-- An iteration of `main`'s loop. -/
def mainIter (c : Cli) (e : LoopEnv) : Iteration :=
  let c := reapChildren c e.reaped
  let pfds := pollFds c.drivers
  if !e.calloc then ⟨c, .died, c.drivers, pfds, []⟩
  else
    let c' := c.emit [.print (ascii "> ")]
    match e.poll with
    | .interrupted => ⟨c', .again, c.drivers, pfds, []⟩
    | .failed => ⟨c', .died, c.drivers, pfds, []⟩
    | .ready revents =>
      let r := afterPoll c' e revents
      ⟨r.1, r.2.1, c.drivers, pfds, r.2.2⟩

/-- The number of a new socket is of none that is open. -/
def FreshSocket (c : Cli) (e : LoopEnv) : Prop :=
  ∀ pid fd, e.spawn = some (pid, fd) → 0 ≤ fd ∧ fd ∉ (reapChildren c e.reaped).openFds

/-- The runs of `main`'s loop: the iterations that go on to another. -/
def cliLts : Lts Cli LoopEnv where
  init c := c = ⟨[], 0, [], []⟩
  step c e c' := FreshSocket c e ∧ (mainIter c e).flow = .again ∧ c' = (mainIter c e).cli

/-- Every driver judged is judged by its own entry of the array. -/
def Aligned (it : Iteration) : Prop :=
  ∀ q ∈ it.examined, q.2 < it.pfds.length ∧
    ∃ d, it.polled[q.1]? = some d ∧ it.pfds[q.2]? = some d.fd

/-- The command an iteration executes. -/
def commandOf (e : LoopEnv) : CliCommand :=
  match e.calloc, e.poll, e.line with
  | true, .ready revents, some line => if (revents 0).pollin then parseLine line else .empty
  | _, _, _ => .empty

/-- The command is `create_driver` and nothing it needs fails. -/
def Creates (c : Cli) (e : LoopEnv) : Prop :=
  commandOf e = .createDriver ∧ e.spawn ≠ none ∧ (c.drivers.length = c.cap → e.realloc = true)

/-- The entries of the table a command sends to. -/
def Addressed (c : Cli) (cmd : CliCommand) (i : ℕ) : Prop :=
  match cmd with
  | .sendTask pid _ => findDriver c pid = some i
  | .getStatus pid => findDriver c pid = some i
  | .getDrivers => True
  | _ => False

/-- An alive entry the command sends to and whose driver turns out dead. -/
def FoundDead (c : Cli) (e : LoopEnv) (i : ℕ) : Prop :=
  (∃ d, c.drivers[i]? = some d ∧ d.alive = true) ∧ Addressed c (commandOf e) i ∧ e.send i = .dead

/-- The command creates no driver, and behind a driver it finds dead it leaves none alive. -/
def Keeps (c : Cli) (e : LoopEnv) : Prop :=
  ¬ Creates (reapChildren c e.reaped) e ∧
    ∀ (i j : ℕ) (d : DriverEntry), i < j → FoundDead (reapChildren c e.reaped) e i →
      (reapChildren c e.reaped).drivers[j]? = some d → d.alive = true →
      FoundDead (reapChildren c e.reaped) e j

end EltexSystems
