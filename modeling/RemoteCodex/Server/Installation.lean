import RemoteCodex.Interact.Runs
import RemoteCodex.Interact.Table

/-!
# Replacing the service of an installation

Services and installers of one installation meet at its socket, its database
and three locks: `service.lock`, `transfer.lock` and the write lock of the
database. Processes come and go, and a pid may be used again; `born` tells the
processes apart.
-/

namespace RemoteCodex.Server.Installation

open Interact

inductive Stage
  /-- Launched, without the lock. -/
  | starting
  | owning
  | opened
  | serving
  /-- `serve` is over; the tasks it has spawned go on. -/
  | stopping
  /-- The lock is dropped; the process is still there. -/
  | released
  deriving DecidableEq, Repr

/-- A service of this installation. `legacy`: it rejects the protocol;
`retires`: it has the capability to retire idle channels. -/
structure Service where
  stage : Stage := .starting
  build : String
  legacy : Bool
  retires : Bool
  identity : String := ""
  deriving DecidableEq, Repr

/-- `service` is none for a process that is no service of this installation. -/
structure Process where
  born : Nat
  service : Option Service
  deriving DecidableEq, Repr

/-- What an installer looks at: the running channels, and the jobs that are
starting or running. -/
structure Database where
  application : Nat
  version : Nat
  tables : Bool
  identity : Option String
  channels : List String := []
  jobs : List String := []
  deriving DecidableEq, Repr

def APPLICATION : Nat := 0x52435356

/-- `Store::open`; `drawn` is the identity of a new database. -/
def Database.openStore (db : Database) (drawn : String) : Option Database :=
  if db.application = 0 ∧ db.version = 0 ∧ db.tables = false then
    some { application := APPLICATION, version := 3, tables := true, identity := some drawn }
  else if db.application = APPLICATION ∧ (db.version = 2 ∨ db.version = 3) ∧ db.identity.isSome then
    some { db with version := 3, channels := [], jobs := [] }
  else none

/-- `expected` is none where the service rejected the protocol. -/
def Database.supported (db : Database) (expected : Option String) : Bool :=
  db.application = APPLICATION && (db.version = 2 || db.version = 3) && (expected.isSome || db.version = 2)

def Database.unchanged (db : Database) (expected : Option String) : Bool :=
  db.identity.isSome && expected.all fun identity => db.identity = some identity

/-- Where an installer stands. It has the pid of the socket's peer, and the
identity of its answer unless the protocol was rejected. -/
inductive Progress
  | starting
  | connected (pid born : Nat)
  | greeted (pid : Nat) (expected : Option String) (retires : Bool)
  | prepared (pid : Nat) (expected : Option String)
  | inspecting (pid : Nat) (expected : Option String)
  | idle (pid : Nat) (expected : Option String)
  | waiting (pid : Nat)
  | ended
  deriving DecidableEq, Repr

/-- The pid an installer is going to signal. -/
def Progress.target : Progress → Option Nat
  | .connected pid _ | .greeted pid _ _ | .prepared pid _ | .inspecting pid _ | .idle pid _ => some pid
  | _ => none

/-- The installer has found the service idle, and has not ended. -/
def Progress.checked : Progress → Bool
  | .idle _ _ | .waiting _ => true
  | _ => false

structure Installer where
  build : String
  progress : Progress := .starting
  deriving DecidableEq, Repr

/-- `owner` has `service.lock`, `writer` the database, `blocker` the exclusive
`transfer.lock`, which each of `transfers` shares. `tasks` has a pid as often as
its service has a task: a connection that was accepted, or an execution.
`signalled` are the processes that were sent SIGTERM. -/
structure State where
  processes : Table Nat Process := ∅
  count : Nat := 0
  database : Database
  owner : Option Nat := none
  socket : Option Nat := none
  writer : Option Nat := none
  blocker : Option Nat := none
  transfers : List Nat := []
  tasks : List Nat := []
  installers : Table Nat Installer := ∅
  signalled : List Nat := []
  deriving DecidableEq

inductive Work
  | openChannel (id : String)
  | closeChannel (id : String)
  | startJob (id : String)
  | endJob (id : String)
  | startTransfer
  | endTransfer
  deriving DecidableEq, Repr

/-- Something becomes active. -/
def Work.starts : Work → Bool
  | .openChannel _ | .startJob _ | .startTransfer => true
  | _ => false

inductive ServiceStep
  | own
  | openStore (drawn : String)
  | listen
  /-- SIGTERM, an interrupt or an error of `serve`. -/
  | stop
  | release
  deriving DecidableEq, Repr

inductive InstallerStep
  | connect
  | hello
  | prepare
  | begin
  | inspect
  | kill
  | await
  /-- An error, a deadline, or the end of its process. -/
  | giveUp
  deriving DecidableEq, Repr

inductive Event
  | launch (pid : Nat) (build : String) (legacy retires : Bool)
  | spawn (pid : Nat)
  | exit (pid : Nat)
  /-- A service accepts a connection, or one of its tasks spawns another. -/
  | task (pid : Nat)
  /-- A task is over. -/
  | done (pid : Nat)
  | service (pid : Nat) (step : ServiceStep)
  | work (pid : Nat) (work : Work)
  | install (n : Nat) (build : String)
  | installer (n : Nat) (step : InstallerStep)
  deriving DecidableEq, Repr

namespace State

def serviceAt (s : State) (pid : Nat) : Option Service := (s.processes.lookup pid).bind Process.service

def setService (s : State) (pid : Nat) (service : Service) : State :=
  { s with processes := s.processes.update fun k p => if k = pid then { p with service := some service } else p }

/-- A new process. -/
def bear (s : State) (pid : Nat) (service : Option Service) : Option State :=
  match s.processes.lookup pid with
  | some _ => none
  | none => some { s with processes := s.processes.insert pid ⟨s.count, service⟩, count := s.count + 1 }

/-- A process ends: its locks go with it. -/
def bury (s : State) (pid : Nat) : State :=
  { s with
    processes := s.processes.erase pid
    owner := if s.owner = some pid then none else s.owner
    socket := if s.socket = some pid then none else s.socket
    transfers := s.transfers.filter (· ≠ pid)
    tasks := s.tasks.filter (· ≠ pid) }

/-- A step of a service's main. -/
def advance (s : State) (pid : Nat) (service : Service) : ServiceStep → Option State
  | .own =>
    if service.stage = .starting then
      match s.owner with
      | none => some { s.setService pid { service with stage := .owning } with owner := some pid }
      | some _ => some (s.bury pid)
    else none
  | .openStore drawn =>
    if service.stage = .owning ∧ s.writer = none then
      match s.database.openStore drawn with
      | none => some (s.bury pid)
      | some database =>
        let service := { service with stage := .opened, identity := database.identity.getD "" }
        some { s.setService pid service with database }
    else none
  | .listen =>
    if service.stage = .opened then
      some { s.setService pid { service with stage := .serving } with socket := some pid }
    else none
  | .stop => if service.stage = .serving then some (s.setService pid { service with stage := .stopping }) else none
  | .release =>
    if service.stage = .stopping then
      some { s.setService pid { service with stage := .released } with owner := none, socket := none }
    else none

/-- The service accepts connections, or finishes what it accepted. -/
def Stage.works : Stage → Bool
  | .serving | .stopping | .released => true
  | _ => false

def doWork (s : State) (pid : Nat) : Work → Option State
  | .openChannel id =>
    if s.writer = none then some { s with database := { s.database with channels := id :: s.database.channels } } else none
  | .closeChannel id =>
    if s.writer = none then
      some { s with database := { s.database with channels := s.database.channels.filter (· ≠ id) } }
    else none
  | .startJob id =>
    if s.writer = none then some { s with database := { s.database with jobs := id :: s.database.jobs } } else none
  | .endJob id =>
    if s.writer = none then some { s with database := { s.database with jobs := s.database.jobs.filter (· ≠ id) } }
    else none
  | .startTransfer => if s.blocker = none then some { s with transfers := pid :: s.transfers } else none
  | .endTransfer => some { s with transfers := s.transfers.erase pid }

-- ---------------------------------------------------------------------------
-- Installers
-- ---------------------------------------------------------------------------

def setProgress (s : State) (n : Nat) (installer : Installer) (progress : Progress) : State :=
  { s with installers := s.installers.insert n { installer with progress } }

/-- The transaction ends, and the locks are dropped. -/
def finish (s : State) (n : Nat) (installer : Installer) : State :=
  { s with
    writer := if s.writer = some n then none else s.writer
    blocker := if s.blocker = some n then none else s.blocker }.setProgress n installer .ended

/-- Who accepts connections at the socket. -/
def listener (s : State) : Option Nat :=
  s.socket.filter fun pid => (s.serviceAt pid).any fun service => service.stage = .serving

/-- A call on a new connection is answered, for the identity. -/
def answers (s : State) (identity : String) : Bool :=
  (s.listener.bind s.serviceAt).any fun service => service.identity = identity

/-- `replace_idle`, under the write lock and until the signal. -/
def inspect (s : State) (n : Nat) (installer : Installer) (pid : Nat) (expected : Option String) : State :=
  if !s.database.supported expected then s.finish n installer
  else if !s.database.unchanged expected then s.finish n installer
  else if s.database.channels ≠ [] ∨ s.database.jobs ≠ [] ∨ s.transfers ≠ [] ∨ s.blocker.isSome then s.finish n installer
  else { s with blocker := some n }.setProgress n installer (.idle pid expected)

/-- The installer that rejected services are verified again before the signal. -/
def kill (s : State) (n : Nat) (installer : Installer) (pid : Nat) (expected : Option String) : State :=
  if expected.isNone && (s.serviceAt pid).isNone then s.finish n installer
  else
    match s.processes.lookup pid with
    | none => s.finish n installer
    | some process => { s with signalled := process.born :: s.signalled }.setProgress n installer (.waiting pid)

def installerNext (s : State) (n : Nat) (installer : Installer) : InstallerStep → Option State
  | .connect =>
    if installer.progress = .starting then
      match s.listener.bind fun pid => (s.processes.lookup pid).map fun process => (pid, process.born) with
      | none => some (s.finish n installer)
      | some (pid, born) => some (s.setProgress n installer (.connected pid born))
    else none
  | .hello =>
    match installer.progress with
    | .connected pid born =>
      match (s.processes.lookup pid).filter (·.born = born) with
      | none => some (s.finish n installer)
      | some process =>
        match process.service with
        | none => none
        | some service =>
          if service.legacy then some (s.setProgress n installer (.greeted pid none false))
          else if service.build = installer.build then some (s.finish n installer)
          else some (s.setProgress n installer (.greeted pid (some service.identity) service.retires))
    | _ => none
  | .prepare =>
    match installer.progress with
    | .greeted pid expected retires =>
      match expected with
      | some identity =>
        if !retires || s.answers identity then some (s.setProgress n installer (.prepared pid expected))
        else some (s.finish n installer)
      | none =>
        if (s.serviceAt pid).isSome then some (s.setProgress n installer (.prepared pid none))
        else some (s.finish n installer)
    | _ => none
  | .begin =>
    match installer.progress, s.writer with
    | .prepared pid expected, none =>
      some ({ s with writer := some n }.setProgress n installer (.inspecting pid expected))
    | _, _ => none
  | .inspect =>
    match installer.progress with
    | .inspecting pid expected => some (s.inspect n installer pid expected)
    | _ => none
  | .kill =>
    match installer.progress with
    | .idle pid expected => some (s.kill n installer pid expected)
    | _ => none
  | .await =>
    match installer.progress, s.owner with
    | .waiting _, none => some (s.finish n installer)
    | _, _ => none
  | .giveUp => some (s.finish n installer)

def next (s : State) : Event → Option State
  | .launch pid build legacy retires => s.bear pid (some { build, legacy, retires })
  | .spawn pid => s.bear pid none
  | .exit pid => some (s.bury pid)
  | .task pid =>
    match s.serviceAt pid with
    | some service =>
      if service.stage = .serving ∨ pid ∈ s.tasks then some { s with tasks := pid :: s.tasks } else none
    | none => none
  | .done pid => some { s with tasks := s.tasks.erase pid }
  | .work pid work =>
    match s.serviceAt pid with
    | some service =>
      -- only a task starts something
      if Stage.works service.stage ∧ (work.starts = true → pid ∈ s.tasks) then s.doWork pid work else none
    | none => none
  | .install n build =>
    match s.installers.lookup n with
    | none => some { s with installers := s.installers.insert n { build } }
    | some _ => none
  | .installer n step => (s.installers.lookup n).bind fun installer => s.installerNext n installer step
  | .service pid step => (s.serviceAt pid).bind fun service => s.advance pid service step

end State

end RemoteCodex.Server.Installation
