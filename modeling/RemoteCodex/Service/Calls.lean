import RemoteCodex.Config.Value
import RemoteCodex.Execution.Actor
import RemoteCodex.Interact.Runs
import RemoteCodex.Protocol.Identity
import RemoteCodex.Server.Retention

/-!
# Calls of the service

Any number of calls of any profiles, each a connection of its own, and the
actors of all channels on one store. A step is one statement or transaction of
the store, one use of the lock over the live executions, one input given to an
actor or taken by it. Configurations, files and skills are not part of it.
-/

namespace RemoteCodex.Service

open Interact Protocol Server
open Execution (Crates ExecutionCommand Identity Op Ans Pending Sent Entry World exec)

-- ---------------------------------------------------------------------------
-- Calls
-- ---------------------------------------------------------------------------

structure ExecutionRuntime where
  version : String
  platform : String
  archiveSha256 : String
  deriving DecidableEq, Repr

inductive Request
  | openExecution (channel : String) (runtime : ExecutionRuntime) (revision : Int) (mcp : List ExecutionCommand)
  | attachExecution (channel : String) (after : Int)
  | inspectExecution (channel : String)
  | detachExecution (channel : String)
  | jobs (thread : Option String)
  | jobOutput (id : String) (after : Int)
  | prepareUpdate

/-- The channel a request names. -/
def Request.channel : Request → Option String
  | .openExecution channel _ _ _ => some channel
  | .attachExecution channel _ => some channel
  | .inspectExecution channel => some channel
  | .detachExecution channel => some channel
  | _ => none

structure Call where
  protocol : Nat
  profile : String
  expectedIdentity : Option String
  request : Request

def VERSION : Nat := 4

def validate (identity : String) (call : Call) : Except Fault Unit :=
  if call.protocol ≠ VERSION then
    .error (Transfer.fault "PROTOCOL_MISMATCH" "client and execution service versions differ")
  else if call.expectedIdentity.any (· ≠ identity) then
    .error (Transfer.fault "REMOTE_IDENTITY_CHANGED" "execution environment identity changed")
  else if call.profile = "" || call.profile.utf8ByteSize > 256 || call.profile.toList.any Config.isControl then
    .error (Transfer.fault "INVALID_PROFILE" "invalid environment owner")
  else .ok ()

def unknown (message : String) : Fault := ⟨"OPERATION_OUTCOME_UNKNOWN", message, true⟩

/-- Where a call is. `locked`, `absent` and `retired` hold the lock: the stopped
executions are gone, nobody owns the channel, its executor is started. `owned`
has passed the owner's check; `found` has the execution. `streaming` is an
attached connection, `paging` and `acking` one between two statements, and
`leaving` one that is about to drop its attachment. `told` knows the job. -/
inductive Stage
  | validated
  | locked
  | absent
  | retired (runtime : Execution.Runtime)
  | owned
  | found (k : Nat)
  | streaming (k : Nat) (cursor : Int)
  | paging (k : Nat) (cursor : Int)
  | acking (k : Nat) (cursor ack : Int)
  | leaving (k : Nat)
  | told
  | ended (reply : Except Fault Unit)

structure Connection where
  call : Call
  stage : Stage := .validated

/-- The execution a connection has got. -/
def Stage.execution : Stage → Option Nat
  | .found k => some k
  | .streaming k _ => some k
  | .paging k _ => some k
  | .acking k _ _ => some k
  | .leaving k => some k
  | _ => none

def Stage.locks : Stage → Bool
  | .locked => true
  | .absent => true
  | .retired _ => true
  | _ => false

-- ---------------------------------------------------------------------------
-- Executions
-- ---------------------------------------------------------------------------

inductive Input
  | execute (r : Execution.Request)
  | touch
  | detached
  | retireIdle
  | disconnected
  | stop

/-- What an actor keeps for itself. -/
structure Own where
  pending : Table String Pending := ∅
  connected : Bool := true
  sent : List Sent := []
  log : List Entry := []
  drawn : Nat := 0

def Own.world (own : Own) (store : Store) : World :=
  ⟨store, own.pending, own.connected, own.sent, own.log, own.drawn⟩

def Own.of (w : World) : Own := ⟨w.pending, w.connected, w.sent, w.log, w.drawn⟩

/-- An execution, as its handle and its actor have it. `rest` is what is left of the turn the actor is
at, and `taken` are the requests it has taken; the code does not keep these. -/
structure Handle where
  who : Identity
  runtime : Execution.Runtime
  selected : ExecutionRuntime
  own : Own := {}
  queue : List Input := []
  alive : Bool := true
  rest : Prog Op Ans (Except Fault Bool) := .done (.ok true)
  taken : List Execution.Request := []

def QUEUE : Nat := 64

/-- `Execution::send`. -/
def Handle.send (x : Handle) (input : Input) : Except Fault Handle :=
  if !x.alive then .error (unknown "execution backend stopped; open a new local runtime to continue")
  else if x.queue.length < QUEUE then .ok { x with queue := x.queue ++ [input] }
  else .error (Transfer.fault "EXECUTION_BUSY" "execution request queue is full")

/-- What the actor turns to: its queue, what the executor says, a timer, or the
end of the executor. -/
inductive Cue
  | input
  | output (value : Value)
  | silent
  | idle
  | closed

/-- The turn of an input, if it is one. -/
def Input.event : Input → Option Execution.Event
  | .execute r => some (.execute r)
  | .detached => some .detached
  | .retireIdle => some .retireIdle
  | .stop => some .stop
  | _ => none

def Handle.begin (c : Crates) (x : Handle) (e : Execution.Event) (outputs : List Value) : Handle :=
  { x with
    rest := (Execution.turn c x.who x.runtime e outputs).run
    taken := match e with
      | .execute r => x.taken ++ [r]
      | _ => x.taken }

def Handle.take (c : Crates) (x : Handle) (outputs : List Value) : Cue → Option Handle
  | .input =>
    match x.queue with
    | [] => none
    | input :: queue =>
      match input.event with
      | some e => some ({ x with queue }.begin c e outputs)
      | none => some { x with queue }
  | .output value => some (x.begin c (.output value) outputs)
  | .silent => some (x.begin c .silent outputs)
  | .idle => some (x.begin c .idle outputs)
  | .closed => some (x.begin c .stop outputs)

-- ---------------------------------------------------------------------------
-- The service
-- ---------------------------------------------------------------------------

/-- What is done for a profile. -/
inductive Touch
  | opens (channel : String)
  | executes (channel : String) (r : Execution.Request)
  | attaches (channel : String)
  | detaches (channel : String)
  | inspects (channel : String)
  | acknowledges (channel : String) (ack : Int)
  | reads (row : ExecEvent)
  | lists (job : Job)
  | outputs (row : JobOutput)

/-- `live` is the map of executions, by their place in `executions`, which has
all there ever were. `acts` is everything that was done for a profile. -/
structure State where
  store : Store := {}
  live : Table String Nat := ∅
  executions : List Handle := []
  lock : Option Nat := none
  connections : List Connection := []
  acts : List (String × Touch) := []

/-- `n` is a connection, `k` an execution. `fails`: a statement, or what is not
modelled of a call, has failed. -/
inductive Event
  | call (call : Call)
  | lock (n : Nat)
  | owner (n : Nat)
  | prepare (n : Nat) (snapshot : Execution.Runtime) (revision : Int) (newest : List String)
  | create (n : Nat)
  | look (n : Nat)
  | hand (n : Nat)
  | execute (n : Nat) (r : Execution.Request)
  | heartbeat (n : Nat)
  | ack (n : Nat) (ack : Int)
  | compact (n : Nat)
  | floor (n : Nat)
  | page (n got : Nat)
  | detach (n : Nat)
  | drop (n : Nat) (latest : Bool)
  | query (n : Nat)
  | outputs (n : Nat)
  | fails (n : Nat) (fault : Fault)
  | take (k : Nat) (cue : Cue) (outputs : List Value)
  | act (k : Nat)
  | finish (k : Nat)
  | dies (k : Nat)
  | stop (k : Nat)
  | restart (reason : String)

def ownerOf (store : Store) (channel : String) : Option String := (store.channels.lookup channel).map Channel.profile

namespace State

/-- A connection goes on. -/
def goes (s : State) (n : Nat) (conn : Connection) (stage : Stage) : State :=
  { s with connections := s.connections.set n { conn with stage } }

/-- A call is answered; the lock is let go if it is held. -/
def answers (s : State) (n : Nat) (conn : Connection) (reply : Except Fault Unit) : State :=
  { s.goes n conn (.ended reply) with lock := if conn.stage.locks then none else s.lock }

def did (s : State) (profile : String) (touches : List Touch) : State :=
  { s with acts := s.acts ++ touches.map fun touch => (profile, touch) }

def setHandle (s : State) (k : Nat) (x : Handle) : State := { s with executions := s.executions.set k x }

/-- An execution is given an input. -/
def gives (s : State) (k : Nat) (input : Input) : Except Fault State :=
  match s.executions[k]? with
  | none => .error (unknown "execution backend is no longer available")
  | some x => (x.send input).map (s.setHandle k)

def denied : Fault := Transfer.fault "EXECUTION_DENIED" "execution does not belong to this environment"

/-- `executions.lock()`, for a call that opens a channel. -/
def takeLock (s : State) (n : Nat) (conn : Connection) : Option State :=
  match conn.stage, conn.call.request with
  | .validated, .openExecution channel _ _ _ =>
    if parseUuid channel then
      if s.lock = none then
        some { s.goes n conn .locked with
          lock := some n
          live := s.live.retain fun k => s.executions[k]?.any Handle.alive }
      else none
    else some (s.answers n conn (.error (Transfer.fault "INVALID_EXECUTION" "invalid execution identity")))
  | _, _ => none

/-- What is done with a channel that somebody has opened. -/
def reopens (s : State) (conn : Connection) (channel owner : String) (selected : ExecutionRuntime) : Except Fault Unit :=
  if owner ≠ conn.call.profile then
    .error (Transfer.fault "EXECUTION_DENIED" "execution belongs to another owner")
  else
    match s.live.lookup channel with
    | none => .error (unknown "previous execution backend stopped; create a new execution channel")
    | some k =>
      if s.executions[k]?.any fun x => x.selected = selected then .ok ()
      else .error (Transfer.fault "EXECUTION_CONFLICT" "execution channel already uses another runtime")

/-- The first half of `execution`. -/
def checkOwner (s : State) (n : Nat) (conn : Connection) (channel : String) : State :=
  if ownerOf s.store channel = some conn.call.profile then s.goes n conn .owned
  else s.answers n conn (.error denied)

def askOwner (identity : String) (s : State) (n : Nat) (conn : Connection) : Option State :=
  match conn.stage, conn.call.request with
  | .locked, .openExecution channel selected _ _ =>
    match ownerOf s.store channel with
    | none => some (s.goes n conn .absent)
    | some owner => some (s.answers n conn (s.reopens conn channel owner selected))
  | .validated, .attachExecution channel _ =>
    if conn.call.expectedIdentity = some identity then some (s.checkOwner n conn channel)
    else some (s.answers n conn (.error (Transfer.fault "CONNECTION_DENIED"
      "execution streaming requires a verified installation identity")))
  | .validated, .detachExecution channel => some (s.checkOwner n conn channel)
  | _, _ => none

def invalidMcp (mcp : List ExecutionCommand) : Bool :=
  mcp.length > 32 || mcp.any fun cmd => cmd.argv.isEmpty || cmd.cwd.toList.head? ≠ some '/'

/-- The checks of a channel nobody owns, and `retire_closed_evidence`. The
configuration is at `revision`. -/
def prepare (s : State) (n : Nat) (conn : Connection) (snapshot : Execution.Runtime) (revision : Int)
    (newest : List String) : Option State :=
  match conn.stage, conn.call.request with
  | .absent, .openExecution _ _ expected mcp =>
    if s.live.entries.length ≥ 64 then
      some (s.answers n conn (.error (Transfer.fault "CAPACITY_EXCEEDED" "too many active execution channels")))
    else if revision ≠ expected then
      some (s.answers n conn (.error (Transfer.fault "REVISION_CONFLICT"
        "environment configuration changed before execution")))
    else if invalidMcp mcp then
      some (s.answers n conn (.error (Transfer.fault "INVALID_MCP" "invalid authorized MCP command")))
    else
      some { s.goes n conn (.retired { snapshot with mcp }) with store := s.store.retireClosedEvidence newest }
  | _, _ => none

/-- The row of the channel, and the actor. -/
def create (s : State) (n : Nat) (conn : Connection) : Option State :=
  match conn.stage, conn.call.request with
  | .retired runtime, .openExecution channel selected revision _ =>
    match s.store.createChannel channel conn.call.profile revision with
    | .error fault => some (s.answers n conn (.error fault))
    | .ok store =>
      some { (s.answers n conn (.ok ())).did conn.call.profile [.opens channel] with
        store
        live := s.live.insert channel s.executions.length
        executions := s.executions ++ [{ who := ⟨channel, conn.call.profile⟩, runtime, selected }] }
  | _, _ => none

/-- The second half of `execution`. -/
def findExecution (s : State) (n : Nat) (conn : Connection) (channel : String) : Option State :=
  if s.lock = none then
    match s.live.lookup channel with
    | none => some (s.answers n conn (.error (unknown "execution backend is no longer available")))
    | some k => some (s.goes n conn (.found k))
  else none

def look (s : State) (n : Nat) (conn : Connection) : Option State :=
  match conn.stage, conn.call.request with
  | .owned, .attachExecution channel _ => s.findExecution n conn channel
  | .owned, .detachExecution channel => s.findExecution n conn channel
  | _, _ => none

def hand (s : State) (n : Nat) (conn : Connection) : Option State :=
  match conn.stage, conn.call.request with
  | .found k, .attachExecution channel after =>
    match s.gives k .touch with
    | .error fault => some (s.answers n conn (.error fault))
    | .ok t => some ((t.goes n conn (.streaming k after)).did conn.call.profile [.attaches channel])
  | .found k, .detachExecution channel =>
    match s.gives k .detached with
    | .error fault => some (s.answers n conn (.error fault))
    | .ok t => some ((t.answers n conn (.ok ())).did conn.call.profile [.detaches channel])
  | _, _ => none

/-- A frame that is an input for the actor. -/
def frame (s : State) (n : Nat) (conn : Connection) (input : Input) (touches : String → List Touch) : Option State :=
  match conn.stage, conn.call.request with
  | .streaming k _, .attachExecution channel _ =>
    match s.gives k input with
    | .error _ => some (s.goes n conn (.leaving k))
    | .ok t => some (t.did conn.call.profile (touches channel))
  | _, _ => none

def execute (s : State) (n : Nat) (conn : Connection) (r : Execution.Request) : Option State :=
  match conn.stage with
  | .streaming k _ =>
    if parseUuid r.operation then s.frame n conn (.execute r) fun channel => [.executes channel r]
    else some (s.goes n conn (.leaving k))
  | _ => none

/-- `Frame::Detach`. -/
def detach (s : State) (n : Nat) (conn : Connection) : Option State :=
  match conn.stage with
  | .streaming k _ => (s.frame n conn .detached fun channel => [.detaches channel]).map fun t => t.goes n conn (.leaving k)
  | _ => none

def acknowledge (s : State) (n : Nat) (conn : Connection) (ack : Int) : Option State :=
  match conn.stage, conn.call.request with
  | .streaming k cursor, .attachExecution channel _ =>
    if ack ≤ cursor then
      some { (s.goes n conn (.acking k cursor ack)).did conn.call.profile [.acknowledges channel ack] with
        store := s.store.pruneAcknowledged channel ack }
    else some (s.goes n conn (.leaving k))
  | _, _ => none

def compact (s : State) (n : Nat) (conn : Connection) : Option State :=
  match conn.stage, conn.call.request with
  | .acking k cursor ack, .attachExecution channel _ =>
    some { s.goes n conn (.streaming k cursor) with store := s.store.compactOperations channel ack }
  | _, _ => none

def floor (s : State) (n : Nat) (conn : Connection) : Option State :=
  match conn.stage, conn.call.request with
  | .streaming k cursor, .attachExecution channel _ =>
    match s.store.replayFrom channel cursor with
    | .error _ => some (s.goes n conn (.leaving k))
    | .ok () => some (s.goes n conn (.paging k cursor))
  | _, _ => none

/-- The first `got` rows of a page are written. -/
def page (s : State) (n : Nat) (conn : Connection) (got : Nat) : Option State :=
  match conn.stage, conn.call.request with
  | .paging k cursor, .attachExecution channel _ =>
    let rows := (s.store.replayRows channel cursor).take got
    some ((s.goes n conn (.streaming k ((rows.getLast?.map ExecEvent.cursor).getD cursor))).did conn.call.profile
      (rows.map .reads))
  | _, _ => none

/-- The attachment is dropped; the latest one tells the actor. -/
def dropped (s : State) (n : Nat) (conn : Connection) (latest : Bool) (k : Nat) : State :=
  match if latest then s.gives k .disconnected else .ok s with
  | .error _ => s.answers n conn (.ok ())
  | .ok t => t.answers n conn (.ok ())

def drop (s : State) (n : Nat) (conn : Connection) (latest : Bool) : Option State :=
  match conn.stage with
  | .streaming k _ => some (s.dropped n conn latest k)
  | .paging k _ => some (s.dropped n conn latest k)
  | .acking k _ _ => some (s.dropped n conn latest k)
  | .leaving k => some (s.dropped n conn latest k)
  | _ => none

/-- `PrepareUpdate` asks every live execution. -/
def retireIdle (s : State) : State :=
  { s with
    executions := s.executions.mapIdx fun k x =>
      if s.live.values.contains k then (x.send .retireIdle).toOption.getD x else x }

def query (s : State) (n : Nat) (conn : Connection) : Option State :=
  match conn.stage, conn.call.request with
  | .validated, .inspectExecution channel =>
    if ownerOf s.store channel = some conn.call.profile then
      some ((s.answers n conn (.ok ())).did conn.call.profile [.inspects channel])
    else
      some (s.answers n conn (.error (Transfer.fault "EXECUTION_NOT_FOUND"
        "execution does not belong to this profile")))
  | .validated, .jobs thread =>
    let rows := s.store.jobs.filter fun job =>
      job.profile = conn.call.profile && job.kind = "command" && (thread = none || job.thread = thread)
    some ((s.answers n conn (.ok ())).did conn.call.profile (rows.map .lists))
  | .validated, .jobOutput id _ =>
    match s.store.jobs.find? fun job => job.profile = conn.call.profile ∧ job.id = id with
    | none =>
      some (s.answers n conn (.error (Transfer.fault "JOB_NOT_FOUND"
        "process does not belong to this execution environment")))
    | some job => some ((s.goes n conn .told).did conn.call.profile [.lists job])
  | .validated, .prepareUpdate => if s.lock = none then some (s.retireIdle.answers n conn (.ok ())) else none
  | _, _ => none

/-- The second query of `job_output`. -/
def outputs (s : State) (n : Nat) (conn : Connection) : Option State :=
  match conn.stage, conn.call.request with
  | .told, .jobOutput id after =>
    some ((s.answers n conn (.ok ())).did conn.call.profile ((Store.page (s.store.outputRows id after)).map .outputs))
  | _, _ => none

def fails (s : State) (n : Nat) (conn : Connection) (fault : Fault) : Option State :=
  match conn.stage with
  | .streaming k _ => some (s.goes n conn (.leaving k))
  | .paging k _ => some (s.goes n conn (.leaving k))
  | .acking k _ _ => some (s.goes n conn (.leaving k))
  | .leaving _ => none
  | .ended _ => none
  | _ => some (s.answers n conn (.error fault))

/-- The actor takes something, if it is at no turn. -/
def takes (c : Crates) (s : State) (k : Nat) (x : Handle) (cue : Cue) (outputs : List Value) : Option State :=
  match x.rest with
  | .done (.ok true) => (x.take c outputs cue).map (s.setHandle k)
  | _ => none

/-- The actor carries out an operation. -/
def carries (supply : String → Nat → String) (s : State) (k : Nat) (x : Handle) : Option State :=
  match x.rest with
  | .done _ => none
  | .call op next =>
    let r := exec (supply x.who.channel) op (x.own.world s.store)
    some { s.setHandle k { x with own := .of r.2, rest := next r.1 } with store := r.2.store }

/-- The actor has come to its end. -/
def finish (s : State) (k : Nat) (x : Handle) : Option State :=
  match x.rest with
  | .done (.ok true) => none
  | .done _ => some (s.setHandle k { x with alive := false })
  | .call _ _ => none

/-- The service starts again: what it kept in memory is gone. -/
def restart (s : State) (reason : String) : State :=
  { s with
    store := s.store.reopen reason
    live := ∅
    lock := none
    connections := []
    executions := s.executions.map fun x =>
      { x with alive := false, queue := [], rest := .done (.ok false), own := { x.own with connected := false } } }

def next (supply : String → Nat → String) (c : Crates) (identity : String) (s : State) : Event → Option State
  | .call call =>
    match validate identity call with
    | .error fault => some { s with connections := s.connections ++ [{ call, stage := .ended (.error fault) }] }
    | .ok () => some { s with connections := s.connections ++ [{ call }] }
  | .lock n => s.connections[n]?.bind (s.takeLock n)
  | .owner n => s.connections[n]?.bind (s.askOwner identity n)
  | .prepare n snapshot revision newest => s.connections[n]?.bind fun conn => s.prepare n conn snapshot revision newest
  | .create n => s.connections[n]?.bind (s.create n)
  | .look n => s.connections[n]?.bind (s.look n)
  | .hand n => s.connections[n]?.bind (s.hand n)
  | .execute n r => s.connections[n]?.bind fun conn => s.execute n conn r
  | .heartbeat n => s.connections[n]?.bind fun conn => s.frame n conn .touch fun _ => []
  | .ack n ack => s.connections[n]?.bind fun conn => s.acknowledge n conn ack
  | .compact n => s.connections[n]?.bind (s.compact n)
  | .floor n => s.connections[n]?.bind (s.floor n)
  | .page n got => s.connections[n]?.bind fun conn => s.page n conn got
  | .detach n => s.connections[n]?.bind (s.detach n)
  | .drop n latest => s.connections[n]?.bind fun conn => s.drop n conn latest
  | .query n => s.connections[n]?.bind (s.query n)
  | .outputs n => s.connections[n]?.bind (s.outputs n)
  | .fails n fault => s.connections[n]?.bind fun conn => s.fails n conn fault
  | .take k cue outputs => s.executions[k]?.bind fun x => s.takes c k x cue outputs
  | .act k => s.executions[k]?.bind (s.carries supply k)
  | .finish k => s.executions[k]?.bind (s.finish k)
  | .dies k => s.executions[k]?.map fun x => s.setHandle k { x with own := { x.own with connected := false } }
  | .stop k => (s.gives k .stop).toOption
  | .restart reason => some (s.restart reason)

end State

end RemoteCodex.Service
