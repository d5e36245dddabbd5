import RemoteCodex.Config.Value
import RemoteCodex.Interact.Runs
import RemoteCodex.Interact.Table
import RemoteCodex.Protocol.Encode

/-!
# The driver of the local engine

Callers queue their requests with an identity each and wait for one answer. The
driver writes what is queued to the engine, reads the engine's messages and
hands a response to the request whose identity it carries. When the engine or
the driver ends, the requests that are left are answered or dropped.
-/

namespace RemoteCodex.Adapter

open Interact Protocol

abbrev Answer := Except Fault Value

def unknown (message : String) : Fault where
  code := "OPERATION_OUTCOME_UNKNOWN"
  message
  outcomeUnknown := true

def busy : Fault := Transfer.fault "ENGINE_BUSY" "too many pending Codex requests"

def queueFull : Fault := Transfer.fault "ENGINE_BUSY" "Codex is unavailable or its request queue is full"

def timedOut : Fault where
  code := "CODEX_RESPONSE_TIMEOUT"
  message := "Codex response timed out; inspect state before retrying"
  outcomeUnknown := true

def protocolFailure (operation error : String) : Fault where
  code := "CODEX_PROTOCOL_ERROR"
  message := s!"local Codex protocol {operation} failed: {error}"
  outcomeUnknown := true

def MAX_MESSAGE_BYTES : Nat := 64 * 1024 * 1024

/-- `as_u64`. -/
def asU64 : Value → Option Nat
  | .int n => if 0 ≤ n ∧ n < 18446744073709551616 then some n.toNat else none
  | _ => none

/-- The identity a response carries. A message with a method is none. -/
def responseId (v : Value) : Option Nat :=
  if (v.get "method").isSome then none else (v.get "id").bind asU64

def rejection (error : Value) : Fault :=
  let message := (error.index "message").asStr.getD "Codex rejected the operation"
  Transfer.fault "CODEX_REQUEST_FAILED"
    (String.ofList ((message.toList.filter fun c => !Config.isControl c).take 1000))

/-- What a response says. -/
def answerOf (v : Value) : Answer :=
  match v.get "result", v.get "error" with
  | some result, none => .ok result
  | none, some error => .error (rejection error)
  | _, _ => .error (unknown "invalid Codex response")

/-- `CommandMessage::Request`; the sender of its answer goes by its identity. -/
structure Request where
  id : Nat
  method : String
  params : Value

def Request.toValue (r : Request) : Value :=
  .object [("id", .int r.id), ("method", .string r.method), ("params", r.params)]

inductive CommandMessage where
  | request (r : Request)
  | send (value : Value)
  | stop

def CommandMessage.id? : CommandMessage → Option Nat
  | .request r => some r.id
  | _ => none

/-- The receiving end of a request: the method that `call` puts in front of its
errors, and what has been sent to it. -/
structure Caller where
  label : Option String
  inbox : Option Answer

inductive Phase where
  | running
  | writing
  /-- The loop has ended: why, and whether it was told to. -/
  | closing (failure : Option Fault) (expected : Bool)
  | done

structure State where
  next : Nat
  /-- The requests with an identity that are not queued yet. -/
  starting : List Request
  /-- The receivers that are still there. -/
  callers : Table Nat Caller
  queue : List CommandMessage
  phase : Phase
  pending : List Nat
  /-- What the driver has read from the engine. -/
  messages : List Value
  /-- The requests of which bytes may have reached the engine. -/
  written : List Nat
  received : List (Nat × Answer)

def State.fresh : State where
  next := 1
  starting := []
  callers := ∅
  queue := []
  phase := .running
  pending := []
  messages := []
  written := []
  received := []

inductive Event where
  /-- A request draws its identity. -/
  | begin (label : Option String) (method : String) (params : Value)
  /-- It is queued, or refused. -/
  | enqueue (start : Nat)
  | send (value : Value)
  | stop
  /-- All senders are gone. -/
  | hangup
  /-- The driver takes a command. -/
  | take
  | wrote
  | writeFailed (error : String)
  | message (v : Value)
  | eof
  | readFailed (error : String)
  /-- The engine is reaped; `status` is how it exited. -/
  | close (status : Option String)
  | abort
  /-- The caller sees how its request ended. -/
  | finish (id : Nat)
  | timeout (id : Nat)
  | abandon (id : Nat)

namespace State

/-- The requests whose sender is somewhere. -/
def owned (s : State) : List Nat := s.starting.map Request.id ++ s.queue.filterMap CommandMessage.id? ++ s.pending

def alive (s : State) (id : Nat) : Bool := (s.callers.lookup id).isSome

/-- `answer.send`: lost when the receiver is gone. -/
def deliver (s : State) (ids : List Nat) (answer : Answer) : State :=
  { s with
    callers := s.callers.update fun id caller => if id ∈ ids then { caller with inbox := some answer } else caller }

/-- What `call` makes of an error. -/
def relabel (label : Option String) (answer : Answer) : Answer :=
  match label, answer with
  | some method, .error fault => .error { fault with message := s!"{method}: {fault.message}" }
  | _, answer => answer

def receive (s : State) (id : Nat) (answer : Answer) : State :=
  { s with callers := AList.erase id s.callers, received := (id, answer) :: s.received }

def fail (s : State) (fault : Fault) : State := { s with phase := .closing (some fault) false }

/-- `codec::write_with_limit`: an oversized message is refused before its first byte. -/
def write (s : State) (value : Value) (ids : List Nat) : State :=
  if value.size + 1 > MAX_MESSAGE_BYTES then
    s.fail (protocolFailure "write" s!"protocol frame exceeds {MAX_MESSAGE_BYTES} byte limit")
  else { s with phase := .writing, written := ids ++ s.written }

/-- `fetch_update` fails at the last identity. -/
def «begin» (s : State) (label : Option String) (method : String) (params : Value) : State :=
  if s.next + 1 < 18446744073709551616 then
    { s with
      next := s.next + 1
      starting := s.starting ++ [⟨s.next, method, params⟩]
      callers := s.callers.insert s.next ⟨label, none⟩ }
  else s

/-- `try_send` finds room in the queue of a driver that is there. -/
def accepts (s : State) : Bool :=
  match s.phase with
  | .done => false
  | _ => s.queue.length < 64

def enqueue (s : State) (start : Nat) : Option State :=
  match s.starting[start]? with
  | none => none
  | some r =>
    let s := { s with starting := s.starting.eraseIdx start }
    if s.accepts then some { s with queue := s.queue ++ [.request r] }
    else some (s.receive r.id (.error queueFull))

/-- The driver is dropped, and with it every sender it has. -/
def abort (s : State) : State := { s with phase := .done, queue := [], pending := [] }

def request (s : State) (r : Request) : State :=
  let s := { s with pending := s.pending.filter s.alive }
  if s.pending.length ≥ 64 then s.deliver [r.id] (.error busy)
  else { s with pending := r.id :: s.pending }.write r.toValue [r.id]

def take (s : State) : Option State :=
  match s.phase, s.queue with
  | .running, .request r :: queue => some ({ s with queue }.request r)
  | .running, .send value :: queue => some ({ s with queue }.write value [])
  | .running, .stop :: queue => some { s with queue, phase := .closing none true }
  | _, _ => none

def message (s : State) (v : Value) : State :=
  let s := { s with messages := v :: s.messages }
  if (v.get "method").isSome then s
  else
    match (v.get "id").bind asU64 with
    | none => s.fail (unknown "local Codex sent an invalid RPC envelope")
    | some id =>
      if id ∈ s.pending then { s with pending := s.pending.erase id }.deliver [id] (answerOf v) else s

/-- What the requests that are left are told. -/
def closingFault (failure : Option Fault) (expected : Bool) (status : Option String) : Fault :=
  match failure with
  | some fault => fault
  | none =>
    if expected then unknown "local Codex stopped before acknowledging the request"
    else
      let status := status.getD "exit status unavailable"
      unknown s!"local Codex exited unexpectedly ({status})"

def finish (s : State) (id : Nat) : Option State :=
  match s.callers.lookup id with
  | none => none
  | some caller =>
    match caller.inbox with
    | some answer => some (s.receive id (relabel caller.label answer))
    | none =>
      if id ∈ s.owned then none
      else some (s.receive id (relabel caller.label
        (.error (unknown "Codex exited before acknowledging the operation"))))

def timeout (s : State) (id : Nat) : Option State :=
  match s.callers.lookup id with
  | none => none
  | some caller => some (s.receive id (relabel caller.label (.error timedOut)))

def step (s : State) : Event → Option State
  | .begin label method params => some (s.begin label method params)
  | .enqueue start => s.enqueue start
  | .send value => some (if s.accepts then { s with queue := s.queue ++ [.send value] } else s)
  | .stop => some (if s.accepts then { s with queue := s.queue ++ [.stop] } else s.abort)
  | .hangup =>
    match s.phase, s.queue with
    | .running, [] => some { s with phase := .closing none true }
    | _, _ => none
  | .take => s.take
  | .wrote =>
    match s.phase with
    | .writing => some { s with phase := .running }
    | _ => none
  | .writeFailed error =>
    match s.phase with
    | .writing => some (s.fail (protocolFailure "write" error))
    | _ => none
  | .message v =>
    match s.phase with
    | .running => some (s.message v)
    | _ => none
  | .eof =>
    match s.phase with
    | .running => some { s with phase := .closing none false }
    | _ => none
  | .readFailed error =>
    match s.phase with
    | .running => some (s.fail (protocolFailure "read" error))
    | _ => none
  | .close status =>
    match s.phase with
    | .closing failure expected =>
      some (s.deliver s.pending (.error (closingFault failure expected status))).abort
    | _ => none
  | .abort => some s.abort
  | .finish id => if id ∈ s.starting.map Request.id then none else s.finish id
  | .timeout id => if id ∈ s.starting.map Request.id then none else s.timeout id
  | .abandon id =>
    if id ∈ s.starting.map Request.id then none else some { s with callers := AList.erase id s.callers }

end State

end RemoteCodex.Adapter
