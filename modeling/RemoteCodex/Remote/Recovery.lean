import RemoteCodex.Interact.Runs
import RemoteCodex.Transfer.Protocol

/-!
# The recovery budget

One `Recovery` serves the relay, which reattaches a channel, and the owner of
the session, which replaces a generation. Each calls `wait` before an attempt;
`wait` gives way to other tasks wherever it takes a lock, reads the
configuration or sleeps, and a waiter here makes one such step at a time.
-/

namespace RemoteCodex.Remote

open Interact

/-- The kinds of I/O errors the recovery tells apart. -/
inductive ErrorKind
  | brokenPipe | connectionReset | connectionRefused | unexpectedEof | timedOut | other
  deriving DecidableEq, Repr

/-- `other` stands for the variants the recovery treats alike: their code and text. -/
inductive ClientError
  | io (kind : ErrorKind) (text : String)
  | ssh (exit : Int)
  | timeout
  | remoteResponse
  | remoteFault (code message : String) (outcomeUnknown : Bool)
  | other (code text : String)
  deriving DecidableEq, Repr

def ClientError.code : ClientError → String
  | .io .. => "IO_ERROR"
  | .ssh exit => if exit = 255 then "SSH_FAILED" else if exit = 75 then "REMOTE_BUSY" else "REMOTE_OPERATION_FAILED"
  | .timeout => "OPERATION_TIMEOUT"
  | .remoteResponse => "INVALID_REMOTE_RESPONSE"
  | .remoteFault code _ _ => code
  | .other code _ => code

def ClientError.text : ClientError → String
  | .io _ text => "filesystem operation failed: " ++ text
  | .ssh exit => "SSH operation failed (exit " ++ toString exit ++ "); the saved connection is available for retry"
  | .timeout => "operation timed out; remote outcome must be inspected before retrying"
  | .remoteResponse => "invalid remote response"
  | .remoteFault code message _ => code ++ ": " ++ message
  | .other _ text => text

def transient : ClientError → Bool
  | .ssh exit => exit = 255
  | .timeout => true
  | .remoteResponse => true
  | .io kind _ => kind ≠ .other
  | .remoteFault code _ _ => code ∈ ["SERVICE_UPDATE_BUSY", "EXECUTION_BUSY", "CAPACITY_EXCEEDED"]
  | .other .. => false

/-- The codes that can be recovered from while a generation is rebuilt. -/
def rebuildable : List String :=
  ["INVALID_REMOTE_RESPONSE", "CODEX_RESPONSE_TIMEOUT", "CODEX_CHANGED", "RUNTIME_UNAVAILABLE",
    "RECOVERY_RETRIES_EXHAUSTED", "RECOVERY_SETTINGS_UNCONFIRMED"]

def recoverable (error : ClientError) (rebuilding : Bool) : Bool :=
  transient error || (rebuilding && error.code ∈ rebuildable)

inductive EnvironmentState
  | ready
  | reconnecting (attempt maxAttempts retryInMs : Nat)
  | recovering (reason : String)
  | actionRequired (code message : String)
  | closed
  deriving DecidableEq, Repr

def RETRY_DELAY_MS : Nat := 5000

structure Attempts where
  used : Nat
  limit : Nat
  deriving DecidableEq, Repr

/-- Where a call of `wait` is. `manual` says that a retry has woken it. -/
inductive Phase
  | reading (manual : Bool)
  | configuring (manual : Bool)
  | inserting (manual : Bool) (limit : Nat)
  | classifying (used limit : Nat)
  | deciding (used limit : Nat) (recoverable : Bool)
  | announcing (code message : String)
  | parked
  | reconnecting (used limit : Nat)
  | sleeping
  | resetting
  | counting (manual : Bool)
  | publishing (manual : Bool) (attempt limit : Nat)
  | returned (result : Except ClientError Bool)
  | dropped
  deriving DecidableEq, Repr

/-- `notified`: a retry has reached the call's notification. `announced`: it has
published that the user must act; the code does not keep this. -/
structure Waiter where
  error : ClientError
  phase : Phase := .reading false
  notified : Bool := false
  announced : Bool := false
  deriving DecidableEq, Repr

/-- `readying`: `publish(Ready)` holds the state's lock and has reset the
attempts. `passed` counts the calls of `wait` that took an attempt without a
retry since the last reset; the code does not keep it. -/
structure Recovery where
  state : EnvironmentState := .ready
  attempts : Option Attempts := none
  rebuilding : Bool := false
  readying : Bool := false
  passed : Nat := 0
  waiters : List Waiter := []
  deriving DecidableEq, Repr

namespace Recovery

def resetAttempts (r : Recovery) : Recovery := { r with attempts := none, passed := 0 }

/-- `publish`, up to where the attempts are reset. -/
def publish (r : Recovery) (state : EnvironmentState) : Recovery :=
  if r.state = .closed || r.state = state then r
  else if state = .ready then { r.resetAttempts with readying := true }
  else { r with state }

/-- What the user is told when no attempt is made: a code and a message. -/
def refusal (error : ClientError) (recoverable : Bool) (limit : Nat) : String × String :=
  match error with
  | .remoteFault "RECOVERY_RETRIES_EXHAUSTED" message _ => ("RECOVERY_RETRIES_EXHAUSTED", message)
  | error =>
    if recoverable then
      ("RECOVERY_RETRIES_EXHAUSTED", "Connection failed after " ++ toString limit ++
        (if limit = 1 then " attempt" else " attempts") ++
        ". Send a message to try again. Last error: " ++ error.text)
    else (error.code, error.text)

/-- What a step of a waiter takes from outside. -/
inductive Input
  | go
  | configured (limit : Option Nat)
  | elapsed
  | woken
  deriving DecidableEq, Repr

/-- The next step of a call of `wait`. -/
def advance (r : Recovery) (w : Waiter) : Input → Option (Recovery × Waiter)
  | .go =>
    match w.phase with
    | .reading manual =>
      match r.attempts with
      | some a => some (r, { w with phase := if manual then .counting true else .classifying a.used a.limit })
      | none => some (r, { w with phase := .configuring manual })
    | .inserting manual limit =>
      let a := r.attempts.getD { used := 0, limit }
      some ({ r with attempts := some a },
        { w with phase := if manual then .counting true else .classifying a.used a.limit })
    | .classifying used limit =>
      some (r, { w with phase := .deciding used limit (recoverable w.error r.rebuilding) })
    | .deciding used limit recoverable =>
      if !recoverable || limit ≤ used then
        let (code, message) := refusal w.error recoverable limit
        if !r.rebuilding then some (r, { w with phase := .returned (.error (.remoteFault code message false)) })
        else some (r, { w with phase := .announcing code message })
      else some (r, { w with phase := .reconnecting used limit })
    | .announcing code message =>
      if r.readying then none
      else some (r.publish (.actionRequired code message), { w with phase := .parked, announced := true })
    | .reconnecting used limit =>
      if r.readying then none
      else some (r.publish (.reconnecting (used + 1) limit RETRY_DELAY_MS), { w with phase := .sleeping })
    | .resetting => some (r.resetAttempts, { w with phase := .reading true })
    | .counting manual =>
      match r.attempts with
      | none => some (r, { w with phase := .returned (.error .remoteResponse) })
      | some a =>
        some ({ r with attempts := some { a with used := a.used + 1 },
                       passed := if manual then r.passed else r.passed + 1 },
          { w with phase := .publishing manual (a.used + 1) a.limit })
    | .publishing manual attempt limit =>
      if r.readying then none
      else some (r.publish (.reconnecting attempt limit 0), { w with phase := .returned (.ok manual) })
    | _ => none
  | .configured limit =>
    match w.phase with
    | .configuring manual =>
      match limit with
      | none => some (r, { w with phase := .returned (.error .remoteResponse) })
      | some limit => some (r, { w with phase := .inserting manual limit })
    | _ => none
  | .elapsed => if w.phase = .sleeping then some (r, { w with phase := .counting false }) else none
  | .woken =>
    if w.notified && (w.phase = .sleeping || w.phase = .parked) then some (r, { w with phase := .resetting })
    else none

/-- What can happen to one `Recovery`. A waiter is known by its place among the calls. -/
inductive Event
  | start (error : ClientError)
  | advance (k : Nat) (input : Input)
  | drop (k : Nat)
  | publish (state : EnvironmentState)
  | readied
  | retry
  | beginRebuild
  deriving DecidableEq, Repr

def next (r : Recovery) : Event → Option Recovery
  | .start error => some { r with waiters := r.waiters ++ [{ error }] }
  | .advance k input =>
    r.waiters[k]?.bind fun w => (r.advance w input).map fun (r, w) => { r with waiters := r.waiters.set k w }
  | .drop k => r.waiters[k]?.map fun w => { r with waiters := r.waiters.set k { w with phase := .dropped } }
  | .publish state => if r.readying then none else some (r.publish state)
  | .readied =>
    if r.readying then some { r with readying := false, rebuilding := false, state := .ready } else none
  | .retry => some { r with waiters := r.waiters.map fun w => { w with notified := true } }
  | .beginRebuild => some { r with rebuilding := true }

end Recovery

end RemoteCodex.Remote
