import RemoteCodex.Interact.Runs
import RemoteCodex.Interact.Table

/-!
# A terminal that switches sessions

The terminal has one current session, and the one before it until the frontend
has let go of it. Requests and the terminal's end run up to where they wait;
the task that forwards events takes its steps in between, and so do the
sessions, each with a stream of its own.
-/

namespace RemoteCodex.Terminal

open Interact

inductive Method
  | start | fork | revert | unsubscribe
  /-- `thread/read`, `thread/turns/list` and `thread/items/list`. -/
  | read
  /-- Any other method of a thread or a turn. -/
  | thread
  /-- A method that is of no thread. -/
  | shared
  deriving DecidableEq, Repr

/-- A session refuses such a request for another thread than its own. -/
def Method.scoped : Method → Bool
  | .start | .shared => false
  | _ => true

/-- `thread` is the thread id the request names, if it names one. -/
structure Request where
  method : Method
  thread : Option Nat := none
  deriving DecidableEq, Repr

/-- `closed` is set before `shutdown` waits for anything. `sent` counts the events
the session has broadcast. -/
structure Runtime where
  closed : Bool := false
  revoked : Bool := false
  sent : Nat := 0
  deriving DecidableEq, Repr

/-- `current` is the terminal's session when the request was accepted. -/
structure Execution where
  session : Nat
  current : Nat
  request : Request
  deriving DecidableEq, Repr

/-- A request that waits. -/
inductive Work
  | waiting (request : Request)
  | creating (source : Nat)
  | reverting
  | over
  deriving DecidableEq, Repr

/-- Who has the lock `creation`. -/
inductive Holder
  | work (n : Nat)
  | close
  deriving DecidableEq, Repr

/-- Where `forward` is; `seen` is the version of `current` it knows, `position`
the next event of the session. -/
inductive Relay
  | observing
  | observed (session seen : Nat)
  | subscribed (session seen position : Nat)
  | waiting (session seen position : Nat)
  | received (session seen position : Nat)
  | sending (session seen position : Nat)
  | ended
  deriving DecidableEq, Repr

inductive Closing
  | no
  | waiting
  | closing (previous : Option Nat)
  | done
  deriving DecidableEq, Repr

/-- `joined` is where the relay has subscribed to each session. -/
structure Sessions where
  sessions : Table Nat Runtime
  current : Nat
  version : Nat := 0
  previous : Option Nat := none
  lock : Option Holder := none
  work : Table Nat Work := ∅
  revoked : Bool := false
  closed : Bool := false
  closing : Closing := .no
  relay : Relay := .observing
  joined : Table Nat Nat := ∅
  forwarded : List (Nat × Nat) := []
  executed : List Execution := []
  deriving DecidableEq

inductive TerminalEvent
  | ask (n : Nat) (request : Request)
  /-- Request `n` gets the lock. -/
  | lock (n : Nat)
  /-- The session of request `n` is there, with what it has broadcast until then, or it failed. -/
  | created (n session sent : Nat) (registered : Bool)
  | refused (n : Nat)
  | reverted (n : Nat)
  | cancel (n : Nat)
  | broadcast (session : Nat)
  | shut (session : Nat)
  | revoke (session : Nat)
  | close
  | closeLocked
  | closePrevious
  | observe
  | subscribe
  | attach
  | changed
  | sessionRevoked
  | sessionClosed
  | receive
  | check
  | send
  | lag
  deriving DecidableEq, Repr

/-- What a session's stream keeps for a receiver. -/
def EVENT_CAPACITY : Nat := 256

namespace Sessions

/-- The terminal is started with session 0, which may have broadcast before. -/
def start (sent : Nat) : Sessions where
  sessions := (∅ : Table Nat Runtime).insert 0 { sent }
  current := 0

def isOpen (s : Sessions) (session : Nat) : Bool :=
  (s.sessions.lookup session).any fun r => !r.closed && !r.revoked

def alter (s : Sessions) (session : Nat) (f : Runtime → Runtime) : Sessions :=
  { s with sessions := s.sessions.update fun m r => if m = session then f r else r }

def shutdown (s : Sessions) (session : Nat) : Sessions := s.alter session fun r => { r with closed := true }

def log (s : Sessions) (session : Nat) (request : Request) : Sessions :=
  { s with executed := { session, current := s.current, request } :: s.executed }

/-- The session checks its own state and whose thread the request is about. -/
def execute (s : Sessions) (session : Nat) (request : Request) : Sessions :=
  if s.isOpen session && (!request.method.scoped || request.thread = some session) then s.log session request else s

/-- A request that needs no lock. -/
def request (s : Sessions) (q : Request) : Sessions :=
  if q.thread.all fun id => id = s.current then s.execute s.current q
  else if s.previous ≠ q.thread then s
  else
    match q.method, s.previous with
    | .unsubscribe, some id => { s with previous := none }.shutdown id
    | .read, some id => s.execute id q
    | _, _ => s

def setWork (s : Sessions) (n : Nat) (w : Work) : Sessions := { s with work := s.work.insert n w }

/-- The request ends, and gives the lock back. -/
def finish (s : Sessions) (n : Nat) : Sessions :=
  { s.setWork n .over with lock := if s.lock = some (.work n) then none else s.lock }

/-- What `create` and `revert` do once they have the lock. -/
def locked (s : Sessions) (n : Nat) (q : Request) : Sessions :=
  if s.closed || s.revoked then s.setWork n .over
  else
    match q.method with
    | .revert =>
      if q.thread = some s.current && s.isOpen s.current then
        { (s.log s.current q).setWork n .reverting with lock := some (.work n) }
      else s.setWork n .over
    | _ =>
      if s.previous.isSome || !s.isOpen s.current || (q.method = .fork && q.thread ≠ some s.current) then
        s.setWork n .over
      else { (s.log s.current q).setWork n (.creating s.current) with lock := some (.work n) }

/-- `forward` ends with what has become of its session. -/
def stop (s : Sessions) (revoked closed : Bool) : Sessions := { s with revoked, closed, relay := .ended }

def relayed (s : Sessions) (relay : Relay) : Sessions := { s with relay }

def next (s : Sessions) : TerminalEvent → Option Sessions
  | .ask n q =>
    if (s.work.lookup n).isSome then none
    else
      match q.method with
      | .start | .fork | .revert => some (s.setWork n (.waiting q))
      | _ => some ((s.request q).setWork n .over)
  | .lock n =>
    match s.work.lookup n, s.lock with
    | some (.waiting q), none => some (s.locked n q)
    | _, _ => none
  | .created n session sent registered =>
    match s.work.lookup n with
    | some (.creating source) =>
      if (s.sessions.lookup session).isSome || !s.isOpen source then none
      else
        let s := s.finish n
        some (if registered then
          { s with
            sessions := s.sessions.insert session { sent }
            previous := some source
            current := session
            version := s.version + 1 }
        else { s with sessions := s.sessions.insert session { sent, closed := true } })
    | _ => none
  | .refused n =>
    match s.work.lookup n with
    | some (.creating _) => some (s.finish n)
    | _ => none
  | .reverted n =>
    match s.work.lookup n with
    | some .reverting => some (s.finish n)
    | _ => none
  | .cancel n => if (s.work.lookup n).isSome then some (s.finish n) else none
  | .broadcast m => some (s.alter m fun r => { r with sent := r.sent + 1 })
  | .shut m => some (s.shutdown m)
  | .revoke m => some (s.alter m fun r => { r with revoked := true })
  | .close => if s.closing = .no then some { s with closed := true, closing := .waiting } else none
  | .closeLocked =>
    if s.closing = .waiting && s.lock.isNone then
      some { s.shutdown s.current with previous := none, lock := some .close, closing := .closing s.previous }
    else none
  | .closePrevious =>
    match s.closing with
    | .closing (some p) => some { s.shutdown p with lock := none, closing := .done }
    | .closing none => some { s with lock := none, closing := .done }
    | _ => none
  | .observe =>
    match s.relay with
    | .observing => some (s.relayed (.observed s.current s.version))
    | _ => none
  | .subscribe =>
    match s.relay with
    | .observed m seen =>
      (s.sessions.lookup m).map fun r =>
        { s.relayed (.subscribed m seen r.sent) with joined := s.joined.insert m r.sent }
    | _ => none
  | .attach =>
    match s.relay with
    | .subscribed m seen position =>
      (s.sessions.lookup m).map fun r =>
        if r.revoked || r.closed then
          if s.current ≠ m then s.relayed .observing else s.stop r.revoked r.closed
        else s.relayed (.waiting m seen position)
    | _ => none
  | .changed =>
    match s.relay with
    | .waiting _ seen _ => if s.version ≠ seen then some (s.relayed .observing) else none
    | _ => none
  | .sessionRevoked =>
    match s.relay with
    | .waiting m _ _ =>
      (s.sessions.lookup m).bind fun r =>
        if r.revoked && s.current = m then some (s.stop true s.closed) else none
    | _ => none
  | .sessionClosed =>
    match s.relay with
    | .waiting m _ _ =>
      (s.sessions.lookup m).bind fun r =>
        if r.closed && s.current = m then some (s.stop s.revoked true) else none
    | _ => none
  | .receive =>
    match s.relay with
    | .waiting m seen position =>
      (s.sessions.lookup m).bind fun r =>
        if position < r.sent && r.sent - position ≤ EVENT_CAPACITY then
          some (s.relayed (.received m seen position))
        else none
    | _ => none
  | .check =>
    match s.relay with
    | .received m seen position =>
      some (s.relayed (if s.current ≠ m then .waiting m seen (position + 1) else .sending m seen position))
    | _ => none
  | .send =>
    match s.relay with
    | .sending m seen position =>
      some { s.relayed (.waiting m seen (position + 1)) with forwarded := s.forwarded ++ [(m, position)] }
    | _ => none
  | .lag =>
    match s.relay with
    | .waiting m seen position =>
      (s.sessions.lookup m).bind fun r =>
        if r.sent - position > EVENT_CAPACITY then
          some (if s.current ≠ m then s.relayed (.waiting m seen (r.sent - EVENT_CAPACITY)) else s.stop s.revoked true)
        else none
    | _ => none

end Sessions

end RemoteCodex.Terminal
