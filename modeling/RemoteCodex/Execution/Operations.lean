import RemoteCodex.Execution.Policy
import RemoteCodex.Interact.Guarantee
import RemoteCodex.Server.Store

/-!
# Requests and what comes back for them

`dispatch` and `collect`, one operation for each statement of the store, each
look at the pending requests and each message to the executor. Between two of
them the service's other tasks may run.
-/

namespace RemoteCodex.Execution

open Interact Protocol Server

structure Pending where
  original : Value
  job : Option String

/-- Why an event is appended: the response to a request, a stored response of
it once more, its receipt, or something else the executor said. -/
inductive Origin
  | answer (operation : String)
  | again (operation : String)
  | receipt (operation : String)
  | notice
  deriving DecidableEq, Repr

structure Entry where
  cursor : Int
  origin : Origin
  value : Value

/-- A message to the executor, the request it comes from and the job it starts. -/
structure Sent where
  operation : Option String
  job : Option String
  message : Value

/-- The store, with what one channel's actor keeps. `log` is every event the
actor has appended and `sent` every message the executor was given, the latest
last; neither is kept by the code. -/
structure World where
  store : Store := {}
  pending : Table String Pending := ∅
  connected : Bool := true
  sent : List Sent := []
  log : List Entry := []
  drawn : Nat := 0

inductive Op
  | operationState (key : String × String) (digest : String)
  | beginOperation (key : String × String) (digest : String)
  | completeOperation (key : String × String) (result : Value)
  | linkOperation (key : String × String) (cursor : Int)
  | appendEvent (channel : String) (value : Value) (origin : Origin)
  | recordApproval (grant : CommandApproval)
  | recordPermissions (grant : SessionPermissions)
  | uuid
  | recordJob (profile channel : String) (params : Value) (kind id : String)
  | processJob (channel process : String)
  | setJobState (id : String) (state : JobState) (exit : Option Int)
  | saveOutput (id : String) (params : Value)
  | runningProcesses (channel : String) (mcpOnly : Bool)
  | activeJobs (channel : String)
  | closeChannel (channel : String)
  | closeJobs (channel : String)
  | pendingLen
  | insertPending (operation : String) (pending : Pending)
  | removePending (operation : String)
  | send (entry : Sent)

abbrev Ans : Op → Type
  | .operationState _ _ => Except Fault (Option (Option Value))
  | .beginOperation _ _ => Except Fault (Option Value)
  | .appendEvent _ _ _ => Except Fault Int
  | .recordApproval _ => Except Fault Unit
  | .recordPermissions _ => Except Fault Unit
  | .uuid => String
  | .recordJob _ _ _ _ _ => Except Fault Unit
  | .processJob _ _ => Option String
  | .runningProcesses _ _ => List String
  | .activeJobs _ => Nat
  | .pendingLen => Nat
  | .removePending _ => Option Pending
  | .send _ => Except Fault Unit
  | _ => Unit

abbrev M := Act Op Ans Fault

namespace World

def append (w : World) (channel : String) (value : Value) (origin : Origin) : Except Fault Int × World :=
  match w.store.appendEvent channel value with
  | .ok (cursor, store) => (.ok cursor, { w with store, log := w.log ++ [⟨cursor, origin, value⟩] })
  | .error fault => (.error fault, w)

/-- A change of the store that may fail. -/
def change (w : World) (store : Except Fault Store) : Except Fault Unit × World :=
  match store with
  | .ok store => (.ok (), { w with store })
  | .error fault => (.error fault, w)

/-- `Executor::send`. -/
def send (w : World) (entry : Sent) : Except Fault Unit × World :=
  if w.connected && entry.message.size + 1 ≤ MAX_FRAME then (.ok (), { w with sent := w.sent ++ [entry] })
  else (.error ⟨"OPERATION_OUTCOME_UNKNOWN", "native execution transport closed", true⟩, w)

end World

/-- `supply`: the identities that will be drawn. -/
def exec (supply : Nat → String) : (op : Op) → World → Ans op × World
  | .operationState key digest, w => (w.store.operationState key digest, w)
  | .beginOperation key digest, w =>
    match w.store.beginOperation key digest with
    | .ok (old, store) => (.ok old, { w with store })
    | .error fault => (.error fault, w)
  | .completeOperation key result, w => ((), { w with store := w.store.completeOperation key result })
  | .linkOperation key cursor, w => ((), { w with store := w.store.linkOperation key cursor })
  | .appendEvent channel value origin, w => w.append channel value origin
  | .recordApproval grant, w => w.change (w.store.recordApproval grant)
  | .recordPermissions grant, w => w.change (w.store.recordPermissions grant)
  | .uuid, w => (supply w.drawn, { w with drawn := w.drawn + 1 })
  | .recordJob profile channel params kind id, w => w.change (w.store.recordJob profile channel params kind id)
  | .processJob channel process, w => (w.store.processJob channel process, w)
  | .setJobState id state exit, w => ((), { w with store := w.store.setJobState id state exit })
  | .saveOutput id params, w => ((), { w with store := w.store.saveOutput id params })
  | .runningProcesses channel mcpOnly, w => (w.store.runningProcesses channel mcpOnly, w)
  | .activeJobs channel, w => (w.store.activeJobs channel, w)
  | .closeChannel channel, w => ((), { w with store := w.store.closeChannel channel })
  | .closeJobs channel, w => ((), { w with store := w.store.closeJobs channel })
  | .pendingLen, w => (w.pending.entries.length, w)
  | .insertPending operation pending, w => ((), { w with pending := w.pending.insert operation pending })
  | .removePending operation, w =>
    (w.pending.lookup operation, { w with pending := w.pending.erase operation })
  | .send entry, w => w.send entry

def ask (op : Op) : M (Ans op) := request op

-- ---------------------------------------------------------------------------
-- dispatch
-- ---------------------------------------------------------------------------

structure Identity where
  channel : String
  profile : String
  deriving DecidableEq, Repr

/-- `Input::Execute`. -/
structure Request where
  operation : String
  message : Value
  approval : Option CommandApproval := none
  permissions : Option SessionPermissions := none

def approvalValue (grant : CommandApproval) : Value :=
  .object [("argv", .array (grant.argv.map .string)), ("channel", .string grant.channel), ("cwd", .string grant.cwd),
    ("id", .string grant.id), ("item", .string grant.item), ("thread", .string grant.thread),
    ("turn", .string grant.turn)]

def permissionsValue (grant : SessionPermissions) : Value :=
  .object [("channel", .string grant.channel), ("id", .string grant.id), ("thread", .string grant.thread)]

/-- A request with what it is authorised by, as its digest is taken of it. -/
def Request.toValue (r : Request) : Value :=
  .object [("approval", (r.approval.map approvalValue).getD .null), ("message", r.message),
    ("permissions", (r.permissions.map permissionsValue).getD .null)]

def Request.digest (c : Crates) (r : Request) : String := c.digest r.toValue.encode

def PENDING : Nat := 64

def busy : Fault := Transfer.fault "EXECUTION_BUSY" "too many pending execution requests"

def append (channel : String) (value : Value) (origin : Origin) : M Int := do
  ofExcept (← ask (.appendEvent channel value origin))

def accepted (operation : String) : Value :=
  .object [("method", .string "remoteCodex/operationAccepted"),
    ("params", .object [("operation", .string operation)])]

def receipt (channel operation : String) : M Unit := do
  let _ ← append channel (accepted operation) (.receipt operation)

/-- A response that is still stored is appended once more. -/
def answerAgain (channel operation : String) (existing : Option Value) : M Unit :=
  match existing with
  | none => pure ()
  | some response =>
    if response.isNull then pure () else do
      let _ ← append channel response (.again operation)

/-- A request that was there before. -/
def repeated (channel operation : String) (existing : Option Value) : M Unit := do
  answerAgain channel operation existing
  receipt channel operation

def refusal (original : Option Value) (error : Fault) : Value :=
  .object [("error", .object [("code", .int (-32000)), ("message", .string (error.code ++ ": " ++ error.message))]),
    ("id", original.getD .null)]

def refuse (channel operation : String) (response : Value) : M Unit := do
  ask (.completeOperation (channel, operation) response)
  let _ ← append channel response (.answer operation)
  receipt channel operation

def recordApproval (approval : Option CommandApproval) : M Unit :=
  match approval with
  | none => pure ()
  | some grant => do ofExcept (← ask (.recordApproval grant))

def recordPermissions (permissions : Option SessionPermissions) : M Unit :=
  match permissions with
  | none => pure ()
  | some grant => do ofExcept (← ask (.recordPermissions grant))

def send (entry : Sent) : M Unit := do
  ofExcept (← ask (.send entry))

/-- A message without a method answers a request of the executor. -/
def respond (channel operation : String) (message : Value) : M Unit := do
  send ⟨some operation, none, message⟩
  ask (.completeOperation (channel, operation) .null)
  receipt channel operation

def starts (message : Value) : Bool := (message.index "method").asStr = some "process/start"

def recordJob (c : Crates) (who : Identity) (runtime : Runtime) (params : Value) : M String := do
  let kind := if authorizedMcp c runtime params then "mcp" else "command"
  -- The process id is looked at before an identity is drawn.
  ensure (params.index "processId").asStr.isSome (Transfer.fault "INVALID_EXECUTION" "process ID missing")
  let id ← ask .uuid
  ofExcept (← ask (.recordJob who.profile who.channel params kind id))
  pure id

/-- A request waits for its response under the operation, a notification for nothing. -/
def deliver (channel operation : String) (message : Value) (job : Option String) : M Unit :=
  match message.get "id" with
  | some original => do
    ask (.insertPending operation ⟨original, job⟩)
    send ⟨some operation, job, message.set "id" (.string operation)⟩
  | none => do
    send ⟨some operation, job, message⟩
    ask (.completeOperation (channel, operation) .null)

def forward (channel operation : String) (message : Value) (job : Option String) : M Unit := do
  deliver channel operation message job
  receipt channel operation

/-- A request whose grants are recorded. -/
def handOver (c : Crates) (who : Identity) (runtime : Runtime) (r : Request) : M Unit := do
  if (r.message.get "method").isNone then respond who.channel r.operation r.message
  else if starts r.message then do
    let job ← recordJob c who runtime (r.message.index "params")
    forward who.channel r.operation r.message (some job)
  else forward who.channel r.operation r.message none

/-- A request that may go on. -/
def proceed (c : Crates) (who : Identity) (runtime : Runtime) (r : Request) : M Unit := do
  recordApproval r.approval
  recordPermissions r.permissions
  handOver c who runtime r

def dispatch (c : Crates) (who : Identity) (runtime : Runtime) (r : Request) : M Unit := do
  let key := (who.channel, r.operation)
  let digest := r.digest c
  match ← ofExcept (← ask (.operationState key digest)) with
  | some existing => repeated who.channel r.operation existing
  | none => do
    let pending ← ask .pendingLen
    ensure (pending < PENDING) busy
    let _ ← ofExcept (← ask (.beginOperation key digest))
    match permission c runtime who.channel r.operation r.approval r.permissions r.message with
    | .error error => refuse who.channel r.operation (refusal (r.message.get "id") error)
    | .ok () => proceed c who runtime r

-- ---------------------------------------------------------------------------
-- collect
-- ---------------------------------------------------------------------------

/-- The response to `process/start`. -/
def started (job : Option String) (value : Value) : M Unit :=
  match job with
  | none => pure ()
  | some id => ask (.setJobState id (if (value.get "error").isSome then .failed else .running) none)

/-- The response to a pending request. -/
def answered (channel operation : String) (pending : Pending) (value : Value) : M Unit := do
  let value := value.set "id" pending.original
  started pending.job value
  ask (.completeOperation (channel, operation) value)
  let cursor ← append channel value (.answer operation)
  ask (.linkOperation (channel, operation) cursor)

def recordOutput (channel : String) (params : Value) : M Unit :=
  match (params.index "processId").asStr with
  | none => pure ()
  | some process => do
    match ← ask (.processJob channel process) with
    | none => pure ()
    | some id => ask (.saveOutput id params)

def exited (channel : String) (value : Value) : M Unit :=
  match (value.pointer ["params", "processId"]).bind Value.asStr with
  | none => pure ()
  | some process => do
    let exit := (value.pointer ["params", "exitCode"]).bind Value.asI64
    match ← ask (.processJob channel process) with
    | none => pure ()
    | some id => ask (.setJobState id (if exit = some 0 then .completed else .failed) exit)

def heed (channel : String) (value : Value) : M Unit :=
  match (value.index "method").asStr with
  | some "process/output" => recordOutput channel (value.index "params")
  | some "process/exited" => exited channel value
  | _ => pure ()

/-- Something the executor says by itself. -/
def noticed (channel : String) (value : Value) : M Unit := do
  heed channel value
  let _ ← append channel value .notice

def collect (channel : String) (value : Value) : M Unit :=
  if (value.get "method").isSome then noticed channel value
  else
    match (value.index "id").asStr with
    | none => pure ()
    | some operation => do
      match ← ask (.removePending operation) with
      | none => pure ()
      | some pending => answered channel operation pending value

-- ---------------------------------------------------------------------------
-- The end of a channel
-- ---------------------------------------------------------------------------

def terminateEach : List String → M Unit
  | [] => pure ()
  | process :: rest => do
    let id ← ask .uuid
    let message := .object [("id", .string ("cleanup-" ++ id)), ("method", .string "process/terminate"),
      ("params", .object [("processId", .string process)])]
    send ⟨none, none, message⟩
    terminateEach rest

def terminate (channel : String) (mcpOnly : Bool) : M Unit := do
  terminateEach (← ask (.runningProcesses channel mcpOnly))

def markChannelLost (channel : String) : M Unit := do
  ask (.closeChannel channel)
  ask (.closeJobs channel)

end RemoteCodex.Execution
