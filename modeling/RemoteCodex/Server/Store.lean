import RemoteCodex.Interact.Table
import RemoteCodex.Protocol.Frame

/-!
# The service's database

The tables as `schema.sql` declares them, and one function for each statement
or transaction of the store. Rows with a cursor, and jobs, stand in the order
in which they were inserted. The key of an operation is written
`channel/operation` in the source; no channel's name has a slash, so it is a
pair here. Times are left out.
-/

namespace RemoteCodex.Server

open Interact Protocol

structure Operation where
  digest : String
  result : Option Value := none
  eventCursor : Option Int := none

inductive ChannelState
  | running | lost
  deriving DecidableEq, Repr

structure Channel where
  profile : String
  revision : Int
  state : ChannelState := .running
  lostReason : Option String := none
  replayBytes : Int := 0
  replayFloor : Int := 0
  deriving DecidableEq, Repr

structure ExecEvent where
  cursor : Int
  channel : String
  record : Value

inductive JobState
  | starting | running | completed | failed | unknown
  deriving DecidableEq, Repr

/-- The process of the job may still run. -/
def JobState.active : JobState → Bool
  | .starting => true
  | .running => true
  | _ => false

def JobState.name : JobState → String
  | .starting => "starting"
  | .running => "running"
  | .completed => "completed"
  | .failed => "failed"
  | .unknown => "unknown"

structure Job where
  id : String
  processId : String
  kind : String
  profile : String
  channel : String
  thread : Option String
  cwd : String
  state : JobState := .starting
  exitCode : Option Int := none
  outputBytes : Int := 0
  outputTruncated : Bool := false
  deriving DecidableEq, Repr

structure JobOutput where
  cursor : Int
  job : String
  record : Value

/-- `sequence` and `outputSequence`: the largest cursor a table has ever given out. -/
structure Store where
  operations : Table (String × String) Operation := ∅
  channels : Table String Channel := ∅
  sequence : Int := 0
  execEvents : List ExecEvent := []
  jobs : List Job := []
  outputSequence : Int := 0
  jobOutput : List JobOutput := []
  approvals : Table String CommandApproval := ∅
  sessionPermissions : Table String SessionPermissions := ∅

def storageError (message : String) : Fault := Transfer.fault "STORAGE_ERROR" message

namespace Store

-- ---------------------------------------------------------------------------
-- Operations
-- ---------------------------------------------------------------------------

def operationState (s : Store) (key : String × String) (digest : String) : Except Fault (Option (Option Value)) :=
  match s.operations.lookup key with
  | none => .ok none
  | some op =>
    if op.digest ≠ digest then
      .error (Transfer.fault "REQUEST_CONFLICT" "request identity reused with different arguments")
    else .ok (some op.result)

def beginOperation (s : Store) (key : String × String) (digest : String) : Except Fault (Option Value × Store) :=
  match s.operations.lookup key with
  | some op =>
    if op.digest ≠ digest then
      .error (Transfer.fault "REQUEST_CONFLICT" "request ID was already used with different arguments")
    else
      match op.result with
      | some value => .ok (some value, s)
      | none => .error ⟨"OPERATION_OUTCOME_UNKNOWN",
          "previous operation was dispatched; inspect remote jobs before retrying", true⟩
  | none => .ok (none, { s with operations := s.operations.insert key { digest } })

/-- An update of the rows of one operation. -/
def updateOperation (s : Store) (key : String × String) (f : Operation → Operation) : Store :=
  match s.operations.lookup key with
  | some op => { s with operations := s.operations.insert key (f op) }
  | none => s

def completeOperation (s : Store) (key : String × String) (result : Value) : Store :=
  s.updateOperation key fun op => { op with result := some result }

def linkOperation (s : Store) (key : String × String) (cursor : Int) : Store :=
  s.updateOperation key fun op => { op with eventCursor := some cursor }

/-- The second statement of `acknowledge_events`: acknowledged results are compacted. -/
def compactOperations (s : Store) (channel : String) (cursor : Int) : Store :=
  { s with
    operations := s.operations.update fun key op =>
      if key.1 = channel ∧ op.eventCursor.any (· ≤ cursor) then { op with result := some .null } else op }

-- ---------------------------------------------------------------------------
-- Replay
-- ---------------------------------------------------------------------------

def createChannel (s : Store) (channel profile : String) (revision : Int) : Except Fault Store :=
  match s.channels.lookup channel with
  | some _ => .error (Transfer.fault "EXECUTION_CONFLICT" "execution channel already exists")
  | none => .ok { s with channels := s.channels.insert channel { profile, revision } }

def REPLAY_LIMIT : Int := 8 * 1024 * 1024
def REPLAY_TAIL : Nat := 128
def PAGE : Nat := 64

/-- The replay buffer of a channel. -/
def eventsOf (channel : String) (rows : List ExecEvent) : List ExecEvent :=
  rows.filter fun row => row.channel = channel

/-- The trimming loop: the oldest row of the channel goes while too many bytes
are kept. What is left, its bytes and the last cursor that went. -/
def trim (channel : String) : List ExecEvent → Int → Int → List ExecEvent × Int × Int
  | [], bytes, floor => ([], bytes, floor)
  | row :: rows, bytes, floor =>
    if bytes > REPLAY_LIMIT then
      if row.channel = channel then trim channel rows (bytes - row.record.size) row.cursor
      else
        let (rows, bytes, floor) := trim channel rows bytes floor
        (row :: rows, bytes, floor)
    else (row :: rows, bytes, floor)

/-- `append_record`, one transaction: the cursor of the new row. -/
def appendEvent (s : Store) (channel : String) (value : Value) : Except Fault (Int × Store) :=
  match s.channels.lookup channel with
  | none => .error (storageError "cannot account replay storage")
  | some row =>
    let cursor := s.sequence + 1
    let (rows, bytes, floor) :=
      trim channel (s.execEvents ++ [⟨cursor, channel, value⟩]) (row.replayBytes + value.size) 0
    .ok (cursor, { s with
      sequence := cursor
      execEvents := rows
      channels := s.channels.insert channel
        { row with replayBytes := bytes, replayFloor := max row.replayFloor floor } })

theorem trim_sublist (channel : String) (rows : List ExecEvent) (bytes floor : Int) :
    (trim channel rows bytes floor).1.Sublist rows := by
  induction rows generalizing bytes floor with
  | nil => exact .slnil
  | cons row rows ih =>
    unfold trim
    split
    · split
      · exact (ih _ _).cons row
      · exact (ih _ _).cons_cons row
    · exact .refl _

/-- What appending an event does. -/
theorem appendEvent_cases (s : Store) (channel : String) (value : Value) :
    (s.channels.lookup channel = none ∧
        s.appendEvent channel value = .error (storageError "cannot account replay storage")) ∨
      ∃ row bytes floor rows, s.channels.lookup channel = some row ∧
        rows.Sublist (s.execEvents ++ [⟨s.sequence + 1, channel, value⟩]) ∧
        s.appendEvent channel value = .ok (s.sequence + 1,
          { s with
            sequence := s.sequence + 1
            execEvents := rows
            channels := s.channels.insert channel { row with replayBytes := bytes, replayFloor := floor } }) := by
  unfold appendEvent
  rcases s.channels.lookup channel with _ | row
  · exact .inl ⟨rfl, rfl⟩
  · exact .inr ⟨row, _, _, _, rfl, trim_sublist _ _ _ _, rfl⟩

/-- The rows an acknowledgement may retire: none of the channel's newest ones. -/
def acknowledged (s : Store) (channel : String) (ack : Int) : List ExecEvent :=
  let rows := eventsOf channel s.execEvents
  (rows.take (rows.length - REPLAY_TAIL)).filter fun row => row.cursor ≤ ack

/-- `prune_acknowledged`, one transaction. -/
def pruneAcknowledged (s : Store) (channel : String) (ack : Int) : Store :=
  let rows := s.acknowledged channel ack
  let bytes := (rows.map fun row => (row.record.size : Int)).sum
  let bound := (rows.map ExecEvent.cursor).foldl max 0
  { s with
    execEvents := s.execEvents.filter fun row => ¬ (row.channel = channel ∧ row.cursor ≤ bound)
    channels := match s.channels.lookup channel with
      | none => s.channels
      | some row => s.channels.insert channel
          { row with replayBytes := max 0 (row.replayBytes - bytes), replayFloor := max row.replayFloor bound } }

/-- The first query of `execution_events`: whether rows behind `after` are gone. -/
def replayFrom (s : Store) (channel : String) (after : Int) : Except Fault Unit :=
  match s.channels.lookup channel with
  | none => .error (storageError "cannot inspect replay floor")
  | some row =>
    if after < row.replayFloor then
      .error ⟨"EXECUTION_REPLAY_EXPIRED", "execution replay buffer expired; inspect retained jobs", true⟩
    else .ok ()

/-- The second query of `execution_events`. -/
def replayRows (s : Store) (channel : String) (after : Int) : List ExecEvent :=
  (s.execEvents.filter fun row => row.channel = channel ∧ after < row.cursor).take PAGE

-- ---------------------------------------------------------------------------
-- Authority
-- ---------------------------------------------------------------------------

def recordPermissions (s : Store) (grant : SessionPermissions) : Except Fault Store :=
  match s.sessionPermissions.lookup grant.id with
  | none => .ok { s with sessionPermissions := s.sessionPermissions.insert grant.id grant }
  | some old =>
    if old.channel = grant.channel ∧ old.thread = grant.thread then .ok s
    else .error (Transfer.fault "APPROVAL_MISMATCH" "session permission identity reused in another context")

def recordApproval (s : Store) (grant : CommandApproval) : Except Fault Store :=
  match s.approvals.lookup grant.id with
  | some _ => .error (Transfer.fault "APPROVAL_REUSED" "approval has already authorized another operation")
  | none => .ok { s with approvals := s.approvals.insert grant.id grant }

-- ---------------------------------------------------------------------------
-- Jobs
-- ---------------------------------------------------------------------------

/-- `id` is the fresh identity the source draws. -/
def recordJob (s : Store) (profile channel : String) (params : Value) (kind id : String) : Except Fault Store :=
  match (params.index "processId").asStr with
  | none => .error (Transfer.fault "INVALID_EXECUTION" "process ID missing")
  | some processId =>
    if s.jobs.any fun job => job.id = id then
      .error (Transfer.fault "JOB_CONFLICT" "cannot persist process identity")
    else
      let thread := ((params.pointer ["env", "CODEX_THREAD_ID"]).bind Value.asStr).or
        ((params.pointer ["auditMetadata", "conversationId"]).bind Value.asStr)
      let cwd := ((params.index "cwd").asStr).getD ""
      .ok { s with jobs := s.jobs ++ [{ id, processId, kind, profile, channel, thread, cwd }] }

theorem recordJob_ok {s s' : Store} {profile channel : String} {params : Value} {kind id : String}
    (h : s.recordJob profile channel params kind id = .ok s') :
    ∃ job : Job, job.id = id ∧ job.channel = channel ∧ (params.index "processId").asStr = some job.processId ∧
      job.state = .starting ∧ (∀ old ∈ s.jobs, old.id ≠ id) ∧ s' = { s with jobs := s.jobs ++ [job] } := by
  unfold recordJob at h
  split at h
  · cases h
  · next process hname =>
    split at h
    · cases h
    · next hnew =>
      refine ⟨_, rfl, rfl, hname, rfl, ?_, (Except.ok.inj h).symm⟩
      intro old hold hid
      apply hnew
      rw [List.any_eq_true]
      exact ⟨old, hold, decide_eq_true hid⟩

/-- The newest job of the channel with this process id. -/
def processJob (s : Store) (channel processId : String) : Option String :=
  (s.jobs.findRev? fun job => job.channel = channel ∧ job.processId = processId).map Job.id

/-- An update of the jobs that satisfy `p`. -/
def updateJobs (s : Store) (p : Job → Bool) (f : Job → Job) : Store :=
  { s with jobs := s.jobs.map fun job => if p job then f job else job }

def setJobState (s : Store) (id : String) (state : JobState) (exit : Option Int) : Store :=
  s.updateJobs (fun job => job.id = id && job.state.active && (state ≠ .running || job.state = .starting))
    fun job => { job with state, exitCode := exit }

def runningProcesses (s : Store) (channel : String) (mcpOnly : Bool) : List String :=
  (s.jobs.filter fun job =>
    job.channel = channel && job.state.active && (!mcpOnly || job.kind = "mcp")).map Job.processId

def activeJobs (s : Store) (channel : String) : Nat :=
  s.jobs.countP fun job => job.channel = channel && job.kind = "command" && job.state.active

def OUTPUT_LIMIT : Int := 67108864

/-- The transaction of `record_output`, for a job that was found. -/
def saveOutput (s : Store) (id : String) (params : Value) : Store :=
  if s.jobs.any fun job => job.id = id && job.outputBytes + params.size ≤ OUTPUT_LIMIT then
    let s := s.updateJobs (fun job => job.id = id)
      (fun job => { job with outputBytes := job.outputBytes + params.size })
    { s with
      outputSequence := s.outputSequence + 1
      jobOutput := s.jobOutput ++ [⟨s.outputSequence + 1, id, params⟩] }
  else s.updateJobs (fun job => job.id = id) fun job => { job with outputTruncated := true }

/-- The record of a job, its fields in their order. -/
def jobValue (job : Job) (createdAt updatedAt : Int) : Value :=
  .object [("channel", .string job.channel), ("created_at", .int createdAt), ("cwd", .string job.cwd),
    ("exit_code", (job.exitCode.map Value.int).getD .null), ("id", .string job.id), ("kind", .string job.kind),
    ("output_truncated", .bool job.outputTruncated), ("process_id", .string job.processId),
    ("state", .string job.state.name), ("thread", (job.thread.map Value.string).getD .null),
    ("updated_at", .int updatedAt)]

/-- What follows the first chunk of a reply, while there is room. -/
def pageAfter (bytes : Nat) : List JobOutput → List JobOutput
  | [] => []
  | row :: rows =>
    if bytes + row.record.size > MAX_FRAME / 2 then [] else row :: pageAfter (bytes + row.record.size) rows

/-- The chunks of one reply: the first in any case. -/
def page : List JobOutput → List JobOutput
  | [] => []
  | row :: rows => row :: pageAfter row.record.size rows

def outputRows (s : Store) (id : String) (after : Int) : List JobOutput :=
  (s.jobOutput.filter fun row => row.job = id ∧ after < row.cursor).take PAGE

/-- The reply for a job and the chunks of a page. -/
def outputReply (job : Value) (after : Int) (chunks : List JobOutput) : Value :=
  .object [("chunks", .array (chunks.map JobOutput.record)), ("job", job),
    ("next_cursor", .int ((chunks.getLast?.map JobOutput.cursor).getD after))]

/-- `job_output`; the job's times are given. -/
def jobOutputOf (s : Store) (profile id : String) (after createdAt updatedAt : Int) : Except Fault Value :=
  match s.jobs.find? fun job => job.profile = profile ∧ job.id = id with
  | none => .error (Transfer.fault "JOB_NOT_FOUND" "process does not belong to this execution environment")
  | some job => .ok (outputReply (jobValue job createdAt updatedAt) after (page (s.outputRows id after)))

/-- The statements of `mark_channel_lost`. -/
def closeChannel (s : Store) (channel : String) : Store :=
  match s.channels.lookup channel with
  | none => s
  | some row =>
    { s with
      channels := s.channels.insert channel
        { row with state := .lost, lostReason := row.lostReason.or (some "executor_stopped") } }

def closeJobs (s : Store) (channel : String) : Store :=
  s.updateJobs (fun job => job.channel = channel && job.state.active) fun job => { job with state := .unknown }

/-- `open`, when the service starts: one transaction. -/
def reopen (s : Store) (reason : String) : Store :=
  let s := s.updateJobs (fun job => job.state.active) (fun job => { job with state := .unknown })
  { s with
    channels := s.channels.update fun _ row =>
      if row.state = .running then { row with state := .lost, lostReason := some reason } else row }

end Store

end RemoteCodex.Server
