import RemoteCodex.Protocol.Value

/-!
# Authority for one command and for one session
-/

namespace RemoteCodex.Protocol

def COMMAND_APPROVAL_CAPABILITY : String := "command-approval-v1"
def SESSION_PERMISSIONS_CAPABILITY : String := "session-permissions-v1"

/-- A Full Access choice for one thread and one channel. -/
structure SessionPermissions where
  id : String
  channel : String
  thread : String
  deriving DecidableEq, Repr

/-- The approval of one command. -/
structure CommandApproval where
  id : String
  channel : String
  thread : String
  turn : String
  item : String
  argv : List String
  cwd : String
  deriving DecidableEq, Repr

/-- The thread a process is started for. -/
def threadOf (message : Value) : Option String :=
  (message.pointer ["params", "env", "CODEX_THREAD_ID"]).bind Value.asStr

def SessionPermissions.matches (grant : SessionPermissions) (channel : String) (message : Value) : Bool :=
  if grant.id = "" || grant.thread = "" || grant.channel ≠ channel then false
  else
    match (message.index "method").asStr with
    | some "process/start" => threadOf message = some grant.thread
    | some "fs/writeFile" | some "fs/createDirectory" | some "fs/remove" | some "fs/copy" => true
    | _ => false

def CommandApproval.matches (grant : CommandApproval) (message : Value) : Bool :=
  (message.index "method").asStr = some "process/start" &&
    ((message.index "params").index "argv").asStrings = some grant.argv &&
    ((message.index "params").index "cwd").asStr = some grant.cwd &&
    ((message.index "params").index "arg0").isNull &&
    threadOf message = some grant.thread

def CommandApproval.validFor (grant : CommandApproval) (channel operation : String) (message : Value) : Bool :=
  grant.channel = channel && grant.id = operation && grant.thread ≠ "" && grant.turn ≠ "" &&
    grant.item ≠ "" && grant.matches message

/-- `message` starts just the command that was approved. -/
structure CommandApproval.Starts (grant : CommandApproval) (message : Value) : Prop where
  start : (message.index "method").asStr = some "process/start"
  argv : ((message.index "params").index "argv").asStrings = some grant.argv
  cwd : ((message.index "params").index "cwd").asStr = some grant.cwd
  arg0 : ((message.index "params").index "arg0").isNull = true
  thread : threadOf message = some grant.thread

theorem CommandApproval.matches_iff (grant : CommandApproval) (message : Value) :
    grant.matches message = true ↔ grant.Starts message := by
  simp only [CommandApproval.matches, Bool.and_eq_true, decide_eq_true_eq]
  constructor
  · rintro ⟨⟨⟨⟨start, argv⟩, cwd⟩, arg0⟩, thread⟩
    exact ⟨start, argv, cwd, arg0, thread⟩
  · rintro ⟨start, argv, cwd, arg0, thread⟩
    exact ⟨⟨⟨⟨start, argv⟩, cwd⟩, arg0⟩, thread⟩

end RemoteCodex.Protocol
