import Mathlib.Data.List.DropRight
import RemoteCodex.Config.Value
import RemoteCodex.Protocol.Encode
import RemoteCodex.Native.Policy

/-!
# Native requests of a bound thread

`prepare` answers a request of the frontend itself, refuses it, or makes an
operation of it that may be sent to the native process. `Host` is what the
local disk says.
-/

namespace RemoteCodex.Native

open Protocol
open Transfer (pathComponents fault)

structure Host where
  canonicalize : String → Option String
  /-- `attachments::prepare`: the parameters with the path it is resolved to. -/
  attachments : String → Value → Except Fault Value

inductive OperationKind
  | read
  | turn
  | steer
  | settings (full : Option Bool)
  | goalStart
  | goalDefine
  | goalControl
  deriving DecidableEq, Repr

structure Operation where
  kind : OperationKind
  method : String
  params : Value

inductive Prepared
  | immediate (value : Value)
  | operation (operation : Operation)

/-- The native thread; `initialized` and `bootstrap` are what it answered when
the process and the thread were started. -/
structure Thread where
  binding : SessionBinding
  initialized : Value
  bootstrap : Value

-- ---------------------------------------------------------------------------
-- Settings
-- ---------------------------------------------------------------------------

def invalidSettings : Fault := fault "INVALID_NATIVE_SETTINGS" "unsupported or invalid native settings parameters"

def knownFields (v : Value) (allowed : List String) : Except Fault Unit :=
  match v with
  | .object fields => if fields.all fun field => allowed.contains field.1 then .ok () else .error invalidSettings
  | _ => .error invalidSettings

def RUNNING_FIELDS : List String :=
  ["threadId", "turnId", "model", "effort", "summary", "serviceTier", "approvalsReviewer"]

def THREAD_FIELDS : List String :=
  ["threadId", "model", "effort", "summary", "serviceTier", "personality", "collaborationMode", "multiAgentMode",
    "disabledPluginIds", "cwd", "permissions", "sandboxPolicy", "approvalPolicy", "approvalsReviewer"]

def sessionMismatch (message : String) : Fault := fault "SESSION_MISMATCH" message

/-- The change asks for Full Access. -/
def asksFull (params : Value) : Bool :=
  (params.index "permissions").asStr = some ":danger-full-access" ||
    (params.pointer ["sandboxPolicy", "type"]).bind Value.asStr = some "dangerFullAccess"

def prepareThread (method : String) (params : Value) (binding : SessionBinding) : Except Fault Unit := do
  knownFields params (if method = "turn/settings/update" then RUNNING_FIELDS else THREAD_FIELDS)
  if (params.index "threadId").asStr ≠ some binding.sessionId then
    .error (sessionMismatch "settings belong to another session")
  validate params binding (asksFull params)

def PREFERENCES : List String :=
  ["model", "model_reasoning_effort", "model_reasoning_summary", "model_verbosity", "plan_mode_reasoning_effort",
    "service_tier", "personality", "review_model", "approvals_reviewer"]

/-- The text in front of the first `.`, and what follows it. -/
def splitDot (text : List Char) : Option (List Char × List Char) :=
  match text.dropWhile (· ≠ '.') with
  | [] => none
  | _ :: rest => some (text.takeWhile (· ≠ '.'), rest)

def preferenceKey (key : String) : Bool :=
  let start := "profiles.".toList
  PREFERENCES.contains key ||
    (start.isPrefixOf key.toList &&
      match splitDot (key.toList.drop start.length) with
      | some (profile, key) =>
        !profile.isEmpty && profile.all (fun c => c.isAlphanum || c = '_' || c = '-') &&
          PREFERENCES.contains (String.ofList key)
      | none => false)

/-- `key` is the trust level of the project `cwd`, whose name is quoted. -/
def projectTrust (cwd key : String) : Bool :=
  Wire.Json.utf8 key = Wire.Json.ascii "projects." ++ Wire.Json.string.put cwd ++ Wire.Json.ascii ".trust_level"

def validateEdit (edit : Value) (cwd : String) : Except Fault Unit :=
  match (edit.index "keyPath").asStr with
  | none => .error invalidSettings
  | some key => do
    if !preferenceKey key && !projectTrust cwd key then
      .error (fault "UNSUPPORTED_CONFIG_SETTING" ("this workspace can save native model and reviewer preferences " ++
        "and its own project trust; the execution ceiling is managed by remote-codex config -n NAME"))
    let strategy := (edit.index "mergeStrategy").asStr
    if !(strategy = some "replace" || strategy = some "upsert") ||
        !((edit.get "value").any fun v => v.isNull || v.asStr.isSome) then
      .error invalidSettings
    let trust := (edit.index "value").asStr
    if projectTrust cwd key && !(trust = some "trusted" || trust = some "untrusted") then .error invalidSettings
    if key.toList.rtakeWhile (· ≠ '.') = "approvals_reviewer".toList then validateReviewer (edit.index "value")
    else .ok ()

/-- `Path::join` with a relative name. -/
def joinName (dir name : String) : String :=
  if dir = "" then name else if dir.toList.getLast? = some '/' then dir ++ name else dir ++ "/" ++ name

def isBool : Value → Bool
  | .bool _ => true
  | _ => false

def BATCH_FIELDS : List String := ["edits", "filePath", "expectedVersion", "reloadUserConfig"]

def EDIT_FIELDS : List String := ["keyPath", "value", "mergeStrategy"]

def WRITE_FIELDS : List String := ["keyPath", "value", "mergeStrategy", "filePath", "expectedVersion"]

/-- The target, if one is named, is the user's own configuration. -/
def validateTarget (host : Host) (target : String) (v : Value) : Except Fault Unit :=
  match v.asStr with
  | none => .error invalidSettings
  | some path =>
    if pathComponents path = pathComponents target ||
        (host.canonicalize target).map pathComponents = some (pathComponents path) then .ok ()
    else .error (fault "CONFIG_TARGET_MISMATCH" "defaults must be saved to this computer's Codex user config")

def prepareConfig (host : Host) (method : String) (params : Value) (binding : SessionBinding) : Except Fault Value := do
  let batch := method = "config/batchWrite"
  knownFields params (if batch then BATCH_FIELDS else WRITE_FIELDS)
  let target := joinName binding.codexHome "config.toml"
  checkGiven (given params "filePath") (validateTarget host target)
  if (params.get "expectedVersion").any fun v => !v.isNull && !v.asStr.isSome then .error invalidSettings
  if batch then
    if (params.get "reloadUserConfig").any fun v => !isBool v then .error invalidSettings
    match (params.index "edits").asArray with
    | none => .error invalidSettings
    | some edits =>
      if edits.isEmpty || edits.length > 64 then .error invalidSettings
      edits.forM fun edit => do
        knownFields edit EDIT_FIELDS
        validateEdit edit binding.cwd
  else validateEdit params binding.cwd
  let params := params.set "filePath" (.string target)
  pure (if batch then params.set "reloadUserConfig" (.bool false) else params)

-- ---------------------------------------------------------------------------
-- Preparation
-- ---------------------------------------------------------------------------

def permissionIntent (params : Value) : Option Bool :=
  match (params.index "permissions").asStr with
  | some preset => some (preset = ":danger-full-access")
  | none => ((params.pointer ["sandboxPolicy", "type"]).bind Value.asStr).map (· = "dangerFullAccess")

def turnParams (params : Value) (binding : SessionBinding) : Value :=
  let environment : Value :=
    .object [("cwd", .string binding.cwd), ("environmentId", .string binding.environmentId)]
  ((params.set "cwd" (.string binding.cwd)).set "environments" (.array [environment])).set "runtimeWorkspaceRoots"
    (.array [.string binding.cwd])

/-- The bound threads and the history are the only ones a frontend may ask about. -/
def READS : List String :=
  ["thread/read", "thread/turns/list", "thread/items/list", "thread/goal/get", "thread/name/set", "turn/interrupt",
    "model/list", "collaborationMode/list", "account/read", "account/login/start", "account/login/cancel",
    "account/rateLimits/read", "config/read", "configRequirements/read", "skills/list", "plugin/list", "hooks/list",
    "mcpServerStatus/list"]

def goalKind (params : Value) : OperationKind :=
  let status := (params.index "status").asStr
  let defines := (params.index "objective").asStr.isSome
  if status = some "active" || (defines && status ≠ some "paused") then .goalStart
  else if defines then .goalDefine
  else .goalControl

/-- `thread/resume` as it is sent: the page asked for is all that is kept. -/
def resumeParams (params : Value) (binding : SessionBinding) : Value :=
  let bound : Value := .object [("excludeTurns", .bool true), ("threadId", .string binding.sessionId)]
  match params.get "initialTurnsPage" with
  | some page => bound.set "initialTurnsPage" page
  | none => bound

/-- The kind of an operation and its parameters. -/
def classify (host : Host) (binding : SessionBinding) (method : String) (params : Value) :
    Except Fault (OperationKind × Value) :=
  match method with
  | "fs/createDirectory" => (host.attachments method params).map fun params => (.read, params)
  | "fs/writeFile" => (host.attachments method params).map fun params => (.read, params)
  | "fs/readFile" => (host.attachments method params).map fun params => (.read, params)
  | "thread/goal/set" =>
    (knownFields params ["threadId", "objective", "status", "tokenBudget", "origin"]).map
      fun _ => (goalKind params, params)
  | "thread/goal/clear" => (knownFields params ["threadId", "origin"]).map fun _ => (.goalControl, params)
  | "thread/settings/update" =>
    (prepareThread method params binding).map fun _ => (.settings (permissionIntent params), params)
  | "turn/settings/update" =>
    (prepareThread method params binding).map fun _ => (.settings (permissionIntent params), params)
  | "config/batchWrite" => (prepareConfig host method params binding).map fun params => (.read, params)
  | "config/value/write" => (prepareConfig host method params binding).map fun params => (.read, params)
  | "turn/start" => .ok (.turn, turnParams params binding)
  | "turn/steer" =>
    if (params.index "expectedTurnId").asStr.all (· = "") then
      .error (fault "EXPECTED_TURN_REQUIRED" "Select the running turn before sending a follow-up.")
    else .ok (.steer, params)
  | "thread/resume" => .ok (.read, resumeParams params binding)
  | _ =>
    if READS.contains method then .ok (.read, params)
    else .error (fault "UNSUPPORTED_CODEX_METHOD"
      "this native operation is not validated for a bound remote workspace")

/-- A skill is named by its path on this computer, and sent with its remote one. -/
def mapSkill (skills : String → Option String) (input : Value) : Value :=
  if (input.index "type").asStr = some "skill" then
    match (input.index "path").asStr.bind skills with
    | some path => input.set "path" (.string path)
    | none => input
  else input

/-- Looking for the input to change leaves null where there is none. -/
def mapSkills (skills : String → Option String) (params : Value) : Value :=
  match params.index "input" with
  | .array inputs => params.set "input" (.array (inputs.map (mapSkill skills)))
  | input => params.set "input" input

def emptyPage : Value := .object [("data", .array []), ("nextCursor", .null)]

def prepare (host : Host) (thread : Thread) (method : String) (params : Value) (persisted : Bool)
    (skills : String → Option String) : Except Fault Prepared :=
  let binding := thread.binding
  if method = "initialize" then .ok (.immediate thread.initialized)
  else if method = "thread/list" then .ok (.immediate emptyPage)
  else if method = "thread/loaded/list" then
    .ok (.immediate (.object [("data", .array [.string binding.sessionId]), ("nextCursor", .null)]))
  else if ("thread/".toList.isPrefixOf method.toList || "turn/".toList.isPrefixOf method.toList) &&
      (params.index "threadId").asStr ≠ some binding.sessionId then
    .error (sessionMismatch "use remote-codex to select or create another session")
  else if method = "thread/unsubscribe" then .ok (.immediate (.object [("status", .string "unsubscribed")]))
  else if (method = "thread/turns/list" || method = "thread/items/list") && !persisted then
    .ok (.immediate (emptyPage.set "backwardsCursor" .null))
  else if method = "thread/resume" && !persisted then .ok (.immediate thread.bootstrap)
  else
    (classify host binding method params).map fun (kind, params) =>
      .operation {
        kind
        method
        params := if kind = .turn || kind = .steer then mapSkills skills params else params }

/-- Authority is checked at dispatch, when the execution environment is ready. -/
def validateExecution (thread : Thread) (operation : Operation) (fullAccess : Bool) : Except Fault Unit :=
  if operation.kind = .turn then validate operation.params thread.binding fullAccess else .ok ()

def clientMessageId (operation : Operation) : Option String :=
  if operation.kind = .turn || operation.kind = .steer then (operation.params.index "clientUserMessageId").asStr
  else none

-- ---------------------------------------------------------------------------
-- Actions of the other frontends
-- ---------------------------------------------------------------------------

inductive PermissionPreset
  | workspace
  | fullAccess
  deriving DecidableEq, Repr

inductive ApprovalsReviewer
  | user
  | autoReview
  | guardianSubagent
  deriving DecidableEq, Repr

/-- `planning`: a mode is asked for. -/
structure SessionSettings where
  planning : Bool := false
  model : Option String := none
  effort : Option String := none
  permissions : Option PermissionPreset := none
  reviewer : Option ApprovalsReviewer := none
  deriving DecidableEq, Repr

inductive Action
  | submit (text : String)
  | message (text clientId : String) (expectedTurn : Option String)
  | settings (settings : SessionSettings)
  | interrupt (turn : String)
  deriving DecidableEq, Repr

def prompt (thread text : String) : Value :=
  .object [("input", .array [.object [("text", .string text), ("type", .string "text")]]), ("threadId", .string thread)]

def interrupt (thread turn : String) : Value := .object [("threadId", .string thread), ("turnId", .string turn)]

/-- `value[key] = text`, if there is a text. -/
def setText (params : Value) (key : String) (text : Option String) : Value :=
  match text with
  | some text => params.set key (.string text)
  | none => params

def PermissionPreset.names : PermissionPreset → String × String
  | .workspace => (":workspace", "on-request")
  | .fullAccess => (":danger-full-access", "never")

def ApprovalsReviewer.name : ApprovalsReviewer → String
  | .user => "user"
  | .autoReview => "auto_review"
  | .guardianSubagent => "guardian_subagent"

def settingsParams (thread : String) (options : SessionSettings) : Value :=
  let params := setText (setText (.object [("threadId", .string thread)]) "model" options.model) "effort" options.effort
  let preset := options.permissions.map PermissionPreset.names
  let params := setText (setText params "permissions" (preset.map Prod.fst)) "approvalPolicy" (preset.map Prod.snd)
  setText params "approvalsReviewer" (options.reviewer.map ApprovalsReviewer.name)

def invalidMessage (text clientId : String) : Bool :=
  text.toList.all Config.isWhitespace || clientId = "" || clientId.utf8ByteSize > 128 ||
    clientId.toList.any Config.isControl

def prepareAction (host : Host) (thread : Thread) (action : Action) (persisted : Bool)
    (skills : String → Option String) : Except Fault Prepared :=
  let id := thread.binding.sessionId
  match action with
  | .submit text => prepare host thread "turn/start" (prompt id text) persisted skills
  | .message text clientId expectedTurn =>
    if invalidMessage text clientId then
      .error (fault "INVALID_MESSAGE" "A message requires text and a valid client ID.")
    else
      let params := (prompt id text).set "clientUserMessageId" (.string clientId)
      match expectedTurn with
      | some turn => prepare host thread "turn/steer" (params.set "expectedTurnId" (.string turn)) persisted skills
      | none => prepare host thread "turn/start" params persisted skills
  | .settings options =>
    if options.planning then
      .error (fault "MODE_SETTINGS_REQUIRED" "Mode changes require the confirmed model and effort.")
    else prepare host thread "thread/settings/update" (settingsParams id options) persisted skills
  | .interrupt turn => prepare host thread "turn/interrupt" (interrupt id turn) persisted skills

-- ---------------------------------------------------------------------------
-- What is prepared
-- ---------------------------------------------------------------------------

section

variable {host : Host} {thread : Thread} {method : String} {params : Value} {persisted : Bool}
variable {skills : String → Option String} {operation : Operation}

theorem classify_turn {binding : SessionBinding} {kind : OperationKind} {sent : Value}
    (h : classify host binding "turn/start" params = .ok (kind, sent)) :
    kind = .turn ∧ sent = turnParams params binding := by
  obtain ⟨rfl, rfl⟩ := Prod.mk.inj (Except.ok.inj h)
  exact ⟨rfl, rfl⟩

/-- Only a request that starts a turn makes an operation that does. -/
theorem kind_of_prepare (h : prepare host thread method params persisted skills = .ok (.operation operation))
    (hstart : operation.method = "turn/start") : operation.kind = .turn := by
  unfold prepare at h
  dsimp only at h
  iterate 7
    split at h
    · cases h
  cases hc : classify host thread.binding method params with
  | error e =>
    rw [hc] at h
    cases h
  | ok r =>
    obtain ⟨kind, sent⟩ := r
    rw [hc] at h
    cases h
    obtain rfl : method = "turn/start" := hstart
    exact (classify_turn hc).1

end

end RemoteCodex.Native
