import RemoteCodex.Protocol.Encode
import RemoteCodex.Protocol.Approval
import RemoteCodex.Transfer.Paths

/-!
# What an execution request may ask for

The checks of a request that need no database. `Crates` stands for the linked
crates: `filePath` is what `url` makes of the text of a file URL, and `digest`
is SHA-256, printed.
-/

namespace RemoteCodex.Execution

open Protocol

structure Crates where
  digest : List UInt8 → String
  filePath : String → Option String

structure ExecutionCommand where
  argv : List String
  cwd : String
  deriving DecidableEq, Repr

/-- The settings of the environment the checks read. -/
structure Runtime where
  unrestricted : Bool := false
  mcp : List ExecutionCommand := []
  deriving DecidableEq, Repr

def hasPrefix (start text : String) : Bool := start.toList.isPrefixOf text.toList

def METHODS : List String :=
  ["initialize", "initialized", "environment/info", "environment/status", "environmentConfig/read",
    "capabilityRoots/discoverV1"]

def PREFIXES : List String := ["process/", "fs/", "http/", "network/", "shell/"]

def MUTATIONS : List String := ["fs/writeFile", "fs/createDirectory", "fs/remove", "fs/copy"]

def CREDENTIALS : List String := ["OPENAI_API_KEY", "CODEX_API_KEY", "CODEX_ACCESS_TOKEN", "CODEX_AUTH_JSON"]

def managed (sandbox : Value) : Bool :=
  (sandbox.pointer ["permissions", "type"]).bind Value.asStr = some "managed" &&
    (sandbox.pointer ["permissions", "file_system", "type"]).bind Value.asStr = some "restricted"

/-- The command is one the environment's MCP servers are started with. -/
def authorizedMcp (c : Crates) (runtime : Runtime) (params : Value) : Bool :=
  match (params.index "argv").asArray with
  | none => false
  | some argv =>
    let cwd := (params.index "cwd").asStr.bind c.filePath
    runtime.mcp.any fun allowed =>
      cwd.map Transfer.pathComponents = some (Transfer.pathComponents allowed.cwd) &&
        argv.map Value.asStr = allowed.argv.map some

def forwardsCredentials (params : Value) : Bool :=
  match params.index "env" with
  | .object env => CREDENTIALS.any fun key => (env.lookup key).isSome
  | _ => false

def validate (c : Crates) (runtime : Runtime) (message : Value) (approvedCommand fullAccess : Bool) :
    Except Fault Unit :=
  match (message.index "method").asStr with
  | none =>
    if (message.get "id").isSome && ((message.get "result").isSome || (message.get "error").isSome) then .ok ()
    else .error (Transfer.fault "INVALID_EXECUTION" "invalid execution response")
  | some method =>
    let params := message.index "params"
    if !METHODS.contains method && !(PREFIXES.any fun start => hasPrefix start method) then
      .error (Transfer.fault "EXECUTION_METHOD_DENIED" "only execution environment methods are permitted")
    else if MUTATIONS.contains method && !runtime.unrestricted && !fullAccess &&
        !managed (params.index "sandbox") then
      .error (Transfer.fault "SANDBOX_REQUIRED" "filesystem mutation requires the configured sandbox")
    else if method = "process/start" then
      if !runtime.unrestricted && !fullAccess && !managed (params.index "sandbox") &&
          !authorizedMcp c runtime params && !approvedCommand then
        .error (Transfer.fault "SANDBOX_REQUIRED"
          "this environment requires sandboxed execution or an explicit one-time command approval")
      else if forwardsCredentials params then
        .error (Transfer.fault "CREDENTIAL_FORWARDING_DENIED"
          "Codex account credentials cannot be forwarded to the execution environment")
      else .ok ()
    else .ok ()

/-- What `dispatch` asks for before anything is recorded or forwarded. -/
def permission (c : Crates) (runtime : Runtime) (channel operation : String) (approval : Option CommandApproval)
    (permissions : Option SessionPermissions) (message : Value) : Except Fault Unit :=
  match approval, permissions with
  | some _, some _ => .error (Transfer.fault "APPROVAL_MISMATCH" "multiple execution authorization scopes")
  | none, some grant =>
    if grant.matches channel message then validate c runtime message false true
    else .error (Transfer.fault "APPROVAL_MISMATCH" "session permissions do not authorize this operation")
  | some grant, none =>
    if grant.validFor channel operation message then validate c runtime message true false
    else .error (Transfer.fault "APPROVAL_MISMATCH" "approval does not authorize this operation")
  | none, none => validate c runtime message false false

/-- The text itself in place of its digest, and file URLs without escapes. -/
def plain : Crates where
  digest bytes := String.ofList (bytes.map fun b => Char.ofNat b.toNat)
  filePath url := if hasPrefix "file://" url then some (String.ofList (url.toList.drop 7)) else none

end RemoteCodex.Execution
