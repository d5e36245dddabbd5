import RemoteCodex.Interact.Table

/-!
# Settings and credentials in the client's database

The tables of `schema.sql` the credentials live in, and one function for each
transaction. A key is written with its canonical name; what the configuration
crate decides about a key or a value is in `Rules`.
-/

namespace RemoteCodex.Credentials

open Interact

inductive CredentialState
  | pending | active | retired
  deriving DecidableEq, Repr

structure Credential where
  state : CredentialState := .pending
  created : Nat
  managed : Bool := true
  deriving DecidableEq, Repr

structure SshCredential where
  server : String
  target : String
  state : CredentialState := .pending
  created : Nat
  deriving DecidableEq, Repr

/-- A row of `settings`; `secret` is its representation. -/
structure Setting where
  spelling : String
  secret : Bool
  value : String
  deriving DecidableEq, Repr

/-- `now` is the clock, in seconds. -/
structure Store where
  connections : List String := []
  revisions : Table String Nat := ∅
  settings : Table (String × String) Setting := ∅
  credentials : Table String Credential := ∅
  ssh : Table String SshCredential := ∅
  now : Nat := 0
  deriving DecidableEq

inductive ClientError
  | notFound | revisionConflict | credentials | schema | config
  deriving DecidableEq, Repr

-- ---------------------------------------------------------------------------
-- Configuration
-- ---------------------------------------------------------------------------

inductive ConfigValue (ν : Type)
  | plain (value : ν)
  | secret (reference : String)
  deriving DecidableEq

structure StoredSetting (ν : Type) where
  spelling : String
  value : ConfigValue ν
  deriving DecidableEq

/-- The settings saved for one server, by the names of their keys. -/
abbrev Layer (ν : Type) := Table String (StoredSetting ν)

/-- `remote_codex_core::config`: `ConfigKey::parse` with the name of the key,
what kind of key a name is, `parse_value` and its inverse, `requires_secret`
and `resolve`. -/
structure Rules (ν : Type) where
  parse : String → Option String
  writable : String → Bool
  environment : String → Bool
  proxy : String → Bool
  value : String → String → Option ν
  visible : ν → String
  requiresSecret : String → String → Bool
  resolve : Layer ν → Bool
  reference : String → Bool

inductive ConfigInput
  | plain (raw : String)
  | secret (reference raw : String)
  deriving DecidableEq, Repr

def orError (o : Option α) (e : ClientError) : Except ClientError α :=
  match o with
  | some a => .ok a
  | none => .error e

def demand (b : Bool) (e : ClientError) : Except ClientError Unit := if b then .ok () else .error e

namespace Layer

variable {ν : Type} [DecidableEq ν]

/-- Equal as maps. -/
def same (a b : Layer ν) : Bool := decide (∀ k ∈ a.keys ++ b.keys, a.lookup k = b.lookup k)

def writableKey (r : Rules ν) (key : String) : Except ClientError String := do
  let name ← orError (r.parse key) .config
  demand (r.writable name) .config
  pure name

def set (r : Rules ν) (layer : Layer ν) (key : String) (input : ConfigInput) : Except ClientError (Layer ν) := do
  let name ← writableKey r key
  let (raw, reference) := match input with
    | .plain raw => (raw, none)
    | .secret reference raw => (raw, some reference)
  let value ← orError (r.value name raw) .config
  demand (reference.isNone || r.environment name) .config
  demand (reference.isSome || !r.requiresSecret name raw) .config
  let value := match reference with
    | some reference => .secret reference
    | none => .plain value
  let previous := layer.lookup name
  demand (!(r.environment name && r.proxy name && previous.any fun old => old.spelling ≠ key && old.value ≠ value))
    .config
  pure (layer.insert name ⟨(previous.map StoredSetting.spelling).getD key, value⟩)

def unset (r : Rules ν) (layer : Layer ν) (key : String) : Except ClientError (Layer ν) := do
  let name ← writableKey r key
  pure (layer.erase name)

def restoreSecret (r : Rules ν) (layer : Layer ν) (spelling reference : String) : Except ClientError (Layer ν) := do
  let name ← writableKey r spelling
  demand (r.environment name) .config
  demand (layer.lookup name).isNone .config
  pure (layer.insert name ⟨spelling, .secret reference⟩)

/-- One row of `codec::load`. -/
def restore (r : Rules ν) (layer : Layer ν) (key : String) (row : Setting) : Except ClientError (Layer ν) := do
  demand (r.parse row.spelling = some key) .schema
  if row.secret then do
    demand (r.reference row.value) .config
    restoreSecret r layer row.spelling row.value
  else set r layer row.spelling (.plain row.value)

def restoreAll (r : Rules ν) : Layer ν → List (Sigma fun _ : String × String => Setting) → Except ClientError (Layer ν)
  | layer, [] => .ok layer
  | layer, e :: rest => do restoreAll r (← restore r layer e.1.2 e.2) rest

end Layer

inductive RetiredCredential
  | environment (reference : String)
  | ssh (reference : String)
  deriving DecidableEq, Repr

def RetiredCredential.reference : RetiredCredential → String
  | .environment id | .ssh id => id

namespace Store

-- ---------------------------------------------------------------------------
-- Settings
-- ---------------------------------------------------------------------------

variable {ν : Type} [DecidableEq ν]

def load (r : Rules ν) (s : Store) (server : String) : Except ClientError (Layer ν) :=
  Layer.restoreAll r ∅ (s.settings.entries.filter fun e => e.1.1 = server)

/-- Some server's settings refer to the credential. -/
def referenced (s : Store) (id : String) : Bool := s.settings.values.any fun row => row.secret && row.value = id

/-- Managed credentials that nothing refers to any more are retired. -/
def retireUnreferenced (s : Store) : Store :=
  { s with credentials := s.credentials.update fun id c =>
      if c.managed && c.state = .active && !s.referenced id then { c with state := .retired } else c }

def deleteSettings (s : Store) (server : String) : Store :=
  { s with settings :=
      ⟨s.settings.entries.filter fun e => e.1.1 ≠ server, s.settings.nodupKeys.sublist List.filter_sublist⟩ }

/-- One setting of `codec::save`. -/
def saveSetting (r : Rules ν) (s : Store) (server key : String) (setting : StoredSetting ν) : Except ClientError Store :=
  match setting.value with
  | .plain value =>
    .ok { s with settings := s.settings.insert (server, key) ⟨setting.spelling, false, r.visible value⟩ }
  | .secret reference =>
    match s.credentials.lookup reference with
    | some c =>
      if c.state = .retired then .error .credentials
      else .ok { s with
        credentials := s.credentials.insert reference { c with state := .active }
        settings := s.settings.insert (server, key) ⟨setting.spelling, true, reference⟩ }
    | none => .error .credentials

def saveSettings (r : Rules ν) (server : String) :
    Store → List (Sigma fun _ : String => StoredSetting ν) → Except ClientError Store
  | s, [] => .ok s
  | s, e :: rest => do saveSettings r server (← s.saveSetting r server e.1 e.2) rest

def save (r : Rules ν) (s : Store) (server : String) (layer : Layer ν) : Except ClientError Store := do
  let s ← saveSettings r server (s.deleteSettings server) layer.entries
  pure s.retireUnreferenced

def revision (s : Store) (server : String) : Except ClientError Nat :=
  if server ∈ s.connections then orError (s.revisions.lookup server) .notFound else .error .notFound

/-- `snapshot`: the revision and the settings, which must resolve. -/
def configSnapshot (r : Rules ν) (s : Store) (server : String) : Except ClientError (Nat × Layer ν) := do
  let revision ← s.revision server
  let layer ← s.load r server
  demand (r.resolve layer) .config
  pure (revision, layer)

def MAX_REVISION : Nat := 9223372036854775807

/-- The next revision, as long as there is one. -/
def advance (s : Store) (server : String) : Except ClientError Store :=
  match s.revisions.lookup server with
  | some n => if n < MAX_REVISION then .ok { s with revisions := s.revisions.insert server (n + 1) }
    else .error .revisionConflict
  | none => .error .revisionConflict

def replace (r : Rules ν) (s : Store) (server : String) (before after : Layer ν) : Except ClientError (Nat × Store) :=
  if before.same after then do
    let revision ← s.revision server
    pure (revision, s)
  else do
    demand (r.resolve after) .config
    let saved ← s.save r server after
    let saved ← saved.advance server
    let revision ← saved.revision server
    pure (revision, saved)

/-- A transaction: what fails leaves the store as it was. -/
def updateConfig (r : Rules ν) (s : Store) (server : String) (expected : Nat)
    (change : Layer ν → Except ClientError (Layer ν)) : Except ClientError (Nat × Store) := do
  let (revision, layer) ← s.configSnapshot r server
  demand (revision = expected) .revisionConflict
  let after ← change layer
  s.replace r server layer after

def setAll (r : Rules ν) : List (String × String) → Layer ν → Except ClientError (Layer ν)
  | [], layer => .ok layer
  | (key, value) :: rest, layer => do setAll r rest (← layer.set r key (.plain value))

def setManyConfig (r : Rules ν) (s : Store) (server : String) (changes : List (String × String)) (expected : Nat) :
    Except ClientError (Nat × Store) := s.updateConfig r server expected (setAll r changes)

def setConfig (r : Rules ν) (s : Store) (server key : String) (input : ConfigInput) (expected : Nat) :
    Except ClientError (Nat × Store) := s.updateConfig r server expected fun layer => layer.set r key input

def unsetConfig (r : Rules ν) (s : Store) (server key : String) (expected : Nat) : Except ClientError (Nat × Store) :=
  s.updateConfig r server expected fun layer => layer.unset r key

-- ---------------------------------------------------------------------------
-- Credentials of the environment
-- ---------------------------------------------------------------------------

def reserveCredential (s : Store) (id : String) : Store :=
  { s with credentials := s.credentials.insert id { created := s.now } }

def retireCredential (s : Store) (id : String) : Store :=
  { s with credentials := s.credentials.update fun k c =>
      if k = id && c.managed && c.state = .pending then { c with state := .retired } else c }

-- ---------------------------------------------------------------------------
-- Passwords
-- ---------------------------------------------------------------------------

def isActive (s : Store) (server id : String) : Bool :=
  (s.ssh.lookup id).any fun c => c.server = server && c.state = .active

def sshCredential (s : Store) (server : String) : Option String :=
  (s.ssh.entries.find? fun e => e.2.server = server && e.2.state = .active).map Sigma.fst

def reserveSshCredential (s : Store) (server id target : String) : Except ClientError Store :=
  if server ∈ s.connections then .ok { s with ssh := s.ssh.insert id { server, target, created := s.now } }
  else .error .notFound

/-- The rows that satisfy `p` are retired. -/
def retireSsh (s : Store) (p : String → SshCredential → Bool) : Store :=
  { s with ssh := s.ssh.update fun id c => if p id c then { c with state := .retired } else c }

def activateSshCredential (s : Store) (server : String) (expected : Option String) (next : String) :
    Except ClientError Store :=
  if s.sshCredential server ≠ expected then .error .revisionConflict
  else
    let s := s.retireSsh fun _ c => c.server = server && c.state = .active
    match s.ssh.lookup next with
    | some c =>
      if c.server = server && c.state = .pending && decide (server ∈ s.connections) then
        .ok { s with ssh := s.ssh.insert next { c with state := .active } }
      else .error .revisionConflict
    | none => .error .revisionConflict

def retireSshCredential (s : Store) (id : String) : Store := s.retireSsh fun k c => k = id && c.state = .pending

def forgetSshCredentials (s : Store) (server : String) : Store := s.retireSsh fun _ c => c.server = server

def sshCredentialTarget (s : Store) (server id : String) : Except ClientError String :=
  match s.ssh.lookup id with
  | some c => if c.server = server && c.state ≠ .retired then .ok c.target else .error .notFound
  | none => .error .notFound

-- ---------------------------------------------------------------------------
-- Servers and cleanup
-- ---------------------------------------------------------------------------

def saveConnection (s : Store) (id : String) : Store :=
  { s with connections := id :: s.connections, revisions := s.revisions.insert id 0 }

/-- The settings go with the row of the revision. -/
def removeServer (s : Store) (id : String) : Store :=
  retireUnreferenced { (s.forgetSshCredentials id).deleteSettings id with
    connections := s.connections.filter fun c => c ≠ id
    revisions := s.revisions.erase id }

/-- A day, in seconds. -/
def PENDING_TIMEOUT : Nat := 86400

/-- `created_at < unixepoch() - 86400`. -/
def stale (s : Store) (created : Nat) : Bool := created + PENDING_TIMEOUT < s.now

def retireStale (s : Store) : Store :=
  { s with
    credentials := s.credentials.update fun _ c =>
      if c.managed && c.state = .pending && s.stale c.created then { c with state := .retired } else c
    ssh := s.ssh.update fun _ c =>
      if c.state = .pending && s.stale c.created then { c with state := .retired } else c }

def hasCredentialCleanup (s : Store) : Bool :=
  (s.credentials.entries.any fun e => e.2.managed &&
    (e.2.state = .retired || (e.2.state = .pending && s.stale e.2.created)) && !s.referenced e.1) ||
  s.ssh.entries.any fun e => e.2.state = .retired || (e.2.state = .pending && s.stale e.2.created)

/-- The credentials to be deleted, after the stale ones are retired. -/
def retiredCredentials (s : Store) : List RetiredCredential :=
  (s.credentials.entries.filterMap fun e =>
      if e.2.managed && e.2.state = .retired && !s.referenced e.1 then some (.environment e.1) else none) ++
    s.ssh.entries.filterMap fun e => if e.2.state = .retired then some (.ssh e.1) else none

def forgetRetiredCredential (s : Store) : RetiredCredential → Store
  | .environment id =>
    if (s.credentials.lookup id).any fun c => c.managed && c.state = .retired then
      { s with credentials := s.credentials.erase id }
    else s
  | .ssh id =>
    if (s.ssh.lookup id).any fun c => c.state = .retired then { s with ssh := s.ssh.erase id } else s

end Store

end RemoteCodex.Credentials
