import RemoteCodex.Credentials.Revisions
import RemoteCodex.Remote.Settings
import RemoteCodex.Server.Accepted

/-!
# Synchronizing a configuration

The processes of one installation share its database and its vault. Each
synchronization takes a snapshot, reads one secret after another, sends the
configuration and acknowledges the answer; the service serves it, and other
installations, in its own time. A task ends by itself or is given up anywhere,
and its request may be lost, or arrive later.
-/

namespace RemoteCodex.Remote.Synchronize

open Interact Config Server Credentials

/-- A row of `server_access`. -/
structure Access where
  applied : Option Nat := none
  identity : Option String := none
  deriving DecidableEq

inductive Phase
  | attached
  | reading (revision : Nat) (todo : List (ConfigKey × Config.ConfigValue)) (values : Sorted String String)
  | waiting (revision : Nat) (values : Sorted String String)
  | answered (revision : Nat)
  | ended

/-- A call of `synchronize`; `identity` is the installation its remote is attached to. -/
structure Task where
  server : String
  identity : String
  phase : Phase := .attached

/-- A configuration on its way to the installation `identity`. -/
structure Sent where
  identity : String
  profile : String
  config : RemoteConfig

/-- `used` are the identities of servers that were ever drawn. -/
structure State where
  keyring : Keyring := {}
  used : List String := []
  access : Table String Access := ∅
  tasks : Table Nat Task := ∅
  sent : List Sent := []
  remotes : Table String Profiles.State := ∅

inductive TaskStep
  | snapshot
  | read
  | send
  | answer
  | acknowledge
  | cancel

inductive Event
  | keyring (e : KeyringEvent)
  | attach (n : Nat) (server identity : String)
  | task (n : Nat) (step : TaskStep)
  | arrive (i : Nat)
  | lose (i : Nat)
  | install (identity : String) (inherited : Sorted String String)
  | remote (identity : String) (e : Profiles.Event)

/-- The id of a profile: installation and server. -/
def profileOf (installation server : String) : String := installation ++ "/" ++ server

/-- A service's own step, or a call of another installation. -/
def foreign (installation : String) : Profiles.Event → Bool
  | .configure id _ => !startsWith (installation ++ "/") id
  | _ => true

namespace State

variable (parseUrl : ParseUrl) (installation : String)

def setTask (s : State) (n : Nat) (task : Task) (phase : Phase) : State :=
  { s with tasks := s.tasks.insert n { task with phase } }

/-- An identity is drawn once, and a server's access goes with the server. -/
def keyringNext (s : State) (e : KeyringEvent) : Option State :=
  match s.keyring.next (rules parseUrl) e with
  | none => none
  | some keyring =>
    match e with
    | .saveConnection server =>
      if server ∈ s.used then none else some { s with keyring, used := server :: s.used }
    | .removeServer server => some { s with keyring, access := s.access.erase server }
    | _ => some { s with keyring }

/-- The snapshot and its effective settings, without those a server is not told. -/
def snapshot (s : State) (server : String) : Option (Nat × List (ConfigKey × Config.ConfigValue)) :=
  match s.keyring.store.configSnapshot (rules parseUrl) server with
  | .error _ => none
  | .ok (revision, layer) =>
    match Config.resolve (clientLayer layer) with
    | .error _ => none
    | .ok effective => some (revision, sentEntries effective)

/-- `acknowledge_config`, the transaction. -/
def acknowledge (s : State) (task : Task) (revision : Nat) : State :=
  if task.server ∈ s.keyring.store.connections then
    let row := (s.access.lookup task.server).getD {}
    if row.identity.all (· = task.identity) then
      if row.applied.all (· ≤ revision) then
        { s with access := s.access.insert task.server ⟨some revision, some task.identity⟩ }
      else s
    else s
  else s

/-- What a step of task `n` makes of the state. -/
def taskNext (s : State) (n : Nat) (task : Task) : TaskStep → Option State
  | .snapshot =>
    match task.phase with
    | .attached =>
      match s.snapshot parseUrl task.server with
      | some (revision, todo) => some (s.setTask n task (.reading revision todo .empty))
      | none => some (s.setTask n task .ended)
    | _ => none
  | .read =>
    match task.phase with
    | .reading revision ((key, value) :: todo) values =>
      match rawValue s.keyring.vault.lookup value with
      | some raw => some (s.setTask n task (.reading revision todo (values.insert key.name raw)))
      | none => some (s.setTask n task .ended)
    | _ => none
  | .send =>
    match task.phase with
    | .reading revision [] values =>
      let sent := ⟨task.identity, profileOf installation task.server, ⟨values, revision⟩⟩ :: s.sent
      some ({ s with sent }.setTask n task (.waiting revision values))
    | _ => none
  | .answer =>
    -- The answer is that of a call with this configuration, which went through.
    match task.phase, s.remotes.lookup task.identity with
    | .waiting revision values, some remote =>
      if ⟨profileOf installation task.server, ⟨values, revision⟩, none⟩ ∈ remote.answered then
        some (s.setTask n task (.answered revision))
      else none
    | _, _ => none
  | .acknowledge =>
    match task.phase with
    | .answered revision => some ((s.acknowledge task revision).setTask n task .ended)
    | _ => none
  | .cancel => some (s.setTask n task .ended)

def remoteNext (s : State) (identity : String) (e : Profiles.Event) : Option State :=
  match s.remotes.lookup identity with
  | none => none
  | some remote => (remote.next parseUrl e).map fun remote => { s with remotes := s.remotes.insert identity remote }

def next (s : State) : Event → Option State
  | .keyring e => s.keyringNext parseUrl e
  | .attach n server identity =>
    match s.tasks.lookup n with
    | none => some (s.setTask n { server, identity } .attached)
    | some _ => none
  | .task n step => (s.tasks.lookup n).bind fun task => s.taskNext parseUrl installation n task step
  | .arrive i =>
    match s.sent[i]? with
    | some sent => { s with sent := s.sent.eraseIdx i }.remoteNext parseUrl sent.identity
        (.configure sent.profile sent.config)
    | none => none
  | .lose i => some { s with sent := s.sent.eraseIdx i }
  | .install identity inherited =>
    match s.remotes.lookup identity with
    | none => some { s with remotes := s.remotes.insert identity (.fresh inherited) }
    | some _ => none
  | .remote identity e => if foreign installation e then s.remoteNext parseUrl identity e else none

end State

end RemoteCodex.Remote.Synchronize
