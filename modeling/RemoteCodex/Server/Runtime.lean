import RemoteCodex.Config.Environment
import RemoteCodex.Transfer.Protocol

/-!
# The runtime of a configuration

What the service makes of a configuration that a client sends: the environment
of an executor and the policies of its channels.
-/

namespace RemoteCodex.Server

open Interact Config

structure RemoteConfig where
  values : Sorted String String
  revision : Int
  deriving DecidableEq

structure Runtime where
  config : RemoteConfig
  env : Sorted String String
  background : Bool
  grace : Nat
  unrestricted : Bool
  deriving DecidableEq

/-- An error of the configuration as the service reports it. -/
def checked (result : Except ConfigError α) (code message : String) : Except Transfer.Fault α :=
  match result with
  | .ok a => .ok a
  | .error _ => .error (Transfer.fault code message)

/-- The loop over the values. The reference of a variable is a fresh identity in
the source, which does not leave the function; it is the variable's key here. -/
def loadValues (parseUrl : ParseUrl) :
    ConfigLayer → Sorted String String → List (String × String) →
      Except Transfer.Fault (ConfigLayer × Sorted String String)
  | layer, secrets, [] => .ok (layer, secrets)
  | layer, secrets, (key, value) :: rest =>
    if startsWith "env." key then
      match checked (layer.set parseUrl key (.secret key value)) "INVALID_CONFIG" "invalid remote environment setting" with
      | .error fault => .error fault
      | .ok layer => loadValues parseUrl layer (secrets.insert key value) rest
    else
      match checked (layer.set parseUrl key (.plain value)) "INVALID_CONFIG" "invalid remote configuration" with
      | .error fault => .error fault
      | .ok layer => loadValues parseUrl layer secrets rest

/-- The value of a variable of the plan. -/
def variableValue (secrets : Sorted String String) : ConfigValue → Except Transfer.Fault String
  | .text text => .ok text
  | .secret reference =>
    match secrets.get reference with
    | some value => .ok value
    | none => .error (Transfer.fault "INVALID_CONFIG" "unresolved remote credential")
  | _ => .error (Transfer.fault "INVALID_CONFIG" "invalid process environment value")

def loadEnvironment (secrets : Sorted String String) :
    Sorted String String → List (String × ConfigValue) → Except Transfer.Fault (Sorted String String)
  | env, [] => .ok env
  | env, (name, value) :: rest =>
    match variableValue secrets value with
    | .error fault => .error fault
    | .ok value => loadEnvironment secrets (env.insert name value) rest

def backgroundOf (config : EffectiveConfig) : Bool := config.get .background = some (.boolean true)

def graceOf (config : EffectiveConfig) : Nat :=
  match config.get .disconnectGraceSeconds with
  | some (.integer n) => n
  | _ => 30

def unrestrictedOf (config : EffectiveConfig) : Bool := config.get .executionMode = some (.text "unrestricted")

/-- `Runtime::load`; `inherited` is the environment of the service's process. -/
def Runtime.load (parseUrl : ParseUrl) (inherited : Sorted String String) (config : RemoteConfig) :
    Except Transfer.Fault Runtime :=
  match loadValues parseUrl .empty .empty config.values.entries with
  | .error fault => .error fault
  | .ok (layer, secrets) =>
    match checked (resolve layer) "INVALID_CONFIG" "invalid effective configuration" with
    | .error fault => .error fault
    | .ok effective =>
      match checked (planEnvironment parseUrl effective inherited) "INVALID_PROXY"
          "invalid or conflicting remote proxy settings" with
      | .error fault => .error fault
      | .ok plan =>
        match loadEnvironment secrets .empty plan.set.entries with
        | .error fault => .error fault
        | .ok env =>
          .ok { config, env, background := backgroundOf effective, grace := graceOf effective,
                unrestricted := unrestrictedOf effective }

/-- What the supervisor of a channel watches. -/
structure LiveSettings where
  background : Bool
  grace : Nat
  deriving DecidableEq, Repr

def Runtime.settings (runtime : Runtime) : LiveSettings := ⟨runtime.background, runtime.grace⟩

end RemoteCodex.Server
