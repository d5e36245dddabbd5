import Mathlib.Data.Prod.Lex
import RemoteCodex.Config.Value
import RemoteCodex.Interact.Sorted

/-!
# Settings of a server

A layer holds what was saved for one server, under the spelling it was first
saved with. With the defaults under it, it is the effective configuration.
-/

namespace RemoteCodex.Config

open Interact

/-- The place of a key in the order of the source: by kind, then by name. -/
def ConfigKey.rank : ConfigKey → ℕ ×ₗ String
  | .background => toLex (0, "")
  | .disconnectGraceSeconds => toLex (1, "")
  | .reconnectMaxAttempts => toLex (2, "")
  | .environment name => toLex (3, name.val)
  | .proxyMode => toLex (4, "")
  | .executionMode => toLex (5, "")
  | .sshHost => toLex (6, "")
  | .sshUser => toLex (7, "")
  | .sshPort => toLex (8, "")

theorem EnvironmentName.eq_of_val {x y : EnvironmentName} (h : x.val = y.val) : x = y := by
  cases x
  cases y
  subst h
  rfl

theorem ConfigKey.rank_injective : Function.Injective ConfigKey.rank := by
  intro a b h
  have hpair := toLex_inj.mp h
  cases a with
  | environment x =>
    cases b with
    | environment y => exact congrArg environment (EnvironmentName.eq_of_val (congrArg Prod.snd hpair))
    | _ => cases congrArg Prod.fst hpair
  | _ =>
    cases b with
    | environment y => cases congrArg Prod.fst hpair
    | _ => first | rfl | cases congrArg Prod.fst hpair

instance : LinearOrder ConfigKey :=
  let order := LinearOrder.lift' ConfigKey.rank ConfigKey.rank_injective
  { order with
    toDecidableEq := inferInstance
    compare_eq_compareOfLessAndEq := by
      intro a b
      rw [order.compare_eq_compareOfLessAndEq]
      congr }

structure StoredSetting where
  spelling : String
  value : ConfigValue
  deriving DecidableEq

abbrev ConfigLayer := Sorted ConfigKey StoredSetting

inductive ConfigInput
  | plain (raw : String)
  | secret (reference raw : String)
  deriving DecidableEq, Repr

namespace ConfigLayer

def writableKey (key : String) : Except ConfigError ConfigKey :=
  match ConfigKey.parse key with
  | .error e => .error e
  | .ok parsed => if parsed.writable then .ok parsed else .error .readOnlySetting

/-- The aliases of a proxy variable may not disagree. -/
def conflicts (layer : ConfigLayer) (parsed : ConfigKey) (key : String) (value : ConfigValue) : Bool :=
  match parsed with
  | .environment name =>
    name.isProxy && (layer.get parsed).any fun previous => previous.spelling ≠ key && previous.value ≠ value
  | _ => false

def set (parseUrl : ParseUrl) (layer : ConfigLayer) (key : String) (input : ConfigInput) :
    Except ConfigError ConfigLayer :=
  match writableKey key with
  | .error e => .error e
  | .ok parsed =>
    let (raw, reference) := match input with
      | .plain raw => (raw, none)
      | .secret reference raw => (raw, some reference)
    match parseValue parseUrl parsed raw with
    | .error e => .error e
    | .ok value =>
      if reference.isSome && !parsed.isEnvironment then .error .secretNotAllowed
      else if reference.isNone && requiresSecret parsed raw then .error .secretRequired
      else
        let value := (reference.map ConfigValue.secret).getD value
        if layer.conflicts parsed key value then .error .conflictingProxyAliases
        else .ok (layer.insert parsed ⟨((layer.get parsed).map StoredSetting.spelling).getD key, value⟩)

/-- `unset`: the layer without the key, and whether it was there. -/
def unset (layer : ConfigLayer) (key : String) : Except ConfigError (ConfigLayer × Bool) :=
  match writableKey key with
  | .error e => .error e
  | .ok parsed => .ok (layer.erase parsed, (layer.get parsed).isSome)

/-- `restore_secret`: a reference from storage, whose text is not read again. -/
def restoreSecret (layer : ConfigLayer) (spelling reference : String) : Except ConfigError ConfigLayer :=
  match writableKey spelling with
  | .error e => .error e
  | .ok key =>
    if !key.isEnvironment then .error .secretNotAllowed
    else if (layer.get key).isSome then .error .conflictingProxyAliases
    else .ok (layer.insert key ⟨spelling, .secret reference⟩)

end ConfigLayer

abbrev EffectiveConfig := Sorted ConfigKey ConfigValue

/-- The defaults, each under its key. -/
def defaults : EffectiveConfig :=
  DEFAULT_KEYS.foldl (fun config key => key.default.elim config fun v => config.insert key v) .empty

/-- The settings over the defaults. -/
def overlay (layer : ConfigLayer) : EffectiveConfig :=
  layer.entries.foldl (fun config e => config.insert e.1 e.2.value) defaults

def EffectiveConfig.mode (config : EffectiveConfig) : ProxyMode :=
  match config.get .proxyMode with
  | some (.proxyMode mode) => mode
  | _ => .direct

def ConfigKey.isProxyAddress : ConfigKey → Bool
  | .environment name => name.isProxyAddress
  | _ => false

/-- `resolve`: a custom proxy needs an address. -/
def resolve (server : ConfigLayer) : Except ConfigError EffectiveConfig :=
  let config := overlay server
  if config.mode = .custom && !config.entries.any (fun e => e.1.isProxyAddress) then .error .missingCustomProxy
  else .ok config

-- ---------------------------------------------------------------------------
-- What is effective
-- ---------------------------------------------------------------------------

theorem get_defaults (key : ConfigKey) : defaults.get key = key.default := by
  unfold defaults DEFAULT_KEYS
  simp only [List.foldl_cons, List.foldl_nil, ConfigKey.default, Option.elim_some, Sorted.get_insert, Sorted.get_empty]
  cases key <;> rfl

theorem get_overlay (layer : ConfigLayer) (key : ConfigKey) :
    (overlay layer).get key = ((layer.get key).map StoredSetting.value).or key.default := by
  unfold overlay
  rw [Sorted.get_foldl_insert StoredSetting.value layer.entries defaults key layer.keys_ascending, get_defaults]
  rfl

end RemoteCodex.Config
