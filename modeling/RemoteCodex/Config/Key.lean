import Mathlib.Algebra.Order.Ring.Int
import Mathlib.Data.String.Basic

/-!
# Configuration keys

What names a setting: the keys of the registry, and the environment variables
under `env.`. The aliases of a proxy variable are one key, written in lower case.
-/

namespace RemoteCodex.Config

inductive ConfigError
  | unknownKey
  | invalidEnvironmentName
  | reservedEnvironment
  | readOnlySetting
  | invalidValue (text : String)
  | secretRequired
  | secretNotAllowed
  | conflictingProxyAliases
  | missingCustomProxy
  deriving DecidableEq, Repr

/-- `to_ascii_lowercase`. -/
def lower (s : String) : String := String.ofList (s.toList.map Char.toLower)

/-- `to_ascii_uppercase`. -/
def upper (s : String) : String := String.ofList (s.toList.map Char.toUpper)

def startsWith (pre s : String) : Bool := pre.toList.isPrefixOf s.toList

def PROXY_NAMES : List String := ["http_proxy", "https_proxy", "all_proxy", "no_proxy"]

def RESERVED : List String :=
  ["CODEX_HOME", "OPENAI_API_KEY", "CODEX_API_KEY", "CODEX_ACCESS_TOKEN", "CODEX_AUTH_JSON", "HOME", "USER", "LOGNAME",
    "XDG_CONFIG_HOME", "XDG_DATA_HOME", "XDG_RUNTIME_DIR"]

/-- Letters, digits and underscores, no digit first, at most 128. -/
def wellFormed (name : String) : Bool :=
  match name.toList with
  | [] => false
  | c :: rest => (c.isAlpha || c = '_') && rest.all (fun c => c.isAlphanum || c = '_') && rest.length < 128

/-- `EnvironmentName::parse`: the name as it is kept. -/
def parseName (name : String) : Except ConfigError String :=
  if !wellFormed name then .error .invalidEnvironmentName
  else if startsWith "REMOTE_CODEX_" (upper name) || RESERVED.contains (upper name) then .error .reservedEnvironment
  else .ok (if PROXY_NAMES.contains (lower name) then lower name else name)

theorem parseName_proxy {name : String} (h : name ∈ PROXY_NAMES) : parseName name = .ok name := by
  simp only [PROXY_NAMES, List.mem_cons, List.not_mem_nil, or_false] at h
  rcases h with rfl | rfl | rfl | rfl <;> decide

/-- A name is kept as it is once it has been parsed. -/
theorem parseName_idem {name kept : String} (h : parseName name = .ok kept) : parseName kept = .ok kept := by
  have h' := h
  unfold parseName at h
  split at h
  · cases h
  · split at h
    · cases h
    · split at h
      · next hproxy =>
        cases h
        exact parseName_proxy (List.contains_iff_mem.mp hproxy)
      · cases h
        exact h'

/-- The name of an environment variable that may be set. -/
structure EnvironmentName where
  val : String
  kept : parseName val = .ok val
  deriving DecidableEq

namespace EnvironmentName

def parse (name : String) : Except ConfigError EnvironmentName :=
  match h : parseName name with
  | .ok kept => .ok ⟨kept, parseName_idem h⟩
  | .error e => .error e

def isProxy (name : EnvironmentName) : Bool := PROXY_NAMES.contains name.val

def isProxyAddress (name : EnvironmentName) : Bool := name.isProxy && name.val ≠ "no_proxy"

def isSensitive (name : EnvironmentName) : Bool :=
  ((upper name.val).splitOn "_").any (fun part =>
    part = "TOKEN" || part = "SECRET" || part = "PASSWORD" || part = "PASSWD" || part = "CREDENTIAL") ||
  "_KEY".toList.isSuffixOf (upper name.val).toList || upper name.val = "KEY"

theorem parse_val (name : EnvironmentName) : parse name.val = .ok name := by
  obtain ⟨val, kept⟩ := name
  unfold parse
  split
  · next got h =>
    obtain rfl : val = got := Except.ok.inj (kept.symm.trans h)
    rfl
  · next e h => cases kept.symm.trans h

end EnvironmentName

inductive ConfigKey
  | background
  | disconnectGraceSeconds
  | reconnectMaxAttempts
  | environment (name : EnvironmentName)
  | proxyMode
  | executionMode
  | sshHost
  | sshUser
  | sshPort
  deriving DecidableEq

namespace ConfigKey

def name : ConfigKey → String
  | background => "background"
  | disconnectGraceSeconds => "disconnect_grace_seconds"
  | reconnectMaxAttempts => "reconnect.max_attempts"
  | environment name => "env." ++ name.val
  | proxyMode => "proxy.mode"
  | executionMode => "execution.mode"
  | sshHost => "ssh.host"
  | sshUser => "ssh.user"
  | sshPort => "ssh.port"

/-- The keys that are no environment variables. -/
def REGISTRY : List ConfigKey :=
  [background, disconnectGraceSeconds, reconnectMaxAttempts, proxyMode, executionMode, sshHost, sshUser, sshPort]

def parse (key : String) : Except ConfigError ConfigKey :=
  match REGISTRY.find? fun k => k.name = key with
  | some k => .ok k
  | none =>
    if startsWith "env." key then (EnvironmentName.parse (String.ofList (key.toList.drop 4))).map environment
    else .error .unknownKey

theorem registry_no_environment {key : ConfigKey} (h : key ∈ REGISTRY) : startsWith "env." key.name = false := by
  simp only [REGISTRY, List.mem_cons, List.not_mem_nil, or_false] at h
  rcases h with rfl | rfl | rfl | rfl | rfl | rfl | rfl | rfl <;> decide

theorem startsWith_append (pre s : String) : startsWith pre (pre ++ s) = true := by
  unfold startsWith
  rw [String.toList_append, List.isPrefixOf_iff_prefix]
  exact List.prefix_append _ _

/-- A key is read back from its name. -/
theorem parse_name (key : ConfigKey) : parse key.name = .ok key := by
  cases key with
  | environment name =>
    have hnone : REGISTRY.find? (fun k => k.name = (environment name).name) = none := by
      refine List.find?_eq_none.mpr fun k hk heq => ?_
      have hno := registry_no_environment hk
      rw [of_decide_eq_true heq] at hno
      exact Bool.false_ne_true (hno.symm.trans (startsWith_append "env." name.val))
    have hdrop : (environment name).name.toList.drop 4 = name.val.toList := by
      show ("env." ++ name.val).toList.drop 4 = _
      rw [String.toList_append]
      rfl
    unfold parse
    rw [hnone]
    simp only
    rw [show (environment name).name = "env." ++ name.val from rfl, if_pos (startsWith_append _ _),
      show "env." ++ name.val = (environment name).name from rfl, hdrop, String.ofList_toList,
      EnvironmentName.parse_val]
    rfl
  | _ => decide

end ConfigKey

end RemoteCodex.Config
