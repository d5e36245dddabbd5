import RemoteCodex.Config.Key

/-!
# Configuration values

What a setting may be, by its key, and how it is read from text and shown as
text. The parser of addresses is a crate of its own; `Url` is what the source
reads of its result.
-/

namespace RemoteCodex.Config

inductive ProxyMode
  | inherit | custom | direct
  deriving DecidableEq, Repr

/-- A secret is the reference of a credential, never its text. -/
inductive ConfigValue
  | boolean (value : Bool)
  | integer (value : Nat)
  | text (value : String)
  | proxyMode (value : ProxyMode)
  | secret (reference : String)
  deriving DecidableEq, Repr

inductive ValueKind
  | boolean | graceSeconds | retryAttempts | executionMode | environment | proxyMode | identity
  deriving DecidableEq, Repr

structure Url where
  scheme : String
  host : Option String
  port : Option Nat
  path : String
  query : Option String
  fragment : Option String
  deriving DecidableEq, Repr

namespace ConfigKey

def kind : ConfigKey → ValueKind
  | background => .boolean
  | disconnectGraceSeconds => .graceSeconds
  | reconnectMaxAttempts => .retryAttempts
  | environment _ => .environment
  | proxyMode => .proxyMode
  | executionMode => .executionMode
  | sshHost => .identity
  | sshUser => .identity
  | sshPort => .identity

def default : ConfigKey → Option ConfigValue
  | background => some (.boolean true)
  | disconnectGraceSeconds => some (.integer 30)
  | reconnectMaxAttempts => some (.integer 10)
  | proxyMode => some (.proxyMode .direct)
  | executionMode => some (.text "sandboxed")
  | _ => none

def writable (key : ConfigKey) : Bool := key.kind ≠ .identity

def isEnvironment : ConfigKey → Bool
  | environment _ => true
  | _ => false

end ConfigKey

def DEFAULT_KEYS : List ConfigKey :=
  [.background, .disconnectGraceSeconds, .reconnectMaxAttempts, .proxyMode, .executionMode]

-- ---------------------------------------------------------------------------
-- Text
-- ---------------------------------------------------------------------------

/-- `char::is_whitespace`. -/
def isWhitespace (c : Char) : Bool :=
  let n := c.toNat
  (9 ≤ n && n ≤ 13) || n = 0x20 || n = 0x85 || n = 0xA0 || n = 0x1680 || (0x2000 ≤ n && n ≤ 0x200A) || n = 0x2028 ||
    n = 0x2029 || n = 0x202F || n = 0x205F || n = 0x3000

/-- `char::is_control`. -/
def isControl (c : Char) : Bool := c.toNat < 0x20 || (0x7F ≤ c.toNat && c.toNat ≤ 0x9F)

/-- `raw.parse::<u16>()` of a text of digits. -/
def parseU16 (raw : String) : Option Nat :=
  if raw.toList ≠ [] && raw.toList.all Char.isDigit then
    let n := Nat.ofDigitChars 10 raw.toList 0
    if n ≤ 65535 then some n else none
  else none

theorem parseU16_repr {n : Nat} (h : n ≤ 65535) : parseU16 n.repr = some n := by
  have hdigits : ∀ c ∈ Nat.toDigits 10 n, c.isDigit = true := fun c hc =>
    Nat.isDigit_of_mem_toDigits (by decide) (by decide) hc
  have hvalue : Nat.ofDigitChars 10 (Nat.toDigits 10 n) 0 = n := Nat.ofDigitChars_toDigits (by decide) (by decide)
  have hne : Nat.toDigits 10 n ≠ [] := Nat.toDigits_ne_nil
  unfold parseU16
  rw [Nat.toList_repr, hvalue, if_pos, if_pos h]
  rw [Bool.and_eq_true]
  exact ⟨decide_eq_true hne, List.all_eq_true.mpr hdigits⟩

/-- `str::len`, in bytes. -/
def byteLength (s : String) : Nat := (s.toList.map Char.utf8Size).sum

theorem byteLength_le (s : String) : byteLength s ≤ 4 * s.toList.length := by
  unfold byteLength
  induction s.toList with
  | nil => exact Nat.le_refl 0
  | cons c cs ih =>
    have := Char.utf8Size_le_four c
    rw [List.map_cons, List.sum_cons, List.length_cons]
    omega

-- ---------------------------------------------------------------------------
-- Reading and showing
-- ---------------------------------------------------------------------------

/-- What the crate makes of an address. -/
abbrev ParseUrl := String → Option Url

def invalidProxy : ConfigError :=
  .invalidValue "expected an HTTP(S) or SOCKS5 proxy URL without path, query or fragment"

def validateProxy (parseUrl : ParseUrl) (raw : String) : Except ConfigError Unit :=
  if raw.toList.any (fun c => isWhitespace c || isControl c || c = '\\') || (raw.splitOn "://").length ≤ 1 then
    .error invalidProxy
  else
    match parseUrl raw with
    | none => .error invalidProxy
    | some url =>
      if !(["http", "https", "socks5", "socks5h"].contains url.scheme) || url.host.isNone || url.port = some 0 ||
          !(["", "/"].contains url.path) || url.query.isSome || url.fragment.isSome then
        .error invalidProxy
      else .ok ()

def MAX_VALUE : Nat := 32 * 1024

/-- `parse_value`. -/
def parseValue (parseUrl : ParseUrl) (key : ConfigKey) (raw : String) : Except ConfigError ConfigValue :=
  if byteLength raw > MAX_VALUE || raw.toList.contains '\x00' then .error (.invalidValue "NUL or value over 32 KiB")
  else
    match key with
    | .background =>
      if raw = "true" then .ok (.boolean true)
      else if raw = "false" then .ok (.boolean false)
      else .error (.invalidValue "expected true or false")
    | .disconnectGraceSeconds =>
      match (parseU16 raw).filter (· ≤ 3600) with
      | some n => .ok (.integer n)
      | none => .error (.invalidValue "expected integer from 0 to 3600")
    | .reconnectMaxAttempts =>
      match (parseU16 raw).filter (0 < ·) with
      | some n => .ok (.integer n)
      | none => .error (.invalidValue "expected integer from 1 to 65535")
    | .executionMode =>
      if raw = "sandboxed" ∨ raw = "unrestricted" then .ok (.text raw)
      else .error (.invalidValue "expected sandboxed or unrestricted")
    | .environment name =>
      match if name.isProxyAddress then validateProxy parseUrl raw else .ok () with
      | .error e => .error e
      | .ok () =>
        if name.isProxy && raw.toList.any isControl then .error (.invalidValue "control character in proxy setting")
        else .ok (.text raw)
    | .proxyMode =>
      if raw = "inherit" then .ok (.proxyMode .inherit)
      else if raw = "custom" then .ok (.proxyMode .custom)
      else if raw = "direct" then .ok (.proxyMode .direct)
      else .error (.invalidValue "expected inherit, custom or direct")
    | _ => .error .readOnlySetting

/-- An address that names a user, or a variable whose name says it is a secret. -/
def requiresSecret (key : ConfigKey) (raw : String) : Bool :=
  match key with
  | .environment name =>
    name.isSensitive || (name.isProxyAddress &&
      (((raw.splitOn "://")[1]?).bind fun rest => (rest.splitOn "/").head?).any fun authority =>
        authority.toList.contains '@')
  | _ => false

def ProxyMode.name : ProxyMode → String
  | .inherit => "inherit"
  | .custom => "custom"
  | .direct => "direct"

/-- A value as text: what `visible` shows, without quotes. -/
def ConfigValue.shown : ConfigValue → Option String
  | .boolean b => some (if b then "true" else "false")
  | .integer n => some n.repr
  | .text s => some s
  | .proxyMode mode => some mode.name
  | .secret _ => none

/-- The value belongs under the key: it is what some text of the key is read as. -/
def Proper (parseUrl : ParseUrl) (key : ConfigKey) (v : ConfigValue) : Prop :=
  ∃ raw, parseValue parseUrl key raw = .ok v

variable {parseUrl : ParseUrl} {key : ConfigKey} {raw : String} {v : ConfigValue}

theorem repr_plain {n : Nat} (h : n ≤ 65535) :
    (byteLength n.repr > MAX_VALUE || n.repr.toList.contains '\x00') = false := by
  have hlength : n.repr.toList.length ≤ 5 := by
    rw [String.length_toList]
    exact (Nat.length_repr_le_iff (by decide)).mpr (by omega)
  have hbytes := byteLength_le n.repr
  have hnul : '\x00' ∉ n.repr.toList := by
    intro hin
    rw [Nat.toList_repr] at hin
    exact absurd (Nat.isDigit_of_mem_toDigits (by decide) (by decide) hin) (by decide)
  rw [Bool.or_eq_false_iff]
  constructor
  · have : ¬ byteLength n.repr > MAX_VALUE := by
      unfold MAX_VALUE
      omega
    exact decide_eq_false this
  · exact Bool.eq_false_iff.mpr fun h => hnul (List.contains_iff_mem.mp h)

theorem parseU16_le {n : Nat} (h : parseU16 raw = some n) : n ≤ 65535 := by
  unfold parseU16 at h
  split at h
  · simp only at h
    split at h
    · next hle => exact Option.some.inj h ▸ hle
    · cases h
  · cases h

theorem parseValue_environment {name : EnvironmentName} (h : parseValue parseUrl (.environment name) raw = .ok v) :
    ∃ text, v = .text text := by
  unfold parseValue at h
  split at h
  · cases h
  · simp only at h
    split at h
    · cases h
    · split at h
      · cases h
      · exact ⟨raw, (Except.ok.inj h).symm⟩

/-- The text of a plain value is read as this value. -/
theorem parseValue_shown (hv : Proper parseUrl key v) :
    ∃ raw, v.shown = some raw ∧ parseValue parseUrl key raw = .ok v := by
  obtain ⟨raw, hraw⟩ := hv
  have hraw' := hraw
  unfold parseValue at hraw
  split at hraw
  · cases hraw
  · next hplain =>
    cases key with
    | background =>
      simp only at hraw
      split at hraw
      · cases hraw
        exact ⟨"true", rfl, rfl⟩
      · split at hraw
        · cases hraw
          exact ⟨"false", rfl, rfl⟩
        · cases hraw
    | disconnectGraceSeconds =>
      simp only at hraw
      split at hraw
      · next n hn =>
        cases hraw
        obtain ⟨hn, hle⟩ := Option.filter_eq_some_iff.mp hn
        have hmax := parseU16_le hn
        refine ⟨n.repr, rfl, ?_⟩
        unfold parseValue
        simp only [repr_plain hmax, parseU16_repr hmax, Option.filter_some, hle]
        rfl
      · cases hraw
    | reconnectMaxAttempts =>
      simp only at hraw
      split at hraw
      · next n hn =>
        cases hraw
        obtain ⟨hn, hpos⟩ := Option.filter_eq_some_iff.mp hn
        have hmax := parseU16_le hn
        refine ⟨n.repr, rfl, ?_⟩
        unfold parseValue
        simp only [repr_plain hmax, parseU16_repr hmax, Option.filter_some, hpos]
        rfl
      · cases hraw
    | executionMode =>
      simp only at hraw
      split at hraw
      · cases hraw
        exact ⟨raw, rfl, hraw'⟩
      · cases hraw
    | environment name =>
      have htext : v = .text raw := by
        simp only at hraw
        split at hraw
        · cases hraw
        · split at hraw
          · cases hraw
          · exact (Except.ok.inj hraw).symm
      subst htext
      exact ⟨raw, rfl, hraw'⟩
    | proxyMode =>
      simp only at hraw
      split at hraw
      · cases hraw
        exact ⟨"inherit", rfl, rfl⟩
      · split at hraw
        · cases hraw
          exact ⟨"custom", rfl, rfl⟩
        · split at hraw
          · cases hraw
            exact ⟨"direct", rfl, rfl⟩
          · cases hraw
    | _ => cases hraw

end RemoteCodex.Config
