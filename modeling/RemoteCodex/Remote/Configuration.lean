import RemoteCodex.Server.Runtime

/-!
# The configuration a server is given

The client sends its effective settings as text, a secret as its value. The
service reads them as a layer of its own, in which every variable is a secret,
with the defaults under it again. Both plan the same environment.
-/

namespace RemoteCodex.Remote

open Interact Config Server

/-- The text of an effective setting; `read` is the vault. -/
def rawValue (read : String → Option String) : ConfigValue → Option String
  | .secret reference => read reference
  | value => value.shown

/-- The settings a server is told. -/
def sentEntries (effective : EffectiveConfig) : List (ConfigKey × ConfigValue) :=
  effective.entries.filter fun e => e.1 ≠ .reconnectMaxAttempts

/-- The names of the service's own environment that an executor keeps. -/
def BASE_NAMES : List String := ["PATH", "HOME", "USER", "LOGNAME", "SHELL", "LANG", "TMPDIR"]

def keepName (inherited env : Sorted String String) (name : String) : Sorted String String :=
  match inherited.get name with
  | some value => env.insert name value
  | none => env

def baseEnvironment (inherited : Sorted String String) : Sorted String String :=
  BASE_NAMES.foldl (keepName inherited) .empty

/-- The environment of `Executor::start`. -/
def executorEnvironment (inherited env : Sorted String String) (home : String) : Sorted String String :=
  (env.entries.foldl (fun all e => all.insert e.1 e.2) (baseEnvironment inherited)).insert "CODEX_HOME" home

-- ---------------------------------------------------------------------------
-- Text in the place of values
-- ---------------------------------------------------------------------------

/-- The text stands for the value; `vaulted` is what the vault has for a reference. -/
def Replaced (vaulted : String → String → Prop) : ConfigValue → String → Prop
  | .secret reference, raw => vaulted reference raw
  | value, raw => value.shown = some raw

/-- The values of a configuration are those of the settings. -/
structure Resolves (vaulted : String → String → Prop) (es : List (ConfigKey × ConfigValue))
    (values : Sorted String String) : Prop where
  given : ∀ e ∈ es, ∃ raw, values.get e.1.name = some raw ∧ Replaced vaulted e.2 raw
  named : ∀ name raw, values.get name = some raw → ∃ e ∈ es, e.1.name = name

variable {vaulted later : String → String → Prop} {es : List (ConfigKey × ConfigValue)}
  {values values' : Sorted String String}

theorem name_injective : Function.Injective ConfigKey.name := by
  intro a b h
  have hparse := ConfigKey.parse_name a
  rw [h, ConfigKey.parse_name b] at hparse
  exact (Except.ok.inj hparse).symm

theorem replaced_rawValue {read : String → Option String} {v : ConfigValue} {raw : String}
    (h : rawValue read v = some raw) (hread : ∀ reference, read reference = some raw → vaulted reference raw) :
    Replaced vaulted v raw := by
  cases v with
  | secret reference => exact hread reference h
  | _ => exact h

theorem Replaced.mono {v : ConfigValue} {raw : String} (h : Replaced vaulted v raw)
    (hsub : ∀ reference raw, vaulted reference raw → later reference raw) : Replaced later v raw := by
  cases v with
  | secret reference => exact hsub _ _ h
  | _ => exact h

theorem Replaced.unique {v : ConfigValue} {a b : String} (ha : Replaced vaulted v a) (hb : Replaced vaulted v b)
    (hvault : ∀ reference a b, vaulted reference a → vaulted reference b → a = b) : a = b := by
  cases v with
  | secret reference => exact hvault _ _ _ ha hb
  | _ => exact Option.some.inj (ha.symm.trans hb)

theorem Resolves.empty : Resolves vaulted [] .empty where
  given := by simp
  named := by simp

theorem Resolves.mono (h : Resolves vaulted es values)
    (hsub : ∀ reference raw, vaulted reference raw → later reference raw) : Resolves later es values where
  given e he := by
    obtain ⟨raw, hraw, hreplaced⟩ := h.given e he
    exact ⟨raw, hraw, hreplaced.mono hsub⟩
  named := h.named

/-- One more setting is read. -/
theorem Resolves.insert (h : Resolves vaulted es values) {key : ConfigKey} {v : ConfigValue} {raw : String}
    (hnew : ∀ e ∈ es, e.1 ≠ key) (hraw : Replaced vaulted v raw) :
    Resolves vaulted (es ++ [(key, v)]) (values.insert key.name raw) where
  given := by
    intro e he
    rcases List.mem_append.mp he with he | he
    · obtain ⟨old, hold, hreplaced⟩ := h.given e he
      refine ⟨old, ?_, hreplaced⟩
      rw [Sorted.get_insert, if_neg]
      · exact hold
      · exact fun heq => hnew e he (name_injective heq)
    · obtain rfl := List.mem_singleton.mp he
      exact ⟨raw, by rw [Sorted.get_insert, if_pos rfl], hraw⟩
  named := by
    intro name text hget
    rw [Sorted.get_insert] at hget
    split at hget
    · next heq => exact ⟨(key, v), by simp, heq.symm⟩
    · obtain ⟨e, he, hname⟩ := h.named name text hget
      exact ⟨e, List.mem_append_left _ he, hname⟩

/-- The settings and the vault leave nothing open. -/
theorem Resolves.unique (h : Resolves vaulted es values) (h' : Resolves vaulted es values')
    (hvault : ∀ reference a b, vaulted reference a → vaulted reference b → a = b) : values = values' := by
  have hone : ∀ {m m' : Sorted String String}, Resolves vaulted es m → Resolves vaulted es m' →
      ∀ name raw, m.get name = some raw → m'.get name = some raw := by
    intro m m' hm hm' name raw hget
    obtain ⟨e, he, rfl⟩ := hm.named name raw hget
    obtain ⟨a, ha, hra⟩ := hm.given e he
    obtain ⟨b, hb, hrb⟩ := hm'.given e he
    rw [hb, ← hra.unique hrb hvault, ← ha, hget]
  apply Sorted.ext_get
  intro name
  cases hl : values.get name with
  | some raw => exact (hone h h' name raw hl).symm
  | none =>
    cases hr : values'.get name with
    | none => rfl
    | some raw => exact hl.symm.trans (hone h' h name raw hr)

-- ---------------------------------------------------------------------------
-- The layer of the service
-- ---------------------------------------------------------------------------

variable {parseUrl : ParseUrl} {layer layer' : ConfigLayer} {secrets secrets' : Sorted String String}
  {effective : EffectiveConfig}

theorem startsWith_name (key : ConfigKey) : startsWith "env." key.name = key.isEnvironment := by
  cases key with
  | environment name => exact ConfigKey.startsWith_append "env." name.val
  | _ => decide

/-- What the service keeps for a setting whose text is read as `v`. -/
def kept (key : ConfigKey) (v : ConfigValue) : ConfigValue := if key.isEnvironment then .secret key.name else v

def inputText : ConfigInput → String
  | .plain raw => raw
  | .secret _ raw => raw

def inputValue (v : ConfigValue) : ConfigInput → ConfigValue
  | .plain _ => v
  | .secret reference _ => .secret reference

theorem set_name {key : ConfigKey} {input : ConfigInput} (hfresh : layer.get key = none)
    (h : layer.set parseUrl key.name input = .ok layer') :
    ∃ v, parseValue parseUrl key (inputText input) = .ok v ∧
      layer' = layer.insert key ⟨key.name, inputValue v input⟩ := by
  unfold ConfigLayer.set ConfigLayer.writableKey at h
  rw [ConfigKey.parse_name] at h
  simp only at h
  split at h
  · cases h
  · next parsed hparsed =>
    split at hparsed
    · obtain rfl := Except.ok.inj hparsed
      rw [hfresh] at h
      cases input with
      | plain raw =>
        simp only at h
        split at h
        · cases h
        · next v hv =>
          repeat' (split at h; · cases h)
          exact ⟨v, hv, (Except.ok.inj h).symm⟩
      | secret reference raw =>
        simp only at h
        split at h
        · cases h
        · next v hv =>
          repeat' (split at h; · cases h)
          exact ⟨v, hv, (Except.ok.inj h).symm⟩
    · cases hparsed

theorem loadValues_cons {key : ConfigKey} {raw : String} {rest : List (String × String)} (hfresh : layer.get key = none)
    (h : loadValues parseUrl layer secrets ((key.name, raw) :: rest) = .ok (layer', secrets')) :
    ∃ v, parseValue parseUrl key raw = .ok v ∧
      loadValues parseUrl (layer.insert key ⟨key.name, kept key v⟩)
        (if key.isEnvironment then secrets.insert key.name raw else secrets) rest = .ok (layer', secrets') := by
  unfold loadValues checked at h
  rw [startsWith_name] at h
  unfold kept
  cases hkind : key.isEnvironment with
  | true =>
    simp only [hkind, if_true] at h ⊢
    split at h
    · cases h
    · next next hset =>
      split at hset
      · next got hgot =>
        obtain rfl := Except.ok.inj hset
        obtain ⟨v, hv, rfl⟩ := set_name hfresh hgot
        exact ⟨v, hv, h⟩
      · cases hset
  | false =>
    simp only [hkind, Bool.false_eq_true, if_false] at h ⊢
    split at h
    · cases h
    · next next hset =>
      split at hset
      · next got hgot =>
        obtain rfl := Except.ok.inj hset
        obtain ⟨v, hv, rfl⟩ := set_name hfresh hgot
        exact ⟨v, hv, h⟩
      · cases hset

/-- What the service has read. -/
structure Loaded (parseUrl : ParseUrl) (entries : List (String × String)) (layer layer' : ConfigLayer)
    (secrets secrets' : Sorted String String) : Prop where
  settings : ∀ (key : ConfigKey) (raw : String), (key.name, raw) ∈ entries →
    ∃ v, parseValue parseUrl key raw = .ok v ∧ layer'.get key = some ⟨key.name, kept key v⟩
  credentials : ∀ (key : ConfigKey) (raw : String), (key.name, raw) ∈ entries → key.isEnvironment = true →
    secrets'.get key.name = some raw
  others : ∀ key : ConfigKey, key.name ∉ entries.map Prod.fst → layer'.get key = layer.get key
  names : ∀ name, name ∉ entries.map Prod.fst → secrets'.get name = secrets.get name

theorem loadValues_ok {entries : List (String × String)} (hnames : ∀ e ∈ entries, ∃ key : ConfigKey, key.name = e.1)
    (hdistinct : (entries.map Prod.fst).Nodup)
    (hfresh : ∀ key : ConfigKey, key.name ∈ entries.map Prod.fst → layer.get key = none)
    (h : loadValues parseUrl layer secrets entries = .ok (layer', secrets')) :
    Loaded parseUrl entries layer layer' secrets secrets' := by
  induction entries generalizing layer secrets with
  | nil =>
    cases h
    exact ⟨by simp, by simp, fun _ _ => rfl, fun _ _ => rfl⟩
  | cons e rest ih =>
    obtain ⟨name, raw⟩ := e
    obtain ⟨key, hkey⟩ := hnames _ List.mem_cons_self
    obtain rfl : key.name = name := hkey
    obtain ⟨hnot, hdistinct⟩ := List.nodup_cons.mp hdistinct
    obtain ⟨v, hv, hrest⟩ := loadValues_cons (hfresh key (by simp)) h
    have hloaded := ih (fun e he => hnames e (List.mem_cons_of_mem _ he)) hdistinct ?_ hrest
    · constructor
      · intro k text hin
        rcases List.mem_cons.mp hin with heq | hin
        · obtain ⟨hname, rfl⟩ := Prod.mk.inj heq
          obtain rfl := name_injective hname
          refine ⟨v, hv, ?_⟩
          rw [hloaded.others k hnot, Sorted.get_insert, if_pos rfl]
        · exact hloaded.settings k text hin
      · intro k text hin hkind
        rcases List.mem_cons.mp hin with heq | hin
        · obtain ⟨hname, rfl⟩ := Prod.mk.inj heq
          obtain rfl := name_injective hname
          rw [hloaded.names k.name hnot, if_pos hkind, Sorted.get_insert, if_pos rfl]
        · exact hloaded.credentials k text hin hkind
      · intro k hk
        rw [List.map_cons, List.mem_cons, not_or] at hk
        rw [hloaded.others k hk.2, Sorted.get_insert, if_neg]
        exact fun heq => hk.1 (congrArg ConfigKey.name heq)
      · intro other hother
        rw [List.map_cons, List.mem_cons, not_or] at hother
        rw [hloaded.names other hother.2]
        split
        · rw [Sorted.get_insert, if_neg hother.1]
        · rfl
    · intro k hk
      rw [Sorted.get_insert, if_neg]
      · exact hfresh k (List.mem_cons_of_mem _ hk)
      · rintro rfl
        exact hnot hk

-- ---------------------------------------------------------------------------
-- The two effective configurations
-- ---------------------------------------------------------------------------

/-- A setting is what its text is read as, or the reference of a credential. -/
def ProperLayer (parseUrl : ParseUrl) (layer : ConfigLayer) : Prop :=
  ∀ key setting, layer.get key = some setting → Proper parseUrl key setting.value ∨
    (key.isEnvironment = true ∧ ∃ reference, setting.value = .secret reference)

/-- The service's value of a variable has the text of the client's. -/
def SameText (vaulted : String → String → Prop) (secrets : Sorted String String) (v w : ConfigValue) : Prop :=
  ∃ raw, Replaced vaulted v raw ∧ variableValue secrets w = .ok raw

theorem mem_sentEntries {key : ConfigKey} {v : ConfigValue} :
    (key, v) ∈ sentEntries effective ↔ effective.get key = some v ∧ key ≠ .reconnectMaxAttempts := by
  unfold sentEntries
  rw [List.mem_filter, Sorted.get_eq_some]
  simp

theorem proper_default {key : ConfigKey} {v : ConfigValue} (h : key.default = some v) : Proper parseUrl key v := by
  cases key with
  | background =>
    cases h
    exact ⟨"true", rfl⟩
  | disconnectGraceSeconds =>
    cases h
    exact ⟨"30", rfl⟩
  | reconnectMaxAttempts =>
    cases h
    exact ⟨"10", rfl⟩
  | proxyMode =>
    cases h
    exact ⟨"direct", rfl⟩
  | executionMode =>
    cases h
    exact ⟨"sandboxed", rfl⟩
  | _ => cases h

theorem proper_overlay (hlayer : ProperLayer parseUrl layer) {key : ConfigKey} {v : ConfigValue}
    (h : (overlay layer).get key = some v) : Proper parseUrl key v ∨
      (key.isEnvironment = true ∧ ∃ reference, v = .secret reference) := by
  rw [get_overlay] at h
  rcases Option.or_eq_some_iff.mp h with h | ⟨-, h⟩
  · obtain ⟨setting, hget, rfl⟩ := Option.map_eq_some_iff.mp h
    exact hlayer key setting hget
  · exact .inl (proper_default h)

section Alike

variable (hres : Resolves vaulted (sentEntries (overlay layer)) values) (hlayer : ProperLayer parseUrl layer)
  (hloaded : Loaded parseUrl values.entries .empty layer' .empty secrets)

include hres

theorem values_none {key : ConfigKey} (h : (overlay layer).get key = none) : key.name ∉ values.entries.map Prod.fst := by
  rw [← Sorted.get_isSome, Option.isSome_iff_exists]
  rintro ⟨raw, hget⟩
  obtain ⟨e, he, hname⟩ := hres.named _ raw hget
  obtain rfl := name_injective hname
  rw [(mem_sentEntries.mp he).1] at h
  cases h

include hloaded

theorem overlay_none {key : ConfigKey} (h : (overlay layer).get key = none) : (overlay layer').get key = none := by
  rw [get_overlay, hloaded.others key (values_none hres h)]
  rw [get_overlay, Option.or_eq_none_iff] at h
  exact h.2

include hlayer

/-- A setting that is no variable is the same on both sides. -/
theorem overlay_plain {key : ConfigKey} (hkind : key.isEnvironment = false) (hsent : key ≠ .reconnectMaxAttempts) :
    (overlay layer').get key = (overlay layer).get key := by
  cases h : (overlay layer).get key with
  | none => exact overlay_none hres hloaded h
  | some v =>
    obtain ⟨raw, hraw, hreplaced⟩ := hres.given (key, v) (mem_sentEntries.mpr ⟨h, hsent⟩)
    obtain ⟨w, hw, hget⟩ := hloaded.settings key raw (Sorted.get_eq_some.mp hraw)
    rcases proper_overlay hlayer h with hproper | ⟨henv, -⟩
    · obtain ⟨text, hshown, hparse⟩ := parseValue_shown hproper
      obtain rfl : text = raw := by
        cases v with
        | secret reference => cases hshown
        | _ => exact Option.some.inj (hshown.symm.trans hreplaced)
      obtain rfl := Except.ok.inj (hparse.symm.trans hw)
      rw [get_overlay, hget]
      simp [kept, hkind]
    · rw [hkind] at henv
      cases henv

omit hlayer in
theorem overlay_variable (name : EnvironmentName) :
    Option.Rel (SameText vaulted secrets) ((overlay layer).get (.environment name))
      ((overlay layer').get (.environment name)) := by
  cases h : (overlay layer).get (.environment name) with
  | none =>
    rw [overlay_none hres hloaded h]
    exact .none
  | some v =>
    obtain ⟨raw, hraw, hreplaced⟩ := hres.given (.environment name, v) (mem_sentEntries.mpr ⟨h, nofun⟩)
    obtain ⟨w, -, hget⟩ := hloaded.settings (.environment name) raw (Sorted.get_eq_some.mp hraw)
    have hsecret := hloaded.credentials (.environment name) raw (Sorted.get_eq_some.mp hraw) rfl
    rw [get_overlay, hget]
    refine .some ⟨raw, hreplaced, ?_⟩
    show variableValue secrets (.secret (ConfigKey.environment name).name) = _
    rw [variableValue, hsecret]

theorem overlay_isSome (key : ConfigKey) : ((overlay layer).get key).isSome = ((overlay layer').get key).isSome := by
  by_cases hsent : key = .reconnectMaxAttempts
  · subst hsent
    rw [get_overlay, get_overlay]
    simp [ConfigKey.default]
  · cases hkind : key.isEnvironment with
    | false => rw [overlay_plain hres hlayer hloaded hkind hsent]
    | true =>
      cases key with
      | environment name =>
        have hrel := overlay_variable hres hloaded name
        generalize (overlay layer).get (.environment name) = a at hrel ⊢
        generalize (overlay layer').get (.environment name) = b at hrel ⊢
        cases hrel with
        | none => rfl
        | some => rfl
      | _ => cases hkind

theorem resolve_alike {config : EffectiveConfig} (h : Config.resolve layer = .ok config) :
    config = overlay layer ∧ (overlay layer').mode = (overlay layer).mode ∧
      Config.resolve layer' = .ok (overlay layer') := by
  have hmode : (overlay layer').mode = (overlay layer).mode := by
    have hproxy : (overlay layer').get .proxyMode = (overlay layer).get .proxyMode :=
      overlay_plain hres hlayer hloaded rfl nofun
    unfold EffectiveConfig.mode
    rw [hproxy]
  have hkeys : (overlay layer').entries.map Prod.fst = (overlay layer).entries.map Prod.fst :=
    Sorted.keys_eq fun key => by rw [overlay_isSome hres hlayer hloaded key]
  have hany : (overlay layer').entries.any (fun e => e.1.isProxyAddress) =
      (overlay layer).entries.any (fun e => e.1.isProxyAddress) := by
    have hmap : ∀ l : List (ConfigKey × ConfigValue),
        l.any (fun e => e.1.isProxyAddress) = (l.map Prod.fst).any ConfigKey.isProxyAddress := fun l => by
      rw [List.any_map]
      rfl
    rw [hmap, hmap, hkeys]
  unfold Config.resolve at h ⊢
  simp only at h ⊢
  rw [hmode, hany]
  split at h
  · cases h
  · next hok => exact ⟨(Except.ok.inj h).symm, rfl, if_neg hok⟩

end Alike

-- ---------------------------------------------------------------------------
-- The environment of an executor
-- ---------------------------------------------------------------------------

theorem loadEnvironment_ok {entries : List (String × ConfigValue)}
    (h : ∀ e ∈ entries, ∃ raw, variableValue secrets e.2 = .ok raw) (hdistinct : (entries.map Prod.fst).Nodup)
    (env : Sorted String String) : ∃ env', loadEnvironment secrets env entries = .ok env' ∧
      (∀ e ∈ entries, ∃ raw, variableValue secrets e.2 = .ok raw ∧ env'.get e.1 = some raw) ∧
      ∀ name, name ∉ entries.map Prod.fst → env'.get name = env.get name := by
  induction entries generalizing env with
  | nil => exact ⟨env, rfl, by simp, fun _ _ => rfl⟩
  | cons e rest ih =>
    obtain ⟨hnot, hdistinct⟩ := List.nodup_cons.mp hdistinct
    obtain ⟨raw, hraw⟩ := h e List.mem_cons_self
    obtain ⟨env', hload, hin, hout⟩ := ih (fun f hf => h f (List.mem_cons_of_mem _ hf)) hdistinct (env.insert e.1 raw)
    refine ⟨env', ?_, ?_, ?_⟩
    · rw [loadEnvironment, hraw]
      exact hload
    · intro f hf
      rcases List.mem_cons.mp hf with rfl | hf
      · exact ⟨raw, hraw, by rw [hout _ hnot, Sorted.get_insert, if_pos rfl]⟩
      · exact hin f hf
    · intro name hname
      rw [List.map_cons, List.mem_cons, not_or] at hname
      rw [hout name hname.2, Sorted.get_insert, if_neg hname.1]

/-- Where both plans have the same names and the same text, the service loads
the text of the client's plan. -/
theorem loadEnvironment_alike {m m' : Sorted String ConfigValue} (h : Alike (SameText vaulted secrets) m m') :
    ∃ env, loadEnvironment secrets .empty m'.entries = .ok env ∧
      ∀ name, Option.Rel (Replaced vaulted) (m.get name) (env.get name) := by
  have hall : ∀ e ∈ m'.entries, ∃ v, m.get e.1 = some v ∧ SameText vaulted secrets v e.2 := by
    intro e he
    have hname := h e.1
    rw [Sorted.get_eq_some.mpr he] at hname
    generalize m.get e.1 = a at hname ⊢
    cases hname with
    | some hv => exact ⟨_, rfl, hv⟩
  have htext : ∀ e ∈ m'.entries, ∃ raw, variableValue secrets e.2 = .ok raw := by
    intro e he
    obtain ⟨v, -, raw, -, hraw⟩ := hall e he
    exact ⟨raw, hraw⟩
  obtain ⟨env, hload, hin, hout⟩ := loadEnvironment_ok htext (m'.keys_ascending.imp ne_of_lt) .empty
  refine ⟨env, hload, fun name => ?_⟩
  cases hget : m'.get name with
  | some w =>
    have he := Sorted.get_eq_some.mp hget
    obtain ⟨raw, hraw, henv⟩ := hin (name, w) he
    obtain ⟨v, hv, text, hreplaced, htext⟩ := hall (name, w) he
    obtain rfl := Except.ok.inj (htext.symm.trans hraw)
    rw [hv, henv]
    exact .some hreplaced
  | none =>
    have hnot : name ∉ m'.entries.map Prod.fst := by
      rw [← Sorted.get_isSome, hget]
      simp
    have hname := h name
    rw [hget] at hname
    rw [hout name hnot, Sorted.get_empty]
    generalize m.get name = a at hname ⊢
    cases hname with
    | none => exact .none

/-- What a plan makes of a base environment: `remove` is cleared, then `set`
applied, each secret as its value. -/
def PlanApplied (vaulted : String → String → Prop) (plan : EnvironmentPlan) (base : Sorted String String) (name : String)
    (text : Option String) : Prop :=
  match plan.set.get name with
  | some v => ∃ raw, Replaced vaulted v raw ∧ text = some raw
  | none => text = if name ∈ plan.remove then none else base.get name

theorem baseEnvironment_get {inherited : Sorted String String} {name : String} (h : name ∉ BASE_NAMES) :
    (baseEnvironment inherited).get name = none := by
  unfold baseEnvironment
  have hfold : ∀ (names : List String) (env : Sorted String String), name ∉ names →
      (names.foldl (keepName inherited) env).get name = env.get name := by
    intro names
    induction names with
    | nil => exact fun _ _ => rfl
    | cons other names ih =>
      intro env hnot
      rw [List.mem_cons, not_or] at hnot
      rw [List.foldl_cons, ih _ hnot.2]
      unfold keepName
      split
      · rw [Sorted.get_insert, if_neg hnot.1]
      · rfl
  rw [hfold BASE_NAMES .empty h, Sorted.get_empty]

/-- An executor keeps no variable that a plan removes. -/
theorem removed_not_base {inherited : Sorted String String} {name : String} (h : name ∈ removed inherited) :
    name ∉ BASE_NAMES := by
  intro hbase
  have hproxy : PROXY_NAMES.contains (lower name) = true := by
    unfold removed at h
    rcases List.mem_append.mp h with h | h
    · exact (show ∀ n ∈ PROXY_NAMES.flatMap fun name => [name, upper name], PROXY_NAMES.contains (lower n) = true by
        decide) name h
    · exact (List.mem_filter.mp h).2
  have hnone : ∀ n ∈ BASE_NAMES, PROXY_NAMES.contains (lower n) = false := by decide
  rw [hnone name hbase] at hproxy
  cases hproxy

theorem plan_remove {inherited : Sorted String String} {plan : EnvironmentPlan}
    (h : planEnvironment parseUrl effective inherited = .ok plan) : plan.remove = removed inherited := by
  unfold planEnvironment at h
  split at h
  · cases h
  · exact congrArg EnvironmentPlan.remove (Except.ok.inj h).symm

theorem executorEnvironment_applies {inherited env : Sorted String String} {plan : EnvironmentPlan} {home name : String}
    (hplan : planEnvironment parseUrl effective inherited = .ok plan)
    (henv : ∀ name, Option.Rel (Replaced vaulted) (plan.set.get name) (env.get name)) (hname : name ≠ "CODEX_HOME") :
    PlanApplied vaulted plan (baseEnvironment inherited) name ((executorEnvironment inherited env home).get name) := by
  have hover : (env.entries.foldl (fun all e => all.insert e.1 e.2) (baseEnvironment inherited)).get name =
      (env.get name).or ((baseEnvironment inherited).get name) := by
    refine (Sorted.get_foldl_insert id env.entries _ name env.keys_ascending).trans ?_
    rw [Option.map_id]
    rfl
  unfold executorEnvironment PlanApplied
  rw [Sorted.get_insert, if_neg hname, hover]
  have hrel := henv name
  generalize plan.set.get name = a at hrel ⊢
  generalize env.get name = b at hrel ⊢
  cases hrel with
  | none =>
    rw [Option.none_or]
    show _ = if name ∈ plan.remove then none else _
    split
    · next hin => exact baseEnvironment_get (removed_not_base (plan_remove hplan ▸ hin))
    · rfl
  | some hreplaced => exact ⟨_, hreplaced, rfl⟩

/-- The service runs what the client would plan, with secrets as `vaulted` has
them: the same policies, and in each executor the environment of the plan. Where
there is no plan the service refuses. -/
def Agrees (parseUrl : ParseUrl) (vaulted : String → String → Prop) (effective : EffectiveConfig)
    (inherited : Sorted String String) (config : RemoteConfig) : Prop :=
  match planEnvironment parseUrl effective inherited with
  | .error _ => Runtime.load parseUrl inherited config =
      .error (Transfer.fault "INVALID_PROXY" "invalid or conflicting remote proxy settings")
  | .ok plan => ∃ runtime, Runtime.load parseUrl inherited config = .ok runtime ∧
      runtime.background = backgroundOf effective ∧ runtime.grace = graceOf effective ∧
      runtime.unrestricted = unrestrictedOf effective ∧
      ∀ home name, name ≠ "CODEX_HOME" → PlanApplied vaulted plan (baseEnvironment inherited) name
        ((executorEnvironment inherited runtime.env home).get name)

/-- A configuration that resolves a layer, and that the service can read at all,
is planned alike on both sides, whatever the service inherits. -/
theorem load_agrees {config : RemoteConfig} (hlayer : ProperLayer parseUrl layer)
    (hresolve : Config.resolve layer = .ok effective)
    (hres : Resolves vaulted (sentEntries effective) config.values)
    (hread : ∃ inherited runtime, Runtime.load parseUrl inherited config = .ok runtime)
    (inherited : Sorted String String) : Agrees parseUrl vaulted effective inherited config := by
  obtain ⟨layer', secrets, hvalues⟩ : ∃ layer' secrets,
      loadValues parseUrl .empty .empty config.values.entries = .ok (layer', secrets) := by
    obtain ⟨old, runtime, hload⟩ := hread
    unfold Runtime.load at hload
    split at hload
    · cases hload
    · next layer' secrets hvalues => exact ⟨layer', secrets, hvalues⟩
  have hoverlay : effective = overlay layer := by
    unfold Config.resolve at hresolve
    simp only at hresolve
    split at hresolve
    · cases hresolve
    · exact (Except.ok.inj hresolve).symm
  subst hoverlay
  have hnames : ∀ e ∈ config.values.entries, ∃ key : ConfigKey, key.name = e.1 := by
    intro e he
    obtain ⟨f, -, hname⟩ := hres.named e.1 e.2 (Sorted.get_eq_some.mpr he)
    exact ⟨f.1, hname⟩
  have hloaded := loadValues_ok hnames (config.values.keys_ascending.imp ne_of_lt) (fun _ _ => Sorted.get_empty _) hvalues
  obtain ⟨-, hmode, hresolve'⟩ := resolve_alike hres hlayer hloaded hresolve
  have hplain : ∀ key : ConfigKey, key.isEnvironment = false → key ≠ .reconnectMaxAttempts →
      (overlay layer').get key = (overlay layer).get key :=
    fun key hkind hsent => overlay_plain hres hlayer hloaded hkind hsent
  have hvariables : ∀ name v w, (overlay layer).get (.environment name) = some v →
      (overlay layer').get (.environment name) = some w → SameText vaulted secrets v w := by
    intro name v w hv hw
    have hrel := overlay_variable hres hloaded name
    rw [hv, hw] at hrel
    cases hrel with
    | some h => exact h
  have hplan : (∃ e, planEnvironment parseUrl (overlay layer) inherited = .error e ∧
        planEnvironment parseUrl (overlay layer') inherited = .error e) ∨
      ∃ plan plan', planEnvironment parseUrl (overlay layer) inherited = .ok plan ∧
        planEnvironment parseUrl (overlay layer') inherited = .ok plan' ∧ plan.remove = plan'.remove ∧
        Alike (SameText vaulted secrets) plan.set plan'.set :=
    plan_alike hmode.symm (overlay_isSome hres hlayer hloaded) hvariables fun text => ⟨text, rfl, rfl⟩
  unfold Agrees Runtime.load
  rw [hvalues]
  simp only [hresolve', checked]
  rcases hplan with ⟨e, hclient, hserver⟩ | ⟨plan, plan', hclient, hserver, -, hset⟩
  · simp only [hclient, hserver]
  · obtain ⟨env, hload, henv⟩ := loadEnvironment_alike hset
    simp only [hclient, hserver, hload]
    refine ⟨_, rfl, ?_, ?_, ?_, fun home name hname => executorEnvironment_applies hclient henv hname⟩
    · simp only [backgroundOf, hplain .background rfl nofun]
    · simp only [graceOf, hplain .disconnectGraceSeconds rfl nofun]
    · simp only [unrestrictedOf, hplain .executionMode rfl nofun]

end RemoteCodex.Remote
