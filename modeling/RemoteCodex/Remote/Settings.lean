import RemoteCodex.Credentials.Settings
import RemoteCodex.Remote.Configuration

/-!
# The saved settings as a layer

What the client's database holds for a server is read back under the rules of
the configuration crate, and is a layer of settings that belong under their keys.
-/

namespace RemoteCodex.Remote

open Interact Config

def keyOf (name : String) : Option ConfigKey := (ConfigKey.parse name).toOption

/-- `SecretRef::new`. -/
def validReference (id : String) : Bool :=
  id ≠ "" && byteLength id ≤ 128 && id.toList.all fun c => c.isAlphanum || c = '-' || c = '_' || c = ':'

def clientValue : Credentials.ConfigValue ConfigValue → ConfigValue
  | .plain value => value
  | .secret reference => .secret reference

def clientSetting (layer : ConfigLayer) (e : Sigma fun _ : String => Credentials.StoredSetting ConfigValue) :
    ConfigLayer :=
  match keyOf e.1 with
  | some key => layer.insert key ⟨e.2.spelling, clientValue e.2.value⟩
  | none => layer

/-- The settings under their keys. -/
def clientLayer (layer : Credentials.Layer ConfigValue) : ConfigLayer := layer.entries.foldl clientSetting .empty

def rules (parseUrl : ParseUrl) : Credentials.Rules ConfigValue where
  parse raw := (keyOf raw).map ConfigKey.name
  writable name := (keyOf name).any ConfigKey.writable
  environment name := (keyOf name).any ConfigKey.isEnvironment
  proxy name := (keyOf name).any fun key =>
    match key with
    | .environment name => name.isProxy
    | _ => false
  value name raw := (keyOf name).bind fun key => (parseValue parseUrl key raw).toOption
  visible value := value.shown.getD ""
  requiresSecret name raw := (keyOf name).any fun key => requiresSecret key raw
  resolve layer := (Config.resolve (clientLayer layer)).isOk
  reference := validReference

variable {parseUrl : ParseUrl} {layer after : Credentials.Layer ConfigValue} {key name : String}

theorem keyOf_name (key : ConfigKey) : keyOf key.name = some key := by
  unfold keyOf
  rw [ConfigKey.parse_name]
  rfl

theorem rules_parse {raw : String} (h : (rules parseUrl).parse raw = some name) :
    ∃ key : ConfigKey, key.name = name := by
  obtain ⟨key, -, hname⟩ := Option.map_eq_some_iff.mp h
  exact ⟨key, hname⟩

-- ---------------------------------------------------------------------------
-- Settings belong under their keys
-- ---------------------------------------------------------------------------

/-- The setting belongs under the name. -/
def Fits (parseUrl : ParseUrl) (name : String) (v : Credentials.ConfigValue ConfigValue) : Prop :=
  ∃ key : ConfigKey, key.name = name ∧
    match v with
    | .plain value => Proper parseUrl key value
    | .secret _ => key.isEnvironment = true

def FitsAll (parseUrl : ParseUrl) (layer : Credentials.Layer ConfigValue) : Prop :=
  ∀ name setting, layer.lookup name = some setting → Fits parseUrl name setting.value

theorem FitsAll.empty : FitsAll parseUrl ∅ := by
  intro name setting h
  cases h

theorem FitsAll.insert (h : FitsAll parseUrl layer) {setting : Credentials.StoredSetting ConfigValue}
    (hnew : Fits parseUrl name setting.value) : FitsAll parseUrl (layer.insert name setting) := by
  intro other found hfound
  rw [Table.lookup_insert_if] at hfound
  split at hfound
  · next heq =>
    subst heq
    exact Option.some.inj hfound ▸ hnew
  · exact h other found hfound

theorem FitsAll.set (h : FitsAll parseUrl layer) {input : Credentials.ConfigInput}
    (hset : layer.set (rules parseUrl) key input = .ok after) : FitsAll parseUrl after := by
  simp only [Credentials.Layer.set, Credentials.bind_ok, Credentials.orError_ok, Credentials.demand_ok,
    Credentials.pure_ok] at hset
  obtain ⟨name, hname, value, hvalue, _, hreference, _, -, _, -, rfl⟩ := hset
  obtain ⟨k, rfl⟩ := rules_parse (Credentials.Layer.writableKey_ok hname)
  apply h.insert
  refine ⟨k, rfl, ?_⟩
  cases input with
  | plain raw =>
    simp only [rules, keyOf_name, Option.bind_some] at hvalue
    refine ⟨raw, ?_⟩
    cases hparse : parseValue parseUrl k raw with
    | ok v =>
      rw [hparse] at hvalue
      exact congrArg Except.ok (Option.some.inj hvalue)
    | error e =>
      rw [hparse] at hvalue
      cases hvalue
  | secret reference raw =>
    simpa [rules, keyOf_name] using hreference

theorem FitsAll.restore (h : FitsAll parseUrl layer) {row : Credentials.Setting}
    (hrestore : layer.restore (rules parseUrl) key row = .ok after) : FitsAll parseUrl after := by
  simp only [Credentials.Layer.restore, Credentials.bind_ok] at hrestore
  obtain ⟨_, -, hrestore⟩ := hrestore
  split at hrestore
  · simp only [Credentials.Layer.restoreSecret, Credentials.bind_ok, Credentials.demand_ok, Credentials.pure_ok]
      at hrestore
    obtain ⟨_, -, name, hname, _, henvironment, _, -, rfl⟩ := hrestore
    obtain ⟨k, rfl⟩ := rules_parse (Credentials.Layer.writableKey_ok hname)
    apply h.insert
    refine ⟨k, rfl, ?_⟩
    simpa [rules, keyOf_name] using henvironment
  · exact h.set hrestore

theorem FitsAll.restoreAll (h : FitsAll parseUrl layer)
    {rows : List (Sigma fun _ : String × String => Credentials.Setting)}
    (hrestore : Credentials.Layer.restoreAll (rules parseUrl) layer rows = .ok after) : FitsAll parseUrl after := by
  induction rows generalizing layer with
  | nil =>
    cases hrestore
    exact h
  | cons e rows ih =>
    simp only [Credentials.Layer.restoreAll, Credentials.bind_ok] at hrestore
    obtain ⟨mid, hmid, hrestore⟩ := hrestore
    exact ih (h.restore hmid) hrestore

/-- Whatever is loaded belongs under its keys. -/
theorem fits_load {store : Credentials.Store} {server : String}
    (h : store.load (rules parseUrl) server = .ok layer) : FitsAll parseUrl layer :=
  FitsAll.empty.restoreAll h

theorem clientLayer_proper (h : FitsAll parseUrl layer) : ProperLayer parseUrl (clientLayer layer) := by
  have hfold : ∀ (l : List (Sigma fun _ : String => Credentials.StoredSetting ConfigValue)) (known : ConfigLayer),
      (∀ e ∈ l, Fits parseUrl e.1 e.2.value) → ProperLayer parseUrl known →
      ProperLayer parseUrl (l.foldl clientSetting known) := by
    intro l
    induction l with
    | nil => exact fun _ _ hknown => hknown
    | cons e l ih =>
      intro known hl hknown
      refine ih _ (fun f hf => hl f (List.mem_cons_of_mem _ hf)) ?_
      obtain ⟨k, hname, hfits⟩ := hl e List.mem_cons_self
      unfold clientSetting
      rw [← hname, keyOf_name]
      intro key setting hget
      rw [Sorted.get_insert] at hget
      split at hget
      · next heq =>
        subst heq
        obtain rfl := Option.some.inj hget
        generalize e.2.value = v at hfits ⊢
        cases v with
        | plain value => exact .inl hfits
        | secret reference => exact .inr ⟨hfits, reference, rfl⟩
      · exact hknown key setting hget
  apply hfold
  · intro e he
    exact h e.1 e.2 (AList.mem_lookup_iff.mpr he)
  · intro key setting hget
    cases hget

end RemoteCodex.Remote
