import Mathlib.Data.List.DropRight
import RemoteCodex.Remote.Settings

/-!
# The rows of a saved layer

How the client writes a layer into the table of settings, and how it reads it
back: every value as text, the text read again under the rules it was set by.
-/

namespace RemoteCodex.Remote.Codec

open Interact Config

-- ---------------------------------------------------------------------------
-- Values as text
-- ---------------------------------------------------------------------------

/-- `trim_matches('"')`. -/
def trimQuotes (s : String) : String := String.ofList ((s.toList.dropWhile (· = '"')).rdropWhile (· = '"'))

inductive StoreError
  | config (e : ConfigError)
  | schema
  | credentials
  | database
  deriving DecidableEq, Repr

/-- `plain`: the text itself, or what is left of the JSON of `visible` without its quotes. -/
def plain : ConfigValue → Except StoreError String
  | .text value => .ok value
  | .boolean value => .ok (trimQuotes (if value then "true" else "false"))
  | .integer value => .ok (trimQuotes value.repr)
  | .proxyMode value => .ok (trimQuotes ("\"" ++ value.name ++ "\""))
  | .secret _ => .error .credentials

-- ---------------------------------------------------------------------------
-- The tables
-- ---------------------------------------------------------------------------

inductive Representation
  | plain | secret
  deriving DecidableEq, Repr

/-- A row of `settings`. -/
structure Row where
  server : String
  key : String
  spelling : String
  representation : Representation
  value : String
  deriving DecidableEq, Repr

structure Database where
  settings : List Row := []
  credentials : List (String × Credentials.Credential) := []
  deriving DecidableEq, Repr

/-- A row with its primary key, the server and the key. -/
def Database.insert (db : Database) (row : Row) : Except StoreError Database :=
  if db.settings.any fun r => r.server = row.server && r.key = row.key then .error .database
  else .ok { db with settings := db.settings ++ [row] }

/-- `UPDATE credentials SET state='active'`, of the one row it must find. -/
def Database.activate (db : Database) (reference : String) : Except StoreError Database :=
  let found := db.credentials.filter fun c => c.1 = reference && c.2.state ≠ .retired
  if found.length = 1 then
    .ok { db with credentials := db.credentials.map fun c =>
      if c.1 = reference && c.2.state ≠ .retired then (c.1, { c.2 with state := .active }) else c }
  else .error .credentials

/-- Managed credentials that no setting refers to any more are retired. -/
def Database.retire (db : Database) : Database :=
  { db with credentials := db.credentials.map fun c =>
      if c.2.managed && c.2.state = .active &&
          !(db.settings.any fun r => r.representation = .secret && r.value = c.1) then
        (c.1, { c.2 with state := .retired })
      else c }

def saveEntry (server : String) (db : Database) (entry : ConfigKey × StoredSetting) : Except StoreError Database := do
  match entry.2.value with
  | .secret reference => do
    let db ← db.activate reference
    db.insert ⟨server, entry.1.name, entry.2.spelling, .secret, reference⟩
  | value => do
    let raw ← plain value
    db.insert ⟨server, entry.1.name, entry.2.spelling, .plain, raw⟩

def saveEntries (server : String) : Database → List (ConfigKey × StoredSetting) → Except StoreError Database
  | db, [] => .ok db
  | db, entry :: rest => do saveEntries server (← saveEntry server db entry) rest

/-- `codec::save`. -/
def save (db : Database) (server : String) (layer : ConfigLayer) : Except StoreError Database := do
  let db ← saveEntries server { db with settings := db.settings.filter fun r => r.server ≠ server } layer.entries
  pure db.retire

def configError {α : Type} : Except ConfigError α → Except StoreError α
  | .ok a => .ok a
  | .error e => .error (.config e)

def restoreRow (parseUrl : ParseUrl) (layer : ConfigLayer) (row : Row) : Except StoreError ConfigLayer := do
  let key ← configError (ConfigKey.parse row.spelling)
  if key.name ≠ row.key then throw .schema
  else
    match row.representation with
    | .plain => configError (layer.set parseUrl row.spelling (.plain row.value))
    | .secret =>
      if validReference row.value then configError (layer.restoreSecret row.spelling row.value)
      else throw (.config (.invalidValue "invalid credential reference"))

def restoreRows (parseUrl : ParseUrl) : ConfigLayer → List Row → Except StoreError ConfigLayer
  | layer, [] => .ok layer
  | layer, row :: rest => do restoreRows parseUrl (← restoreRow parseUrl layer row) rest

/-- `codec::load`. -/
def load (parseUrl : ParseUrl) (db : Database) (server : String) : Except StoreError ConfigLayer :=
  restoreRows parseUrl .empty
    ((db.settings.filter fun r => r.server = server).mergeSort fun a b => decide (a.key ≤ b.key))

-- ---------------------------------------------------------------------------
-- Layers
-- ---------------------------------------------------------------------------

/-- A change of a layer; a reference in it has passed `SecretRef::new`. -/
inductive Change
  | set (key : String) (input : ConfigInput)
  | unset (key : String)
  deriving DecidableEq, Repr

def Change.Valid : Change → Prop
  | .set _ (.secret reference _) => validReference reference = true
  | _ => True

def Change.apply (parseUrl : ParseUrl) (layer : ConfigLayer) : Change → Except ConfigError ConfigLayer
  | .set key input => layer.set parseUrl key input
  | .unset key => (layer.unset key).map Prod.fst

/-- The layer after changes that all succeed. -/
inductive Reaches (parseUrl : ParseUrl) : List Change → ConfigLayer → Prop
  | new : Reaches parseUrl [] .empty
  | step (c : Change) : Reaches parseUrl changes layer → c.Valid → c.apply parseUrl layer = .ok after →
      Reaches parseUrl (c :: changes) after

/-- The same change, but for the text of a secret. -/
inductive Alike : Change → Change → Prop
  | same (change : Change) : Alike change change
  | secret (key reference raw raw' : String) : Alike (.set key (.secret reference raw)) (.set key (.secret reference raw'))

section

variable {parseUrl : ParseUrl} {key : ConfigKey} {setting : StoredSetting} {value : ConfigValue} {raw server : String}
  {layer after : ConfigLayer} {db saved : Database} {row : Row}

-- ---------------------------------------------------------------------------
-- A value is read back from its text
-- ---------------------------------------------------------------------------

theorem trimQuotes_of_free (h : '"' ∉ raw.toList) : trimQuotes raw = raw := by
  unfold trimQuotes
  have hdrop : raw.toList.dropWhile (fun c => decide (c = '"')) = raw.toList := by
    cases hchars : raw.toList with
    | nil => rfl
    | cons c cs =>
      have hc : c ≠ '"' := fun heq => h (by rw [hchars, heq]; exact List.mem_cons_self)
      rw [List.dropWhile_cons_of_neg (by simpa using hc)]
  have hrdrop : raw.toList.rdropWhile (fun c => decide (c = '"')) = raw.toList := by
    rw [List.rdropWhile_eq_self_iff]
    intro hne hlast
    exact h (of_decide_eq_true hlast ▸ List.getLast_mem hne)
  rw [hdrop, hrdrop, String.ofList_toList]

theorem plain_shown (h : value.shown = some raw) : plain value = .ok raw := by
  cases value with
  | boolean b =>
    obtain rfl := Option.some.inj h
    cases b <;> decide
  | integer n =>
    obtain rfl := Option.some.inj h
    refine congrArg Except.ok (trimQuotes_of_free fun hmem => ?_)
    rw [Nat.toList_repr] at hmem
    exact absurd (Nat.isDigit_of_mem_toDigits (by decide) (by decide) hmem) (by decide)
  | text s =>
    obtain rfl := Option.some.inj h
    rfl
  | proxyMode mode =>
    obtain rfl := Option.some.inj h
    cases mode <;> decide
  | secret reference => cases h

theorem requiresSecret_registry (h : key.isEnvironment = false) : requiresSecret key raw = false := by
  cases key with
  | environment name => cases h
  | _ => rfl

theorem parseValue_text {name : EnvironmentName} (h : parseValue parseUrl (.environment name) raw = .ok value) :
    value = .text raw := by
  unfold parseValue at h
  split at h
  · cases h
  · simp only at h
    split at h
    · cases h
    · split at h
      · cases h
      · exact (Except.ok.inj h).symm

/-- What is written for a value that was set as `raw` is read as this value, and is no secret either. -/
theorem plain_parses (h : parseValue parseUrl key raw = .ok value) (hopen : requiresSecret key raw = false) :
    ∃ text, plain value = .ok text ∧ parseValue parseUrl key text = .ok value ∧ requiresSecret key text = false := by
  obtain ⟨text, hshown, hparse⟩ := parseValue_shown ⟨raw, h⟩
  refine ⟨text, plain_shown hshown, hparse, ?_⟩
  cases henv : key.isEnvironment with
  | false => exact requiresSecret_registry henv
  | true =>
    cases key with
    | environment name =>
      obtain rfl := parseValue_text h
      obtain rfl := Option.some.inj hshown
      exact hopen
    | _ => cases henv

-- ---------------------------------------------------------------------------
-- What a layer keeps
-- ---------------------------------------------------------------------------

/-- A setting that can be written and read again. -/
structure Kept (parseUrl : ParseUrl) (key : ConfigKey) (setting : StoredSetting) : Prop where
  spelling : ConfigLayer.writableKey setting.spelling = .ok key
  value : (∃ text, plain setting.value = .ok text ∧ parseValue parseUrl key text = .ok setting.value ∧
      requiresSecret key text = false) ∨
    (key.isEnvironment = true ∧ ∃ reference, setting.value = .secret reference ∧ validReference reference = true)

def KeptAll (parseUrl : ParseUrl) (layer : ConfigLayer) : Prop :=
  ∀ key setting, layer.get key = some setting → Kept parseUrl key setting

theorem writableKey_ok {name : String} (h : ConfigLayer.writableKey name = .ok key) : ConfigKey.parse name = .ok key := by
  unfold ConfigLayer.writableKey at h
  split at h
  · cases h
  · next parsed hparse =>
    split at h
    · rw [hparse, Except.ok.inj h]
    · cases h

theorem KeptAll.insert (h : KeptAll parseUrl layer) (hnew : Kept parseUrl key setting) :
    KeptAll parseUrl (layer.insert key setting) := by
  intro k found hfound
  rw [Sorted.get_insert] at hfound
  split at hfound
  · next heq =>
    obtain rfl := Option.some.inj hfound
    exact heq ▸ hnew
  · exact h k found hfound

theorem KeptAll.erase (h : KeptAll parseUrl layer) (key : ConfigKey) : KeptAll parseUrl (layer.erase key) := by
  intro k found hfound
  rw [Sorted.get_erase] at hfound
  split at hfound
  · cases hfound
  · exact h k found hfound

/-- What a successful `set` has checked, and what it leaves. -/
theorem set_ok {name : String} {input : ConfigInput} (h : layer.set parseUrl name input = .ok after) :
    ∃ parsed value, ConfigLayer.writableKey name = .ok parsed ∧
      after = layer.insert parsed ⟨((layer.get parsed).map StoredSetting.spelling).getD name, value⟩ ∧
      match input with
      | .plain raw => parseValue parseUrl parsed raw = .ok value ∧ requiresSecret parsed raw = false
      | .secret reference _ => value = .secret reference ∧ parsed.isEnvironment = true := by
  unfold ConfigLayer.set at h
  split at h
  · cases h
  · next parsed hparsed =>
    cases input with
    | plain raw =>
      simp only at h
      split at h
      · cases h
      · next value hvalue =>
        simp only [Option.isSome_none, Bool.false_and, Bool.false_eq_true, if_false, Option.isNone_none, Bool.true_and,
          Option.map_none, Option.getD_none] at h
        split at h
        · cases h
        · next hopen =>
          split at h
          · cases h
          · exact ⟨parsed, value, hparsed, (Except.ok.inj h).symm, hvalue, by simpa using hopen⟩
    | secret reference raw =>
      simp only at h
      split at h
      · cases h
      · simp only [Option.isSome_some, Bool.true_and, Option.isNone_some, Bool.false_and, Bool.false_eq_true, if_false,
          Option.map_some, Option.getD_some] at h
        split at h
        · cases h
        · next henv =>
          split at h
          · cases h
          · exact ⟨parsed, .secret reference, hparsed, (Except.ok.inj h).symm, rfl, by simpa using henv⟩

theorem KeptAll.set (h : KeptAll parseUrl layer) {name : String} {input : ConfigInput}
    (hvalid : (Change.set name input).Valid) (hset : layer.set parseUrl name input = .ok after) :
    KeptAll parseUrl after := by
  obtain ⟨parsed, value, hkey, rfl, hinput⟩ := set_ok hset
  apply h.insert
  refine ⟨?_, ?_⟩
  · cases hprevious : layer.get parsed with
    | none => exact hkey
    | some previous => exact (h _ _ hprevious).spelling
  · cases input with
    | plain raw => exact .inl (plain_parses hinput.1 hinput.2)
    | secret reference raw => exact .inr ⟨hinput.2, reference, hinput.1, hvalid⟩

theorem Reaches.kept {changes : List Change} (h : Reaches parseUrl changes layer) : KeptAll parseUrl layer := by
  induction h with
  | new => exact fun _ _ hfound => by cases hfound
  | step c _ hvalid happly ih =>
    cases c with
    | set name input => exact ih.set hvalid happly
    | unset name =>
      simp only [Change.apply, ConfigLayer.unset] at happly
      split at happly
      · cases happly
      · obtain rfl := Except.ok.inj happly
        exact ih.erase _

-- ---------------------------------------------------------------------------
-- Rows
-- ---------------------------------------------------------------------------

/-- The row a setting is written as. -/
def rowOf (server : String) (entry : ConfigKey × StoredSetting) : Row :=
  match plain entry.2.value, entry.2.value with
  | .ok raw, _ => ⟨server, entry.1.name, entry.2.spelling, .plain, raw⟩
  | .error _, .secret reference => ⟨server, entry.1.name, entry.2.spelling, .secret, reference⟩
  | .error _, _ => ⟨server, entry.1.name, entry.2.spelling, .plain, ""⟩

theorem rowOf_plain {text : String} (h : plain setting.value = .ok text) :
    rowOf server (key, setting) = ⟨server, key.name, setting.spelling, .plain, text⟩ := by
  unfold rowOf
  simp only [h]

theorem rowOf_secret {reference : String} (h : setting.value = .secret reference) :
    rowOf server (key, setting) = ⟨server, key.name, setting.spelling, .secret, reference⟩ := by
  unfold rowOf
  simp only [h, plain]

theorem rowOf_server (entry : ConfigKey × StoredSetting) : (rowOf server entry).server = server := by
  unfold rowOf
  split <;> rfl

theorem rowOf_key (entry : ConfigKey × StoredSetting) : (rowOf server entry).key = entry.1.name := by
  unfold rowOf
  split <;> rfl

theorem insert_ok (h : db.insert row = .ok saved) : saved = { db with settings := db.settings ++ [row] } := by
  unfold Database.insert at h
  split at h
  · cases h
  · exact (Except.ok.inj h).symm

theorem activate_settings {reference : String} (h : db.activate reference = .ok saved) :
    saved.settings = db.settings := by
  unfold Database.activate at h
  simp only at h
  split at h
  · rw [← Except.ok.inj h]
  · cases h

theorem saveEntry_ok {entry : ConfigKey × StoredSetting} (h : saveEntry server db entry = .ok saved) :
    saved.settings = db.settings ++ [rowOf server entry] := by
  obtain ⟨key, spelling, value⟩ := entry
  unfold saveEntry at h
  cases value with
  | secret reference =>
    simp only at h
    cases hactive : db.activate reference with
    | error e =>
      rw [hactive] at h
      cases h
    | ok active =>
      rw [hactive] at h
      rw [insert_ok h, ← activate_settings hactive, rowOf_secret rfl]
  | _ =>
    rw [insert_ok h]
    rfl

theorem saveEntries_ok {entries : List (ConfigKey × StoredSetting)} (h : saveEntries server db entries = .ok saved) :
    saved.settings = db.settings ++ entries.map (rowOf server) := by
  induction entries generalizing db with
  | nil =>
    obtain rfl := Except.ok.inj h
    exact (List.append_nil _).symm
  | cons entry entries ih =>
    rw [saveEntries] at h
    cases hentry : saveEntry server db entry with
    | error e =>
      rw [hentry] at h
      cases h
    | ok next =>
      rw [hentry] at h
      rw [ih h, saveEntry_ok hentry, List.append_assoc]
      rfl

theorem save_ok (h : save db server layer = .ok saved) :
    saved.settings = (db.settings.filter fun r => r.server ≠ server) ++ layer.entries.map (rowOf server) := by
  unfold save at h
  cases hentries : saveEntries server { db with settings := db.settings.filter fun r => r.server ≠ server }
      layer.entries with
  | error e =>
    rw [hentries] at h
    cases h
  | ok written =>
    rw [hentries] at h
    obtain rfl := Except.ok.inj h
    exact saveEntries_ok hentries

/-- The rows of a server are those of the layer that was saved. -/
theorem rows_of_server (h : save db server layer = .ok saved) :
    (saved.settings.filter fun r => r.server = server) = layer.entries.map (rowOf server) := by
  rw [save_ok h, List.filter_append, List.filter_filter]
  have hnone : (db.settings.filter fun r => decide (r.server = server) && decide (r.server ≠ server)) = [] := by
    rw [List.filter_eq_nil_iff]
    intro r _
    simp
  have hall : ((layer.entries.map (rowOf server)).filter fun r => decide (r.server = server)) =
      layer.entries.map (rowOf server) := by
    rw [List.filter_eq_self]
    intro r hr
    obtain ⟨entry, -, rfl⟩ := List.mem_map.mp hr
    exact decide_eq_true (rowOf_server entry)
  rw [hnone, hall, List.nil_append]

-- ---------------------------------------------------------------------------
-- Reading the rows
-- ---------------------------------------------------------------------------

theorem conflicts_none {name : String} (h : layer.get key = none) : layer.conflicts key name value = false := by
  unfold ConfigLayer.conflicts
  rw [h]
  cases key <;> simp

/-- A row is read back as the setting it was written for. -/
theorem restoreRow_rowOf (hkept : Kept parseUrl key setting) (hfree : layer.get key = none) :
    restoreRow parseUrl layer (rowOf server (key, setting)) = .ok (layer.insert key setting) := by
  have hparse := writableKey_ok hkept.spelling
  obtain ⟨text, htext, hvalue, hopen⟩ | ⟨henv, reference, hsecret, hvalid⟩ := hkept.value
  · rw [rowOf_plain htext]
    have hset : layer.set parseUrl setting.spelling (.plain text) = .ok (layer.insert key setting) := by
      unfold ConfigLayer.set
      simp only [hkept.spelling, hvalue, Option.isSome_none, Bool.false_and, Bool.false_eq_true, if_false, hopen,
        Option.isNone_none, Bool.and_false, Option.map_none, Option.getD_none, conflicts_none hfree, hfree]
    unfold restoreRow
    simp only [hparse, configError, hset]
    simp [bind, Except.bind]
  · rw [rowOf_secret hsecret]
    have hrestore : layer.restoreSecret setting.spelling reference = .ok (layer.insert key setting) := by
      unfold ConfigLayer.restoreSecret
      simp only [hkept.spelling, henv, hfree, Bool.not_true, Bool.false_eq_true, if_false, Option.isSome_none, ← hsecret]
    unfold restoreRow
    simp only [hparse, configError, hrestore, hvalid, if_true]
    simp [bind, Except.bind]

/-- Rows of settings under distinct keys are read back over a layer without these keys. -/
theorem restoreRows_rowOf (hkept : KeptAll parseUrl layer) {entries : List (ConfigKey × StoredSetting)}
    (hentries : ∀ entry ∈ entries, layer.get entry.1 = some entry.2) (hnodup : (entries.map Prod.fst).Nodup)
    {found : ConfigLayer} (hfree : ∀ entry ∈ entries, found.get entry.1 = none) :
    ∃ read, restoreRows parseUrl found (entries.map (rowOf server)) = .ok read ∧
      ∀ k, read.get k = if k ∈ entries.map Prod.fst then layer.get k else found.get k := by
  induction entries generalizing found with
  | nil => exact ⟨found, rfl, fun k => (if_neg List.not_mem_nil).symm⟩
  | cons entry entries ih =>
    obtain ⟨key, setting⟩ := entry
    obtain ⟨hget, hentries⟩ := List.forall_mem_cons.mp hentries
    obtain ⟨hnone, hfree⟩ := List.forall_mem_cons.mp hfree
    obtain ⟨hnew, hnodup⟩ := List.nodup_cons.mp hnodup
    have hfree' : ∀ entry ∈ entries, (found.insert key setting).get entry.1 = none := by
      intro other hmem
      rw [Sorted.get_insert, if_neg]
      · exact hfree other hmem
      · rintro heq
        exact hnew (List.mem_map.mpr ⟨other, hmem, heq⟩)
    obtain ⟨read, hread, hkeys⟩ := ih hentries hnodup hfree'
    refine ⟨read, ?_, fun k => ?_⟩
    · rw [List.map_cons, restoreRows, restoreRow_rowOf (hkept key setting hget) hnone]
      exact hread
    · rw [hkeys, List.map_cons]
      by_cases hk : k ∈ entries.map Prod.fst
      · rw [if_pos hk, if_pos (List.mem_cons_of_mem _ hk)]
      · rw [if_neg hk, Sorted.get_insert]
        by_cases heq : k = key
        · rw [if_pos heq, if_pos (heq ▸ List.mem_cons_self), heq, hget]
        · rw [if_neg heq, if_neg]
          intro hmem
          exact (List.mem_cons.mp hmem).elim heq hk

/-- The rows in the order of their keys are those of the entries in some order. -/
theorem sorted_rows (rows : List (ConfigKey × StoredSetting)) : ∃ entries : List (ConfigKey × StoredSetting),
    entries.Perm rows ∧
      (rows.map (rowOf server)).mergeSort (fun a b => decide (a.key ≤ b.key)) = entries.map (rowOf server) := by
  refine ⟨rows.mergeSort fun a b => decide ((rowOf server a).key ≤ (rowOf server b).key), List.mergeSort_perm _ _, ?_⟩
  exact (List.map_mergeSort (f := rowOf server) (s := fun a b => decide (a.key ≤ b.key)) fun _ _ _ _ => rfl).symm

theorem load_save (hkept : KeptAll parseUrl layer) (h : save db server layer = .ok saved) :
    load parseUrl saved server = .ok layer := by
  have hrows := rows_of_server h
  obtain ⟨entries, hperm, hsorted⟩ := @sorted_rows server layer.entries
  have hentries : ∀ entry ∈ entries, layer.get entry.1 = some entry.2 := fun entry hmem =>
    Sorted.get_eq_some.mpr (hperm.mem_iff.mp hmem)
  have hkeys : (entries.map Prod.fst).Nodup :=
    ((hperm.map Prod.fst).nodup_iff).mpr (layer.keys_ascending.imp ne_of_lt)
  have hfree : ∀ entry ∈ entries, Sorted.get (.empty : ConfigLayer) entry.1 = none := fun entry _ =>
    Sorted.get_empty entry.1
  obtain ⟨read, hread, hget⟩ := @restoreRows_rowOf parseUrl server layer hkept entries hentries hkeys _ hfree
  unfold load
  rw [hrows, hsorted, hread]
  refine congrArg Except.ok (Sorted.ext_get fun k => ?_)
  rw [hget]
  split
  · rfl
  · next hmem =>
    rw [(hperm.map Prod.fst).mem_iff, ← Sorted.get_isSome] at hmem
    rw [Sorted.get_empty, Option.not_isSome_iff_eq_none.mp hmem]

/-- What is written in the open is no secret under its key. -/
theorem plain_rows (hkept : KeptAll parseUrl layer) (h : save db server layer = .ok saved) (hrow : row ∈ saved.settings)
    (hserver : row.server = server) (hplain : row.representation = .plain) :
    ∃ key : ConfigKey, key.name = row.key ∧ requiresSecret key row.value = false := by
  have hmem : row ∈ saved.settings.filter fun r => r.server = server :=
    List.mem_filter.mpr ⟨hrow, decide_eq_true hserver⟩
  rw [rows_of_server h] at hmem
  obtain ⟨⟨key, setting⟩, hentry, rfl⟩ := List.mem_map.mp hmem
  refine ⟨key, (rowOf_key (key, setting)).symm, ?_⟩
  obtain ⟨text, htext, -, hopen⟩ | ⟨-, reference, hsecret, -⟩ := (hkept key setting (Sorted.get_eq_some.mpr hentry)).value
  · rw [rowOf_plain htext]
    exact hopen
  · rw [rowOf_secret hsecret] at hplain
    cases hplain

-- ---------------------------------------------------------------------------
-- The text of a secret
-- ---------------------------------------------------------------------------

/-- A layer holds nothing of the text of a secret. -/
theorem set_secret {name reference raw' : String} {after' : ConfigLayer}
    (h : layer.set parseUrl name (.secret reference raw) = .ok after)
    (h' : layer.set parseUrl name (.secret reference raw') = .ok after') : after = after' := by
  obtain ⟨parsed, value, hkey, rfl, rfl, -⟩ := set_ok h
  obtain ⟨parsed', value', hkey', rfl, rfl, -⟩ := set_ok h'
  obtain rfl := Except.ok.inj (hkey.symm.trans hkey')
  rfl

theorem Reaches.alike {changes changes' : List Change} {layer' : ConfigLayer} (h : Reaches parseUrl changes layer)
    (h' : Reaches parseUrl changes' layer') (halike : List.Forall₂ Alike changes changes') : layer = layer' := by
  induction h generalizing changes' layer' with
  | new =>
    cases halike
    cases h'
    rfl
  | step c _ _ happly ih =>
    cases halike with
    | cons hc hrest =>
      cases h' with
      | step c' hreach _ happly' =>
        obtain rfl := ih hreach hrest
        cases hc with
        | same => exact Except.ok.inj (happly.symm.trans happly')
        | secret => exact set_secret happly happly'

/-- A layer that changes have made is read back as it was saved. What is
written in the open requires no secret, and nothing that is written depends on
the text of a secret. -/
theorem saved_layer {changes : List Change} (hreach : Reaches parseUrl changes layer)
    (hsave : save db server layer = .ok saved) :
    load parseUrl saved server = .ok layer ∧
    (∀ row ∈ saved.settings, row.server = server → row.representation = .plain →
      ∃ key : ConfigKey, key.name = row.key ∧ requiresSecret key row.value = false) ∧
    ∀ changes' layer', List.Forall₂ Alike changes changes' → Reaches parseUrl changes' layer' →
      save db server layer' = .ok saved := by
  refine ⟨load_save hreach.kept hsave, fun row hrow => plain_rows hreach.kept hsave hrow, ?_⟩
  intro changes' layer' halike hreach'
  rw [← hreach.alike hreach' halike]
  exact hsave

def graceChange : Change := .set "disconnect_grace_seconds" (.plain "007")

def tokenChange : Change := .set "env.API_TOKEN" (.secret "ref-1" "hunter2")

def pendingToken : Database := { credentials := [("ref-1", { created := 0 })] }

/-- A number that is written shorter than it was set, and a secret. -/
theorem saved_layer_token : ∃ layer saved, save pendingToken "dev" layer = .ok saved ∧
    load (fun _ => none) saved "dev" = .ok layer ∧ saved.settings.map Row.value = ["7", "ref-1"] := by
  have hrun : ((graceChange.apply (fun _ => none) .empty).bind fun layer =>
      (tokenChange.apply (fun _ => none) layer).bind fun layer =>
        match save pendingToken "dev" layer with
        | .ok saved => .ok (saved.settings.map Row.value)
        | .error _ => .error .unknownKey) = .ok ["7", "ref-1"] := by decide
  cases hgrace : graceChange.apply (fun _ => none) .empty with
  | error e =>
    rw [hgrace] at hrun
    cases hrun
  | ok first =>
    rw [hgrace, Except.bind] at hrun
    cases htoken : tokenChange.apply (fun _ => none) first with
    | error e =>
      rw [htoken] at hrun
      cases hrun
    | ok layer =>
      rw [htoken, Except.bind] at hrun
      cases hsave : save pendingToken "dev" layer with
      | error e =>
        rw [hsave] at hrun
        cases hrun
      | ok saved =>
        rw [hsave] at hrun
        have hvalid : tokenChange.Valid := by
          show validReference "ref-1" = true
          decide
        have hreach : Reaches (fun _ => none) [tokenChange, graceChange] layer :=
          .step _ (.step _ .new trivial hgrace) hvalid htoken
        exact ⟨layer, saved, hsave, (saved_layer hreach hsave).1, Except.ok.inj hrun⟩

end

end RemoteCodex.Remote.Codec
