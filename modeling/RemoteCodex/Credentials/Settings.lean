import RemoteCodex.Credentials.Steps

/-!
# Settings refer to credentials that are there

The settings refer to active credentials, and every active credential is
referred to; the vault has what was written for it. A revision counts the
changes of a server's settings.
-/

namespace RemoteCodex.Credentials

open Interact Store

-- ---------------------------------------------------------------------------
-- Which secrets a layer has
-- ---------------------------------------------------------------------------

namespace Layer

variable {ν : Type} [DecidableEq ν] {r : Rules ν} {layer after : Layer ν} {key name reference : String}

/-- The setting is a reference to `reference`. -/
def Refers (layer : Layer ν) (name reference : String) : Prop :=
  ∃ st, layer.lookup name = some st ∧ st.value = .secret reference

omit [DecidableEq ν] in
theorem refers_insert {st : StoredSetting ν} (h : Refers (layer.insert key st) name reference) :
    Refers layer name reference ∨ (name = key ∧ st.value = .secret reference) := by
  obtain ⟨st', hst, hvalue⟩ := h
  rw [Table.lookup_insert_if] at hst
  split at hst
  · next heq =>
    cases hst
    exact .inr ⟨heq, hvalue⟩
  · exact .inl ⟨st', hst, hvalue⟩

omit [DecidableEq ν] in
theorem refers_erase (h : Refers (layer.erase key) name reference) : Refers layer name reference := by
  obtain ⟨st, hst, hvalue⟩ := h
  rw [Table.lookup_erase_if] at hst
  split at hst
  · cases hst
  · exact ⟨st, hst, hvalue⟩

omit [DecidableEq ν] in
theorem writableKey_ok (h : writableKey r key = .ok name) : r.parse key = some name := by
  simp only [writableKey, bind_ok, orError_ok, demand_ok, pure_ok] at h
  obtain ⟨_, hparse, _, -, rfl⟩ := h
  exact hparse

theorem set_ok {input : ConfigInput} (h : layer.set r key input = .ok after) :
    ∃ name st, r.parse key = some name ∧ after = layer.insert name st ∧
      ∀ reference, st.value = .secret reference → ∃ raw, input = .secret reference raw := by
  simp only [set, bind_ok, orError_ok, demand_ok, pure_ok] at h
  obtain ⟨name, hname, value, -, _, -, _, -, _, -, rfl⟩ := h
  refine ⟨name, _, writableKey_ok hname, rfl, fun reference hvalue => ?_⟩
  cases input with
  | plain raw => cases hvalue
  | secret reference' raw =>
    cases hvalue
    exact ⟨raw, rfl⟩

theorem refers_set {input : ConfigInput} (h : layer.set r key input = .ok after) (hr : Refers after name reference) :
    Refers layer name reference ∨ (r.parse key = some name ∧ ∃ raw, input = .secret reference raw) := by
  obtain ⟨name', st, hparse, rfl, hsecret⟩ := set_ok h
  rcases refers_insert hr with hold | ⟨rfl, hvalue⟩
  · exact .inl hold
  · exact .inr ⟨hparse, hsecret reference hvalue⟩

omit [DecidableEq ν] in
theorem refers_unset (h : layer.unset r key = .ok after) (hr : Refers after name reference) :
    Refers layer name reference := by
  simp only [unset, bind_ok, pure_ok] at h
  obtain ⟨_, -, rfl⟩ := h
  exact refers_erase hr

theorem refers_setAll {changes : List (String × String)} (h : setAll r changes layer = .ok after)
    (hr : Refers after name reference) : Refers layer name reference := by
  induction changes generalizing layer with
  | nil =>
    cases h
    exact hr
  | cons change changes ih =>
    simp only [setAll, bind_ok] at h
    obtain ⟨mid, hmid, h⟩ := h
    rcases refers_set hmid (ih h) with hold | ⟨-, raw, heq⟩
    · exact hold
    · cases heq

theorem refers_restore {row : Setting} (h : layer.restore r key row = .ok after) (hr : Refers after name reference) :
    Refers layer name reference ∨ (name = key ∧ row.secret = true ∧ row.value = reference) := by
  simp only [restore, bind_ok, demand_ok, decide_eq_true_eq] at h
  obtain ⟨-, hkey, h⟩ := h
  split at h
  · next hsecret =>
    simp only [restoreSecret, bind_ok, demand_ok, pure_ok] at h
    obtain ⟨-, -, name', hname, -, -, -, -, rfl⟩ := h
    rcases refers_insert hr with hold | ⟨rfl, hvalue⟩
    · exact .inl hold
    · cases hvalue
      exact .inr ⟨Option.some.inj ((writableKey_ok hname).symm.trans hkey), hsecret, rfl⟩
  · rcases refers_set h hr with hold | ⟨-, raw, heq⟩
    · exact .inl hold
    · cases heq

theorem refers_restoreAll {l : List (Sigma fun _ : String × String => Setting)} (h : restoreAll r layer l = .ok after)
    (hr : Refers after name reference) :
    Refers layer name reference ∨ ∃ e ∈ l, e.1.2 = name ∧ e.2.secret = true ∧ e.2.value = reference := by
  induction l generalizing layer with
  | nil =>
    cases h
    exact .inl hr
  | cons e l ih =>
    simp only [restoreAll, bind_ok] at h
    obtain ⟨mid, hmid, h⟩ := h
    rcases ih h with hmiddle | ⟨e', he', hfound⟩
    · rcases refers_restore hmid hmiddle with hold | ⟨rfl, hfound⟩
      · exact .inl hold
      · exact .inr ⟨e, List.mem_cons_self, rfl, hfound⟩
    · exact .inr ⟨e', List.mem_cons_of_mem _ he', hfound⟩

end Layer

namespace Store

variable {ν : Type} [DecidableEq ν] {r : Rules ν} {s t : Store} {server id : String} {layer : Layer ν}

/-- The setting under `k` is a reference to `id`. -/
def Refers (s : Store) (k : String × String) (id : String) : Prop :=
  ∃ row, s.settings.lookup k = some row ∧ row.secret = true ∧ row.value = id

theorem referenced_iff : s.referenced id = true ↔ ∃ k, s.Refers k id := by
  unfold referenced Refers
  rw [List.any_eq_true]
  constructor
  · rintro ⟨row, hin, hrow⟩
    obtain ⟨k, hk⟩ := Table.mem_values.mp hin
    simp only [Bool.and_eq_true, decide_eq_true_eq] at hrow
    exact ⟨k, row, hk, hrow⟩
  · rintro ⟨k, row, hk, hsecret, hvalue⟩
    exact ⟨row, Table.mem_values.mpr ⟨k, hk⟩, by simp [hsecret, hvalue]⟩

theorem load_refers {name : String} (h : s.load r server = .ok layer) (hr : Layer.Refers layer name id) :
    s.Refers (server, name) id := by
  rcases Layer.refers_restoreAll h hr with ⟨_, hnone, -⟩ | ⟨⟨⟨server', name'⟩, row⟩, hin, rfl, hfound⟩
  · cases hnone
  · obtain ⟨hentry, hserver⟩ := List.mem_filter.mp hin
    have heq : server' = server := of_decide_eq_true hserver
    subst heq
    exact ⟨row, AList.mem_lookup_iff.mpr hentry, hfound⟩

theorem deleteSettings_lookup (s : Store) (server : String) (k : String × String) :
    (s.deleteSettings server).settings.lookup k = if k.1 = server then none else s.settings.lookup k := by
  apply Option.ext
  intro row
  rw [← Option.mem_def, AList.mem_lookup_iff]
  simp only [deleteSettings, List.mem_filter, decide_eq_true_eq]
  rw [← AList.mem_lookup_iff, Option.mem_def]
  split <;> simp_all

theorem deleteSettings_refers {k : String × String} (h : (s.deleteSettings server).Refers k id) :
    s.Refers k id ∧ k.1 ≠ server := by
  obtain ⟨row, hrow, hfound⟩ := h
  rw [deleteSettings_lookup] at hrow
  split at hrow
  · cases hrow
  · next hne => exact ⟨⟨row, hrow, hfound⟩, hne⟩

-- ---------------------------------------------------------------------------
-- What each transaction leaves of the settings and their credentials
-- ---------------------------------------------------------------------------

/-- The settings refer to active credentials. -/
def Backed (s : Store) : Prop :=
  ∀ k id, s.Refers k id → ∃ c, s.credentials.lookup id = some c ∧ c.state = .active

/-- An active credential is referred to. -/
def Tidy (s : Store) : Prop :=
  ∀ id c, s.credentials.lookup id = some c → c.state = .active → s.referenced id = true

def Managed (s : Store) : Prop := ∀ id c, s.credentials.lookup id = some c → c.managed = true

theorem backed_retireUnreferenced (h : s.Backed) : s.retireUnreferenced.Backed := by
  intro k id hr
  have hold : s.Refers k id := hr
  obtain ⟨c, hc, hactive⟩ := h k id hold
  have hreferenced : s.referenced id = true := referenced_iff.mpr ⟨k, hold⟩
  refine ⟨c, ?_, hactive⟩
  simp [retireUnreferenced, Table.lookup_update, hc, hreferenced]

theorem tidy_retireUnreferenced (h : s.Managed) : s.retireUnreferenced.Tidy := by
  intro id c hc hactive
  simp only [retireUnreferenced, Table.lookup_update, Option.map_eq_some_iff] at hc
  obtain ⟨old, hold, rfl⟩ := hc
  have hmanaged := h id old hold
  by_contra hne
  rw [Bool.not_eq_true] at hne
  have hnot : s.referenced id = false := hne
  cases hstate : old.state <;> simp [hmanaged, hnot, hstate] at hactive

theorem backed_deleteSettings (h : s.Backed) : (s.deleteSettings server).Backed :=
  fun k id hr => h k id (deleteSettings_refers hr).1

omit [DecidableEq ν] in
theorem saveSetting_refers {key : String} {setting : StoredSetting ν} (h : s.saveSetting r server key setting = .ok t)
    {k : String × String} (hr : t.Refers k id) :
    s.Refers k id ∨ (k = (server, key) ∧ setting.value = .secret id) := by
  obtain ⟨row, hrow, hsecret, hid⟩ := hr
  unfold saveSetting at h
  split at h
  · cases h
    rw [Table.lookup_insert_if] at hrow
    split at hrow
    · cases hrow
      cases hsecret
    · exact .inl ⟨row, hrow, hsecret, hid⟩
  · next reference hvalue =>
    split at h
    · split at h <;> cases h
      rw [Table.lookup_insert_if] at hrow
      split at hrow
      · next heq =>
        cases hrow
        exact .inr ⟨heq, hid ▸ hvalue⟩
      · exact .inl ⟨row, hrow, hsecret, hid⟩
    · cases h

omit [DecidableEq ν] in
theorem backed_saveSetting {key : String} {setting : StoredSetting ν} (hs : s.Backed)
    (h : s.saveSetting r server key setting = .ok t) : t.Backed := by
  intro k id hr
  have hcases := saveSetting_refers h hr
  unfold saveSetting at h
  split at h
  · next value hvalue =>
    cases h
    rcases hcases with hold | ⟨-, hsecret⟩
    · exact hs k id hold
    · rw [hvalue] at hsecret
      cases hsecret
  · next reference hvalue =>
    split at h
    · next c hc =>
      split at h <;> cases h
      by_cases heq : id = reference
      · subst heq
        exact ⟨_, AList.lookup_insert _, rfl⟩
      · rcases hcases with hold | ⟨-, hsecret⟩
        · obtain ⟨c', hc', hactive⟩ := hs k id hold
          exact ⟨c', (AList.lookup_insert_ne heq).trans hc', hactive⟩
        · rw [hvalue] at hsecret
          cases hsecret
          exact absurd rfl heq
    · cases h

omit [DecidableEq ν] in
theorem saveSettings_refers {l : List (Sigma fun _ : String => StoredSetting ν)} (h : saveSettings r server s l = .ok t)
    {k : String × String} (hr : t.Refers k id) :
    s.Refers k id ∨ ∃ e ∈ l, k = (server, e.1) ∧ e.2.value = .secret id := by
  induction l generalizing s with
  | nil =>
    cases h
    exact .inl hr
  | cons e l ih =>
    simp only [saveSettings, bind_ok] at h
    obtain ⟨u, hu, h⟩ := h
    rcases ih h with hmiddle | ⟨e', he', hfound⟩
    · rcases saveSetting_refers hu hmiddle with hold | hnew
      · exact .inl hold
      · exact .inr ⟨e, List.mem_cons_self, hnew⟩
    · exact .inr ⟨e', List.mem_cons_of_mem _ he', hfound⟩

omit [DecidableEq ν] in
theorem backed_saveSettings {l : List (Sigma fun _ : String => StoredSetting ν)} (hs : s.Backed)
    (h : saveSettings r server s l = .ok t) : t.Backed := by
  induction l generalizing s with
  | nil =>
    cases h
    exact hs
  | cons e l ih =>
    simp only [saveSettings, bind_ok] at h
    obtain ⟨u, hu, h⟩ := h
    exact ih (backed_saveSetting hs hu) h

omit [DecidableEq ν] in
theorem save_refers (h : s.save r server layer = .ok t) {k : String × String} (hr : t.Refers k id) :
    (s.Refers k id ∧ k.1 ≠ server) ∨ (k.1 = server ∧ Layer.Refers layer k.2 id) := by
  simp only [save, bind_ok, pure_ok] at h
  obtain ⟨u, hu, rfl⟩ := h
  rcases saveSettings_refers hu hr with hold | ⟨e, he, rfl, hvalue⟩
  · exact .inl (deleteSettings_refers hold)
  · exact .inr ⟨rfl, e.2, AList.mem_lookup_iff.mpr he, hvalue⟩

omit [DecidableEq ν] in
theorem backed_save (hs : s.Backed) (h : s.save r server layer = .ok t) : t.Backed := by
  simp only [save, bind_ok, pure_ok] at h
  obtain ⟨u, hu, rfl⟩ := h
  exact backed_retireUnreferenced (backed_saveSettings (backed_deleteSettings hs) hu)

omit [DecidableEq ν] in
theorem tidy_save (hs : s.Managed) (h : s.save r server layer = .ok t) : t.Tidy := by
  simp only [save, bind_ok, pure_ok] at h
  obtain ⟨u, hu, rfl⟩ := h
  refine tidy_retireUnreferenced fun id c hc => ?_
  have hfade : Fade (fun _ => False) (s.deleteSettings server) u := fade_saveSettings hu
  obtain ⟨old, hold, hmanaged, -⟩ := hfade.credentials id c (fun hf => hf) hc
  exact hmanaged.trans (hs id old hold)

omit [DecidableEq ν] in
theorem saveSettings_other {l : List (Sigma fun _ : String => StoredSetting ν)} (h : saveSettings r server s l = .ok t)
    {k : String × String} (hne : k.1 ≠ server) : t.settings.lookup k = s.settings.lookup k := by
  induction l generalizing s with
  | nil =>
    cases h
    rfl
  | cons e l ih =>
    simp only [saveSettings, bind_ok] at h
    obtain ⟨u, hu, h⟩ := h
    refine (ih h).trans ?_
    have hkey : k ≠ (server, e.1) := by
      rintro rfl
      exact hne rfl
    unfold saveSetting at hu
    split at hu
    · cases hu
      exact AList.lookup_insert_ne hkey
    · split at hu
      · split at hu <;> cases hu
        exact AList.lookup_insert_ne hkey
      · cases hu

omit [DecidableEq ν] in
/-- The settings of other servers stay. -/
theorem save_other (h : s.save r server layer = .ok t) {k : String × String} (hne : k.1 ≠ server) :
    t.settings.lookup k = s.settings.lookup k := by
  simp only [save, bind_ok, pure_ok] at h
  obtain ⟨u, hu, rfl⟩ := h
  have hsettings := saveSettings_other hu hne
  rw [deleteSettings_lookup, if_neg hne] at hsettings
  exact hsettings

end Store

/-- Retiring what is pending leaves what is active. -/
theorem retire_active {credentials : Table String Credential} {p : String → Credential → Bool}
    (hp : ∀ id c, p id c = true → c.state = .pending) {id : String} {c : Credential} (hactive : c.state = .active) :
    (credentials.update fun id c => if p id c then { c with state := .retired } else c).lookup id = some c ↔
      credentials.lookup id = some c := by
  rw [Table.lookup_update, Option.map_eq_some_iff]
  constructor
  · rintro ⟨old, hold, heq⟩
    split at heq
    · subst heq
      cases hactive
    · exact heq ▸ hold
  · intro hc
    refine ⟨c, hc, if_neg fun hpending => ?_⟩
    rw [hp id c hpending] at hactive
    cases hactive

namespace Keyring

variable {ν : Type} [DecidableEq ν]

-- ---------------------------------------------------------------------------
-- Updates
-- ---------------------------------------------------------------------------

/-- The update of a server's settings that an event is. -/
inductive Update (r : Rules ν) (s : Keyring) :
    KeyringEvent → String → Nat → (Layer ν → Except ClientError (Layer ν)) → Prop
  | setMany : Update r s (.setMany server changes expected) server expected (setAll r changes)
  | unset : Update r s (.unset server key expected) server expected fun layer => layer.unset r key
  | setSecret (hw : s.writers.lookup n = some w) (hpurpose : w.purpose = .secret server key expected)
    (hphase : w.phase = .stored) :
    Update r s (.writer n .commit) server expected fun layer => layer.set r key (.secret w.reference w.value)

/-- The update is accepted, and the settings are not what they were. -/
def Changes (r : Rules ν) (s : Keyring) (e : KeyringEvent) (server : String) (store : Store) : Prop :=
  ∃ expected change k before after, Update r s e server expected change ∧
    s.store.updateConfig r server expected change = .ok (k, store) ∧ s.store.load r server = .ok before ∧
    change before = .ok after ∧ before.same after = false

variable {r : Rules ν} {s t : Keyring} {e : KeyringEvent} {store : Store}

/-- A step is an update, or leaves the settings and the credentials they refer to. -/
inductive Setup (r : Rules ν) (s : Keyring) (e : KeyringEvent) (store : Store) : Prop
  | update (hu : Update r s e server expected change)
    (h : s.store.updateConfig r server expected change = .ok (k, store))
  | removeServer (he : e = .removeServer server) (h : store = s.store.removeServer server)
  | saveConnection (he : e = .saveConnection server) (h : store = s.store.saveConnection server)
  | rest (hsettings : store.settings = s.store.settings) (hrevisions : store.revisions = s.store.revisions)
    (hcredentials : ∀ id c, c.state = .active → (store.credentials.lookup id = some c ↔
      s.store.credentials.lookup id = some c))

variable {server id : String} {expected : Nat} {change : Layer ν → Except ClientError (Layer ν)}

theorem Transaction.setup (ht : Transaction r s e store) (h : s.Orderly) : Setup r s e store := by
  cases ht with
  | none => exact .rest rfl rfl fun _ _ _ => .rfl
  | tick => exact .rest rfl rfl fun _ _ _ => .rfl
  | saveConnection hnew hrevision => exact .saveConnection rfl rfl
  | removeServer => exact .removeServer rfl rfl
  | forgetPassword => exact .rest rfl rfl fun _ _ _ => .rfl
  | setMany h => exact .update .setMany h
  | unset h => exact .update .unset h
  | setSecret hw hpurpose hphase h => exact .update (.setSecret hw hpurpose hphase) h
  | activate hw hpurpose hphase h =>
    obtain ⟨-, -, _, -, -, -, rfl⟩ := activate_ok h
    exact .rest rfl rfl fun _ _ _ => .rfl
  | reserveSsh hw hpurpose hphase h =>
    obtain ⟨-, rfl⟩ := fade_reserveSsh h
    exact .rest rfl rfl fun _ _ _ => .rfl
  | reserve hw hpurpose hphase =>
    refine .rest rfl rfl fun id c hactive => ?_
    simp only [reserveCredential]
    rw [Table.lookup_insert_if]
    split
    · next heq =>
      -- The writer's own row is not there yet.
      subst heq
      constructor
      · intro hc
        cases hc
        cases hactive
      · intro hc
        have hlate := (h.holder hw hc).2
        rw [hphase] at hlate
        cases hlate
    · rfl
  | retire hw =>
    unfold retired
    split
    · exact .rest rfl rfl fun _ _ _ => .rfl
    · exact .rest rfl rfl fun id c hactive =>
        retire_active (p := fun k c => k = _ && c.managed && c.state = .pending) (by simp) hactive
  | retireStale hc =>
    exact .rest rfl rfl fun id c hactive =>
      retire_active (p := fun _ c => c.managed && c.state = .pending && s.store.stale c.created) (by simp_all) hactive
  | forget hc =>
    next credential _ =>
    cases credential with
    | environment k =>
      simp only [forgetRetiredCredential]
      split
      · next hretired =>
        refine .rest rfl rfl fun id c hactive => ?_
        rw [Table.lookup_erase_if]
        split
        · next heq =>
          subst heq
          constructor
          · intro hc
            cases hc
          · intro hc
            rw [hc] at hretired
            simp [hactive] at hretired
        · rfl
      · exact .rest rfl rfl fun _ _ _ => .rfl
    | ssh k =>
      simp only [forgetRetiredCredential]
      split <;> exact .rest rfl rfl fun _ _ _ => .rfl

end Keyring

end RemoteCodex.Credentials
