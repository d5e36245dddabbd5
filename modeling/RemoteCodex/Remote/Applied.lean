import RemoteCodex.Remote.Synchronize

/-!
# The applied revision

What the client has as applied is what the service accepted: the settings saved
under that revision, each secret as the vault had it, and the service runs what
the client would plan of them.
-/

namespace RemoteCodex.Remote.Synchronize

open Interact Config Server Credentials

variable {parseUrl : ParseUrl} {installation : String} {s t u : State} {e : Event} {h : List Event}

-- ---------------------------------------------------------------------------
-- States of a run
-- ---------------------------------------------------------------------------

/-- The run was in `t`. -/
def Was (parseUrl : ParseUrl) (installation : String) (h : List Event) (t : State) : Prop :=
  ∃ later earlier, h = later ++ earlier ∧ Run (State.next parseUrl installation) Free {} earlier t

/-- The server's settings were saved as this revision. -/
def SavedAs (parseUrl : ParseUrl) (installation : String) (h : List Event) (server : String) (revision : Nat)
    (layer : Layer Config.ConfigValue) : Prop :=
  ∃ t, Was parseUrl installation h t ∧
    t.keyring.store.configSnapshot (rules parseUrl) server = .ok (revision, layer)

/-- The vault had the value for the reference. -/
def Vaulted (parseUrl : ParseUrl) (installation : String) (h : List Event) (reference value : String) : Prop :=
  ∃ t, Was parseUrl installation h t ∧ t.keyring.vault.lookup reference = some value

/-- The configuration resolves the settings saved as its revision. -/
def Genuine (parseUrl : ParseUrl) (installation : String) (h : List Event) (server : String) (config : RemoteConfig) :
    Prop :=
  ∃ (revision : Nat) (layer : Layer Config.ConfigValue) (effective : EffectiveConfig), config.revision = revision ∧
    SavedAs parseUrl installation h server revision layer ∧ Config.resolve (clientLayer layer) = .ok effective ∧
    Resolves (Vaulted parseUrl installation h) (sentEntries effective) config.values

theorem Was.cons (hw : Was parseUrl installation h t) (e : Event) : Was parseUrl installation (e :: h) t := by
  obtain ⟨later, earlier, rfl, hrun⟩ := hw
  exact ⟨e :: later, earlier, rfl, hrun⟩

theorem Was.now (hrun : Run (State.next parseUrl installation) Free {} h s) : Was parseUrl installation h s :=
  ⟨[], h, rfl, hrun⟩

theorem SavedAs.cons {server : String} {revision : Nat} {layer : Layer Config.ConfigValue}
    (hs : SavedAs parseUrl installation h server revision layer) (e : Event) :
    SavedAs parseUrl installation (e :: h) server revision layer := by
  obtain ⟨t, hw, hsnapshot⟩ := hs
  exact ⟨t, hw.cons e, hsnapshot⟩

theorem Vaulted.cons {reference value : String} (hv : Vaulted parseUrl installation h reference value) (e : Event) :
    Vaulted parseUrl installation (e :: h) reference value := by
  obtain ⟨t, hw, hvalue⟩ := hv
  exact ⟨t, hw.cons e, hvalue⟩

theorem Genuine.cons {server : String} {config : RemoteConfig} (hg : Genuine parseUrl installation h server config)
    (e : Event) : Genuine parseUrl installation (e :: h) server config := by
  obtain ⟨revision, layer, effective, hrevision, hsaved, hresolve, hres⟩ := hg
  exact ⟨revision, layer, effective, hrevision, hsaved.cons e, hresolve, hres.mono fun _ _ hv => hv.cons e⟩

theorem profileOf_injective {a b : String} (h : profileOf installation a = profileOf installation b) : a = b := by
  unfold profileOf at h
  have htext := congrArg String.toList h
  simp only [String.toList_append] at htext
  exact String.toList_injective (List.append_cancel_left htext)

theorem startsWith_profileOf (server : String) : startsWith (installation ++ "/") (profileOf installation server) = true :=
  ConfigKey.startsWith_append _ _

-- ---------------------------------------------------------------------------
-- From one state to a later one
-- ---------------------------------------------------------------------------

def State.applied (s : State) (server : String) : Option Nat := (s.access.lookup server).bind Access.applied

/-- What holds of the database and the vault in every state. -/
structure Base (s : State) : Prop where
  orderly : s.keyring.Orderly
  vouched : s.keyring.Vouched
  used : ∀ server ∈ s.keyring.store.connections, server ∈ s.used
  access : ∀ server row, s.access.lookup server = some row → server ∈ s.keyring.store.connections

/-- What a later state keeps. -/
structure Since (s t : State) : Prop where
  used : ∀ server ∈ s.used, server ∈ t.used
  gone : ∀ server ∈ s.used, server ∉ s.keyring.store.connections → server ∉ t.keyring.store.connections
  onward : ∀ server ∈ s.keyring.store.connections, Store.Onward s.keyring.store t.keyring.store server
  written : ∀ reference value, s.keyring.Written reference value → t.keyring.Written reference value
  applied : ∀ server a, s.applied server = some a → server ∈ t.keyring.store.connections →
    ∃ b, t.applied server = some b ∧ a ≤ b

theorem Since.refl (s : State) : Since s s where
  used _ hin := hin
  gone _ _ hout := hout
  onward _ hin := .same hin rfl rfl
  written _ _ hw := hw
  applied _ a ha _ := ⟨a, ha, Nat.le_refl a⟩

theorem Since.trans (hs : Base s) (hst : Since s t) (htu : Since t u) : Since s u where
  used server hin := htu.used server (hst.used server hin)
  gone server hin hout := htu.gone server (hst.used server hin) (hst.gone server hin hout)
  onward server hin := by
    have hused := hst.used server (hs.used server hin)
    by_cases hmid : server ∈ t.keyring.store.connections
    · exact (hst.onward server hin).trans (htu.onward server hmid) fun hout => absurd hmid hout
    · exact .gone (htu.gone server hused hmid)
  written reference value hw := htu.written _ _ (hst.written _ _ hw)
  applied server a ha hin := by
    obtain ⟨row, hrow, -⟩ := Option.bind_eq_some_iff.mp ha
    have hused := hst.used server (hs.used server (hs.access server row hrow))
    have hmid : server ∈ t.keyring.store.connections := by
      by_contra hout
      exact htu.gone server hused hout hin
    obtain ⟨b, hb, hab⟩ := hst.applied server a ha hmid
    obtain ⟨c, hc, hbc⟩ := htu.applied server b hb hin
    exact ⟨c, hc, Nat.le_trans hab hbc⟩

/-- A step that leaves the database and the vault. -/
theorem Since.same (hkeyring : t.keyring = s.keyring) (hused : t.used = s.used) (haccess : t.access = s.access) :
    Since s t := by
  have hs := Since.refl s
  constructor
  · rw [hused]
    exact hs.used
  · rw [hkeyring]
    exact hs.gone
  · rw [hkeyring]
    exact hs.onward
  · rw [hkeyring]
    exact hs.written
  · unfold State.applied
    rw [hkeyring, haccess]
    exact hs.applied

theorem Base.same (hs : Base s) (hkeyring : t.keyring = s.keyring) (hused : t.used = s.used)
    (haccess : t.access = s.access) : Base t := by
  constructor
  · rw [hkeyring]
    exact hs.orderly
  · rw [hkeyring]
    exact hs.vouched
  · rw [hkeyring, hused]
    exact hs.used
  · rw [hkeyring, haccess]
    exact hs.access

-- ---------------------------------------------------------------------------
-- Steps of the database
-- ---------------------------------------------------------------------------

/-- The identities and the access rows after a step of the keyring. -/
inductive Rows (s t : State) : KeyringEvent → Prop
  | saved {server : String} (hnew : server ∉ s.used) (hused : t.used = server :: s.used) (haccess : t.access = s.access) :
    Rows s t (.saveConnection server)
  | removed {server : String} (hused : t.used = s.used) (haccess : t.access = s.access.erase server) :
    Rows s t (.removeServer server)
  | kept {e : KeyringEvent} (hsave : ∀ server, e ≠ .saveConnection server) (hremove : ∀ server, e ≠ .removeServer server)
    (hused : t.used = s.used) (haccess : t.access = s.access) : Rows s t e

theorem keyringNext_ok {e : KeyringEvent} (h : s.keyringNext parseUrl e = some t) :
    s.keyring.next (rules parseUrl) e = some t.keyring ∧ t.tasks = s.tasks ∧ t.sent = s.sent ∧
      t.remotes = s.remotes ∧ Rows s t e := by
  unfold State.keyringNext at h
  split at h
  · cases h
  · next keyring hnext =>
    split at h
    · next server =>
      split at h
      · cases h
      · next hnew =>
        obtain rfl := Option.some.inj h
        exact ⟨hnext, rfl, rfl, rfl, .saved hnew rfl rfl⟩
    · obtain rfl := Option.some.inj h
      exact ⟨hnext, rfl, rfl, rfl, .removed rfl rfl⟩
    · next hsave hremove =>
      obtain rfl := Option.some.inj h
      exact ⟨hnext, rfl, rfl, rfl, .kept hsave hremove rfl rfl⟩

theorem removed_disconnected {k l : Keyring} {server : String}
    (h : k.next (rules parseUrl) (.removeServer server) = some l) : server ∉ l.store.connections := by
  cases h
  simp [Store.removeServer, Store.retireUnreferenced]

theorem Base.keyring (hs : Base s) {e : KeyringEvent} (h : s.keyringNext parseUrl e = some t) : Base t := by
  obtain ⟨hnext, -, -, -, hrows⟩ := keyringNext_ok h
  have ht := Keyring.transaction_next hnext
  constructor
  · exact Keyring.orderly_next hs.orderly hnext
  · exact Keyring.vouched_next hs.vouched hnext
  · intro server hin
    rcases ht.joined hin with hin | rfl
    · cases hrows with
      | saved hnew hused haccess => exact hused ▸ List.mem_cons_of_mem _ (hs.used server hin)
      | removed hused haccess => exact hused ▸ hs.used server hin
      | kept hsave hremove hused haccess => exact hused ▸ hs.used server hin
    · cases hrows with
      | saved hnew hused haccess => exact hused ▸ List.mem_cons_self
      | kept hsave hremove hused haccess => exact absurd rfl (hsave server)
  · intro server row hrow
    have hold : s.access.lookup server = some row ∧ e ≠ .removeServer server := by
      cases hrows with
      | saved hnew hused haccess => exact ⟨haccess ▸ hrow, nofun⟩
      | removed hused haccess =>
        next other =>
        rw [haccess, Table.lookup_erase_if] at hrow
        split at hrow
        · cases hrow
        · next hne =>
          refine ⟨hrow, fun heq => ?_⟩
          cases heq
          exact hne rfl
      | kept hsave hremove hused haccess => exact ⟨haccess ▸ hrow, hremove server⟩
    rcases ht.connected (hs.access server row hold.1) with hin | heq
    · exact hin
    · exact absurd heq hold.2

theorem Since.keyring (hs : Base s) {e : KeyringEvent} (h : s.keyringNext parseUrl e = some t) : Since s t := by
  obtain ⟨hnext, -, -, -, hrows⟩ := keyringNext_ok h
  have ht := Keyring.transaction_next hnext
  constructor
  · intro server hin
    cases hrows with
    | saved hnew hused haccess => exact hused ▸ List.mem_cons_of_mem _ hin
    | removed hused haccess => exact hused ▸ hin
    | kept hsave hremove hused haccess => exact hused ▸ hin
  · intro server hin hout hjoined
    rcases ht.joined hjoined with hin' | rfl
    · exact hout hin'
    · cases hrows with
      | saved hnew hused haccess => exact hnew hin
      | kept hsave hremove hused haccess => exact hsave server rfl
  · exact fun server hin => Keyring.onward_next hs.orderly hnext hin
  · exact fun reference value hw => hw.next hnext
  · intro server a ha hin
    refine ⟨a, ?_, Nat.le_refl a⟩
    unfold State.applied at ha ⊢
    cases hrows with
    | saved hnew hused haccess => exact haccess ▸ ha
    | removed hused haccess =>
      next other =>
      have hne : server ≠ other := by
        rintro rfl
        exact removed_disconnected hnext hin
      rw [haccess, Table.lookup_erase_if, if_neg hne]
      exact ha
    | kept hsave hremove hused haccess => exact haccess ▸ ha

-- ---------------------------------------------------------------------------
-- The acknowledgement
-- ---------------------------------------------------------------------------

/-- An acknowledgement does nothing, or writes the row of a known server, which
had no later revision and no other identity. -/
theorem acknowledge_cases (s : State) (task : Task) (revision : Nat) :
    s.acknowledge task revision = s ∨
      (task.server ∈ s.keyring.store.connections ∧ (∀ a, s.applied task.server = some a → a ≤ revision) ∧
        s.acknowledge task revision =
          { s with access := s.access.insert task.server ⟨some revision, some task.identity⟩ }) := by
  unfold State.acknowledge
  split
  · next hin =>
    simp only
    split
    · split
      · next happlied =>
        refine .inr ⟨hin, ?_, rfl⟩
        intro a ha
        obtain ⟨row, hrow, hrowApplied⟩ := Option.bind_eq_some_iff.mp ha
        rw [hrow, Option.getD_some, hrowApplied] at happlied
        simpa using happlied
      · exact .inl rfl
    · exact .inl rfl
  · exact .inl rfl

theorem Base.acknowledge (hs : Base s) (task : Task) (revision : Nat) : Base (s.acknowledge task revision) := by
  rcases acknowledge_cases s task revision with heq | ⟨hin, -, heq⟩
  · rw [heq]
    exact hs
  · rw [heq]
    refine ⟨hs.orderly, hs.vouched, hs.used, ?_⟩
    intro server row hrow
    rw [Table.lookup_insert_if] at hrow
    split at hrow
    · next hserver => exact hserver ▸ hin
    · exact hs.access server row hrow

theorem Since.acknowledge (s : State) (task : Task) (revision : Nat) : Since s (s.acknowledge task revision) := by
  rcases acknowledge_cases s task revision with heq | ⟨-, hle, heq⟩
  · rw [heq]
    exact .refl s
  · rw [heq]
    have hs := Since.refl s
    refine ⟨hs.used, hs.gone, hs.onward, hs.written, ?_⟩
    intro server a ha _
    unfold State.applied
    rw [Table.lookup_insert_if]
    split
    · next hserver => exact ⟨revision, rfl, hle a (hserver ▸ ha)⟩
    · exact ⟨a, ha, Nat.le_refl a⟩

-- ---------------------------------------------------------------------------
-- One step
-- ---------------------------------------------------------------------------

theorem remoteNext_ok {identity : String} {e : Profiles.Event} (h : s.remoteNext parseUrl identity e = some t) :
    ∃ remote remote', s.remotes.lookup identity = some remote ∧ remote.next parseUrl e = some remote' ∧
      t = { s with remotes := s.remotes.insert identity remote' } := by
  unfold State.remoteNext at h
  split at h
  · cases h
  · next remote hremote =>
    obtain ⟨remote', hnext, rfl⟩ := Option.map_eq_some_iff.mp h
    exact ⟨remote, remote', hremote, hnext, rfl⟩

theorem base_next (hs : Base s) (h : s.next parseUrl installation e = some t) : Base t ∧ Since s t := by
  have hsame : ∀ u : State, u.keyring = s.keyring → u.used = s.used → u.access = s.access → Base u ∧ Since s u :=
    fun u hkeyring hused haccess => ⟨hs.same hkeyring hused haccess, .same hkeyring hused haccess⟩
  cases e with
  | keyring e => exact ⟨hs.keyring h, .keyring hs h⟩
  | attach n server identity =>
    simp only [State.next] at h
    split at h
    · obtain rfl := Option.some.inj h
      exact hsame _ rfl rfl rfl
    · cases h
  | task n step =>
    obtain ⟨task, -, h⟩ := Option.bind_eq_some_iff.mp h
    cases step with
    | acknowledge =>
      simp only [State.taskNext] at h
      split at h
      · next revision _ =>
        obtain rfl := Option.some.inj h
        have ha := hs.acknowledge task revision
        exact ⟨ha.same rfl rfl rfl, (Since.acknowledge s task revision).trans hs (.same rfl rfl rfl)⟩
      · cases h
    | cancel =>
      obtain rfl := Option.some.inj h
      exact hsame _ rfl rfl rfl
    | _ =>
      simp only [State.taskNext] at h
      repeat' (split at h)
      all_goals first | (obtain rfl := Option.some.inj h; exact hsame _ rfl rfl rfl) | cases h
  | arrive i =>
    simp only [State.next] at h
    split at h
    · obtain ⟨remote, remote', -, -, rfl⟩ := remoteNext_ok h
      exact hsame _ rfl rfl rfl
    · cases h
  | lose i =>
    obtain rfl := Option.some.inj h
    exact hsame _ rfl rfl rfl
  | install identity inherited =>
    simp only [State.next] at h
    split at h
    · obtain rfl := Option.some.inj h
      exact hsame _ rfl rfl rfl
    · cases h
  | remote identity e =>
    simp only [State.next] at h
    split at h
    · obtain ⟨remote, remote', -, -, rfl⟩ := remoteNext_ok h
      exact hsame _ rfl rfl rfl
    · cases h

theorem base_start : Base {} where
  orderly := Keyring.orderly_start
  vouched _ _ hvalue := by cases hvalue
  used _ hin := by cases hin
  access _ _ hrow := by cases hrow

theorem base_run (hs : Base s) (hrun : Run (State.next parseUrl installation) Free s h t) : Base t ∧ Since s t := by
  induction hrun with
  | start => exact ⟨hs, .refl s⟩
  | step _ _ hnext ih =>
    obtain ⟨ht, hst⟩ := ih
    obtain ⟨hu, htu⟩ := base_next ht hnext
    exact ⟨hu, hst.trans hs htu⟩

-- ---------------------------------------------------------------------------
-- Where configurations come from
-- ---------------------------------------------------------------------------

/-- A configuration under a profile of this installation is genuine. -/
def Own (parseUrl : ParseUrl) (installation : String) (h : List Event) (id : String) (config : RemoteConfig) : Prop :=
  ∀ server, id = profileOf installation server → Genuine parseUrl installation h server config

structure RemoteSound (parseUrl : ParseUrl) (installation : String) (h : List Event) (remote : Profiles.State) :
    Prop where
  sound : Profiles.Sound parseUrl remote
  highest : Profiles.Highest remote
  stocked : Profiles.Stocked parseUrl (Own parseUrl installation h) remote

/-- The installation `identity` has accepted the revision for the server. -/
def Accepted (installation : String) (s : State) (server identity : String) (revision : Nat) : Prop :=
  ∃ (remote : Profiles.State) (config : RemoteConfig), s.remotes.lookup identity = some remote ∧
    config.revision = revision ∧ (profileOf installation server, config) ∈ remote.accepted

def TaskSound (parseUrl : ParseUrl) (installation : String) (h : List Event) (s : State) (task : Task) : Prop :=
  match task.phase with
  | .reading revision todo values => ∃ layer effective read,
      SavedAs parseUrl installation h task.server revision layer ∧ Config.resolve (clientLayer layer) = .ok effective ∧
        sentEntries effective = read ++ todo ∧ Resolves (Vaulted parseUrl installation h) read values
  | .waiting revision values => Genuine parseUrl installation h task.server ⟨values, revision⟩
  | .answered revision => Accepted installation s task.server task.identity revision
  | _ => True

structure Sound (parseUrl : ParseUrl) (installation : String) (h : List Event) (s : State) : Prop where
  tasks : ∀ n task, s.tasks.lookup n = some task → TaskSound parseUrl installation h s task
  sent : ∀ request ∈ s.sent, ∃ server, request.profile = profileOf installation server ∧
    Genuine parseUrl installation h server request.config
  remotes : ∀ identity remote, s.remotes.lookup identity = some remote → RemoteSound parseUrl installation h remote
  applied : ∀ server row a, s.access.lookup server = some row → row.applied = some a →
    ∃ identity, row.identity = some identity ∧ Accepted installation s server identity a

/-- What was accepted stays accepted. -/
def Grown (s t : State) : Prop :=
  ∀ identity remote, s.remotes.lookup identity = some remote → ∃ remote', t.remotes.lookup identity = some remote' ∧
    ∀ x ∈ remote.accepted, x ∈ remote'.accepted

theorem Grown.same (hremotes : t.remotes = s.remotes) : Grown s t := by
  intro identity remote hremote
  exact ⟨remote, hremotes ▸ hremote, fun _ hin => hin⟩

theorem Accepted.grown {server identity : String} {revision : Nat} (ha : Accepted installation s server identity revision)
    (hg : Grown s t) : Accepted installation t server identity revision := by
  obtain ⟨remote, config, hremote, hrevision, hin⟩ := ha
  obtain ⟨remote', hremote', hgrown⟩ := hg identity remote hremote
  exact ⟨remote', config, hremote', hrevision, hgrown _ hin⟩

theorem TaskSound.cons {task : Task} (hs : TaskSound parseUrl installation h s task) (e : Event) (hg : Grown s t) :
    TaskSound parseUrl installation (e :: h) t task := by
  unfold TaskSound at hs ⊢
  split at hs
  · obtain ⟨layer, effective, read, hsaved, hresolve, hsplit, hres⟩ := hs
    exact ⟨layer, effective, read, hsaved.cons e, hresolve, hsplit, hres.mono fun _ _ hv => hv.cons e⟩
  · exact hs.cons e
  · exact hs.grown hg
  · trivial

theorem RemoteSound.cons {remote : Profiles.State} (hs : RemoteSound parseUrl installation h remote) (e : Event) :
    RemoteSound parseUrl installation (e :: h) remote where
  sound := hs.sound
  highest := hs.highest
  stocked := hs.stocked.mono fun _ _ hown server hid => (hown server hid).cons e

/-- What a step must show: of each part that it was there, or that it is sound. -/
theorem Sound.keep (hs : Sound parseUrl installation h s) (e : Event) (hg : Grown s t)
    (htasks : ∀ n task, t.tasks.lookup n = some task → s.tasks.lookup n = some task ∨
      TaskSound parseUrl installation (e :: h) t task)
    (hsent : ∀ request ∈ t.sent, request ∈ s.sent ∨ ∃ server, request.profile = profileOf installation server ∧
      Genuine parseUrl installation (e :: h) server request.config)
    (hremotes : ∀ identity remote, t.remotes.lookup identity = some remote → s.remotes.lookup identity = some remote ∨
      RemoteSound parseUrl installation (e :: h) remote)
    (haccess : ∀ server row, t.access.lookup server = some row → s.access.lookup server = some row ∨
      ∃ a identity, row = ⟨some a, some identity⟩ ∧ Accepted installation t server identity a) :
    Sound parseUrl installation (e :: h) t where
  tasks n task htask := by
    rcases htasks n task htask with hold | hnew
    · exact (hs.tasks n task hold).cons e hg
    · exact hnew
  sent request hin := by
    rcases hsent request hin with hold | hnew
    · obtain ⟨server, hprofile, hgenuine⟩ := hs.sent request hold
      exact ⟨server, hprofile, hgenuine.cons e⟩
    · exact hnew
  remotes identity remote hremote := by
    rcases hremotes identity remote hremote with hold | hnew
    · exact (hs.remotes identity remote hold).cons e
    · exact hnew
  applied server row a hrow happlied := by
    rcases haccess server row hrow with hold | ⟨b, identity, rfl, haccepted⟩
    · obtain ⟨identity, hidentity, haccepted⟩ := hs.applied server row a hold happlied
      exact ⟨identity, hidentity, haccepted.grown hg⟩
    · obtain rfl := Option.some.inj happlied
      exact ⟨identity, rfl, haccepted⟩

/-- Only task `n` changes, and its phase is sound. -/
theorem Sound.setTask (hs : Sound parseUrl installation h s) (e : Event) {n : Nat} {task : Task} {phase : Phase}
    (hphase : TaskSound parseUrl installation (e :: h) (s.setTask n task phase) { task with phase }) :
    Sound parseUrl installation (e :: h) (s.setTask n task phase) := by
  refine hs.keep e (.same rfl) ?_ (fun _ hin => .inl hin) (fun _ _ hremote => .inl hremote) fun _ _ hrow => .inl hrow
  intro m found hfound
  rw [State.setTask, Table.lookup_insert_if] at hfound
  split at hfound
  · obtain rfl := Option.some.inj hfound
    exact .inr hphase
  · exact .inl hfound

theorem Sound.taskNext (hs : Sound parseUrl installation h s)
    (hnow : Was parseUrl installation h s) {n : Nat} {task : Task} (htask : s.tasks.lookup n = some task)
    {step : TaskStep} (hnext : s.taskNext parseUrl installation n task step = some t) :
    Sound parseUrl installation (.task n step :: h) t := by
  have hold := (hs.tasks n task htask).cons (.task n step) (Grown.same (t := s) rfl)
  cases step with
  | snapshot =>
    simp only [State.taskNext] at hnext
    split at hnext
    · split at hnext
      · next revision todo hsnapshot =>
        obtain rfl := Option.some.inj hnext
        apply hs.setTask
        unfold State.snapshot at hsnapshot
        split at hsnapshot
        · cases hsnapshot
        · next layer hlayer =>
          split at hsnapshot
          · cases hsnapshot
          · next effective hresolve =>
            cases hsnapshot
            exact ⟨layer, effective, [], SavedAs.cons ⟨s, hnow, hlayer⟩ _, hresolve, rfl, .empty⟩
      · obtain rfl := Option.some.inj hnext
        exact hs.setTask _ trivial
    · cases hnext
  | read =>
    simp only [State.taskNext] at hnext
    split at hnext
    · next revision key value todo values hphase =>
      split at hnext
      · next raw hraw =>
        obtain rfl := Option.some.inj hnext
        apply hs.setTask
        unfold TaskSound at hold
        rw [hphase] at hold
        obtain ⟨layer, effective, read, hsaved, hresolve, hsplit, hres⟩ := hold
        refine ⟨layer, effective, read ++ [(key, value)], hsaved, hresolve, ?_, hres.insert ?_ ?_⟩
        · rw [hsplit, List.append_assoc]
          rfl
        · -- The keys of an effective configuration are distinct.
          intro e he heq
          have hin : e ∈ sentEntries effective := hsplit ▸ List.mem_append_left _ he
          have hdistinct : (sentEntries effective).Pairwise fun a b => a.1 < b.1 :=
            effective.ascending.sublist List.filter_sublist
          rw [hsplit] at hdistinct
          have hlt := (List.pairwise_append.mp hdistinct).2.2 e he (key, value) List.mem_cons_self
          rw [heq] at hlt
          exact lt_irrefl _ hlt
        · exact replaced_rawValue hraw fun reference hvault => Vaulted.cons ⟨s, hnow, hvault⟩ _
      · obtain rfl := Option.some.inj hnext
        exact hs.setTask _ trivial
    · cases hnext
  | send =>
    simp only [State.taskNext] at hnext
    split at hnext
    · next revision values hphase =>
      obtain rfl := Option.some.inj hnext
      unfold TaskSound at hold
      rw [hphase] at hold
      obtain ⟨layer, effective, read, hsaved, hresolve, hsplit, hres⟩ := hold
      have hgenuine : Genuine parseUrl installation (.task n .send :: h) task.server ⟨values, revision⟩ :=
        ⟨revision, layer, effective, rfl, hsaved, hresolve, by rw [hsplit, List.append_nil]; exact hres⟩
      refine hs.keep _ (.same rfl) ?_ ?_ (fun _ _ hremote => .inl hremote) fun _ _ hrow => .inl hrow
      · intro m found hfound
        rw [State.setTask, Table.lookup_insert_if] at hfound
        split at hfound
        · obtain rfl := Option.some.inj hfound
          exact .inr hgenuine
        · exact .inl hfound
      · intro request hin
        rcases List.mem_cons.mp hin with rfl | hin
        · exact .inr ⟨task.server, rfl, hgenuine⟩
        · exact .inl hin
    · cases hnext
  | answer =>
    simp only [State.taskNext] at hnext
    split at hnext
    · next revision values remote hphase hremote =>
      split at hnext
      · next hanswered =>
        obtain rfl := Option.some.inj hnext
        apply hs.setTask
        have hin := (hs.remotes task.identity remote hremote).stocked.answered hanswered rfl
        exact ⟨remote, ⟨values, revision⟩, hremote, rfl, hin⟩
      · cases hnext
    · cases hnext
  | acknowledge =>
    simp only [State.taskNext] at hnext
    split at hnext
    · next revision hphase =>
      obtain rfl := Option.some.inj hnext
      unfold TaskSound at hold
      rw [hphase] at hold
      have hremotes : (s.acknowledge task revision).remotes = s.remotes ∧
          (s.acknowledge task revision).tasks = s.tasks ∧ (s.acknowledge task revision).sent = s.sent := by
        rcases acknowledge_cases s task revision with heq | ⟨-, -, heq⟩
        · rw [heq]
          exact ⟨rfl, rfl, rfl⟩
        · rw [heq]
          exact ⟨rfl, rfl, rfl⟩
      have hg : Grown s ((s.acknowledge task revision).setTask n task .ended) := .same hremotes.1
      refine hs.keep _ hg ?_ ?_ ?_ ?_
      · intro m found hfound
        rw [State.setTask, Table.lookup_insert_if] at hfound
        split at hfound
        · obtain rfl := Option.some.inj hfound
          exact .inr trivial
        · exact .inl (hremotes.2.1 ▸ hfound)
      · exact fun request hin => .inl (hremotes.2.2 ▸ hin)
      · exact fun identity remote hremote => .inl (hremotes.1 ▸ hremote)
      · intro server row hrow
        rcases acknowledge_cases s task revision with heq | ⟨-, -, heq⟩
        · rw [heq] at hrow
          exact .inl hrow
        · rw [heq] at hrow
          rw [State.setTask, Table.lookup_insert_if] at hrow
          split at hrow
          · next hserver =>
            subst hserver
            obtain rfl := Option.some.inj hrow
            exact .inr ⟨revision, task.identity, rfl, hold.grown hg⟩
          · exact .inl hrow
    · cases hnext
  | cancel =>
    obtain rfl := Option.some.inj hnext
    exact hs.setTask _ trivial

theorem Sound.remoteNext (hs : Sound parseUrl installation h s) (event : Event) {identity : String} {e : Profiles.Event}
    (hnext : s.remoteNext parseUrl identity e = some t)
    (hnew : ∀ id config, e = .configure id config → Own parseUrl installation h id config) :
    Sound parseUrl installation (event :: h) t := by
  obtain ⟨remote, remote', hremote, hstep, rfl⟩ := remoteNext_ok hnext
  have hold := hs.remotes identity remote hremote
  have heffect := Profiles.effect hold.sound hstep
  refine hs.keep event ?_ (fun _ _ htask => .inl htask) (fun _ hin => .inl hin) ?_ fun _ _ hrow => .inl hrow
  · intro other found hfound
    by_cases heq : other = identity
    · subst heq
      obtain rfl := Option.some.inj (hremote.symm.trans hfound)
      refine ⟨remote', AList.lookup_insert _, fun x hin => ?_⟩
      cases heffect with
      | none hstored haccepted => exact haccepted ▸ hin
      | saved id config hfresh hstored haccepted => exact haccepted ▸ List.mem_cons_of_mem _ hin
      | refused id config fault hstored haccepted => exact haccepted ▸ hin
      | done id config hrow hstored haccepted => exact haccepted ▸ hin
    · exact ⟨found, (AList.lookup_insert_ne heq).trans hfound, fun _ hin => hin⟩
  · intro other found hfound
    rw [Table.lookup_insert_if] at hfound
    split at hfound
    · obtain rfl := Option.some.inj hfound
      exact .inr (RemoteSound.cons ⟨hold.sound.next hstep, hold.highest.effect heffect,
        hold.stocked.next hold.sound hold.highest hstep hnew⟩ event)
    · exact .inl hfound

theorem own_foreign {e : Profiles.Event} (hforeign : foreign installation e = true) (id : String) (config : RemoteConfig)
    (he : e = .configure id config) : Own parseUrl installation h id config := by
  subst he
  intro server hid
  subst hid
  simp [foreign, startsWith_profileOf] at hforeign

theorem Sound.next (hs : Sound parseUrl installation h s) (hnow : Was parseUrl installation h s)
    (hnext : s.next parseUrl installation e = some t) : Sound parseUrl installation (e :: h) t := by
  cases e with
  | keyring e =>
    obtain ⟨-, htasks, hsent, hremotes, hrows⟩ := keyringNext_ok hnext
    refine hs.keep _ (.same hremotes) (fun n task htask => .inl (htasks ▸ htask)) (fun _ hin => .inl (hsent ▸ hin))
      (fun _ _ hremote => .inl (hremotes ▸ hremote)) ?_
    intro server row hrow
    cases hrows with
    | saved hnew hused haccess => exact .inl (haccess ▸ hrow)
    | removed hused haccess =>
      rw [haccess, Table.lookup_erase_if] at hrow
      split at hrow
      · cases hrow
      · exact .inl hrow
    | kept hsave hremove hused haccess => exact .inl (haccess ▸ hrow)
  | attach n server identity =>
    simp only [State.next] at hnext
    split at hnext
    · obtain rfl := Option.some.inj hnext
      exact hs.setTask _ trivial
    · cases hnext
  | task n step =>
    obtain ⟨task, htask, hnext⟩ := Option.bind_eq_some_iff.mp hnext
    exact hs.taskNext hnow htask hnext
  | arrive i =>
    simp only [State.next] at hnext
    split at hnext
    · next request hrequest =>
      obtain ⟨server, hprofile, hgenuine⟩ := hs.sent request (List.mem_of_getElem? hrequest)
      have hless : Sound parseUrl installation h { s with sent := s.sent.eraseIdx i } :=
        ⟨hs.tasks, fun other hin => hs.sent other (List.mem_of_mem_eraseIdx hin), hs.remotes, hs.applied⟩
      refine hless.remoteNext _ hnext ?_
      intro id config heq other hid
      cases heq
      rw [← profileOf_injective (hprofile.symm.trans hid)]
      exact hgenuine
    · cases hnext
  | lose i =>
    obtain rfl := Option.some.inj hnext
    exact hs.keep _ (.same rfl) (fun _ _ htask => .inl htask) (fun _ hin => .inl (List.mem_of_mem_eraseIdx hin))
      (fun _ _ hremote => .inl hremote) fun _ _ hrow => .inl hrow
  | install identity inherited =>
    simp only [State.next] at hnext
    split at hnext
    · next hnone =>
      obtain rfl := Option.some.inj hnext
      refine hs.keep _ ?_ (fun _ _ htask => .inl htask) (fun _ hin => .inl hin) ?_ fun _ _ hrow => .inl hrow
      · intro other found hfound
        have hne : other ≠ identity := by
          rintro rfl
          rw [hnone] at hfound
          cases hfound
        exact ⟨found, (AList.lookup_insert_ne hne).trans hfound, fun _ hin => hin⟩
      · intro other found hfound
        rw [Table.lookup_insert_if] at hfound
        split at hfound
        · obtain rfl := Option.some.inj hfound
          exact .inr ⟨.fresh inherited, .fresh inherited, .fresh inherited⟩
        · exact .inl hfound
    · cases hnext
  | remote identity e =>
    simp only [State.next] at hnext
    split at hnext
    · next hforeign => exact hs.remoteNext _ hnext (own_foreign hforeign)
    · cases hnext

theorem sound_run (hrun : Run (State.next parseUrl installation) Free {} h s) : Sound parseUrl installation h s := by
  induction hrun with
  | start =>
    constructor
    · intro n task htask
      cases htask
    · intro request hin
      cases hin
    · intro identity remote hremote
      cases hremote
    · intro server row a hrow
      cases hrow
  | step hrun _ hnext ih => exact ih.next (.now hrun) hnext

-- ---------------------------------------------------------------------------
-- Two states of a run
-- ---------------------------------------------------------------------------

theorem Was.base (hw : Was parseUrl installation h t) : Base t := by
  obtain ⟨_, _, -, hrun⟩ := hw
  exact (base_run base_start hrun).1

theorem Was.since (hrun : Run (State.next parseUrl installation) Free {} h s) (hw : Was parseUrl installation h t) :
    Since t s := by
  have hbase := hw.base
  obtain ⟨later, earlier, rfl, ht⟩ := hw
  obtain ⟨t', ht', hlater⟩ := hrun.before
  obtain rfl := ht.unique ht'
  exact (base_run hbase hlater).2

/-- Of two states of a run one is the later. -/
theorem Was.compare (ht : Was parseUrl installation h t) (hu : Was parseUrl installation h u) :
    Since t u ∨ Since u t := by
  obtain ⟨later, earlier, rfl, hrun⟩ := ht
  obtain ⟨later', earlier', heq, hrun'⟩ := hu
  rcases List.append_eq_append_iff.mp heq with ⟨mid, -, hmid⟩ | ⟨mid, -, hmid⟩
  · exact .inr (Was.since hrun ⟨mid, earlier', hmid, hrun'⟩)
  · exact .inl (Was.since hrun' ⟨mid, earlier, hmid, hrun⟩)

theorem snapshot_revision {store : Store} {server : String} {revision : Nat} {layer : Layer Config.ConfigValue}
    (h : store.configSnapshot (rules parseUrl) server = .ok (revision, layer)) :
    server ∈ store.connections ∧ store.revisions.lookup server = some revision ∧
      store.load (rules parseUrl) server = .ok layer := by
  simp only [Store.configSnapshot, bind_ok, pure_ok] at h
  obtain ⟨_, hrevision, _, hload, _, -, heq⟩ := h
  cases heq
  refine ⟨?_, Keyring.revision_lookup hrevision, hload⟩
  by_contra hout
  unfold Store.revision at hrevision
  rw [if_neg hout] at hrevision
  cases hrevision

theorem SavedAs.unique {server : String} {revision : Nat} {layer layer' : Layer Config.ConfigValue}
    (ha : SavedAs parseUrl installation h server revision layer)
    (hb : SavedAs parseUrl installation h server revision layer') : layer = layer' := by
  obtain ⟨t, ht, hsnapshot⟩ := ha
  obtain ⟨u, hu, hsnapshot'⟩ := hb
  rcases ht.compare hu with htu | hut
  · exact (htu.onward server (snapshot_revision hsnapshot).1).snapshot hsnapshot hsnapshot'
  · exact ((hut.onward server (snapshot_revision hsnapshot').1).snapshot hsnapshot' hsnapshot).symm

theorem Vaulted.unique {reference a b : String} (ha : Vaulted parseUrl installation h reference a)
    (hb : Vaulted parseUrl installation h reference b) : a = b := by
  obtain ⟨t, ht, hvalue⟩ := ha
  obtain ⟨u, hu, hvalue'⟩ := hb
  have hta := ht.base.vouched reference a hvalue
  have hub := hu.base.vouched reference b hvalue'
  rcases ht.compare hu with htu | hut
  · exact (htu.written _ _ hta).unique hu.base.orderly hub
  · exact hta.unique ht.base.orderly (hut.written _ _ hub)

/-- A known server has a revision no lower than one its settings were saved as. -/
theorem SavedAs.le {server : String} {revision : Nat} {layer : Layer Config.ConfigValue}
    (hrun : Run (State.next parseUrl installation) Free {} h s)
    (hsaved : SavedAs parseUrl installation h server revision layer) (hin : server ∈ s.keyring.store.connections) :
    ∃ n, s.keyring.store.revision server = .ok n ∧ revision ≤ n := by
  obtain ⟨t, ht, hsnapshot⟩ := hsaved
  obtain ⟨hthere, hrevision, -⟩ := snapshot_revision hsnapshot
  have hlookup : ∃ n, s.keyring.store.revisions.lookup server = some n ∧ revision ≤ n := by
    cases (Was.since hrun ht).onward server hthere with
    | gone hout => exact absurd hin hout
    | same _ hsame hrows => exact ⟨revision, hsame.trans hrevision, Nat.le_refl _⟩
    | later _ ha hb hlt =>
      obtain rfl := Option.some.inj (hrevision.symm.trans ha)
      exact ⟨_, hb, Nat.le_of_lt hlt⟩
  obtain ⟨n, hn, hle⟩ := hlookup
  refine ⟨n, ?_, hle⟩
  unfold Store.revision
  rw [if_pos hin, hn]
  rfl

theorem Genuine.unique {server : String} {a b : RemoteConfig} (ha : Genuine parseUrl installation h server a)
    (hb : Genuine parseUrl installation h server b) (hrevision : a.revision = b.revision) : a = b := by
  obtain ⟨n, layer, effective, hn, hsaved, hresolve, hres⟩ := ha
  obtain ⟨m, layer', effective', hm, hsaved', hresolve', hres'⟩ := hb
  obtain rfl : n = m := Int.ofNat_inj.mp (hn.symm.trans (hrevision.trans hm))
  obtain rfl := hsaved.unique hsaved'
  obtain rfl := Except.ok.inj (hresolve.symm.trans hresolve')
  have hvalues := hres.unique hres' fun _ _ _ => Vaulted.unique
  cases a
  cases b
  simp_all

-- ---------------------------------------------------------------------------
-- Runs
-- ---------------------------------------------------------------------------

/-- What a revision that is applied stands for: the settings saved under it, in
the configuration that the service has accepted for it. -/
structure Runs (parseUrl : ParseUrl) (installation : String) (h : List Event) (server : String) (revision : Nat)
    (remote : Profiles.State) (config : RemoteConfig) (layer : Layer Config.ConfigValue) (effective : EffectiveConfig) :
    Prop where
  accepted : (profileOf installation server, config) ∈ remote.accepted
  numbered : config.revision = revision
  saved : SavedAs parseUrl installation h server revision layer
  resolved : Config.resolve (clientLayer layer) = .ok effective
  values : Resolves (Vaulted parseUrl installation h) (sentEntries effective) config.values
  /-- The service has accepted no other configuration as this revision. -/
  single : ∀ config', (profileOf installation server, config') ∈ remote.accepted → config'.revision = revision →
    config' = config
  planned : ∀ inherited, Agrees parseUrl (Vaulted parseUrl installation h) effective inherited config

/-- Once a server has an applied revision it keeps one, and no lower one, while
it is known. That revision is no later than the saved one, and the service runs
the settings saved as it. A revision names one layer, and a reference one value. -/
theorem applied_config (hrun : Run (State.next parseUrl installation) Free {} h s) :
    (∀ later t, Run (State.next parseUrl installation) Free s later t → ∀ server a, s.applied server = some a →
      server ∈ t.keyring.store.connections → ∃ b, t.applied server = some b ∧ a ≤ b) ∧
    (∀ server revision, s.applied server = some revision →
      (∃ n, s.keyring.store.revision server = .ok n ∧ revision ≤ n) ∧
      ∃ row identity remote config layer effective, s.access.lookup server = some row ∧ row.identity = some identity ∧
        s.remotes.lookup identity = some remote ∧
        Runs parseUrl installation h server revision remote config layer effective) ∧
    (∀ server revision layer layer', SavedAs parseUrl installation h server revision layer →
      SavedAs parseUrl installation h server revision layer' → layer = layer') ∧
    ∀ reference a b, Vaulted parseUrl installation h reference a → Vaulted parseUrl installation h reference b → a = b := by
  have hbase := (base_run base_start hrun).1
  have hsound := sound_run hrun
  refine ⟨fun later t hlater => (base_run hbase hlater).2.applied, fun server revision happlied => ?_,
    fun server revision layer layer' => SavedAs.unique, fun reference a b => Vaulted.unique⟩
  obtain ⟨row, hrow, hrowApplied⟩ := Option.bind_eq_some_iff.mp happlied
  obtain ⟨identity, hidentity, remote, config, hremote, hrevision, haccepted⟩ :=
    hsound.applied server row revision hrow hrowApplied
  have hstocked := (hsound.remotes identity remote hremote).stocked
  obtain ⟨hown, hread⟩ := hstocked.accepted haccepted
  have hgenuine := hown server rfl
  obtain ⟨n, layer, effective, hn, hsaved, hresolve, hres⟩ := hgenuine
  obtain rfl : n = revision := Int.ofNat_inj.mp (hn.symm.trans hrevision)
  refine ⟨hsaved.le hrun (hbase.access server row hrow), row, identity, remote, config, layer, effective, hrow, hidentity,
    hremote, haccepted, hrevision, hsaved, hresolve, hres, ?_, ?_⟩
  · intro config' hin heq
    exact ((hstocked.accepted hin).1 server rfl).unique (hown server rfl) (heq.trans hrevision.symm)
  · intro inherited
    obtain ⟨t, -, hsnapshot⟩ := hsaved
    exact load_agrees (clientLayer_proper (fits_load (snapshot_revision hsnapshot).2.2)) hresolve hres hread inherited

/-- A secret is saved and synchronized, and another setting comes in between. -/
def synchronizing : List Event :=
  [.install "host" .empty, .keyring (.saveConnection "dev"),
    .keyring (.start 1 (.secret "dev" "env.API_TOKEN" 0) "hidden" "reference"), .keyring (.writer 1 .permit),
    .keyring (.writer 1 (.reserve "")), .keyring (.writer 1 .put), .keyring (.writer 1 .commit),
    .attach 1 "dev" "host", .task 1 .snapshot, .task 1 .read, .task 1 .read,
    .keyring (.setMany "dev" [("background", "false")] 1), .task 1 .read, .task 1 .read, .task 1 .read, .task 1 .send,
    .arrive 0, .remote "host" (.load 0), .remote "host" (.enter 0), .remote "host" .step, .remote "host" .step,
    .task 1 .answer, .task 1 .acknowledge]

theorem applied_config_one : ∃ s, Run (State.next Profiles.noUrl "here") Free {} synchronizing.reverse s ∧
    s.applied "dev" = some 1 ∧ s.keyring.store.revisions.lookup "dev" = some 2 ∧
    ∃ row identity remote config layer effective, s.access.lookup "dev" = some row ∧ row.identity = some identity ∧
      s.remotes.lookup identity = some remote ∧
      Runs Profiles.noUrl "here" synchronizing.reverse "dev" 1 remote config layer effective := by
  have hplay : ((play (State.next Profiles.noUrl "here") Free {} synchronizing).map fun s =>
      decide (s.applied "dev" = some 1 ∧ s.keyring.store.revisions.lookup "dev" = some 2)) = some true := by
    decide
  obtain ⟨s, hs, heq⟩ := Option.map_eq_some_iff.mp hplay
  obtain ⟨happlied, hrevision⟩ := of_decide_eq_true heq
  have hrun := run_of_play_list hs
  exact ⟨s, hrun, happlied, hrevision, ((applied_config hrun).2.1 "dev" 1 happlied).2⟩

end RemoteCodex.Remote.Synchronize
