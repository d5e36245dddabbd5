import RemoteCodex.Interact.Runs
import RemoteCodex.Interact.Table
import RemoteCodex.Server.Runtime

/-!
# The cached profiles of the service

A configuration is loaded, then stored and published under the lock of the
profiles. A channel takes the runtime of its profile and subscribes to its
settings under the same lock, which also covers the loading of a profile that
is not cached.

A call is taken apart at its awaits. Between the commit of a configuration and
its publication the live one is still the one stored before: `State.current`.
-/

namespace RemoteCodex.Server.Profiles

open Interact Config Transfer

/-- A cached profile; `updates` names its watch channel. -/
structure Profile where
  runtime : Runtime
  updates : Nat
  deriving DecidableEq

/-- A receiver of the settings of a profile. -/
structure Subscriber where
  id : String
  updates : Nat
  deriving DecidableEq

/-- A call that does not hold the lock. -/
inductive Call where
  | configure (id : String) (config : RemoteConfig)
  | loaded (id : String) (config : RemoteConfig) (runtime : Runtime)
  | snapshot (id : String)
  deriving DecidableEq

/-- Where the call that holds the lock waits. `previous` is what was stored
before the configuration that is about to be published. -/
inductive Section where
  | persist (id : String) (config : RemoteConfig) (runtime : Runtime)
  | publish (id : String) (config : RemoteConfig) (runtime : Runtime) (previous : Option RemoteConfig)
  | read (id : String)
  | load (id : String) (config : RemoteConfig)
  deriving DecidableEq

def Section.publishes : Section → Bool
  | .publish .. => true
  | _ => false

/-- The end of a configure. -/
structure Answer where
  id : String
  config : RemoteConfig
  fault : Option Fault
  deriving DecidableEq

structure State where
  /-- The environment of the running service. -/
  inherited : Sorted String String
  stored : Table String RemoteConfig
  cached : Table String Profile
  channels : List LiveSettings
  subscribers : List Subscriber
  calls : List Call
  holder : Option Section
  /-- The configurations whose commit went through, the latest first. -/
  accepted : List (String × RemoteConfig)
  answered : List Answer
  deriving DecidableEq

def State.fresh (inherited : Sorted String String) : State where
  inherited
  stored := ∅
  cached := ∅
  channels := []
  subscribers := []
  calls := []
  holder := none
  accepted := []
  answered := []

inductive Event where
  | configure (id : String) (config : RemoteConfig)
  | snapshot (id : String)
  /-- The configuration of a call is loaded. -/
  | load (call : Nat)
  /-- A call takes the lock. -/
  | enter (call : Nat)
  /-- The call that holds the lock goes on. -/
  | step
  /-- Its statement fails. -/
  | fail
  /-- A receiver is dropped. -/
  | leave (subscriber : Nat)
  | restart (inherited : Sorted String String)
  deriving DecidableEq

/-- The condition of the statement under which a row gives way to `config`. -/
def Replaces (config old : RemoteConfig) : Prop :=
  config.revision > old.revision ∨ (config.revision = old.revision ∧ config = old)

instance (config old : RemoteConfig) : Decidable (Replaces config old) :=
  inferInstanceAs (Decidable (_ ∨ _))

def conflict : Fault :=
  fault "REVISION_CONFLICT" "configuration revision is stale or conflicts with saved values"

/-- `Store::save_config`. -/
def saveConfig (stored : Table String RemoteConfig) (id : String) (config : RemoteConfig) :
    Except Fault (Table String RemoteConfig) :=
  match stored.lookup id with
  | none => .ok (stored.insert id config)
  | some old => if Replaces config old then .ok (stored.insert id config) else .error conflict

theorem saveConfig_ok {stored stored' : Table String RemoteConfig} {id : String} {config : RemoteConfig} :
    saveConfig stored id config = .ok stored' ↔
      (∀ old, stored.lookup id = some old → Replaces config old) ∧ stored' = stored.insert id config := by
  unfold saveConfig
  split
  · next h => simp [h, eq_comm]
  · next old h =>
    simp only [h, Option.some.injEq, forall_eq']
    split
    · next hr => simp [hr, eq_comm]
    · next hr => simp [hr]

theorem saveConfig_error {stored : Table String RemoteConfig} {id : String} {config old : RemoteConfig}
    (h : stored.lookup id = some old) (hr : ¬ Replaces config old) : saveConfig stored id config = .error conflict := by
  simp only [saveConfig, h, if_neg hr]

/-- `Store::config`. -/
def config (stored : Table String RemoteConfig) (id : String) : Except Fault RemoteConfig :=
  match stored.lookup id with
  | some config => .ok config
  | none => .error (fault "CONFIG_REQUIRED" "server configuration must be synchronized")

namespace State

def answer (s : State) (id : String) (config : RemoteConfig) (fault : Option Fault) : State :=
  { s with holder := none, answered := ⟨id, config, fault⟩ :: s.answered }

/-- The profiles nobody listens to are dropped. -/
def evict (s : State) : State :=
  { s with cached := s.cached.retain fun profile => s.subscribers.any (·.updates = profile.updates) }

def subscribe (s : State) (id : String) (profile : Profile) : State :=
  { s with subscribers := ⟨id, profile.updates⟩ :: s.subscribers }

/-- A profile enters the cache with a channel of its own, and its first receiver. -/
def admitProfile (s : State) (id : String) (runtime : Runtime) : State :=
  { s with
    holder := none
    channels := s.channels ++ [runtime.settings]
    cached := s.cached.insert id ⟨runtime, s.channels.length⟩
    subscribers := ⟨id, s.channels.length⟩ :: s.subscribers }

def publish (s : State) (id : String) (runtime : Runtime) : State :=
  match s.cached.lookup id with
  | none => s
  | some profile =>
    { s with
      channels := s.channels.set profile.updates runtime.settings
      cached := s.cached.insert id { profile with runtime } }

/-- A call that has the lock now. -/
def entered (s : State) : Call → Option State
  | .configure _ _ => none
  | .loaded id config runtime => some { s with holder := some (.persist id config runtime) }
  | .snapshot id =>
    let s := s.evict
    match s.cached.lookup id with
    | some profile => some (s.subscribe id profile)
    | none => some { s with holder := some (.read id) }

variable (parseUrl : ParseUrl)

/-- The next await of the call that holds the lock. -/
def proceed (s : State) : Section → State
  | .persist id config runtime =>
    match saveConfig s.stored id config with
    | .error fault => s.answer id config (some fault)
    | .ok stored =>
      { s with
        stored
        holder := some (.publish id config runtime (s.stored.lookup id))
        accepted := (id, config) :: s.accepted }
  | .publish id config runtime _ => (s.publish id runtime).answer id config none
  | .read id =>
    match Profiles.config s.stored id with
    | .error _ => { s with holder := none }
    | .ok config => { s with holder := some (.load id config) }
  | .load id config =>
    match Runtime.load parseUrl s.inherited config with
    | .error _ => { s with holder := none }
    | .ok runtime => s.admitProfile id runtime

def storageFault : Fault := fault "STORAGE_ERROR" "cannot persist remote configuration"

/-- The statement of the call that holds the lock fails. -/
def failed (s : State) : Section → Option State
  | .persist id config _ => some (s.answer id config (some storageFault))
  | .read _ => some { s with holder := none }
  | .publish .. | .load .. => none

def load (s : State) (call : Nat) : Option State :=
  match s.calls[call]? with
  | some (.configure id config) =>
    match Runtime.load parseUrl s.inherited config with
    | .ok runtime => some { s with calls := s.calls.set call (.loaded id config runtime) }
    | .error fault =>
      some { s with
        calls := s.calls.eraseIdx call
        answered := ⟨id, config, some fault⟩ :: s.answered }
  | _ => none

def enter (s : State) (call : Nat) : Option State :=
  match s.holder, s.calls[call]? with
  | none, some c => { s with calls := s.calls.eraseIdx call }.entered c
  | _, _ => none

/-- Everything but the store is gone. -/
def restart (s : State) (inherited : Sorted String String) : State :=
  { s with inherited, cached := ∅, channels := [], subscribers := [], calls := [], holder := none }

def next (s : State) : Event → Option State
  | .configure id config => some { s with calls := s.calls ++ [.configure id config] }
  | .snapshot id => some { s with calls := s.calls ++ [.snapshot id] }
  | .load call => s.load parseUrl call
  | .enter call => s.enter call
  | .step => s.holder.map (s.proceed parseUrl)
  | .fail => s.holder.bind s.failed
  | .leave subscriber => some { s with subscribers := s.subscribers.eraseIdx subscriber }
  | .restart inherited => some (s.restart inherited)

/-- The configuration of a profile that is or was last published. -/
def current (s : State) (id : String) : Option RemoteConfig :=
  match s.holder with
  | some (.publish id' _ _ previous) => if id' = id then previous else s.stored.lookup id
  | _ => s.stored.lookup id

end State

-- ---------------------------------------------------------------------------
-- The cache and the store
-- ---------------------------------------------------------------------------

variable {parseUrl : ParseUrl} {s t : State}

/-- What the call that holds the lock has found out. -/
def Holds (parseUrl : ParseUrl) (s : State) : Section → Prop
  | .persist _ config runtime => Runtime.load parseUrl s.inherited config = .ok runtime
  | .publish id config runtime _ =>
    Runtime.load parseUrl s.inherited config = .ok runtime ∧ s.stored.lookup id = some config
  | .read id => s.cached.lookup id = none
  | .load id config => s.cached.lookup id = none ∧ s.stored.lookup id = some config

/-- A cached profile is that of the current configuration, and its channel shows
its settings. -/
def Live (parseUrl : ParseUrl) (s : State) (id : String) (profile : Profile) : Prop :=
  (∃ config, s.current id = some config ∧ Runtime.load parseUrl s.inherited config = .ok profile.runtime) ∧
    s.channels[profile.updates]? = some profile.runtime.settings

structure Sound (parseUrl : ParseUrl) (s : State) : Prop where
  calls : ∀ {id config runtime}, Call.loaded id config runtime ∈ s.calls →
    Runtime.load parseUrl s.inherited config = .ok runtime
  holder : ∀ {held}, s.holder = some held → Holds parseUrl s held
  cached : ∀ {id profile}, s.cached.lookup id = some profile → Live parseUrl s id profile
  apart : ∀ {id id' profile profile'}, s.cached.lookup id = some profile → s.cached.lookup id' = some profile' →
    profile.updates = profile'.updates → id = id'
  subscribers : ∀ subscriber ∈ s.subscribers,
    ∃ profile, s.cached.lookup subscriber.id = some profile ∧ profile.updates = subscriber.updates

namespace State

theorem current_of_free (h : s.holder = none) (id : String) : s.current id = s.stored.lookup id := by
  simp only [current, h]

theorem current_of_held {held : Section} (h : s.holder = some held) (hp : held.publishes = false) (id : String) :
    s.current id = s.stored.lookup id := by
  cases held with
  | publish => cases hp
  | persist => simp only [current, h]
  | read => simp only [current, h]
  | load => simp only [current, h]

end State

namespace Sound

theorem fresh (inherited : Sorted String String) : Sound parseUrl (.fresh inherited) where
  calls := by simp [State.fresh]
  holder := by simp [State.fresh]
  cached := by simp [State.fresh]
  apart := by simp [State.fresh]
  subscribers := by simp [State.fresh]

theorem restart (s : State) (inherited : Sorted String String) : Sound parseUrl (s.restart inherited) where
  calls := by simp [State.restart]
  holder := by simp [State.restart]
  cached := by simp [State.restart]
  apart := by simp [State.restart]
  subscribers := by simp [State.restart]

/-- A step that touches neither the cache nor what is current. -/
theorem keep (hs : Sound parseUrl s) (hinherited : t.inherited = s.inherited) (hcached : t.cached = s.cached)
    (hchannels : t.channels = s.channels) (hcurrent : ∀ id, t.current id = s.current id)
    (hholder : ∀ held, t.holder = some held → Holds parseUrl t held)
    (hcalls : ∀ id config runtime, Call.loaded id config runtime ∈ t.calls →
      Call.loaded id config runtime ∈ s.calls ∨ Runtime.load parseUrl s.inherited config = .ok runtime)
    (hsubscribers : ∀ subscriber ∈ t.subscribers, subscriber ∈ s.subscribers) : Sound parseUrl t where
  calls h := by
    rw [hinherited]
    rcases hcalls _ _ _ h with h | h
    · exact hs.calls h
    · exact h
  holder h := hholder _ h
  cached h := by
    rw [hcached] at h
    simpa only [Live, hcurrent, hinherited, hchannels] using hs.cached h
  apart h h' := by
    rw [hcached] at h h'
    exact hs.apart h h'
  subscribers subscriber h := by
    rw [hcached]
    exact hs.subscribers subscriber (hsubscribers subscriber h)

theorem evict (hs : Sound parseUrl s) (hfree : s.holder = none) : Sound parseUrl s.evict := by
  have hlook : ∀ {id profile}, s.evict.cached.lookup id = some profile → s.cached.lookup id = some profile :=
    fun h => (Table.mem_retain.mp h).1
  constructor
  · exact hs.calls
  · intro held h
    exact absurd (hfree.symm.trans h) nofun
  · intro id profile h
    exact hs.cached (hlook h)
  · intro id id' profile profile' h h'
    exact hs.apart (hlook h) (hlook h')
  · intro subscriber hmem
    obtain ⟨profile, hprofile, hupdates⟩ := hs.subscribers subscriber hmem
    refine ⟨profile, Table.mem_retain.mpr ⟨hprofile, ?_⟩, hupdates⟩
    exact List.any_eq_true.mpr ⟨subscriber, hmem, by simp [hupdates]⟩

theorem subscribe (hs : Sound parseUrl s) {id : String} {profile : Profile}
    (hprofile : s.cached.lookup id = some profile) : Sound parseUrl (s.subscribe id profile) := by
  constructor
  · exact hs.calls
  · intro held h
    have := hs.holder h
    cases held <;> exact this
  · exact hs.cached
  · exact hs.apart
  · intro subscriber hmem
    rcases List.mem_cons.mp hmem with rfl | hmem
    · exact ⟨profile, hprofile, rfl⟩
    · exact hs.subscribers subscriber hmem

/-- The lock is given back without a change. -/
theorem release (hs : Sound parseUrl s) (hinherited : t.inherited = s.inherited) (hcached : t.cached = s.cached)
    (hchannels : t.channels = s.channels) (hcurrent : ∀ id, t.current id = s.current id)
    (hholder : t.holder = none) (hcalls : t.calls = s.calls) (hsubscribers : t.subscribers = s.subscribers) :
    Sound parseUrl t := by
  apply hs.keep hinherited hcached hchannels hcurrent
  · intro held h
    exact absurd (hholder.symm.trans h) nofun
  · intro id config runtime h
    exact .inl (hcalls ▸ h)
  · intro subscriber h
    exact hsubscribers ▸ h

theorem entered (hs : Sound parseUrl s) (hfree : s.holder = none) {c : Call}
    (hc : ∀ id config runtime, c = .loaded id config runtime → Runtime.load parseUrl s.inherited config = .ok runtime)
    (h : s.entered c = some t) : Sound parseUrl t := by
  cases c with
  | configure id config => cases h
  | loaded id config runtime =>
    obtain rfl := Option.some.inj h
    refine hs.keep rfl rfl rfl ?_ ?_ ?_ ?_
    · intro id'
      rw [State.current_of_free hfree]
      exact State.current_of_held rfl rfl id'
    · rintro held hheld
      obtain rfl := Option.some.inj hheld
      exact hc id config runtime rfl
    · exact fun _ _ _ => .inl
    · exact fun _ hmem => hmem
  | snapshot id =>
    have hs := hs.evict hfree
    simp only [State.entered] at h
    split at h
    · next profile hprofile =>
      obtain rfl := Option.some.inj h
      exact hs.subscribe hprofile
    · next hnone =>
      obtain rfl := Option.some.inj h
      refine hs.keep rfl rfl rfl ?_ ?_ ?_ ?_
      · intro id'
        rw [State.current_of_free (s := s.evict) hfree]
        exact State.current_of_held rfl rfl id'
      · rintro held hheld
        obtain rfl := Option.some.inj hheld
        exact hnone
      · exact fun _ _ _ => .inl
      · exact fun _ hmem => hmem

theorem enter (hs : Sound parseUrl s) {call : Nat} (h : s.enter call = some t) : Sound parseUrl t := by
  simp only [State.enter] at h
  split at h
  · next c hfree hc =>
    refine entered (s := { s with calls := s.calls.eraseIdx call }) ?_ hfree ?_ h
    · refine hs.keep rfl rfl rfl (fun _ => rfl) ?_ ?_ ?_
      · intro held hheld
        exact absurd (hfree.symm.trans hheld) nofun
      · exact fun _ _ _ hmem => .inl (List.mem_of_mem_eraseIdx hmem)
      · exact fun _ hmem => hmem
    · rintro id config runtime rfl
      exact hs.calls (List.mem_of_getElem? hc)
  · cases h

theorem load (hs : Sound parseUrl s) {call : Nat} (h : s.load parseUrl call = some t) : Sound parseUrl t := by
  simp only [State.load] at h
  split at h
  · next id config hc =>
    split at h
    · next runtime hruntime =>
      obtain rfl := Option.some.inj h
      refine hs.keep rfl rfl rfl (fun _ => rfl) ?_ ?_ ?_
      · exact fun held hheld => hs.holder hheld
      · intro id' config' runtime' hmem
        rcases List.mem_or_eq_of_mem_set hmem with hmem | heq
        · exact .inl hmem
        · obtain ⟨rfl, rfl, rfl⟩ := heq
          exact .inr hruntime
      · exact fun _ hmem => hmem
    · obtain rfl := Option.some.inj h
      refine hs.keep rfl rfl rfl (fun _ => rfl) ?_ ?_ ?_
      · exact fun held hheld => hs.holder hheld
      · exact fun _ _ _ hmem => .inl (List.mem_of_mem_eraseIdx hmem)
      · exact fun _ hmem => hmem
  · cases h

/-- What a call that holds no configuration unpublished leaves behind when it ends. -/
theorem ends (hs : Sound parseUrl s) {held : Section} (hheld : s.holder = some held) (hp : held.publishes = false)
    (hinherited : t.inherited = s.inherited) (hstored : t.stored = s.stored) (hcached : t.cached = s.cached)
    (hchannels : t.channels = s.channels) (hholder : t.holder = none) (hcalls : t.calls = s.calls)
    (hsubscribers : t.subscribers = s.subscribers) : Sound parseUrl t := by
  apply hs.release hinherited hcached hchannels _ hholder hcalls hsubscribers
  intro id
  rw [State.current_of_free hholder, State.current_of_held hheld hp, hstored]

theorem persisted (hs : Sound parseUrl s) {id : String} {config : RemoteConfig} {runtime : Runtime}
    (hheld : s.holder = some (.persist id config runtime)) :
    Sound parseUrl (s.proceed parseUrl (.persist id config runtime)) := by
  have hload : Runtime.load parseUrl s.inherited config = .ok runtime := hs.holder hheld
  simp only [State.proceed]
  split
  · exact hs.ends hheld rfl rfl rfl rfl rfl rfl rfl rfl
  · next stored hsave =>
    obtain ⟨-, rfl⟩ := saveConfig_ok.mp hsave
    refine hs.keep rfl rfl rfl ?_ ?_ ?_ ?_
    · intro id'
      rw [State.current_of_held hheld rfl]
      simp only [State.current, Table.lookup_insert_if]
      by_cases h : id = id'
      · subst h
        simp
      · simp [h, Ne.symm h]
    · rintro held hheld
      obtain rfl := Option.some.inj hheld
      exact ⟨hload, AList.lookup_insert _⟩
    · exact fun _ _ _ => .inl
    · exact fun _ hmem => hmem

theorem published (hs : Sound parseUrl s) {id : String} {config : RemoteConfig} {runtime : Runtime}
    {previous : Option RemoteConfig} (hheld : s.holder = some (.publish id config runtime previous)) :
    Sound parseUrl (s.proceed parseUrl (.publish id config runtime previous)) := by
  obtain ⟨hload, hstored⟩ : _ ∧ _ := hs.holder hheld
  have hcurrent : ∀ id', s.current id' = if id = id' then previous else s.stored.lookup id' := by
    intro id'
    simp only [State.current, hheld]
  simp only [State.proceed, State.publish]
  split
  · next hnone =>
    -- nobody listens: there is no live configuration of this profile
    constructor
    · exact hs.calls
    · intro held h
      cases h
    · intro id' profile h
      obtain ⟨⟨config', hconfig, hload'⟩, hchannel⟩ := hs.cached h
      have hne : id ≠ id' := by
        rintro rfl
        exact absurd (hnone.symm.trans h) nofun
      rw [hcurrent, if_neg hne] at hconfig
      exact ⟨⟨config', by rw [State.current_of_free rfl]; exact hconfig, hload'⟩, hchannel⟩
    · exact hs.apart
    · exact hs.subscribers
  · next profile hprofile =>
    have hlook : ∀ id', (s.cached.insert id { profile with runtime }).lookup id' =
        if id' = id then some { profile with runtime } else s.cached.lookup id' :=
      fun id' => Table.lookup_insert_if _ _ _ _
    constructor
    · exact hs.calls
    · intro held h
      cases h
    · intro id' profile' h
      rw [State.answer, hlook] at h
      by_cases hid : id' = id
      · subst hid
        rw [if_pos rfl] at h
        obtain rfl := Option.some.inj h
        refine ⟨⟨config, by rw [State.current_of_free rfl]; exact hstored, hload⟩, ?_⟩
        have hlt := (List.getElem?_eq_some_iff.mp (hs.cached hprofile).2).1
        exact List.getElem?_set_self hlt
      · rw [if_neg hid] at h
        obtain ⟨⟨config', hconfig, hload'⟩, hchannel⟩ := hs.cached h
        rw [hcurrent, if_neg (Ne.symm hid)] at hconfig
        refine ⟨⟨config', by rw [State.current_of_free rfl]; exact hconfig, hload'⟩, ?_⟩
        have hne : profile.updates ≠ profile'.updates := fun heq => hid (hs.apart hprofile h heq).symm
        exact (List.getElem?_set_ne hne).trans hchannel
    · -- the profile keeps its channel
      have hupdates : ∀ {id' profile'}, (s.cached.insert id { profile with runtime }).lookup id' = some profile' →
          ∃ old, s.cached.lookup id' = some old ∧ old.updates = profile'.updates := by
        intro id' profile' h
        rw [hlook] at h
        split at h
        · next hid =>
          subst hid
          obtain rfl := Option.some.inj h
          exact ⟨profile, hprofile, rfl⟩
        · exact ⟨profile', h, rfl⟩
      intro id₁ id₂ profile₁ profile₂ h₁ h₂ heq
      obtain ⟨old₁, hold₁, he₁⟩ := hupdates h₁
      obtain ⟨old₂, hold₂, he₂⟩ := hupdates h₂
      exact hs.apart hold₁ hold₂ (he₁.trans (heq.trans he₂.symm))
    · intro subscriber hmem
      obtain ⟨old, hold, he⟩ := hs.subscribers subscriber hmem
      by_cases hid : subscriber.id = id
      · refine ⟨{ profile with runtime }, (hlook _).trans (if_pos hid), ?_⟩
        rw [hid] at hold
        obtain rfl := Option.some.inj (hprofile.symm.trans hold)
        exact he
      · exact ⟨old, (hlook _).trans ((if_neg hid).trans hold), he⟩

/-- A new profile has a channel that no other has. -/
theorem admitProfile (hs : Sound parseUrl s) {id : String} {config : RemoteConfig} {runtime : Runtime}
    (hheld : s.holder = some (.load id config)) (hload : Runtime.load parseUrl s.inherited config = .ok runtime) :
    Sound parseUrl (s.admitProfile id runtime) := by
  obtain ⟨hnone, hstored⟩ : _ ∧ _ := hs.holder hheld
  have hlook : ∀ id', (s.cached.insert id ⟨runtime, s.channels.length⟩).lookup id' =
      if id' = id then some ⟨runtime, s.channels.length⟩ else s.cached.lookup id' :=
    fun id' => Table.lookup_insert_if _ _ _ _
  have hlt : ∀ {id' profile}, s.cached.lookup id' = some profile → profile.updates < s.channels.length :=
    fun h => (List.getElem?_eq_some_iff.mp (hs.cached h).2).1
  constructor
  · exact hs.calls
  · intro held h
    cases h
  · intro id' profile h
    rw [State.admitProfile, hlook] at h
    split at h
    · next hid =>
      subst hid
      obtain rfl := Option.some.inj h
      exact ⟨⟨config, by rw [State.current_of_free rfl]; exact hstored, hload⟩, List.getElem?_concat_length ..⟩
    · obtain ⟨⟨config', hconfig, hload'⟩, hchannel⟩ := hs.cached h
      rw [State.current_of_held hheld rfl] at hconfig
      refine ⟨⟨config', by rw [State.current_of_free rfl]; exact hconfig, hload'⟩, ?_⟩
      exact (List.getElem?_append_left (hlt h)).trans hchannel
  · intro id₁ id₂ profile₁ profile₂ h₁ h₂ heq
    rw [State.admitProfile, hlook] at h₁ h₂
    split at h₁
    · next hid₁ =>
      obtain rfl := Option.some.inj h₁
      split at h₂
      · next hid₂ => rw [hid₁, hid₂]
      · have := hlt h₂
        rw [← heq] at this
        exact absurd this (Nat.lt_irrefl _)
    · split at h₂
      · obtain rfl := Option.some.inj h₂
        have := hlt h₁
        rw [heq] at this
        exact absurd this (Nat.lt_irrefl _)
      · exact hs.apart h₁ h₂ heq
  · intro subscriber hmem
    rcases List.mem_cons.mp hmem with rfl | hmem
    · exact ⟨⟨runtime, s.channels.length⟩, (hlook _).trans (if_pos rfl), rfl⟩
    · obtain ⟨profile, hprofile, he⟩ := hs.subscribers subscriber hmem
      have hid : subscriber.id ≠ id := by
        intro hid
        rw [hid] at hprofile
        exact absurd (hnone.symm.trans hprofile) nofun
      exact ⟨profile, (hlook _).trans ((if_neg hid).trans hprofile), he⟩

theorem proceed (hs : Sound parseUrl s) {held : Section} (hheld : s.holder = some held) :
    Sound parseUrl (s.proceed parseUrl held) := by
  cases held with
  | persist id config runtime => exact hs.persisted hheld
  | publish id config runtime previous => exact hs.published hheld
  | read id =>
    simp only [State.proceed, Profiles.config]
    split
    · exact hs.ends hheld rfl rfl rfl rfl rfl rfl rfl rfl
    · next config hconfig =>
      have hstored : s.stored.lookup id = some config := by
        split at hconfig
        · next h =>
          obtain rfl := Except.ok.inj hconfig
          exact h
        · cases hconfig
      refine hs.keep rfl rfl rfl ?_ ?_ ?_ ?_
      · intro id'
        rw [State.current_of_held hheld rfl]
        exact State.current_of_held rfl rfl id'
      · rintro held h
        obtain rfl := Option.some.inj h
        exact ⟨hs.holder hheld, hstored⟩
      · exact fun _ _ _ => .inl
      · exact fun _ hmem => hmem
  | load id config =>
    simp only [State.proceed]
    split
    · exact hs.ends hheld rfl rfl rfl rfl rfl rfl rfl rfl
    · next hload => exact hs.admitProfile hheld hload

theorem failed (hs : Sound parseUrl s) {held : Section} (hheld : s.holder = some held)
    (h : s.failed held = some t) : Sound parseUrl t := by
  cases held with
  | persist id config runtime =>
    obtain rfl := Option.some.inj h
    exact hs.ends hheld rfl rfl rfl rfl rfl rfl rfl rfl
  | read id =>
    obtain rfl := Option.some.inj h
    exact hs.ends hheld rfl rfl rfl rfl rfl rfl rfl rfl
  | publish => cases h
  | load => cases h

theorem next (hs : Sound parseUrl s) {e : Event} (h : s.next parseUrl e = some t) : Sound parseUrl t := by
  cases e with
  | configure id config =>
    obtain rfl := Option.some.inj h
    refine hs.keep rfl rfl rfl (fun _ => rfl) (fun _ => hs.holder) ?_ fun _ hmem => hmem
    intro id' config' runtime hmem
    rcases List.mem_append.mp hmem with hmem | hmem
    · exact .inl hmem
    · simp at hmem
  | snapshot id =>
    obtain rfl := Option.some.inj h
    refine hs.keep rfl rfl rfl (fun _ => rfl) (fun _ => hs.holder) ?_ fun _ hmem => hmem
    intro id' config' runtime hmem
    rcases List.mem_append.mp hmem with hmem | hmem
    · exact .inl hmem
    · simp at hmem
  | load call => exact hs.load h
  | enter call => exact hs.enter h
  | step =>
    obtain ⟨held, hheld, rfl⟩ := Option.map_eq_some_iff.mp h
    exact hs.proceed hheld
  | fail =>
    obtain ⟨held, hheld, h⟩ := Option.bind_eq_some_iff.mp h
    exact hs.failed hheld h
  | leave subscriber =>
    obtain rfl := Option.some.inj h
    exact hs.keep rfl rfl rfl (fun _ => rfl) (fun _ => hs.holder) (fun _ _ _ => .inl)
      fun _ hmem => List.mem_of_mem_eraseIdx hmem
  | restart inherited =>
    obtain rfl := Option.some.inj h
    exact .restart s inherited

end Sound

-- ---------------------------------------------------------------------------
-- What is stored
-- ---------------------------------------------------------------------------

theorem replaces_self (config : RemoteConfig) : Replaces config config := .inr ⟨rfl, rfl⟩

theorem Replaces.trans {a b c : RemoteConfig} (hab : Replaces a b) (hbc : Replaces b c) : Replaces a c := by
  rcases hab with hab | ⟨-, rfl⟩
  · rcases hbc with hbc | ⟨-, rfl⟩
    · exact .inl (lt_trans hbc hab)
    · exact .inl hab
  · exact hbc

/-- An older configuration, or another one of the same revision. -/
def Stale (config old : RemoteConfig) : Prop :=
  config.revision < old.revision ∨ (config.revision = old.revision ∧ config ≠ old)

theorem not_replaces {config old : RemoteConfig} : ¬ Replaces config old ↔ Stale config old := by
  rw [Replaces, Stale, not_or, not_and_or, not_lt, le_iff_lt_or_eq]
  constructor
  · rintro ⟨hlt | heq, hne⟩
    · exact .inl hlt
    · exact .inr ⟨heq, hne.resolve_left (not_not_intro heq)⟩
  · rintro (hlt | ⟨heq, hne⟩)
    · exact ⟨.inl hlt, .inl (ne_of_lt hlt)⟩
    · exact ⟨.inr heq, .inr hne⟩

/-- What a step does to the store and to the answers. -/
inductive Effect (s t : State) : Prop where
  | none (hstored : t.stored = s.stored) (haccepted : t.accepted = s.accepted) (hanswered : t.answered = s.answered)
  | saved (id : String) (config : RemoteConfig) (hnew : ∀ old, s.stored.lookup id = some old → Replaces config old)
      (hstored : t.stored = s.stored.insert id config) (haccepted : t.accepted = (id, config) :: s.accepted)
      (hanswered : t.answered = s.answered)
  | refused (id : String) (config : RemoteConfig) (fault : Fault) (hstored : t.stored = s.stored)
      (haccepted : t.accepted = s.accepted) (hanswered : t.answered = ⟨id, config, some fault⟩ :: s.answered)
  | done (id : String) (config : RemoteConfig) (hrow : s.stored.lookup id = some config) (hstored : t.stored = s.stored)
      (haccepted : t.accepted = s.accepted) (hanswered : t.answered = ⟨id, config, Option.none⟩ :: s.answered)

theorem proceed_effect (hs : Sound parseUrl s) {held : Section} (hheld : s.holder = some held) :
    Effect s (s.proceed parseUrl held) := by
  cases held with
  | persist id config runtime =>
    simp only [State.proceed]
    split
    · exact .refused _ _ _ rfl rfl rfl
    · next hsave =>
      obtain ⟨hnew, rfl⟩ := saveConfig_ok.mp hsave
      exact .saved id config hnew rfl rfl rfl
  | publish id config runtime previous =>
    have hrow := (hs.holder hheld).2
    simp only [State.proceed, State.publish]
    split
    · exact .done id config hrow rfl rfl rfl
    · exact .done id config hrow rfl rfl rfl
  | read id =>
    simp only [State.proceed]
    split
    · exact .none rfl rfl rfl
    · exact .none rfl rfl rfl
  | load id config =>
    simp only [State.proceed]
    split
    · exact .none rfl rfl rfl
    · exact .none rfl rfl rfl

theorem entered_effect {c : Call} (h : s.entered c = some t) :
    t.stored = s.stored ∧ t.accepted = s.accepted ∧ t.answered = s.answered := by
  cases c with
  | configure id config => cases h
  | loaded id config runtime =>
    obtain rfl := Option.some.inj h
    exact ⟨rfl, rfl, rfl⟩
  | snapshot id =>
    simp only [State.entered] at h
    split at h
    · obtain rfl := Option.some.inj h
      exact ⟨rfl, rfl, rfl⟩
    · obtain rfl := Option.some.inj h
      exact ⟨rfl, rfl, rfl⟩

theorem effect (hs : Sound parseUrl s) {e : Event} (h : s.next parseUrl e = some t) : Effect s t := by
  cases e with
  | configure id config =>
    obtain rfl := Option.some.inj h
    exact .none rfl rfl rfl
  | snapshot id =>
    obtain rfl := Option.some.inj h
    exact .none rfl rfl rfl
  | load call =>
    simp only [State.next, State.load] at h
    split at h
    · split at h
      · obtain rfl := Option.some.inj h
        exact .none rfl rfl rfl
      · obtain rfl := Option.some.inj h
        exact .refused _ _ _ rfl rfl rfl
    · cases h
  | enter call =>
    simp only [State.next, State.enter] at h
    split at h
    · obtain ⟨hstored, haccepted, hanswered⟩ := entered_effect h
      exact .none hstored haccepted hanswered
    · cases h
  | step =>
    obtain ⟨held, hheld, rfl⟩ := Option.map_eq_some_iff.mp h
    exact proceed_effect hs hheld
  | fail =>
    obtain ⟨held, hheld, h⟩ := Option.bind_eq_some_iff.mp h
    cases held with
    | persist id config runtime =>
      obtain rfl := Option.some.inj h
      exact .refused _ _ _ rfl rfl rfl
    | read id =>
      obtain rfl := Option.some.inj h
      exact .none rfl rfl rfl
    | publish => cases h
    | load => cases h
  | leave subscriber =>
    obtain rfl := Option.some.inj h
    exact .none rfl rfl rfl
  | restart inherited =>
    obtain rfl := Option.some.inj h
    exact .none rfl rfl rfl

/-- What is stored is the accepted configuration with the highest revision. -/
structure Highest (s : State) : Prop where
  row : ∀ {id config}, s.stored.lookup id = some config → (id, config) ∈ s.accepted
  top : ∀ {id config}, (id, config) ∈ s.accepted → ∃ row, s.stored.lookup id = some row ∧ Replaces row config

theorem Highest.fresh (inherited : Sorted String String) : Highest (.fresh inherited) where
  row := by simp [State.fresh]
  top := by simp [State.fresh]

theorem Highest.keep (hs : Highest s) (hstored : t.stored = s.stored) (haccepted : t.accepted = s.accepted) :
    Highest t where
  row h := by
    rw [hstored] at h
    rw [haccepted]
    exact hs.row h
  top h := by
    rw [haccepted] at h
    rw [hstored]
    exact hs.top h

theorem Highest.effect (hs : Highest s) (h : Effect s t) : Highest t := by
  cases h with
  | none hstored haccepted _ => exact hs.keep hstored haccepted
  | refused id config fault hstored haccepted _ => exact hs.keep hstored haccepted
  | done id config hrow hstored haccepted _ => exact hs.keep hstored haccepted
  | saved id config hnew hstored haccepted _ =>
    constructor
    · intro id' config' h
      rw [hstored, Table.lookup_insert_if] at h
      rw [haccepted]
      split at h
      · next hid =>
        obtain rfl := Option.some.inj h
        rw [hid]
        exact List.mem_cons_self
      · exact List.mem_cons_of_mem _ (hs.row h)
    · intro id' config' h
      rw [haccepted] at h
      rw [hstored, Table.lookup_insert_if]
      by_cases hid : id' = id
      · rw [if_pos hid]
        refine ⟨config, rfl, ?_⟩
        rcases List.mem_cons.mp h with heq | h
        · obtain ⟨-, rfl⟩ := Prod.mk.inj heq
          exact replaces_self config'
        · obtain ⟨row, hrow, hr⟩ := hs.top h
          exact (hnew row (hid ▸ hrow)).trans hr
      · rw [if_neg hid]
        rcases List.mem_cons.mp h with heq | h
        · exact absurd (Prod.mk.inj heq).1 hid
        · exact hs.top h

/-- What is stored moves up only, and no configure that is stale by then succeeds. -/
structure Grows (s t : State) : Prop where
  stored : ∀ id old, s.stored.lookup id = some old → ∃ row, t.stored.lookup id = some row ∧ Replaces row old
  answered : ∃ fresh, t.answered = fresh ++ s.answered ∧
    ∀ answer ∈ fresh, answer.fault = none → ∀ old, s.stored.lookup answer.id = some old → Replaces answer.config old

theorem Grows.refl (s : State) : Grows s s where
  stored _ old h := ⟨old, h, replaces_self old⟩
  answered := ⟨[], rfl, by simp⟩

theorem Grows.trans {u : State} (hst : Grows s t) (htu : Grows t u) : Grows s u := by
  constructor
  · intro id old h
    obtain ⟨row, hrow, hr⟩ := hst.stored id old h
    obtain ⟨row', hrow', hr'⟩ := htu.stored id row hrow
    exact ⟨row', hrow', hr'.trans hr⟩
  · obtain ⟨fresh, hfresh, hf⟩ := hst.answered
    obtain ⟨later, hlater, hl⟩ := htu.answered
    refine ⟨later ++ fresh, by rw [hlater, hfresh, List.append_assoc], ?_⟩
    intro answer hmem hnone old hold
    rcases List.mem_append.mp hmem with hmem | hmem
    · obtain ⟨row, hrow, hr⟩ := hst.stored _ old hold
      exact (hl answer hmem hnone row hrow).trans hr
    · exact hf answer hmem hnone old hold

theorem Grows.effect (h : Effect s t) : Grows s t := by
  cases h with
  | none hstored _ hanswered => exact ⟨fun _ old h => ⟨old, hstored ▸ h, replaces_self old⟩, [], hanswered, by simp⟩
  | refused id config fault hstored _ hanswered =>
    refine ⟨fun _ old h => ⟨old, hstored ▸ h, replaces_self old⟩, [⟨id, config, some fault⟩], hanswered, ?_⟩
    simp
  | done id config hrow hstored _ hanswered =>
    refine ⟨fun _ old h => ⟨old, hstored ▸ h, replaces_self old⟩, [⟨id, config, .none⟩], hanswered, ?_⟩
    intro answer hmem _ old hold
    obtain rfl := List.mem_singleton.mp hmem
    obtain rfl := Option.some.inj (hrow.symm.trans hold)
    exact replaces_self config
  | saved id config hnew hstored _ hanswered =>
    refine ⟨?_, [], hanswered, by simp⟩
    intro id' old h
    rw [hstored, Table.lookup_insert_if]
    split
    · next hid => exact ⟨config, rfl, hnew old (hid ▸ h)⟩
    · exact ⟨old, h, replaces_self old⟩

-- ---------------------------------------------------------------------------
-- Runs
-- ---------------------------------------------------------------------------

theorem run_sound {h : List Event} (hrun : Run (State.next parseUrl) Free s h t) (hs : Sound parseUrl s) :
    Sound parseUrl t :=
  hrun.invariant hs fun _ _ _ hs _ hn => hs.next hn

theorem run_grows {h : List Event} (hrun : Run (State.next parseUrl) Free s h t) (hs : Sound parseUrl s) :
    Grows s t := by
  have hboth : Sound parseUrl t ∧ Grows s t := by
    apply hrun.invariant (I := fun u => Sound parseUrl u ∧ Grows s u) ⟨hs, .refl s⟩
    intro u e v hu _ hn
    exact ⟨hu.1.next hn, hu.2.trans (.effect (effect hu.1 hn))⟩
  exact hboth.2

theorem run_highest {h : List Event} {inherited : Sorted String String}
    (hrun : Run (State.next parseUrl) Free (.fresh inherited) h s) : Sound parseUrl s ∧ Highest s := by
  apply hrun.invariant (I := fun u => Sound parseUrl u ∧ Highest u) ⟨.fresh inherited, .fresh inherited⟩
  intro u e v hu _ hn
  exact ⟨hu.1.next hn, hu.2.effect (effect hu.1 hn)⟩

/-- A step of a configure of `id` with `config`. -/
def Event.Configures (s : State) (e : Event) (id : String) (config : RemoteConfig) : Prop :=
  match e with
  | .load call => s.calls[call]? = some (.configure id config)
  | .enter call => ∃ runtime, s.calls[call]? = some (.loaded id config runtime)
  | .step | .fail =>
    ∃ runtime, s.holder = some (.persist id config runtime) ∨
      ∃ previous, s.holder = some (.publish id config runtime previous)
  | _ => False

theorem stale_keeps (hs : Sound parseUrl s) {id : String} {config old : RemoteConfig}
    (hold : s.stored.lookup id = some old) (hstale : Stale config old) {e : Event} (he : e.Configures s id config)
    (h : s.next parseUrl e = some t) :
    t.stored = s.stored ∧ t.cached = s.cached ∧ t.channels = s.channels := by
  cases e with
  | load call =>
    simp only [State.next, State.load, show s.calls[call]? = some (.configure id config) from he] at h
    split at h
    · obtain rfl := Option.some.inj h
      exact ⟨rfl, rfl, rfl⟩
    · obtain rfl := Option.some.inj h
      exact ⟨rfl, rfl, rfl⟩
  | enter call =>
    obtain ⟨runtime, he⟩ := he
    simp only [State.next, State.enter, he] at h
    split at h
    · next heq =>
      obtain rfl := Option.some.inj heq
      obtain rfl := Option.some.inj h
      exact ⟨rfl, rfl, rfl⟩
    · cases h
  | step =>
    obtain ⟨held, hheld, rfl⟩ := Option.map_eq_some_iff.mp h
    obtain ⟨runtime, he | ⟨previous, he⟩⟩ := he
    · obtain rfl := Option.some.inj (hheld.symm.trans he)
      simp only [State.proceed, saveConfig_error hold (not_replaces.mpr hstale)]
      exact ⟨rfl, rfl, rfl⟩
    · -- what is about to be published is what is stored
      have hrow := (hs.holder he).2
      obtain rfl := Option.some.inj (hrow.symm.trans hold)
      exact absurd (replaces_self config) (not_replaces.mpr hstale)
  | fail =>
    obtain ⟨held, hheld, h⟩ := Option.bind_eq_some_iff.mp h
    obtain ⟨runtime, he | ⟨previous, he⟩⟩ := he
    · obtain rfl := Option.some.inj (hheld.symm.trans he)
      obtain rfl := Option.some.inj h
      exact ⟨rfl, rfl, rfl⟩
    · obtain rfl := Option.some.inj (hheld.symm.trans he)
      cases h
  | configure => cases he
  | snapshot => cases he
  | leave => cases he
  | restart => cases he

/-- What is stored of a profile only moves up; a stale configure fails and
changes nothing; what is cached and what its subscribers see is the stored
configuration with the highest accepted revision, or while that one is being
published the one stored before it. -/
theorem profiles_agree {inherited : Sorted String String} {h : List Event}
    (hrun : Run (State.next parseUrl) Free (.fresh inherited) h s) :
    (∀ later t, Run (State.next parseUrl) Free s later t → Grows s t) ∧
    (∀ id config old, s.stored.lookup id = some old → Stale config old →
      ∀ e t, e.Configures s id config → s.next parseUrl e = some t →
        t.stored = s.stored ∧ t.cached = s.cached ∧ t.channels = s.channels) ∧
    (∀ id profile, s.cached.lookup id = some profile →
      (∃ config, s.current id = some config ∧ Runtime.load parseUrl s.inherited config = .ok profile.runtime) ∧
      ∀ subscriber ∈ s.subscribers, subscriber.id = id →
        s.channels[subscriber.updates]? = some profile.runtime.settings) ∧
    (∀ subscriber ∈ s.subscribers, ∃ profile, s.cached.lookup subscriber.id = some profile) ∧
    (∀ id row, s.stored.lookup id = some row →
      (id, row) ∈ s.accepted ∧ ∀ config, (id, config) ∈ s.accepted → Replaces row config) := by
  obtain ⟨hs, htop⟩ := run_highest hrun
  refine ⟨?_, ?_, ?_, ?_, ?_⟩
  · intro later t hlater
    exact run_grows hlater hs
  · intro id config old hold hstale e t he hn
    exact stale_keeps hs hold hstale he hn
  · intro id profile hprofile
    obtain ⟨hcurrent, hchannel⟩ := hs.cached hprofile
    refine ⟨hcurrent, ?_⟩
    rintro subscriber hmem rfl
    obtain ⟨profile', hprofile', hupdates⟩ := hs.subscribers subscriber hmem
    obtain rfl := Option.some.inj (hprofile.symm.trans hprofile')
    rw [← hupdates]
    exact hchannel
  · intro subscriber hmem
    obtain ⟨profile, hprofile, -⟩ := hs.subscribers subscriber hmem
    exact ⟨profile, hprofile⟩
  · intro id row hrow
    refine ⟨htop.row hrow, ?_⟩
    intro config hmem
    obtain ⟨row', hrow', hr⟩ := htop.top hmem
    obtain rfl := Option.some.inj (hrow.symm.trans hrow')
    exact hr

-- A profile is stored, taken by a channel, and stored again without background work.

def noUrl : ParseUrl := fun _ => none

def plainConfig : RemoteConfig := ⟨.empty, 1⟩

def foregroundConfig : RemoteConfig := ⟨Sorted.empty.insert "background" "false", 2⟩

def committing : List Event :=
  [.configure "p" plainConfig, .load 0, .enter 0, .step, .step,
   .snapshot "p", .enter 0, .step, .step,
   .configure "p" foregroundConfig, .load 0, .enter 0, .step]

def committed : Option State := play (State.next noUrl) Free (.fresh .empty) committing

theorem profiles_agree_one : ∃ s, Run (State.next noUrl) Free (.fresh .empty) committing.reverse s ∧
    s.subscribers ≠ [] ∧ ∀ subscriber ∈ s.subscribers, ∃ profile, s.cached.lookup subscriber.id = some profile := by
  obtain ⟨s, hs, hne⟩ : ∃ s, committed = some s ∧ s.subscribers ≠ [] := by
    decide
  have hrun := run_of_play_list hs
  exact ⟨s, hrun, hne, (profiles_agree hrun).2.2.2.1⟩

/-- A channel still sees the settings of revision 1 when revision 2 is stored. -/
theorem unpublished_settings : ∃ s, Run (State.next noUrl) Free (.fresh .empty) committing.reverse s ∧
    ∃ profile, s.cached.lookup "p" = some profile ∧ ⟨"p", profile.updates⟩ ∈ s.subscribers ∧
      s.channels[profile.updates]? = some ⟨true, 30⟩ ∧ s.stored.lookup "p" = some foregroundConfig ∧
      (Runtime.load noUrl s.inherited foregroundConfig).map Runtime.settings = .ok ⟨false, 30⟩ := by
  obtain ⟨s, hs, hrest⟩ : ∃ s, committed = some s ∧
      ∃ profile, s.cached.lookup "p" = some profile ∧ ⟨"p", profile.updates⟩ ∈ s.subscribers ∧
        s.channels[profile.updates]? = some ⟨true, 30⟩ ∧ s.stored.lookup "p" = some foregroundConfig ∧
        (Runtime.load noUrl s.inherited foregroundConfig).map Runtime.settings = .ok ⟨false, 30⟩ := by
    decide
  exact ⟨s, run_of_play_list hs, hrest⟩

end RemoteCodex.Server.Profiles
