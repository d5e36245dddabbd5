import RemoteCodex.Server.Installation

/-!
# A service is replaced when it is idle

What an installer finds idle stays idle while it has the locks, and the process
it signals is the service, unless its pid has changed hands in the meantime.
-/

namespace RemoteCodex.Server.Installation

open Interact

/-- A service with `service.lock`. -/
def Stage.owns : Stage → Bool
  | .owning | .opened | .serving | .stopping => true
  | _ => false

/-- A service that was listening, and has the lock. -/
def Stage.live : Stage → Bool
  | .serving | .stopping => true
  | _ => false

namespace State

/-- An installer has the pid, and has not signalled it. -/
def targeted (s : State) (pid : Nat) : Bool := s.installers.values.any fun i => i.progress.target = some pid

/-- The process was signalled. -/
def doomed (s : State) (pid : Nat) : Bool :=
  (s.processes.lookup pid).any fun process => decide (process.born ∈ s.signalled)

/-- An installer that waits for a process that is still there. -/
def awaits (s : State) (n : Nat) : Bool :=
  (s.installers.lookup n).any fun i =>
    match i.progress with
    | .waiting pid => (s.processes.lookup pid).isSome
    | _ => false

/-- A pid that an installer has is neither used again nor that of a service that
lets go of the lock; an installer does not give up on the process it signalled;
and a service that was signalled has no task left when it lets go. -/
def calm (s : State) : Event → Bool
  | .launch pid _ _ _ => !s.targeted pid
  | .spawn pid => !s.targeted pid
  | .service pid .release => !s.targeted pid && !(s.doomed pid && decide (pid ∈ s.tasks))
  | .installer n .giveUp => !s.awaits n
  | _ => true

end State

/-- Nothing is active. -/
structure Quiet (s : State) : Prop where
  channels : s.database.channels = []
  jobs : s.database.jobs = []
  transfers : s.transfers = []

structure Sound (s : State) : Prop where
  fresh : ∀ pid p, s.processes.lookup pid = some p → p.born < s.count
  apart : ∀ pid pid' p p', s.processes.lookup pid = some p → s.processes.lookup pid' = some p' → p.born = p'.born →
    pid = pid'
  past : ∀ born ∈ s.signalled, born < s.count
  owner : ∀ pid, s.owner = some pid ↔ ∃ service, s.serviceAt pid = some service ∧ service.stage.owns = true
  inspecting : ∀ n i pid expected, s.installers.lookup n = some i → i.progress = .inspecting pid expected →
    s.writer = some n
  checked : ∀ n i, s.installers.lookup n = some i → i.progress.checked = true →
    s.writer = some n ∧ s.blocker = some n ∧ Quiet s
  /-- The process that is going to be signalled is gone, or still the service. -/
  target : ∀ n i pid, s.installers.lookup n = some i → i.progress.target = some pid →
    s.processes.lookup pid = none ∨ ∃ service, s.serviceAt pid = some service ∧ service.stage.live = true
  /-- A process that was signalled has let go of the lock, or is waited for. -/
  signalled : ∀ pid p, s.processes.lookup pid = some p → p.born ∈ s.signalled →
    ∃ service, p.service = some service ∧ ((service.stage = .released ∧ pid ∉ s.tasks) ∨
      (service.stage.live = true ∧ ∃ n i, s.installers.lookup n = some i ∧ i.progress = .waiting pid))

variable {s t : State} {pid n : Nat} {service service' : Service} {installer : Installer}

theorem Stage.owns_of_live {stage : Stage} (h : stage.live = true) : stage.owns = true := by
  cases stage with
  | serving => rfl
  | stopping => rfl
  | _ => cases h

theorem serviceAt_eq : s.serviceAt pid = some service ↔
    ∃ p, s.processes.lookup pid = some p ∧ p.service = some service := Option.bind_eq_some_iff

theorem not_targeted (h : s.targeted pid = false) {i : Installer} (hi : s.installers.lookup n = some i) :
    i.progress.target ≠ some pid := by
  simp only [State.targeted, List.any_eq_false] at h
  simpa using h i (Table.mem_values.mpr ⟨n, hi⟩)

-- ---------------------------------------------------------------------------
-- Processes
-- ---------------------------------------------------------------------------

theorem setService_lookup (s : State) (pid : Nat) (service : Service) (k : Nat) :
    (s.setService pid service).processes.lookup k =
      (s.processes.lookup k).map fun p => if k = pid then { p with service := some service } else p :=
  Table.lookup_update _ _ _

theorem setService_at (h : s.serviceAt pid = some service) (k : Nat) :
    (s.setService pid service').serviceAt k = if k = pid then some service' else s.serviceAt k := by
  unfold State.serviceAt
  rw [setService_lookup]
  by_cases hk : k = pid
  · subst hk
    obtain ⟨p, hp, -⟩ := serviceAt_eq.mp h
    simp [hp]
  · simp only [if_neg hk]
    cases s.processes.lookup k <;> rfl

theorem Sound.bear (hs : Sound s) {o : Option Service} (hstage : ∀ service, o = some service → service.stage = .starting)
    (hcalm : s.targeted pid = false) (h : s.bear pid o = some t) : Sound t := by
  unfold State.bear at h
  split at h
  · cases h
  · next hnone =>
    obtain rfl := Option.some.inj h
    have hlook : ∀ k p, (s.processes.insert pid ⟨s.count, o⟩).lookup k = some p →
        (k = pid ∧ p = ⟨s.count, o⟩) ∨ (k ≠ pid ∧ s.processes.lookup k = some p) := by
      intro k p hk
      rw [Table.lookup_insert_if] at hk
      split at hk
      · next heq => exact .inl ⟨heq, (Option.some.inj hk).symm⟩
      · next hne => exact .inr ⟨hne, hk⟩
    constructor
    · intro k p hk
      rcases hlook k p hk with ⟨-, rfl⟩ | ⟨-, hold⟩
      · exact Nat.lt_succ_self _
      · exact Nat.lt_succ_of_lt (hs.fresh k p hold)
    · intro k k' p p' hk hk' hborn
      rcases hlook k p hk with ⟨rfl, rfl⟩ | ⟨-, hold⟩
      · rcases hlook k' p' hk' with ⟨rfl, -⟩ | ⟨-, hold'⟩
        · rfl
        · exact absurd (hs.fresh k' p' hold') (by rw [← hborn]; exact Nat.lt_irrefl _)
      · rcases hlook k' p' hk' with ⟨rfl, rfl⟩ | ⟨-, hold'⟩
        · exact absurd (hs.fresh k p hold) (by rw [hborn]; exact Nat.lt_irrefl _)
        · exact hs.apart k k' p p' hold hold' hborn
    · exact fun born hin => Nat.lt_succ_of_lt (hs.past born hin)
    · intro k
      refine (hs.owner k).trans ?_
      unfold State.serviceAt
      rw [Table.lookup_insert_if]
      split
      · next heq =>
        subst heq
        rw [hnone]
        constructor
        · rintro ⟨found, hfound, -⟩
          cases hfound
        · rintro ⟨found, hfound, howns⟩
          rw [hstage found hfound] at howns
          cases howns
      · exact Iff.rfl
    · exact hs.inspecting
    · intro m i hi hc
      obtain ⟨hwriter, hblocker, hquiet⟩ := hs.checked m i hi hc
      exact ⟨hwriter, hblocker, hquiet.channels, hquiet.jobs, hquiet.transfers⟩
    · intro m i k hi hk
      have hne : k ≠ pid := by
        rintro rfl
        exact not_targeted hcalm hi hk
      unfold State.serviceAt
      rw [Table.lookup_insert_if, if_neg hne]
      exact hs.target m i k hi hk
    · intro k p hk hin
      rcases hlook k p hk with ⟨-, rfl⟩ | ⟨-, hold⟩
      · exact absurd (hs.past _ hin) (Nat.lt_irrefl _)
      · exact hs.signalled k p hold hin

theorem Sound.bury (hs : Sound s) (pid : Nat) : Sound (s.bury pid) := by
  have hlook : ∀ k p, (s.bury pid).processes.lookup k = some p → k ≠ pid ∧ s.processes.lookup k = some p := by
    intro k p hk
    rw [State.bury, Table.lookup_erase_if] at hk
    split at hk
    · cases hk
    · next hne => exact ⟨hne, hk⟩
  have hat : ∀ k, k ≠ pid → (s.bury pid).serviceAt k = s.serviceAt k := by
    intro k hne
    unfold State.serviceAt State.bury
    rw [Table.lookup_erase_if, if_neg hne]
  have hgone : (s.bury pid).serviceAt pid = none := by
    unfold State.serviceAt State.bury
    rw [Table.lookup_erase_if, if_pos rfl]
    rfl
  constructor
  · exact fun k p hk => hs.fresh k p (hlook k p hk).2
  · exact fun k k' p p' hk hk' => hs.apart k k' p p' (hlook k p hk).2 (hlook k' p' hk').2
  · exact hs.past
  · intro k
    by_cases hk : k = pid
    · subst hk
      rw [hgone]
      constructor
      · intro howner
        simp only [State.bury] at howner
        split at howner
        · cases howner
        · next hne => exact absurd howner hne
      · rintro ⟨found, hfound, -⟩
        cases hfound
    · rw [hat k hk, ← hs.owner k]
      simp only [State.bury]
      split
      · next heq =>
        rw [heq]
        constructor
        · intro hnone
          cases hnone
        · intro hsome
          exact absurd (Option.some.inj hsome).symm hk
      · exact Iff.rfl
  · exact hs.inspecting
  · intro m i hi hc
    obtain ⟨hwriter, hblocker, hquiet⟩ := hs.checked m i hi hc
    refine ⟨hwriter, hblocker, hquiet.channels, hquiet.jobs, ?_⟩
    show s.transfers.filter _ = []
    rw [hquiet.transfers]
    rfl
  · intro m i k hi hk
    by_cases heq : k = pid
    · subst heq
      exact .inl (AList.lookup_erase _ _)
    · rcases hs.target m i k hi hk with hnone | hlive
      · exact .inl ((AList.lookup_erase_ne heq).trans hnone)
      · exact .inr (by rw [hat k heq]; exact hlive)
  · intro k p hk hin
    obtain ⟨service, hservice, ⟨hreleased, hno⟩ | hwait⟩ := hs.signalled k p (hlook k p hk).2 hin
    · exact ⟨service, hservice, .inl ⟨hreleased, fun hmem => hno (List.mem_of_mem_filter hmem)⟩⟩
    · exact ⟨service, hservice, .inr hwait⟩

/-- A service goes on to its next stage. -/
theorem Sound.setService (hs : Sound s) (hservice : s.serviceAt pid = some service) (owner socket : Option Nat)
    (database : Database) (hstage : service.stage ≠ .released)
    (hlive : service.stage.live = true →
      service'.stage.live = true ∨
        (service'.stage = .released ∧ s.targeted pid = false ∧ (s.doomed pid = true → pid ∉ s.tasks)))
    (howner : (owner = s.owner ∧ service'.stage.owns = service.stage.owns) ∨
      (s.owner = none ∧ owner = some pid ∧ service'.stage.owns = true) ∨
      (s.owner = some pid ∧ owner = none ∧ service'.stage.owns = false))
    (hdatabase : database = s.database ∨ s.writer = none) :
    Sound { s.setService pid service' with owner, socket, database } := by
  have hlook : ∀ k p, (s.setService pid service').processes.lookup k = some p →
      ∃ old, s.processes.lookup k = some old ∧ p.born = old.born ∧
        p.service = if k = pid then some service' else old.service := by
    intro k p hk
    rw [setService_lookup] at hk
    obtain ⟨old, hold, rfl⟩ := Option.map_eq_some_iff.mp hk
    refine ⟨old, hold, ?_, ?_⟩
    · split <;> rfl
    · split <;> rfl
  constructor
  · intro k p hk
    obtain ⟨old, hold, hborn, -⟩ := hlook k p hk
    rw [hborn]
    exact hs.fresh k old hold
  · intro k k' p p' hk hk' hborn
    obtain ⟨old, hold, heq, -⟩ := hlook k p hk
    obtain ⟨old', hold', heq', -⟩ := hlook k' p' hk'
    exact hs.apart k k' old old' hold hold' (by rw [← heq, ← heq', hborn])
  · exact hs.past
  · intro k
    show owner = some k ↔ ∃ found, (s.setService pid service').serviceAt k = some found ∧ found.stage.owns = true
    rw [setService_at hservice]
    by_cases hk : k = pid
    · subst hk
      rw [if_pos rfl]
      simp only [Option.some.injEq, exists_eq_left']
      rcases howner with ⟨rfl, hsame⟩ | ⟨-, rfl, howns⟩ | ⟨-, rfl, howns⟩
      · rw [hsame, hs.owner k, hservice]
        simp only [Option.some.injEq, exists_eq_left']
      · simp [howns]
      · simp [howns]
    · simp only [if_neg hk]
      rcases howner with ⟨rfl, -⟩ | ⟨hnone, rfl, -⟩ | ⟨hown, rfl, -⟩
      · exact hs.owner k
      · rw [← hs.owner k, hnone]
        simp [Ne.symm hk]
      · rw [← hs.owner k, hown]
        simp [Ne.symm hk]
  · exact hs.inspecting
  · intro m i hi hc
    obtain ⟨hwriter, hblocker, hquiet⟩ := hs.checked m i hi hc
    rcases hdatabase with rfl | hnone
    · exact ⟨hwriter, hblocker, hquiet.channels, hquiet.jobs, hquiet.transfers⟩
    · rw [hwriter] at hnone
      cases hnone
  · intro m i k hi hk
    show (s.setService pid service').processes.lookup k = none ∨
      ∃ found, (s.setService pid service').serviceAt k = some found ∧ found.stage.live = true
    rcases hs.target m i k hi hk with hnone | ⟨found, hfound, hfoundLive⟩
    · refine .inl ?_
      rw [setService_lookup, hnone]
      rfl
    · rw [setService_at hservice]
      by_cases heq : k = pid
      · subst heq
        obtain rfl := Option.some.inj (hservice.symm.trans hfound)
        rcases hlive hfoundLive with hlive | ⟨-, hfree, -⟩
        · exact .inr ⟨service', if_pos rfl, hlive⟩
        · exact absurd hk (not_targeted hfree hi)
      · exact .inr ⟨found, (if_neg heq).trans hfound, hfoundLive⟩
  · intro k p hk hin
    obtain ⟨old, hold, hborn, hnew⟩ := hlook k p hk
    rw [hborn] at hin
    obtain ⟨found, hfound, hcase⟩ := hs.signalled k old hold hin
    rw [hnew]
    by_cases heq : k = pid
    · subst heq
      obtain rfl := Option.some.inj (hservice.symm.trans (serviceAt_eq.mpr ⟨old, hold, hfound⟩))
      refine ⟨service', if_pos rfl, ?_⟩
      rcases hcase with hreleased | ⟨hold', hwait⟩
      · exact absurd hreleased.1 hstage
      · rcases hlive hold' with hlive | ⟨hreleased, -, hno⟩
        · exact .inr ⟨hlive, hwait⟩
        · have hdoomed : s.doomed k = true := by
            simp only [State.doomed, hold, Option.any_some, decide_eq_true_eq]
            exact hin
          exact .inl ⟨hreleased, hno hdoomed⟩
    · exact ⟨found, (if_neg heq).trans hfound, hcase⟩

theorem Sound.advance (hs : Sound s) (hservice : s.serviceAt pid = some service) {step : ServiceStep}
    (hcalm : step = .release → s.targeted pid = false ∧ (s.doomed pid = true → pid ∉ s.tasks)) (h : s.advance pid service step = some t) : Sound t := by
  have howner : service.stage.owns = true → s.owner = some pid := fun howns =>
    (hs.owner pid).mpr ⟨service, hservice, howns⟩
  cases step with
  | own =>
    simp only [State.advance] at h
    split at h
    · next hstage =>
      split at h
      · next hfree =>
        obtain rfl := Option.some.inj h
        refine hs.setService hservice (some pid) s.socket s.database ?_ ?_ ?_ (.inl rfl)
        · rw [hstage]
          nofun
        · rw [hstage]
          nofun
        · exact .inr (.inl ⟨hfree, rfl, rfl⟩)
      · obtain rfl := Option.some.inj h
        exact hs.bury pid
    · cases h
  | openStore drawn =>
    simp only [State.advance] at h
    split at h
    · next hstage =>
      split at h
      · obtain rfl := Option.some.inj h
        exact hs.bury pid
      · next database hdatabase =>
        obtain rfl := Option.some.inj h
        refine hs.setService hservice s.owner s.socket database ?_ ?_ (.inl ⟨rfl, ?_⟩) (.inr hstage.2)
        · rw [hstage.1]
          nofun
        · rw [hstage.1]
          nofun
        · rw [hstage.1]
          rfl
    · cases h
  | listen =>
    simp only [State.advance] at h
    split at h
    · next hstage =>
      obtain rfl := Option.some.inj h
      refine hs.setService hservice s.owner (some pid) s.database ?_ ?_ (.inl ⟨rfl, ?_⟩) (.inl rfl)
      · rw [hstage]
        nofun
      · rw [hstage]
        nofun
      · rw [hstage]
        rfl
    · cases h
  | stop =>
    simp only [State.advance] at h
    split at h
    · next hstage =>
      obtain rfl := Option.some.inj h
      refine hs.setService hservice s.owner s.socket s.database ?_ (fun _ => .inl rfl) (.inl ⟨rfl, ?_⟩) (.inl rfl)
      · rw [hstage]
        nofun
      · rw [hstage]
        rfl
    · cases h
  | release =>
    simp only [State.advance] at h
    split at h
    · next hstage =>
      obtain rfl := Option.some.inj h
      refine hs.setService hservice none none s.database ?_ (fun _ => .inr ⟨rfl, hcalm rfl⟩) (.inr (.inr ⟨?_, rfl, rfl⟩))
        (.inl rfl)
      · rw [hstage]
        nofun
      · apply howner
        rw [hstage]
        rfl
    · cases h

-- ---------------------------------------------------------------------------
-- Work
-- ---------------------------------------------------------------------------

/-- A service that was signalled and has let go of the lock has no task, and gets none. -/
theorem Sound.tasks (hs : Sound s) (tasks : List Nat)
    (h : ∀ pid ∈ tasks, pid ∈ s.tasks ∨ ∃ service, s.serviceAt pid = some service ∧ service.stage = .serving) :
    Sound { s with tasks } := by
  refine ⟨hs.fresh, hs.apart, hs.past, hs.owner, hs.inspecting, ?_, hs.target, ?_⟩
  · intro m i hi hc
    obtain ⟨hwriter, hblocker, hquiet⟩ := hs.checked m i hi hc
    exact ⟨hwriter, hblocker, hquiet.channels, hquiet.jobs, hquiet.transfers⟩
  · intro pid p hp hin
    obtain ⟨service, hservice, ⟨hreleased, hno⟩ | hwait⟩ := hs.signalled pid p hp hin
    · refine ⟨service, hservice, .inl ⟨hreleased, fun hmem => ?_⟩⟩
      rcases h pid hmem with hold | ⟨found, hfound, hserving⟩
      · exact hno hold
      · obtain rfl := Option.some.inj ((serviceAt_eq.mpr ⟨p, hp, hservice⟩).symm.trans hfound)
        rw [hreleased] at hserving
        cases hserving
    · exact ⟨service, hservice, .inr hwait⟩

/-- Work under no lock changes what is active, and nothing else. -/
theorem Sound.work (hs : Sound s) {work : Work} (h : s.doWork pid work = some t) : Sound t := by
  have hkeep : ∀ (database : Database) (transfers : List Nat),
      (∀ m i, s.installers.lookup m = some i → i.progress.checked = true →
        database.channels = [] ∧ database.jobs = [] ∧ transfers = []) →
      Sound { s with database, transfers } := by
    intro database transfers hquiet
    refine ⟨hs.fresh, hs.apart, hs.past, hs.owner, hs.inspecting, ?_, hs.target, hs.signalled⟩
    intro m i hi hc
    obtain ⟨hwriter, hblocker, -⟩ := hs.checked m i hi hc
    obtain ⟨hchannels, hjobs, htransfers⟩ := hquiet m i hi hc
    exact ⟨hwriter, hblocker, hchannels, hjobs, htransfers⟩
  have hfree : ∀ {P : Prop}, s.writer = none →
      ∀ m i, s.installers.lookup m = some i → i.progress.checked = true → P := by
    intro P hnone m i hi hc
    rw [(hs.checked m i hi hc).1] at hnone
    cases hnone
  cases work with
  | startTransfer =>
    simp only [State.doWork] at h
    split at h
    · next hnone =>
      obtain rfl := Option.some.inj h
      refine hkeep s.database (pid :: s.transfers) fun m i hi hc => ?_
      rw [(hs.checked m i hi hc).2.1] at hnone
      cases hnone
    · cases h
  | endTransfer =>
    obtain rfl := Option.some.inj h
    refine hkeep s.database (s.transfers.erase pid) fun m i hi hc => ?_
    have hquiet := (hs.checked m i hi hc).2.2
    refine ⟨hquiet.channels, hquiet.jobs, ?_⟩
    rw [hquiet.transfers]
    rfl
  | _ =>
    simp only [State.doWork] at h
    split at h
    · next hnone =>
      obtain rfl := Option.some.inj h
      exact hkeep _ s.transfers (hfree hnone)
    · cases h

-- ---------------------------------------------------------------------------
-- Installers
-- ---------------------------------------------------------------------------

/-- The pid is nobody's, or still that of a service with the lock. -/
def Held (s : State) (pid : Nat) : Prop :=
  s.processes.lookup pid = none ∨ ∃ service, s.serviceAt pid = some service ∧ service.stage.live = true

/-- Installer `n` goes on, with its own locks at most. -/
theorem Sound.setProgress (hs : Sound s) (hi : s.installers.lookup n = some installer) (progress : Progress)
    (writer blocker : Option Nat) (signalled : List Nat)
    (hwriter : writer = s.writer ∨ s.writer = none ∨ s.writer = some n)
    (hblocker : blocker = s.blocker ∨ s.blocker = none ∨ s.blocker = some n)
    (hinspecting : ∀ pid expected, progress = .inspecting pid expected → writer = some n)
    (hchecked : progress.checked = true → writer = some n ∧ blocker = some n ∧ Quiet s)
    (htarget : ∀ pid, progress.target = some pid → Held s pid)
    (hwaiting : ∀ pid, installer.progress = .waiting pid → s.processes.lookup pid = none ∨ s.owner = none)
    (hsignalled : signalled = s.signalled ∨ ∃ pid p service, s.processes.lookup pid = some p ∧
      p.service = some service ∧ service.stage.live = true ∧ signalled = p.born :: s.signalled ∧
      progress = .waiting pid) :
    Sound ({ s with writer, blocker, signalled }.setProgress n installer progress) := by
  have hlook : ∀ m i, (s.installers.insert n { installer with progress }).lookup m = some i →
      (m = n ∧ i.progress = progress) ∨ (m ≠ n ∧ s.installers.lookup m = some i) := by
    intro m i hm
    rw [Table.lookup_insert_if] at hm
    split at hm
    · next heq =>
      obtain rfl := Option.some.inj hm
      exact .inl ⟨heq, rfl⟩
    · next hne => exact .inr ⟨hne, hm⟩
  have hother : ∀ {m}, m ≠ n → s.writer = some m → writer = some m := by
    intro m hne hm
    rcases hwriter with rfl | hnone | hown
    · exact hm
    · rw [hnone] at hm
      cases hm
    · rw [hown] at hm
      exact absurd (Option.some.inj hm).symm hne
  have hotherBlocker : ∀ {m}, m ≠ n → s.blocker = some m → blocker = some m := by
    intro m hne hm
    rcases hblocker with rfl | hnone | hown
    · exact hm
    · rw [hnone] at hm
      cases hm
    · rw [hown] at hm
      exact absurd (Option.some.inj hm).symm hne
  have hwaits : ∀ pid p, s.processes.lookup pid = some p → ∀ service, p.service = some service →
      service.stage.live = true → (∃ m i, s.installers.lookup m = some i ∧ i.progress = .waiting pid) →
      ∃ m i, (s.installers.insert n { installer with progress }).lookup m = some i ∧ i.progress = .waiting pid := by
    rintro pid p hp service hservice hlive ⟨m, i, hm, hwait⟩
    by_cases heq : m = n
    · subst heq
      obtain rfl := Option.some.inj (hi.symm.trans hm)
      rcases hwaiting pid hwait with hnone | hfree
      · rw [hnone] at hp
        cases hp
      · have howner := (hs.owner pid).mpr ⟨service, serviceAt_eq.mpr ⟨p, hp, hservice⟩, Stage.owns_of_live hlive⟩
        rw [hfree] at howner
        cases howner
    · exact ⟨m, i, (AList.lookup_insert_ne heq).trans hm, hwait⟩
  constructor
  · exact hs.fresh
  · exact hs.apart
  · intro born hin
    rcases hsignalled with rfl | ⟨pid, p, service, hp, -, -, rfl, -⟩
    · exact hs.past born hin
    · rcases List.mem_cons.mp hin with rfl | hin
      · exact hs.fresh pid p hp
      · exact hs.past born hin
  · exact hs.owner
  · intro m i pid expected hm hprogress
    rcases hlook m i hm with ⟨rfl, hnew⟩ | ⟨hne, hold⟩
    · exact hinspecting pid expected (hnew ▸ hprogress)
    · exact hother hne (hs.inspecting m i pid expected hold hprogress)
  · intro m i hm hc
    rcases hlook m i hm with ⟨rfl, hnew⟩ | ⟨hne, hold⟩
    · obtain ⟨hw, hb, hquiet⟩ := hchecked (hnew ▸ hc)
      exact ⟨hw, hb, hquiet.channels, hquiet.jobs, hquiet.transfers⟩
    · obtain ⟨hw, hb, hquiet⟩ := hs.checked m i hold hc
      exact ⟨hother hne hw, hotherBlocker hne hb, hquiet.channels, hquiet.jobs, hquiet.transfers⟩
  · intro m i pid hm htargeted
    rcases hlook m i hm with ⟨rfl, hnew⟩ | ⟨hne, hold⟩
    · exact htarget pid (hnew ▸ htargeted)
    · exact hs.target m i pid hold htargeted
  · intro pid p hp hin
    have hold : p.born ∈ s.signalled → ∃ service, p.service = some service ∧
        ((service.stage = .released ∧ pid ∉ s.tasks) ∨ (service.stage.live = true ∧ ∃ m i, (s.installers.insert n { installer with progress }).lookup m = some i ∧
          i.progress = .waiting pid)) := by
      intro hin
      obtain ⟨service, hservice, hreleased | ⟨hlive, hwait⟩⟩ := hs.signalled pid p hp hin
      · exact ⟨service, hservice, .inl hreleased⟩
      · exact ⟨service, hservice, .inr ⟨hlive, hwaits pid p hp service hservice hlive hwait⟩⟩
    rcases hsignalled with rfl | ⟨pid', p', service, hp', hservice, hlive, rfl, hprogress⟩
    · exact hold hin
    · rcases List.mem_cons.mp hin with hborn | hin
      · obtain rfl := hs.apart pid pid' p p' hp hp' hborn
        obtain rfl := Option.some.inj (hp.symm.trans hp')
        exact ⟨service, hservice, .inr ⟨hlive, n, _, AList.lookup_insert _, hprogress⟩⟩
      · exact hold hin

/-- An installer ends. -/
theorem Sound.finish (hs : Sound s) (hi : s.installers.lookup n = some installer)
    (hwaiting : ∀ pid, installer.progress = .waiting pid → s.processes.lookup pid = none ∨ s.owner = none) :
    Sound (s.finish n installer) := by
  refine hs.setProgress hi .ended _ _ s.signalled ?_ ?_ nofun nofun nofun hwaiting (.inl rfl)
  · by_cases h : s.writer = some n
    · exact .inr (.inr h)
    · exact .inl (if_neg h)
  · by_cases h : s.blocker = some n
    · exact .inr (.inr h)
    · exact .inl (if_neg h)

/-- An installer goes on to look at the same pid. -/
theorem Sound.onward (hs : Sound s) (hi : s.installers.lookup n = some installer) {progress : Progress}
    (htarget : ∀ pid, progress.target = some pid → Held s pid)
    (hinspecting : ∀ pid expected, progress ≠ .inspecting pid expected) (hchecked : progress.checked = false)
    (hwaiting : ∀ pid, installer.progress ≠ .waiting pid) : Sound (s.setProgress n installer progress) := by
  refine hs.setProgress hi progress s.writer s.blocker s.signalled (.inl rfl) (.inl rfl) ?_ ?_ htarget ?_ (.inl rfl)
  · exact fun pid expected heq => absurd heq (hinspecting pid expected)
  · rw [hchecked]
    nofun
  · exact fun pid heq => absurd heq (hwaiting pid)

theorem listener_live {pid : Nat} (h : s.listener = some pid) : Held s pid := by
  obtain ⟨-, hany⟩ := Option.filter_eq_some_iff.mp h
  cases hservice : s.serviceAt pid with
  | none =>
    rw [hservice] at hany
    cases hany
  | some service =>
    rw [hservice] at hany
    have hstage : service.stage = .serving := of_decide_eq_true hany
    refine .inr ⟨service, hservice, ?_⟩
    rw [hstage]
    rfl

theorem Held.live (h : Held s pid) {p : Process} (hp : s.processes.lookup pid = some p) :
    ∃ service, p.service = some service ∧ s.serviceAt pid = some service ∧ service.stage.live = true := by
  rcases h with hnone | ⟨service, hservice, hlive⟩
  · rw [hnone] at hp
    cases hp
  · obtain ⟨found, hfound, heq⟩ := serviceAt_eq.mp hservice
    obtain rfl := Option.some.inj (hp.symm.trans hfound)
    exact ⟨service, heq, hservice, hlive⟩

/-- What an installer that is about to look finds: nothing is active, and it
has both locks, or it ends. -/
theorem Sound.inspect (hs : Sound s) (hi : s.installers.lookup n = some installer) {expected : Option String}
    (hprogress : installer.progress = .inspecting pid expected) : Sound (s.inspect n installer pid expected) := by
  have hend : Sound (s.finish n installer) := hs.finish hi fun k heq => by
    rw [hprogress] at heq
    cases heq
  unfold State.inspect
  split
  · exact hend
  split
  · exact hend
  split
  · exact hend
  next hquiet =>
    simp only [not_or, ne_eq, Decidable.not_not] at hquiet
    obtain ⟨hchannels, hjobs, htransfers, hblocker⟩ := hquiet
    refine hs.setProgress hi (.idle pid expected) s.writer (some n) s.signalled (.inl rfl) ?_ nofun ?_ ?_ ?_ (.inl rfl)
    · exact .inr (.inl (by simpa using hblocker))
    · exact fun _ => ⟨hs.inspecting n installer pid expected hi hprogress, rfl, hchannels, hjobs, htransfers⟩
    · intro k hk
      obtain rfl := Option.some.inj hk
      exact hs.target n installer pid hi (by rw [hprogress]; rfl)
    · intro k heq
      rw [hprogress] at heq
      cases heq

/-- The signal goes to the service, which the installer then waits for. -/
theorem Sound.kill (hs : Sound s) (hi : s.installers.lookup n = some installer) {expected : Option String}
    (hprogress : installer.progress = .idle pid expected) : Sound (s.kill n installer pid expected) := by
  have hwaiting : ∀ k, installer.progress = .waiting k → s.processes.lookup k = none ∨ s.owner = none := by
    intro k heq
    rw [hprogress] at heq
    cases heq
  unfold State.kill
  split
  · exact hs.finish hi hwaiting
  split
  · exact hs.finish hi hwaiting
  next process hprocess =>
    have hheld : Held s pid := hs.target n installer pid hi (by rw [hprogress]; rfl)
    obtain ⟨service, hservice, -, hlive⟩ := hheld.live hprocess
    have hchecked := hs.checked n installer hi (by rw [hprogress]; rfl)
    refine hs.setProgress hi (.waiting pid) s.writer s.blocker (process.born :: s.signalled) (.inl rfl) (.inl rfl) nofun
      (fun _ => hchecked) nofun hwaiting ?_
    exact .inr ⟨pid, process, service, hprocess, hservice, hlive, rfl, rfl⟩

theorem Sound.installerNext (hs : Sound s) (hi : s.installers.lookup n = some installer) {step : InstallerStep}
    (hcalm : step = .giveUp → s.awaits n = false) (h : s.installerNext n installer step = some t) : Sound t := by
  have hat : ∀ {k}, installer.progress.target = some k → Held s k := fun htarget => hs.target n installer _ hi htarget
  cases step with
  | connect =>
    simp only [State.installerNext] at h
    split at h
    · next hstart =>
      have hwaiting : ∀ k, installer.progress ≠ .waiting k := by
        intro k
        rw [hstart]
        nofun
      split at h
      · obtain rfl := Option.some.inj h
        exact hs.finish hi fun k heq => absurd heq (hwaiting k)
      · next pid born hfound =>
        obtain rfl := Option.some.inj h
        obtain ⟨k, hlisten, hmap⟩ := Option.bind_eq_some_iff.mp hfound
        obtain ⟨process, -, heq⟩ := Option.map_eq_some_iff.mp hmap
        obtain ⟨rfl, -⟩ := Prod.mk.inj heq
        refine hs.onward hi ?_ nofun rfl hwaiting
        intro pid' htarget
        obtain rfl := Option.some.inj htarget
        exact listener_live hlisten
    · cases h
  | hello =>
    simp only [State.installerNext] at h
    split at h
    · next pid born hprogress =>
      have hwaiting : ∀ k, installer.progress ≠ .waiting k := by
        intro k
        rw [hprogress]
        nofun
      have hheld : Held s pid := hat (by rw [hprogress]; rfl)
      have hgreet : ∀ expected retires, Sound (s.setProgress n installer (.greeted pid expected retires)) := by
        intro expected retires
        refine hs.onward hi ?_ nofun rfl hwaiting
        intro k htarget
        obtain rfl := Option.some.inj htarget
        exact hheld
      split at h
      · obtain rfl := Option.some.inj h
        exact hs.finish hi fun k heq => absurd heq (hwaiting k)
      · split at h
        · cases h
        · split at h
          · obtain rfl := Option.some.inj h
            exact hgreet _ _
          · split at h
            · obtain rfl := Option.some.inj h
              exact hs.finish hi fun k heq => absurd heq (hwaiting k)
            · obtain rfl := Option.some.inj h
              exact hgreet _ _
    · cases h
  | prepare =>
    simp only [State.installerNext] at h
    split at h
    · next pid expected retires hprogress =>
      have hwaiting : ∀ k, installer.progress ≠ .waiting k := by
        intro k
        rw [hprogress]
        nofun
      have hheld : Held s pid := hat (by rw [hprogress]; rfl)
      have hprepare : ∀ expected, Sound (s.setProgress n installer (.prepared pid expected)) := by
        intro expected
        refine hs.onward hi ?_ nofun rfl hwaiting
        intro k htarget
        obtain rfl := Option.some.inj htarget
        exact hheld
      have hend : Sound (s.finish n installer) := hs.finish hi fun k heq => absurd heq (hwaiting k)
      split at h
      · split at h
        · obtain rfl := Option.some.inj h
          exact hprepare _
        · obtain rfl := Option.some.inj h
          exact hend
      · split at h
        · obtain rfl := Option.some.inj h
          exact hprepare _
        · obtain rfl := Option.some.inj h
          exact hend
    · cases h
  | begin =>
    simp only [State.installerNext] at h
    split at h
    · next pid expected hprogress hfree =>
      obtain rfl := Option.some.inj h
      refine hs.setProgress hi (.inspecting pid expected) (some n) s.blocker s.signalled (.inr (.inl hfree)) (.inl rfl)
        (fun _ _ _ => rfl) nofun ?_ ?_ (.inl rfl)
      · intro k htarget
        obtain rfl := Option.some.inj htarget
        exact hat (by rw [hprogress]; rfl)
      · intro k heq
        rw [hprogress] at heq
        cases heq
    · cases h
  | inspect =>
    simp only [State.installerNext] at h
    split at h
    · next pid expected hprogress =>
      obtain rfl := Option.some.inj h
      exact hs.inspect hi hprogress
    · cases h
  | kill =>
    simp only [State.installerNext] at h
    split at h
    · next pid expected hprogress =>
      obtain rfl := Option.some.inj h
      exact hs.kill hi hprogress
    · cases h
  | await =>
    simp only [State.installerNext] at h
    split at h
    · next hfree =>
      obtain rfl := Option.some.inj h
      exact hs.finish hi fun _ _ => .inr hfree
    · cases h
  | giveUp =>
    simp only [State.installerNext] at h
    obtain rfl := Option.some.inj h
    refine hs.finish hi fun k heq => .inl ?_
    have hgone := hcalm rfl
    simp only [State.awaits, hi, Option.any_some, heq, Option.isSome_eq_false_iff] at hgone
    exact Option.isNone_iff_eq_none.mp hgone

theorem Sound.install (hs : Sound s) {build : String} (h : s.installers.lookup n = none) :
    Sound { s with installers := s.installers.insert n { build } } := by
  have hlook : ∀ m i, (s.installers.insert n { build }).lookup m = some i →
      i.progress = .starting ∨ s.installers.lookup m = some i := by
    intro m i hm
    rw [Table.lookup_insert_if] at hm
    split at hm
    · obtain rfl := Option.some.inj hm
      exact .inl rfl
    · exact .inr hm
  refine ⟨hs.fresh, hs.apart, hs.past, hs.owner, ?_, ?_, ?_, ?_⟩
  · intro m i pid expected hm hprogress
    rcases hlook m i hm with hnew | hold
    · rw [hnew] at hprogress
      cases hprogress
    · exact hs.inspecting m i pid expected hold hprogress
  · intro m i hm hc
    rcases hlook m i hm with hnew | hold
    · rw [hnew] at hc
      cases hc
    · obtain ⟨hwriter, hblocker, hquiet⟩ := hs.checked m i hold hc
      exact ⟨hwriter, hblocker, hquiet.channels, hquiet.jobs, hquiet.transfers⟩
  · intro m i pid hm htarget
    rcases hlook m i hm with hnew | hold
    · rw [hnew] at htarget
      cases htarget
    · exact hs.target m i pid hold htarget
  · intro pid p hp hin
    obtain ⟨service, hservice, hreleased | ⟨hlive, m, i, hm, hwait⟩⟩ := hs.signalled pid p hp hin
    · exact ⟨service, hservice, .inl hreleased⟩
    · refine ⟨service, hservice, .inr ⟨hlive, m, i, ?_, hwait⟩⟩
      refine (AList.lookup_insert_ne ?_).trans hm
      rintro rfl
      rw [h] at hm
      cases hm

theorem Sound.next (hs : Sound s) {event : Event} (hcalm : s.calm event = true) (h : s.next event = some t) :
    Sound t := by
  cases event with
  | launch pid build legacy retires =>
    refine hs.bear ?_ (by simpa [State.calm] using hcalm) h
    rintro service heq
    obtain rfl := Option.some.inj heq
    rfl
  | spawn pid =>
    refine hs.bear ?_ (by simpa [State.calm] using hcalm) h
    intro service heq
    cases heq
  | exit pid =>
    obtain rfl := Option.some.inj h
    exact hs.bury pid
  | service pid step =>
    obtain ⟨service, hservice, hstep⟩ := Option.bind_eq_some_iff.mp h
    refine hs.advance hservice ?_ hstep
    rintro rfl
    simp only [State.calm, Bool.and_eq_true, Bool.not_eq_true', Bool.and_eq_false_iff, decide_eq_false_iff_not] at hcalm
    refine ⟨hcalm.1, fun hdoomed => ?_⟩
    rcases hcalm.2 with hno | hno
    · rw [hdoomed] at hno
      cases hno
    · exact hno
  | task pid =>
    simp only [State.next] at h
    split at h
    · next service hservice =>
      split at h
      · next hmay =>
        obtain rfl := Option.some.inj h
        refine hs.tasks _ fun k hk => ?_
        rcases List.mem_cons.mp hk with rfl | hk
        · rcases hmay with hserving | hmem
          · exact .inr ⟨service, hservice, hserving⟩
          · exact .inl hmem
        · exact .inl hk
      · cases h
    · cases h
  | done pid =>
    obtain rfl := Option.some.inj h
    exact hs.tasks _ fun k hk => .inl (List.mem_of_mem_erase hk)
  | work pid work =>
    simp only [State.next] at h
    split at h
    · split at h
      · exact hs.work h
      · cases h
    · cases h
  | install n build =>
    simp only [State.next] at h
    split at h
    · next hnone =>
      obtain rfl := Option.some.inj h
      exact hs.install hnone
    · cases h
  | installer n step =>
    obtain ⟨installer, hi, hstep⟩ := Option.bind_eq_some_iff.mp h
    refine hs.installerNext hi ?_ hstep
    rintro rfl
    simpa [State.calm] using hcalm

-- ---------------------------------------------------------------------------
-- Runs
-- ---------------------------------------------------------------------------

theorem sound_start (database : Database) : Sound { database } := by
  constructor
  · exact fun _ _ hp => nomatch hp
  · exact fun _ _ _ _ hp => nomatch hp
  · exact fun _ hin => nomatch hin
  · intro pid
    constructor
    · exact fun h => nomatch h
    · rintro ⟨_, h, -⟩
      exact nomatch h
  · exact fun _ _ _ _ hi => nomatch hi
  · exact fun _ _ hi => nomatch hi
  · exact fun _ _ _ hi => nomatch hi
  · exact fun _ _ hp => nomatch hp

theorem openStore_kept {db db' : Database} {drawn : String} (h : db.openStore drawn = some db')
    (htables : db.tables = true) :
    db'.identity = db.identity ∧ db'.tables = true := by
  unfold Database.openStore at h
  split at h
  · next hnew =>
    rw [htables] at hnew
    cases hnew.2.2
  · split at h
    · obtain rfl := Option.some.inj h
      exact ⟨rfl, htables⟩
    · cases h

/-- What an installer does to the database and to the signals. -/
theorem installerNext_effect {step : InstallerStep} (h : s.installerNext n installer step = some t) :
    t.database = s.database ∧ (t.signalled = s.signalled ∨ ∃ pid expected process, installer.progress = .idle pid expected ∧
      s.processes.lookup pid = some process ∧ t.signalled = process.born :: s.signalled) := by
  have hsame : ∀ {u : State}, some u = some t → u.database = s.database → u.signalled = s.signalled →
      t.database = s.database ∧ (t.signalled = s.signalled ∨ ∃ pid expected process,
        installer.progress = .idle pid expected ∧ s.processes.lookup pid = some process ∧
        t.signalled = process.born :: s.signalled) := by
    intro u heq hdatabase hsignalled
    obtain rfl := Option.some.inj heq
    exact ⟨hdatabase, .inl hsignalled⟩
  cases step with
  | connect =>
    simp only [State.installerNext] at h
    split at h
    · split at h
      · exact hsame h rfl rfl
      · exact hsame h rfl rfl
    · cases h
  | hello =>
    simp only [State.installerNext] at h
    split at h
    · split at h
      · exact hsame h rfl rfl
      · split at h
        · cases h
        · split at h
          · exact hsame h rfl rfl
          · split at h
            · exact hsame h rfl rfl
            · exact hsame h rfl rfl
    · cases h
  | prepare =>
    simp only [State.installerNext] at h
    split at h
    · split at h
      · split at h
        · exact hsame h rfl rfl
        · exact hsame h rfl rfl
      · split at h
        · exact hsame h rfl rfl
        · exact hsame h rfl rfl
    · cases h
  | begin =>
    simp only [State.installerNext] at h
    split at h
    · exact hsame h rfl rfl
    · cases h
  | inspect =>
    simp only [State.installerNext] at h
    split at h
    · obtain rfl := Option.some.inj h
      unfold State.inspect
      split
      · exact ⟨rfl, .inl rfl⟩
      split
      · exact ⟨rfl, .inl rfl⟩
      split
      · exact ⟨rfl, .inl rfl⟩
      · exact ⟨rfl, .inl rfl⟩
    · cases h
  | kill =>
    simp only [State.installerNext] at h
    split at h
    · next pid expected hprogress =>
      obtain rfl := Option.some.inj h
      unfold State.kill
      split
      · exact ⟨rfl, .inl rfl⟩
      split
      · exact ⟨rfl, .inl rfl⟩
      · next process hprocess => exact ⟨rfl, .inr ⟨pid, expected, process, hprogress, hprocess, rfl⟩⟩
    · cases h
  | await =>
    simp only [State.installerNext] at h
    split at h
    · exact hsame h rfl rfl
    · cases h
  | giveUp => exact hsame h rfl rfl

theorem doWork_effect {work : Work} (h : s.doWork pid work = some t) :
    t.database.identity = s.database.identity ∧ t.database.tables = s.database.tables ∧ t.signalled = s.signalled := by
  cases work with
  | endTransfer =>
    obtain rfl := Option.some.inj h
    exact ⟨rfl, rfl, rfl⟩
  | _ =>
    simp only [State.doWork] at h
    split at h
    · obtain rfl := Option.some.inj h
      exact ⟨rfl, rfl, rfl⟩
    · cases h

theorem advance_effect {step : ServiceStep} (h : s.advance pid service step = some t) :
    (t.database = s.database ∨ ∃ drawn, s.database.openStore drawn = some t.database) ∧ t.signalled = s.signalled := by
  cases step with
  | openStore drawn =>
    simp only [State.advance] at h
    split at h
    · split at h
      · obtain rfl := Option.some.inj h
        exact ⟨.inl rfl, rfl⟩
      · next database hdatabase =>
        obtain rfl := Option.some.inj h
        exact ⟨.inr ⟨drawn, hdatabase⟩, rfl⟩
    · cases h
  | own =>
    simp only [State.advance] at h
    split at h
    · split at h
      · obtain rfl := Option.some.inj h
        exact ⟨.inl rfl, rfl⟩
      · obtain rfl := Option.some.inj h
        exact ⟨.inl rfl, rfl⟩
    · cases h
  | _ =>
    simp only [State.advance] at h
    split at h
    · obtain rfl := Option.some.inj h
      exact ⟨.inl rfl, rfl⟩
    · cases h

/-- A step opens the store or leaves the identity, and signals nobody but whom an
installer that found the service idle has the pid of. -/
theorem next_effect {event : Event} (h : s.next event = some t) :
    ((t.database.identity = s.database.identity ∧ t.database.tables = s.database.tables) ∨
      ∃ drawn, s.database.openStore drawn = some t.database) ∧
    (t.signalled = s.signalled ∨ ∃ n i pid expected process, s.installers.lookup n = some i ∧
      i.progress = .idle pid expected ∧ s.processes.lookup pid = some process ∧
      t.signalled = process.born :: s.signalled) := by
  cases event with
  | launch pid build legacy retires =>
    simp only [State.next, State.bear] at h
    split at h
    · cases h
    · obtain rfl := Option.some.inj h
      exact ⟨.inl ⟨rfl, rfl⟩, .inl rfl⟩
  | spawn pid =>
    simp only [State.next, State.bear] at h
    split at h
    · cases h
    · obtain rfl := Option.some.inj h
      exact ⟨.inl ⟨rfl, rfl⟩, .inl rfl⟩
  | exit pid =>
    obtain rfl := Option.some.inj h
    exact ⟨.inl ⟨rfl, rfl⟩, .inl rfl⟩
  | done pid =>
    obtain rfl := Option.some.inj h
    exact ⟨.inl ⟨rfl, rfl⟩, .inl rfl⟩
  | task pid =>
    simp only [State.next] at h
    split at h
    · split at h
      · obtain rfl := Option.some.inj h
        exact ⟨.inl ⟨rfl, rfl⟩, .inl rfl⟩
      · cases h
    · cases h
  | install n build =>
    simp only [State.next] at h
    split at h
    · obtain rfl := Option.some.inj h
      exact ⟨.inl ⟨rfl, rfl⟩, .inl rfl⟩
    · cases h
  | work pid work =>
    simp only [State.next] at h
    split at h
    · split at h
      · obtain ⟨hidentity, htables, hsignalled⟩ := doWork_effect h
        exact ⟨.inl ⟨hidentity, htables⟩, .inl hsignalled⟩
      · cases h
    · cases h
  | service pid step =>
    obtain ⟨service, -, hstep⟩ := Option.bind_eq_some_iff.mp h
    obtain ⟨hdatabase, hsignalled⟩ := advance_effect hstep
    refine ⟨?_, .inl hsignalled⟩
    rcases hdatabase with hsame | hopen
    · rw [hsame]
      exact .inl ⟨rfl, rfl⟩
    · exact .inr hopen
  | installer n step =>
    obtain ⟨i, hi, hstep⟩ := Option.bind_eq_some_iff.mp h
    obtain ⟨hdatabase, hsignalled⟩ := installerNext_effect hstep
    rw [hdatabase]
    refine ⟨.inl ⟨rfl, rfl⟩, ?_⟩
    rcases hsignalled with hsame | ⟨pid, expected, process, hprogress, hprocess, hnew⟩
    · exact .inl hsame
    · exact .inr ⟨n, i, pid, expected, process, hi, hprogress, hprocess, hnew⟩

/-- No service of another database: one without tables has no identity. -/
def Database.Fresh (db : Database) : Prop := db.tables = false → db.identity = none

theorem openStore_fresh {db db' : Database} {drawn : String} (h : db.openStore drawn = some db') (hdb : db.Fresh) :
    db'.Fresh := by
  unfold Database.openStore at h
  split at h
  · obtain rfl := Option.some.inj h
    exact nofun
  · split at h
    · obtain rfl := Option.some.inj h
      exact hdb
    · cases h

theorem fresh_run {database : Database} {C : State → Event → Prop} {h : List Event}
    (hrun : Run State.next C { database } h s) (hdb : database.Fresh) : s.database.Fresh := by
  refine hrun.invariant (I := fun u => u.database.Fresh) hdb fun u e v hu _ hn => ?_
  rcases (next_effect hn).1 with ⟨hidentity, htables⟩ | ⟨drawn, hopen⟩
  · intro hnone
    rw [htables] at hnone
    rw [hidentity]
    exact hu hnone
  · exact openStore_fresh hopen hu

theorem identity_kept {identity : String} {C : State → Event → Prop} {later : List Event}
    (hrun : Run State.next C s later t) (hidentity : s.database.identity = some identity) (hdb : s.database.Fresh) :
    t.database.identity = some identity := by
  have htables : s.database.tables = true := by
    cases hnone : s.database.tables with
    | true => rfl
    | false =>
      rw [hdb hnone] at hidentity
      cases hidentity
  refine (hrun.invariant (I := fun u => u.database.identity = some identity ∧ u.database.tables = true)
    ⟨hidentity, htables⟩ fun u e v hu _ hn => ?_).1
  rcases (next_effect hn).1 with ⟨hsame, hkept⟩ | ⟨drawn, hopen⟩
  · exact ⟨hsame.trans hu.1, hkept.trans hu.2⟩
  · obtain ⟨hsame, hkept⟩ := openStore_kept hopen hu.2
    exact ⟨hsame.trans hu.1, hkept⟩

theorem sound_run {database : Database} {h : List Event}
    (hrun : Run State.next (fun s e => s.calm e = true) { database } h s) : Sound s :=
  hrun.invariant (sound_start database) fun _ _ _ hs hcalm hn => hs.next hcalm hn

/-- A process that was signalled starts nothing. -/
theorem Sound.starts_nothing (hs : Sound s) {work : Work} (hstarts : work.starts = true)
    (h : s.next (.work pid work) = some t) : s.doomed pid = false := by
  rw [Bool.eq_false_iff]
  intro hdoomed
  obtain ⟨p, hp, hin⟩ := (Option.any_eq_true _ _).mp hdoomed
  obtain ⟨service, hservice, ⟨-, hno⟩ | ⟨-, n, i, hi, hwait⟩⟩ := hs.signalled pid p hp (of_decide_eq_true hin)
  · simp only [State.next] at h
    split at h
    · split at h
      · next hmay => exact hno (hmay.2 hstarts)
      · cases h
    · cases h
  · obtain ⟨hwriter, hblocker, -⟩ := hs.checked n i hi (by rw [hwait]; rfl)
    simp only [State.next] at h
    split at h
    · split at h
      · cases work with
        | startTransfer => simp [State.doWork, hblocker] at h
        | openChannel id => simp [State.doWork, hwriter] at h
        | startJob id => simp [State.doWork, hwriter] at h
        | _ => cases hstarts
      · cases h
    · cases h

/-- In a calm run SIGTERM goes to the process that has `service.lock` at that
moment, while nothing is active; nothing becomes active before that service is
gone; the identity stays; and what is not a supported source, or has changed,
leaves the service as it was. -/
theorem replaced_when_idle {database : Database} {h : List Event}
    (hrun : Run State.next (fun s e => s.calm e = true) { database } h s) (hdb : database.Fresh) :
    (∀ event t, s.next event = some t → ∀ born ∈ t.signalled, born ∉ s.signalled →
      ∃ pid service, s.processes.lookup pid = some ⟨born, some service⟩ ∧ s.owner = some pid ∧ Quiet s) ∧
    (∀ n i, s.installers.lookup n = some i → i.progress.checked = true → Quiet s) ∧
    (∀ pid work t, s.next (.work pid work) = some t → work.starts = true → s.doomed pid = false) ∧
    (∀ identity later t, s.database.identity = some identity → Run State.next Free s later t →
      t.database.identity = some identity) ∧
    (∀ n i pid expected t, s.installers.lookup n = some i → i.progress = .inspecting pid expected →
      s.database.supported expected = false ∨ s.database.unchanged expected = false →
      s.next (.installer n .inspect) = some t →
      t.processes = s.processes ∧ t.owner = s.owner ∧ t.socket = s.socket ∧ t.database = s.database ∧
        t.transfers = s.transfers ∧ t.tasks = s.tasks ∧ t.signalled = s.signalled) := by
  have hs := sound_run hrun
  refine ⟨?_, fun n i hi hc => (hs.checked n i hi hc).2.2, fun pid work t hn hstarts => hs.starts_nothing hstarts hn,
    fun identity later t hidentity hlater => identity_kept hlater hidentity (fresh_run hrun hdb), ?_⟩
  · intro event t hn born hin hnew
    rcases (next_effect hn).2 with hsame | ⟨n, i, pid, expected, process, hi, hprogress, hprocess, hsignalled⟩
    · rw [hsame] at hin
      exact absurd hin hnew
    · rw [hsignalled] at hin
      rcases List.mem_cons.mp hin with rfl | hold
      · have hheld : Held s pid := hs.target n i pid hi (by rw [hprogress]; rfl)
        obtain ⟨service, hservice, hat, hlive⟩ := hheld.live hprocess
        refine ⟨pid, service, ?_, (hs.owner pid).mpr ⟨service, hat, Stage.owns_of_live hlive⟩, ?_⟩
        · rw [hprocess, ← hservice]
        · exact (hs.checked n i hi (by rw [hprogress]; rfl)).2.2
      · exact absurd hold hnew
  · intro n i pid expected t hi hprogress hbad hn
    obtain ⟨i', hi', hstep⟩ := Option.bind_eq_some_iff.mp hn
    obtain rfl := Option.some.inj (hi.symm.trans hi')
    simp only [State.installerNext, hprogress] at hstep
    obtain rfl := Option.some.inj hstep
    have hend : s.inspect n i pid expected = s.finish n i := by
      unfold State.inspect
      rcases hbad with hbad | hbad
      · simp [hbad]
      · simp [hbad]
    rw [hend]
    exact ⟨rfl, rfl, rfl, rfl, rfl, rfl, rfl⟩

-- ---------------------------------------------------------------------------
-- Two runs
-- ---------------------------------------------------------------------------

/-- A database of a version before this one. -/
def earlier : Database := { application := APPLICATION, version := 3, tables := true, identity := some "machine" }

/-- A service at pid 100, and an installer that knows its pid. -/
def greeting : List Event :=
  [.launch 100 "old" false false, .service 100 .own, .service 100 (.openStore ""), .service 100 .listen,
    .install 1 "new", .installer 1 .connect, .installer 1 .hello]

/-- The installer finds nothing active. -/
def replacing : List Event := [.installer 1 .prepare, .installer 1 .begin, .installer 1 .inspect]

theorem replaced_when_idle_runs : ∃ s t, Run State.next (fun s e => s.calm e = true) { database := earlier }
      (greeting ++ replacing).reverse s ∧ s.next (.installer 1 .kill) = some t ∧ t.signalled = [0] ∧
    ∃ pid service, s.processes.lookup pid = some ⟨0, some service⟩ ∧ s.owner = some pid ∧ Quiet s := by
  have hplay : ((play State.next (fun s e => s.calm e = true) { database := earlier } (greeting ++ replacing)).bind
      fun s => (s.next (.installer 1 .kill)).map fun t => (s.signalled, t.signalled)) = some ([], [0]) := by
    decide
  obtain ⟨s, hs, hkill⟩ := Option.bind_eq_some_iff.mp hplay
  obtain ⟨t, hn, heq⟩ := Option.map_eq_some_iff.mp hkill
  obtain ⟨hnone, hsignalled⟩ := Prod.mk.inj heq
  have hrun := run_of_play_list hs
  refine ⟨s, t, hrun, hn, hsignalled, ?_⟩
  refine (replaced_when_idle hrun nofun).1 _ t hn 0 ?_ ?_
  · rw [hsignalled]
    exact List.mem_singleton.mpr rfl
  · rw [hnone]
    exact nofun

/-- The service ends, and its pid goes to another process, before the installer
that has it gets the lock of the database. -/
def reused : List Event := greeting ++ .exit 100 :: .spawn 100 :: replacing

theorem signals_another : ∃ s t, Run State.next Free { database := earlier } reused.reverse s ∧
    s.next (.installer 1 .kill) = some t ∧ s.signalled = [] ∧ t.signalled = [1] ∧
    s.processes.lookup 100 = some ⟨1, none⟩ ∧ s.owner = none := by
  have hplay : ((play State.next Free { database := earlier } reused).bind fun s =>
      (s.next (.installer 1 .kill)).map fun t =>
        (s.signalled, t.signalled, s.processes.lookup 100, s.owner)) = some ([], [1], some ⟨1, none⟩, none) := by
    decide
  obtain ⟨s, hs, hkill⟩ := Option.bind_eq_some_iff.mp hplay
  obtain ⟨t, hn, heq⟩ := Option.map_eq_some_iff.mp hkill
  obtain ⟨hnone, heq⟩ := Prod.mk.inj heq
  obtain ⟨hsignalled, heq⟩ := Prod.mk.inj heq
  obtain ⟨hother, howner⟩ := Prod.mk.inj heq
  exact ⟨s, t, run_of_play_list hs, hn, hnone, hsignalled, hother, howner⟩

end RemoteCodex.Server.Installation
