import RemoteCodex.Server.Retention

/-!
# What a statement leaves of other channels

Each statement and transaction of the store names the channel or the job it is
about. Nothing that the store holds of another channel changes.
-/

namespace RemoteCodex.Server

open Interact Protocol

/-- The output that is kept of a job. -/
def Store.outputOf (s : Store) (job : String) : List JobOutput := s.jobOutput.filter fun row => row.job = job

/-- What `s` holds of the channel, `t` holds as well, and no more. -/
structure Untouched (channel : String) (s t : Store) : Prop where
  operations : ∀ x, t.operations.lookup (channel, x) = s.operations.lookup (channel, x)
  row : t.channels.lookup channel = s.channels.lookup channel
  events : Store.eventsOf channel t.execEvents = Store.eventsOf channel s.execEvents
  sequence : s.sequence ≤ t.sequence
  jobs : (t.jobs.filter fun job => job.channel = channel) = s.jobs.filter fun job => job.channel = channel
  ids : (s.jobs.map Job.id).Nodup → (t.jobs.map Job.id).Nodup
  outputs : ∀ job ∈ s.jobs, job.channel = channel → t.outputOf job.id = s.outputOf job.id
  approvals : ∀ id grant, grant.channel = channel →
    (t.approvals.lookup id = some grant ↔ s.approvals.lookup id = some grant)
  permissions : ∀ id grant, grant.channel = channel →
    (t.sessionPermissions.lookup id = some grant ↔ s.sessionPermissions.lookup id = some grant)

namespace Untouched

variable {channel name : String} {s t u : Store}

theorem refl (channel : String) (s : Store) : Untouched channel s s where
  operations _ := rfl
  row := rfl
  events := rfl
  sequence := Int.le_refl _
  jobs := rfl
  ids h := h
  outputs _ _ _ := rfl
  approvals _ _ _ := Iff.rfl
  permissions _ _ _ := Iff.rfl

theorem mem_jobs (h : Untouched channel s t) {job : Job} (hc : job.channel = channel) :
    job ∈ t.jobs ↔ job ∈ s.jobs := by
  have hmem : job ∈ (t.jobs.filter fun job => job.channel = channel) ↔
      job ∈ s.jobs.filter fun job => job.channel = channel := by rw [h.jobs]
  simpa [hc] using hmem

theorem trans (h : Untouched channel s t) (h' : Untouched channel t u) : Untouched channel s u where
  operations x := (h'.operations x).trans (h.operations x)
  row := h'.row.trans h.row
  events := h'.events.trans h.events
  sequence := Int.le_trans h.sequence h'.sequence
  jobs := h'.jobs.trans h.jobs
  ids hd := h'.ids (h.ids hd)
  outputs job hjob hc := (h'.outputs job ((h.mem_jobs hc).mpr hjob) hc).trans (h.outputs job hjob hc)
  approvals id grant hc := (h'.approvals id grant hc).trans (h.approvals id grant hc)
  permissions id grant hc := (h'.permissions id grant hc).trans (h.permissions id grant hc)

-- ---------------------------------------------------------------------------
-- Operations
-- ---------------------------------------------------------------------------

/-- A change of operations of other channels. -/
theorem operations_of (s : Store) {operations : Table (String × String) Operation}
    (h : ∀ x, operations.lookup (channel, x) = s.operations.lookup (channel, x)) :
    Untouched channel s { s with operations } :=
  { refl channel s with operations := h }

theorem insert_operation (s : Store) {key : String × String} (hkey : key.1 ≠ channel) (op : Operation) :
    Untouched channel s { s with operations := s.operations.insert key op } := by
  refine operations_of s fun x => ?_
  rw [Table.lookup_insert_if, if_neg]
  intro heq
  exact hkey (congrArg Prod.fst heq.symm)

theorem updateOperation (s : Store) {key : String × String} (hkey : key.1 ≠ channel) (f : Operation → Operation) :
    Untouched channel s (s.updateOperation key f) := by
  unfold Store.updateOperation
  split
  · exact insert_operation s hkey _
  · exact refl channel s

theorem beginOperation {key : String × String} (hkey : key.1 ≠ channel) {digest : String} {old : Option Value}
    (h : s.beginOperation key digest = .ok (old, t)) : Untouched channel s t := by
  unfold Store.beginOperation at h
  split at h
  · split at h
    · cases h
    · split at h <;> cases h
      exact refl channel s
  · cases h
    exact insert_operation s hkey _

theorem compactOperations (s : Store) (hname : name ≠ channel) (ack : Int) :
    Untouched channel s (s.compactOperations name ack) := by
  refine operations_of s fun x => ?_
  rw [Table.lookup_update]
  cases s.operations.lookup (channel, x) with
  | none => rfl
  | some op => simp only [Option.map_some, hname.symm, false_and, if_false]

-- ---------------------------------------------------------------------------
-- Replay
-- ---------------------------------------------------------------------------

/-- A change of the rows of other channels and of their events. -/
theorem replay_of (s : Store) {channels : Table String Channel} {execEvents : List ExecEvent} {sequence : Int}
    (hrow : channels.lookup channel = s.channels.lookup channel)
    (hevents : Store.eventsOf channel execEvents = Store.eventsOf channel s.execEvents) (hsequence : s.sequence ≤ sequence) :
    Untouched channel s { s with channels, execEvents, sequence } :=
  { refl channel s with row := hrow, events := hevents, sequence := hsequence }

theorem lookup_insert_other {channels : Table String Channel} (hname : name ≠ channel) (row : Channel) :
    (channels.insert name row).lookup channel = channels.lookup channel := by
  rw [Table.lookup_insert_if, if_neg hname.symm]

theorem events_filter {p : ExecEvent → Bool} (rows : List ExecEvent) (hp : ∀ row, row.channel = channel → p row = true) :
    Store.eventsOf channel (rows.filter p) = Store.eventsOf channel rows := by
  unfold Store.eventsOf
  rw [List.filter_filter]
  refine List.filter_congr fun row _ => ?_
  by_cases hc : row.channel = channel
  · simp [hc, hp row hc]
  · simp [hc]

theorem events_trim (hname : name ≠ channel) (rows : List ExecEvent) (bytes floor : Int) :
    Store.eventsOf channel (Store.trim name rows bytes floor).1 = Store.eventsOf channel rows := by
  induction rows generalizing bytes floor with
  | nil => rfl
  | cons row rows ih =>
    unfold Store.trim
    split
    · split
      · next hrow =>
        rw [ih]
        have hother : row.channel ≠ channel := fun hc => hname (hrow.symm.trans hc)
        simp [Store.eventsOf, hother]
      · have hrest := ih bytes floor
        unfold Store.eventsOf at hrest ⊢
        rw [List.filter_cons, List.filter_cons, hrest]
    · rfl

theorem appendEvent (hname : name ≠ channel) {value : Value} {cursor : Int}
    (h : s.appendEvent name value = .ok (cursor, t)) : Untouched channel s t := by
  unfold Store.appendEvent at h
  split at h
  · cases h
  · cases h
    refine replay_of s (lookup_insert_other hname _) ?_ (Int.le_of_lt (Int.lt_succ _))
    rw [events_trim hname]
    unfold Store.eventsOf
    rw [List.filter_append]
    simp [hname]

theorem pruneAcknowledged (s : Store) (hname : name ≠ channel) (ack : Int) :
    Untouched channel s (s.pruneAcknowledged name ack) := by
  refine replay_of s ?_ (events_filter _ fun row hrow => ?_) (Int.le_refl _)
  · cases s.channels.lookup name with
    | none => rfl
    | some row => exact lookup_insert_other hname _
  · simp [hrow, hname.symm]

theorem createChannel (hname : name ≠ channel) {profile : String} {revision : Int}
    (h : s.createChannel name profile revision = .ok t) : Untouched channel s t := by
  unfold Store.createChannel at h
  split at h <;> cases h
  exact replay_of s (lookup_insert_other hname _) rfl (Int.le_refl _)

theorem closeChannel (s : Store) (hname : name ≠ channel) : Untouched channel s (s.closeChannel name) := by
  unfold Store.closeChannel
  split
  · exact refl channel s
  · exact replay_of s (lookup_insert_other hname _) rfl (Int.le_refl _)

theorem lookup_retain {β : Type} {p : β → Bool} {table : Table String β} {id : String} {v : β} (hp : p v = true) :
    (table.retain p).lookup id = some v ↔ table.lookup id = some v :=
  Table.mem_retain.trans ⟨fun h => h.1, fun h => ⟨h, hp⟩⟩

theorem retireChannel (s : Store) (hname : name ≠ channel) : Untouched channel s (s.retireChannel name) where
  __ := refl channel s
  operations x := by
    ext op
    rw [← Option.mem_def, ← Option.mem_def, AList.mem_lookup_iff, AList.mem_lookup_iff]
    simp [Store.retireChannel, hname.symm]
  row := (Retention.retireChannel_other s hname.symm).2
  events := (Retention.retireChannel_other s hname.symm).1
  approvals id grant hc := lookup_retain (by simp [hc, hname.symm])
  permissions id grant hc := lookup_retain (by simp [hc, hname.symm])

theorem retireChannels (channels : List String) (h : channel ∉ channels) (s : Store) :
    Untouched channel s (channels.foldl Store.retireChannel s) := by
  induction channels generalizing s with
  | nil => exact refl channel s
  | cons name channels ih =>
    rw [List.mem_cons, not_or] at h
    exact (retireChannel s (Ne.symm h.1)).trans (ih h.2 _)

/-- Only lost channels are retired. -/
theorem retireClosedEvidence (s : Store) (newest : List String)
    (hopen : (s.channels.lookup channel).map Channel.state ≠ some .lost) :
    Untouched channel s (s.retireClosedEvidence newest) := by
  refine retireChannels _ (fun hmem => ?_) s
  have hlost := (List.mem_filter.mp (List.mem_of_mem_drop hmem)).2
  simp only [Option.any_eq_true, decide_eq_true_eq] at hlost
  obtain ⟨row, hrow, hlost⟩ := hlost
  apply hopen
  rw [hrow]
  simpa using hlost.1

-- ---------------------------------------------------------------------------
-- Authority
-- ---------------------------------------------------------------------------

theorem lookup_insert_grant {β : Type} {of : β → String} {table : Table String β} {id id' : String} {new v : β}
    (hnew : of new ≠ channel) (hid : table.lookup id' = none) (hv : of v = channel) :
    (table.insert id' new).lookup id = some v ↔ table.lookup id = some v := by
  rw [Table.lookup_insert_if]
  split
  · next heq =>
    subst heq
    rw [hid]
    exact ⟨fun h => absurd (Option.some.inj h ▸ hv) hnew, nofun⟩
  · exact Iff.rfl

theorem recordApproval {grant : CommandApproval} (hgrant : grant.channel ≠ channel)
    (h : s.recordApproval grant = .ok t) : Untouched channel s t := by
  unfold Store.recordApproval at h
  split at h
  · cases h
  · next hnone =>
    cases h
    exact { refl channel s with approvals := fun id old hold => lookup_insert_grant hgrant hnone hold }

theorem recordPermissions {grant : SessionPermissions} (hgrant : grant.channel ≠ channel)
    (h : s.recordPermissions grant = .ok t) : Untouched channel s t := by
  unfold Store.recordPermissions at h
  split at h
  · next hnone =>
    cases h
    exact { refl channel s with permissions := fun id old hold => lookup_insert_grant hgrant hnone hold }
  · split at h <;> cases h
    exact refl channel s

-- ---------------------------------------------------------------------------
-- Jobs
-- ---------------------------------------------------------------------------

theorem recordJob {profile kind id : String} {params : Value} (hname : name ≠ channel)
    (h : s.recordJob profile name params kind id = .ok t) : Untouched channel s t := by
  obtain ⟨job, rfl, hc, -, -, hnew, rfl⟩ := Store.recordJob_ok h
  refine { refl channel s with jobs := ?_, ids := fun hd => ?_ }
  · rw [List.filter_append]
    simp [hc, hname]
  · rw [List.map_append, List.nodup_append]
    refine ⟨hd, List.nodup_singleton _, fun a ha b hb heq => ?_⟩
    obtain ⟨old, hold, rfl⟩ := List.mem_map.mp ha
    exact hnew old hold (heq.trans (List.mem_singleton.mp hb))

/-- An update of jobs of other channels. -/
theorem updateJobs (s : Store) {p : Job → Bool} {f : Job → Job} (hid : ∀ job, (f job).id = job.id)
    (hchannel : ∀ job, (f job).channel = job.channel) (hp : ∀ job ∈ s.jobs, p job = true → job.channel ≠ channel) :
    Untouched channel s (s.updateJobs p f) := by
  have hsame : ∀ job, (if p job then f job else job).channel = job.channel := by
    intro job
    split
    · exact hchannel job
    · rfl
  refine { refl channel s with jobs := ?_, ids := fun hd => ?_ }
  · simp only [Store.updateJobs, List.filter_map]
    have hfilter : (s.jobs.filter ((fun job => decide (job.channel = channel)) ∘ fun job => if p job then f job else job)) =
        s.jobs.filter fun job => job.channel = channel :=
      List.filter_congr fun job _ => by simp only [Function.comp_apply, hsame]
    rw [hfilter]
    conv_rhs => rw [← List.map_id (s.jobs.filter fun job => job.channel = channel)]
    refine List.map_congr_left fun job hjob => ?_
    obtain ⟨hmem, hc⟩ := List.mem_filter.mp hjob
    exact if_neg fun hpj => hp job hmem hpj (of_decide_eq_true hc)
  · have hids : (s.updateJobs p f).jobs.map Job.id = s.jobs.map Job.id := by
      simp only [Store.updateJobs, List.map_map]
      refine List.map_congr_left fun job _ => ?_
      simp only [Function.comp_apply]
      split
      · exact hid job
      · rfl
    rwa [hids]

theorem saveOutput (s : Store) {id : String} (params : Value) (hjob : ∀ job ∈ s.jobs, job.id = id → job.channel ≠ channel) :
    Untouched channel s (s.saveOutput id params) := by
  unfold Store.saveOutput
  split
  · have hjobs := updateJobs s (p := fun job => job.id = id)
      (f := fun job => { job with outputBytes := job.outputBytes + params.size }) (fun _ => rfl) (fun _ => rfl)
      fun job hmem hid => hjob job hmem (of_decide_eq_true hid)
    refine { hjobs with outputs := fun job hmem hc => ?_ }
    have hother : id ≠ job.id := fun hid => hjob job hmem hid.symm hc
    show (s.jobOutput ++ [_]).filter _ = s.jobOutput.filter _
    rw [List.filter_append]
    simp [hother]
  · exact updateJobs s (fun _ => rfl) (fun _ => rfl) fun job hmem hid => hjob job hmem (of_decide_eq_true hid)

/-- A channel that is closed, with its jobs, when the service starts. -/
theorem reopen (s : Store) (reason : String) (hrow : ∀ row, s.channels.lookup channel = some row → row.state = .lost)
    (hjobs : ∀ job ∈ s.jobs, job.channel = channel → job.state.active = false) :
    Untouched channel s (s.reopen reason) := by
  have hclosed : Untouched channel s
      (s.updateJobs (fun job => job.state.active) fun job => { job with state := .unknown }) := by
    refine updateJobs s (fun _ => rfl) (fun _ => rfl) fun job hjob hactive hc => ?_
    rw [hjobs job hjob hc] at hactive
    cases hactive
  refine { hclosed with row := ?_ }
  simp only [Store.reopen, Table.lookup_update]
  cases hlookup : s.channels.lookup channel with
  | none => exact congrArg _ hlookup
  | some row =>
    refine (congrArg _ hlookup).trans ?_
    rw [Option.map_some, if_neg]
    rw [hrow row hlookup]
    exact nofun

end Untouched

end RemoteCodex.Server
