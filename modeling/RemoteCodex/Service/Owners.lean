import RemoteCodex.Execution.Owning
import RemoteCodex.Service.Calls

/-!
# Owners of channels and jobs

No statement of the store changes the owner of a channel or of a job, or takes
a channel or a job away.
-/

namespace RemoteCodex.Service

open Interact Protocol Server
open Execution (Op Ans World exec jobKey JobIn Mates)

/-- What no statement changes of a job. -/
def tag (job : Job) : (String × String × String) × String := (jobKey job, job.profile)

/-- Channels and jobs are the same, and whose they are. -/
structure Titles (s t : Store) : Prop where
  owners : ∀ channel, ownerOf t channel = ownerOf s channel
  tags : t.jobs.map tag = s.jobs.map tag

/-- They may have become more. -/
structure Keeps (s t : Store) : Prop where
  owners : ∀ channel owner, ownerOf s channel = some owner → ownerOf t channel = some owner
  tags : ∀ x ∈ s.jobs.map tag, x ∈ t.jobs.map tag

section

variable {s t u : Store} {channel profile : String}

theorem Keeps.refl (s : Store) : Keeps s s := ⟨fun _ _ h => h, fun _ h => h⟩

theorem Keeps.trans (h : Keeps s t) (h' : Keeps t u) : Keeps s u :=
  ⟨fun _ _ ho => h'.owners _ _ (h.owners _ _ ho), fun _ hx => h'.tags _ (h.tags _ hx)⟩

theorem Titles.keeps (h : Titles s t) : Keeps s t :=
  ⟨fun channel _ ho => (h.owners channel).trans ho, fun _ hx => h.tags ▸ hx⟩

theorem Titles.trans (h : Titles s t) (h' : Titles t u) : Titles s u :=
  ⟨fun channel => (h'.owners channel).trans (h.owners channel), h'.tags.trans h.tags⟩

theorem ids_of_tags (s : Store) : s.jobs.map Job.id = (s.jobs.map tag).map fun x => x.1.1 := by
  rw [List.map_map]
  rfl

theorem Titles.ids (h : Titles s t) : t.jobs.map Job.id = s.jobs.map Job.id := by
  rw [ids_of_tags, ids_of_tags, h.tags]

/-- A job that has the tag of another is the same one's. -/
theorem Keeps.job (h : Keeps s t) {job : Job} (hjob : job ∈ s.jobs) :
    ∃ job' ∈ t.jobs, job'.id = job.id ∧ job'.channel = job.channel ∧ job'.profile = job.profile := by
  obtain ⟨job', hmem, heq⟩ := List.mem_map.mp (h.tags _ (List.mem_map_of_mem hjob))
  refine ⟨job', hmem, congrArg (fun x => x.1.1) heq, congrArg (fun x => x.1.2.1) heq, congrArg Prod.snd heq⟩

theorem Keeps.jobIn {j : String} {v w : World} (h : Keeps v.store w.store) (hj : JobIn channel j v) :
    JobIn channel j w := by
  have hkeys : ∀ store : Store, store.jobs.map jobKey = (store.jobs.map tag).map Prod.fst := by
    intro store
    rw [List.map_map]
    rfl
  obtain ⟨process, hkey⟩ := hj
  refine ⟨process, ?_⟩
  rw [hkeys] at hkey ⊢
  obtain ⟨x, hx, heq⟩ := List.mem_map.mp hkey
  exact List.mem_map.mpr ⟨x, h.tags x hx, heq⟩

/-- What a world may become while its actor does nothing. -/
theorem Keeps.mates {v w : World} (h : Keeps v.store w.store) (hpending : w.pending = v.pending)
    (hids : (w.store.jobs.map Job.id).Nodup) : Mates channel v w :=
  ⟨hpending, fun _ => hids, fun _ => h.jobIn⟩

-- ---------------------------------------------------------------------------
-- The statements
-- ---------------------------------------------------------------------------

theorem titles_same (hchannels : t.channels = s.channels) (hjobs : t.jobs = s.jobs) : Titles s t :=
  ⟨fun channel => by rw [ownerOf, hchannels, ownerOf], by rw [hjobs]⟩

/-- The row of one channel changes, but for its owner. -/
theorem titles_row {row row' : Channel} (hrow : s.channels.lookup channel = some row)
    (hchannels : t.channels = s.channels.insert channel row') (hprofile : row'.profile = row.profile)
    (hjobs : t.jobs = s.jobs) : Titles s t := by
  refine ⟨fun name => ?_, by rw [hjobs]⟩
  rw [ownerOf, hchannels, ownerOf, Table.lookup_insert_if]
  split
  · next hname =>
    rw [hname, hrow, Option.map_some, Option.map_some, hprofile]
  · rfl

theorem titles_updateJobs (s : Store) (p : Job → Bool) {f : Job → Job} (hf : ∀ job, tag (f job) = tag job) :
    Titles s (s.updateJobs p f) := by
  refine ⟨fun _ => rfl, ?_⟩
  rw [Store.updateJobs, List.map_map]
  refine List.map_congr_left fun job _ => ?_
  simp only [Function.comp]
  split
  · exact hf job
  · rfl

theorem titles_updateOperation (s : Store) (key : String × String) (f : Operation → Operation) :
    Titles s (s.updateOperation key f) := by
  unfold Store.updateOperation
  split <;> exact titles_same rfl rfl

theorem titles_beginOperation {key : String × String} {digest : String} {old : Option Value}
    (h : s.beginOperation key digest = .ok (old, t)) : Titles s t := by
  unfold Store.beginOperation at h
  split at h
  · split at h
    · cases h
    · split at h <;> cases h
      exact titles_same rfl rfl
  · cases h
    exact titles_same rfl rfl

theorem titles_appendEvent {value : Value} {cursor : Int} (h : s.appendEvent channel value = .ok (cursor, t)) :
    Titles s t := by
  obtain ⟨-, heq⟩ | ⟨row, bytes, floor, rows, hrow, -, heq⟩ := Store.appendEvent_cases s channel value
  · cases heq.symm.trans h
  · cases heq.symm.trans h
    exact titles_row hrow rfl rfl rfl

theorem titles_pruneAcknowledged (s : Store) (channel : String) (ack : Int) :
    Titles s (s.pruneAcknowledged channel ack) := by
  cases hrow : s.channels.lookup channel with
  | none => exact titles_same (by simp only [Store.pruneAcknowledged, hrow]) rfl
  | some row =>
    have hchannels : ∃ row', (s.pruneAcknowledged channel ack).channels = s.channels.insert channel row' ∧
        row'.profile = row.profile := by
      simp only [Store.pruneAcknowledged, hrow]
      exact ⟨_, rfl, rfl⟩
    obtain ⟨row', hchannels, hprofile⟩ := hchannels
    exact titles_row hrow hchannels hprofile rfl

theorem titles_closeChannel (s : Store) (channel : String) : Titles s (s.closeChannel channel) := by
  unfold Store.closeChannel
  split
  · exact titles_same rfl rfl
  · next row hrow => exact titles_row hrow rfl rfl rfl

theorem titles_retireChannel (s : Store) (channel : String) : Titles s (s.retireChannel channel) := by
  cases hrow : s.channels.lookup channel with
  | none => exact titles_same (by simp only [Store.retireChannel, hrow]) rfl
  | some row =>
    have hchannels : ∃ row', (s.retireChannel channel).channels = s.channels.insert channel row' ∧
        row'.profile = row.profile := by
      simp only [Store.retireChannel, hrow]
      exact ⟨_, rfl, rfl⟩
    obtain ⟨row', hchannels, hprofile⟩ := hchannels
    exact titles_row hrow hchannels hprofile rfl

theorem titles_retireClosedEvidence (s : Store) (newest : List String) :
    Titles s (s.retireClosedEvidence newest) := by
  unfold Store.retireClosedEvidence
  generalize s.expired newest = channels
  induction channels generalizing s with
  | nil => exact titles_same rfl rfl
  | cons channel channels ih => exact (titles_retireChannel s channel).trans (ih _)

theorem titles_reopen (s : Store) (reason : String) : Titles s (s.reopen reason) := by
  have hjobs := titles_updateJobs s (fun job => job.state.active) (f := fun job => { job with state := .unknown })
    fun _ => rfl
  refine ⟨fun channel => ?_, hjobs.tags⟩
  simp only [ownerOf, Store.reopen, Table.lookup_update, Option.map_map]
  refine congrArg (Option.map · _) (funext fun row => ?_)
  simp only [Function.comp]
  split <;> rfl

theorem titles_recordApproval {grant : CommandApproval} (h : s.recordApproval grant = .ok t) : Titles s t := by
  unfold Store.recordApproval at h
  split at h <;> cases h
  exact titles_same rfl rfl

theorem titles_recordPermissions {grant : SessionPermissions} (h : s.recordPermissions grant = .ok t) :
    Titles s t := by
  unfold Store.recordPermissions at h
  split at h
  · cases h
    exact titles_same rfl rfl
  · split at h <;> cases h
    exact titles_same rfl rfl

theorem titles_saveOutput (s : Store) (id : String) (params : Value) : Titles s (s.saveOutput id params) := by
  unfold Store.saveOutput
  split
  · obtain ⟨howners, htags⟩ := titles_updateJobs s (fun job => job.id = id)
      (f := fun job => { job with outputBytes := job.outputBytes + params.size }) fun _ => rfl
    exact ⟨howners, htags⟩
  · exact titles_updateJobs s _ fun _ => rfl

/-- A new channel has no owner before. -/
theorem keeps_createChannel {revision : Int} (h : s.createChannel channel profile revision = .ok t) :
    ownerOf s channel = none ∧ ownerOf t channel = some profile ∧ t.jobs = s.jobs ∧ Keeps s t := by
  unfold Store.createChannel at h
  split at h <;> cases h
  next hnone =>
  have hfree : ownerOf s channel = none := by rw [ownerOf, hnone]; rfl
  refine ⟨hfree, ?_, rfl, fun name owner howner => ?_, fun _ hx => hx⟩
  · rw [ownerOf, AList.lookup_insert]
    rfl
  · have hname : name ≠ channel := fun heq => by rw [heq, hfree] at howner; cases howner
    rw [ownerOf, Table.lookup_insert_if, if_neg hname]
    exact howner

/-- A job that is recorded is added for the profile and the channel that are named. -/
theorem recordJob_tag {name kind id : String} {params : Value} (h : s.recordJob profile name params kind id = .ok t) :
    (∀ channel, ownerOf t channel = ownerOf s channel) ∧
      ∃ job, job.profile = profile ∧ job.channel = name ∧ job.id ∉ s.jobs.map Job.id ∧ t.jobs = s.jobs ++ [job] := by
  unfold Store.recordJob at h
  split at h
  · cases h
  · split at h
    · cases h
    · next hnew =>
      obtain rfl := Except.ok.inj h
      refine ⟨fun _ => rfl, _, rfl, rfl, fun hmem => hnew ?_, rfl⟩
      obtain ⟨old, hold, heq⟩ := List.mem_map.mp hmem
      exact List.any_eq_true.mpr ⟨old, hold, decide_eq_true heq⟩

/-- An operation of an actor. -/
theorem titles_exec (supply : Nat → String) (op : Op) (w : World) :
    Titles w.store (exec supply op w).2.store ∨
      ∃ profile name params kind id store, op = .recordJob profile name params kind id ∧
        w.store.recordJob profile name params kind id = .ok store ∧ (exec supply op w).2.store = store := by
  have hsame : Titles w.store w.store := titles_same rfl rfl
  have hchange : ∀ r : Except Fault Store, (∀ s, r = .ok s → Titles w.store s) →
      Titles w.store (w.change r).2.store := by
    intro r hr
    cases r with
    | ok s => exact hr s rfl
    | error e => exact hsame
  cases op with
  | beginOperation key digest =>
    refine .inl ?_
    simp only [exec]
    split
    · next hok => exact titles_beginOperation hok
    · exact hsame
  | completeOperation key result => exact .inl (titles_updateOperation w.store key _)
  | linkOperation key cursor => exact .inl (titles_updateOperation w.store key _)
  | appendEvent name value origin =>
    refine .inl ?_
    simp only [exec, World.append]
    split
    · next hok => exact titles_appendEvent hok
    · exact hsame
  | recordApproval grant => exact .inl (hchange _ fun _ => titles_recordApproval)
  | recordPermissions grant => exact .inl (hchange _ fun _ => titles_recordPermissions)
  | recordJob profile name params kind id =>
    cases hr : w.store.recordJob profile name params kind id with
    | error e =>
      refine .inl ?_
      simp only [exec, hr]
      exact hsame
    | ok store => exact .inr ⟨profile, name, params, kind, id, store, rfl, hr, by simp only [exec, hr]; rfl⟩
  | setJobState id state exit => exact .inl (titles_updateJobs w.store _ fun _ => rfl)
  | saveOutput id params => exact .inl (titles_saveOutput w.store id params)
  | closeChannel name => exact .inl (titles_closeChannel w.store name)
  | closeJobs name => exact .inl (titles_updateJobs w.store _ fun _ => rfl)
  | send e =>
    refine .inl ?_
    simp only [exec, World.send]
    split <;> exact hsame
  | _ => exact .inl hsame

theorem keeps_exec (supply : Nat → String) (op : Op) (w : World) : Keeps w.store (exec supply op w).2.store := by
  rcases titles_exec supply op w with h | ⟨_, _, _, _, _, store, -, hr, heq⟩
  · exact h.keeps
  · rw [heq]
    obtain ⟨howners, job, -, -, -, hjobs⟩ := recordJob_tag hr
    refine ⟨fun channel _ ho => (howners channel).trans ho, fun x hx => ?_⟩
    rw [hjobs, List.map_append]
    exact List.mem_append_left _ hx

end

end RemoteCodex.Service
