import RemoteCodex.Execution.Scene

/-!
# The lifecycle of a job

What the executor still has to tell of a job finds the job's row active and the
newest one of its process. This is what `Told` is for, and with it an exit is
set down for the job it is of. A job that is over stays as it is in any case.
-/

namespace RemoteCodex.Execution

open Interact Protocol Server

-- ---------------------------------------------------------------------------
-- What an operation does to the jobs
-- ---------------------------------------------------------------------------

/-- An update of jobs leaves those that are over as they are. -/
structure Mild (p : Job → Bool) (f : Job → Job) : Prop where
  key : ∀ job, jobKey (f job) = jobKey job
  ended : ∀ job, p job = true → job.state.active = false →
    (f job).state = job.state ∧ (f job).exitCode = job.exitCode

section

variable {supply : Nat → String} {channel : String} {task : Task} {w w' : World}

theorem jobs_saveOutput (s : Store) (id : String) (params : Value) :
    ∃ f, (s.saveOutput id params).jobs = (s.updateJobs (fun job => job.id = id) f).jobs ∧
      ∀ job, jobKey (f job) = jobKey job ∧ (f job).state = job.state ∧ (f job).exitCode = job.exitCode := by
  unfold Store.saveOutput
  split
  · exact ⟨fun job => { job with outputBytes := job.outputBytes + params.size }, rfl, fun _ => ⟨rfl, rfl, rfl⟩⟩
  · exact ⟨fun job => { job with outputTruncated := true }, rfl, fun _ => ⟨rfl, rfl, rfl⟩⟩

/-- A job is added by `recordJob` alone, and one that is active is ended by
`setJobState` or `closeJobs` alone. -/
theorem jobs_cases (supply : Nat → String) (op : Op) (w : World) :
    (∃ profile name params kind job, op = .recordJob profile name params kind job.id ∧ job.channel = name ∧
      (params.index "processId").asStr = some job.processId ∧ job.state = .starting ∧
      (∀ old ∈ w.store.jobs, old.id ≠ job.id) ∧
      (exec supply op w).2.store.jobs = w.store.jobs ++ [job]) ∨
    ∃ p f, Mild p f ∧ (exec supply op w).2.store.jobs = (w.store.updateJobs p f).jobs ∧
      ∀ job, p job = true → job.state.active = true → (f job).state.active = false →
        (∃ state exit, op = .setJobState job.id state exit ∧ state.active = false) ∨ op = .closeJobs job.channel := by
  have hsame : (exec supply op w).2.store.jobs = w.store.jobs → ∃ p f, Mild p f ∧
      (exec supply op w).2.store.jobs = (w.store.updateJobs p f).jobs ∧
      ∀ job, p job = true → job.state.active = true → (f job).state.active = false →
        (∃ state exit, op = .setJobState job.id state exit ∧ state.active = false) ∨ op = .closeJobs job.channel := by
    intro h
    refine ⟨fun _ => false, id, ⟨fun _ => rfl, nofun⟩, ?_, nofun⟩
    rw [h, Store.updateJobs]
    simp
  have hchange : ∀ r : Except Fault Store, (∀ s, r = .ok s → s.jobs = w.store.jobs) →
      (w.change r).2.store.jobs = w.store.jobs := by
    intro r hr
    cases r with
    | ok s => exact hr s rfl
    | error e => rfl
  have hoperation : ∀ (key : String × String) (f : Operation → Operation),
      (w.store.updateOperation key f).jobs = w.store.jobs := by
    intro key f
    unfold Store.updateOperation
    split <;> rfl
  cases op with
  | operationState key digest => exact .inr (hsame rfl)
  | beginOperation key digest =>
    refine .inr (hsame ?_)
    simp only [exec, Store.beginOperation]
    cases w.store.operations.lookup key with
    | none => rfl
    | some op =>
      by_cases hd : op.digest = digest
      · cases hr : op.result <;> simp [hd, hr]
      · simp [hd]
  | completeOperation key result => exact .inr (hsame (hoperation key _))
  | linkOperation key cursor => exact .inr (hsame (hoperation key _))
  | appendEvent name value origin =>
    refine .inr (hsame ?_)
    simp only [exec, World.append]
    obtain ⟨-, heq⟩ | ⟨row, bytes, floor, rows, -, -, heq⟩ := Store.appendEvent_cases w.store name value
    · rw [heq]
    · rw [heq]
  | recordApproval grant =>
    refine .inr (hsame (hchange _ fun s hs => ?_))
    unfold Store.recordApproval at hs
    split at hs <;> cases hs
    rfl
  | recordPermissions grant =>
    refine .inr (hsame (hchange _ fun s hs => ?_))
    unfold Store.recordPermissions at hs
    split at hs
    · cases hs
      rfl
    · split at hs <;> cases hs
      rfl
  | uuid => exact .inr (hsame rfl)
  | recordJob profile name params kind id =>
    cases hr : w.store.recordJob profile name params kind id with
    | error e =>
      refine .inr (hsame ?_)
      simp only [exec, World.change, hr]
    | ok s =>
      obtain ⟨job, rfl, hc, hname, hstate, hnew, rfl⟩ := Store.recordJob_ok hr
      refine .inl ⟨profile, name, params, kind, job, rfl, hc, hname, hstate, hnew, ?_⟩
      simp only [exec, World.change, hr]
  | processJob name process => exact .inr (hsame rfl)
  | setJobState id state exit =>
    refine .inr ⟨_, fun job => { job with state, exitCode := exit }, ⟨fun _ => rfl, ?_⟩, rfl, ?_⟩
    · intro job hp hover
      simp [hover] at hp
    · intro job hp _ hstate
      simp only [Bool.and_eq_true, decide_eq_true_eq] at hp
      exact .inl ⟨state, exit, by rw [hp.1.1], hstate⟩
  | saveOutput id params =>
    obtain ⟨f, hjobs, hf⟩ := jobs_saveOutput w.store id params
    refine .inr ⟨_, f, ⟨fun job => (hf job).1, fun job _ _ => (hf job).2⟩, hjobs, ?_⟩
    intro job _ hactive hover
    rw [(hf job).2.1, hactive] at hover
    cases hover
  | runningProcesses name mcpOnly => exact .inr (hsame rfl)
  | activeJobs name => exact .inr (hsame rfl)
  | closeChannel name =>
    refine .inr (hsame ?_)
    simp only [exec, Store.closeChannel]
    split <;> rfl
  | closeJobs name =>
    refine .inr ⟨_, fun job => { job with state := .unknown }, ⟨fun _ => rfl, ?_⟩, rfl, ?_⟩
    · intro job hp hover
      simp [hover] at hp
    · intro job hp _ _
      simp only [Bool.and_eq_true, decide_eq_true_eq] at hp
      exact .inr (by rw [hp.1])
  | pendingLen => exact .inr (hsame rfl)
  | insertPending x p => exact .inr (hsame rfl)
  | removePending x => exact .inr (hsame rfl)
  | send e =>
    refine .inr (hsame ?_)
    simp only [exec, World.send]
    split <;> rfl

/-- What a job of the channel becomes: one that is over stays as it is. -/
def Aged (channel : String) (w w' : World) : Prop :=
  ∀ job ∈ w.store.jobs, job.channel = channel → ∃ job' ∈ w'.store.jobs, jobKey job' = jobKey job ∧
    (job.state.active = false → job'.state = job.state ∧ job'.exitCode = job.exitCode)

theorem Aged.refl (channel : String) (w : World) : Aged channel w w :=
  fun job hjob _ => ⟨job, hjob, rfl, fun _ => ⟨rfl, rfl⟩⟩

theorem Aged.trans {w'' : World} (h : Aged channel w w') (h' : Aged channel w' w'') : Aged channel w w'' := by
  intro job hjob hc
  obtain ⟨job', hjob', hkey, hover⟩ := h job hjob hc
  have hc' : job'.channel = channel := (congrArg (fun k => k.2.1) hkey).trans hc
  obtain ⟨job'', hjob'', hkey', hover'⟩ := h' job' hjob' hc'
  refine ⟨job'', hjob'', hkey'.trans hkey, fun ho => ?_⟩
  obtain ⟨hstate, hexit⟩ := hover ho
  obtain ⟨hstate', hexit'⟩ := hover' (by rw [hstate, ho])
  exact ⟨hstate'.trans hstate, hexit'.trans hexit⟩

theorem Others.aged (h : Others channel w w') : Aged channel w w' :=
  fun job hjob hc => ⟨job, (h.mem_jobs hc).mpr hjob, rfl, fun _ => ⟨rfl, rfl⟩⟩

theorem aged_updateJobs {p : Job → Bool} {f : Job → Job} (h : Mild p f)
    (hjobs : w'.store.jobs = (w.store.updateJobs p f).jobs) : Aged channel w w' := by
  intro job hjob _
  have hmem : (if p job then f job else job) ∈ w'.store.jobs := by
    rw [hjobs]
    exact List.mem_map.mpr ⟨job, hjob, rfl⟩
  refine ⟨_, hmem, ?_⟩
  split
  · next hp => exact ⟨h.key job, h.ended job hp⟩
  · exact ⟨rfl, fun _ => ⟨rfl, rfl⟩⟩

theorem aged_exec (op : Op) (w : World) : Aged channel w (exec supply op w).2 := by
  obtain ⟨_, _, _, _, _, -, -, -, -, -, hjobs⟩ | ⟨p, f, hmild, hjobs, -⟩ := jobs_cases supply op w
  · intro job hjob _
    refine ⟨job, ?_, rfl, fun _ => ⟨rfl, rfl⟩⟩
    rw [hjobs]
    exact List.mem_append_left _ hjob
  · exact aged_updateJobs hmild hjobs

theorem aged_reopen (reason : String) (w : World) :
    Aged channel w { w with store := w.store.reopen reason } := by
  refine aged_updateJobs (p := fun job => job.state.active) (f := fun job => { job with state := .unknown })
    ⟨fun _ => rfl, ?_⟩ rfl
  intro job hp hover
  rw [hp] at hover
  cases hover

theorem ids_updateJobs {p : Job → Bool} {f : Job → Job} (hkey : ∀ job, jobKey (f job) = jobKey job) (s : Store) :
    (s.updateJobs p f).jobs.map Job.id = s.jobs.map Job.id := by
  have := congrArg (List.map Prod.fst) (keys_updateJobs s p hkey)
  simpa [jobKey, Function.comp_def] using this

/-- No operation gives two jobs the same identity. -/
theorem ids_exec (op : Op) (h : (w.store.jobs.map Job.id).Nodup) :
    ((exec supply op w).2.store.jobs.map Job.id).Nodup := by
  obtain ⟨_, _, _, _, job, -, -, -, -, hnew, hjobs⟩ | ⟨p, f, hmild, hjobs, -⟩ := jobs_cases supply op w
  · rw [hjobs, List.map_append, List.nodup_append]
    refine ⟨h, List.nodup_singleton _, ?_⟩
    intro a ha b hb heq
    obtain ⟨old, hold, rfl⟩ := List.mem_map.mp ha
    exact hnew old hold (heq.trans (List.mem_singleton.mp hb))
  · rw [hjobs, ids_updateJobs hmild.key]
    exact h

/-- Rows of one identity are one row. -/
theorem eq_of_id (h : (w.store.jobs.map Job.id).Nodup) {job job' : Job} (hjob : job ∈ w.store.jobs)
    (hjob' : job' ∈ w.store.jobs) (hid : job.id = job'.id) : job = job' :=
  List.inj_on_of_nodup_map h hjob hjob' hid

-- ---------------------------------------------------------------------------
-- What the executor has still to tell of
-- ---------------------------------------------------------------------------

/-- The job's row is active, and the newest one of its process. -/
structure Current (channel j process : String) (w : World) : Prop where
  job : ∃ job ∈ w.store.jobs, jobKey job = (j, channel, process) ∧ job.state.active = true
  newest : w.store.processJob channel process = some j

theorem processJob_congr {s s' : Store} (h : s'.jobs = s.jobs) (name process : String) :
    s'.processJob name process = s.processJob name process := by
  rw [Store.processJob, Store.processJob, h]

theorem processJob_append {s s' : Store} {job : Job} (h : s'.jobs = s.jobs ++ [job]) (name process : String) :
    s'.processJob name process =
      if job.channel = name ∧ job.processId = process then some job.id else s.processJob name process := by
  rw [Store.processJob, Store.processJob, h, List.findRev?_eq_find?_reverse, List.findRev?_eq_find?_reverse,
    List.reverse_append, List.reverse_singleton, List.singleton_append, List.find?_cons]
  by_cases hjob : job.channel = name ∧ job.processId = process
  · simp [hjob]
  · simp [hjob]

theorem Current.others {j process : String} (h : Current channel j process w) (ho : Others channel w w') :
    Current channel j process w' where
  job := by
    obtain ⟨job, hjob, hkey, hactive⟩ := h.job
    have hc : job.channel = channel := congrArg (fun k => k.2.1) hkey
    exact ⟨job, (ho.mem_jobs hc).mpr hjob, hkey, hactive⟩
  newest := (ho.processJob process).trans h.newest

/-- An operation leaves a current job current unless it ends that very job. -/
theorem Current.exec {j process : String} {op : Op} (h : Current channel j process w) (hduly : Duly channel task op w)
    (htold : Told op w) (htask : task ≠ .closing)
    (hset : ∀ state exit, op = .setJobState j state exit → state.active = true) :
    Current channel j process (exec supply op w).2 := by
  obtain ⟨job, hjob, hkey, hactive⟩ := h.job
  obtain ⟨rfl, rfl, rfl⟩ : job.id = j ∧ job.channel = channel ∧ job.processId = process := by
    simpa [jobKey] using hkey
  obtain ⟨_, name, params, _, new, rfl, hname, hprocess, -, -, hjobs⟩ | ⟨p, f, hmild, hjobs, hends⟩ :=
    jobs_cases supply op w
  · refine ⟨⟨job, ?_, rfl, hactive⟩, ?_⟩
    · rw [hjobs]
      exact List.mem_append_left _ hjob
    · rw [processJob_append hjobs, if_neg, h.newest]
      rintro ⟨-, hsame⟩
      -- No process of the name of the new job runs, but this one does.
      have hquiet := htold new.processId hprocess job hjob hduly.2.symm hsame.symm
      rw [hactive] at hquiet
      cases hquiet
  · refine ⟨⟨if p job then f job else job, ?_, ?_, ?_⟩, ?_⟩
    · rw [hjobs]
      exact List.mem_map.mpr ⟨job, hjob, rfl⟩
    · split
      · exact hmild.key job
      · rfl
    · split
      · next hp =>
        cases hover : (f job).state.active with
        | true => rfl
        | false =>
          rcases hends job hp hactive hover with ⟨state, exit, hop, hstate⟩ | hop
          · rw [hset state exit hop] at hstate
            cases hstate
          · subst hop
            exact absurd hduly.1 htask
      · exact hactive
    · rw [processJob_congr hjobs, processJob_updateJobs w.store p hmild.key]
      exact h.newest

/-- A job that is recorded becomes current when it is sent. -/
theorem Recorded.current {j process : String} (h : Recorded channel j process w)
    (hjobs : w'.store.jobs = w.store.jobs) :
    Current channel j process w' := by
  obtain ⟨job, hjob, hkey, hstate⟩ := h.job
  refine ⟨⟨job, hjobs ▸ hjob, hkey, ?_⟩, (processJob_congr hjobs _ _).trans h.newest⟩
  rw [hstate]
  rfl

/-- The job a message starts, with its process. -/
def Sent.start (e : Sent) : Option (String × String) :=
  match e.job, e.process with
  | some j, some process => some (j, process)
  | _, _ => none

def Said.ending (said : Said) : Option (String × String) :=
  match said.exit, exitOf said.value with
  | some j, some process => some (j, process)
  | _, _ => none

/-- The jobs the executor has not taken yet, those whose process runs and those
whose exit it has told of. -/
def Executor.open (x : Executor) (sent : List Sent) : List (String × String) :=
  (sent.drop x.taken).filterMap Sent.start ++ x.live ++ x.said.filterMap Said.ending

/-- An exit is a process's, and an answer that of a request that was sent. -/
structure Faithful (sent : List Sent) (refused : List String) (said : Said) : Prop where
  silent : said.exit = none → exitOf said.value = none
  exit : ∀ j, said.exit = some j → ∃ process, exitOf said.value = some process
  answer : said.value.get "method" = none → ∀ x, (said.value.index "id").asStr = some x →
    ∃ e ∈ sent, (e.message.get "method").isSome = true ∧ (e.message.index "id").asStr = some x ∧
      ((said.value.get "error").isSome = true → ∀ j, e.job = some j → j ∈ refused)

theorem Faithful.mono {sent sent' : List Sent} {refused refused' : List String} {said : Said}
    (h : Faithful sent refused said) (hsent : ∀ e ∈ sent, e ∈ sent') (hrefused : ∀ j ∈ refused, j ∈ refused') :
    Faithful sent' refused' said where
  silent := h.silent
  exit := h.exit
  answer hmethod x hx := by
    obtain ⟨e, he, hrequest, hid, herror⟩ := h.answer hmethod x hx
    exact ⟨e, hsent e he, hrequest, hid, fun h j hj => hrefused j (herror h j hj)⟩

theorem method_of_exitOf {value : Value} {process : String} (h : exitOf value = some process) :
    (value.index "method").asStr = some "process/exited" ∧
      (value.pointer ["params", "processId"]).bind Value.asStr = some process := by
  unfold exitOf at h
  split at h
  · next hmethod => exact ⟨hmethod, h⟩
  · cases h

theorem open_utter (x : Executor) (sent : List Sent) (value : Value) (exit : Option String) :
    (x.utter value exit).open sent = x.open sent ++ (Said.ending ⟨value, exit⟩).toList := by
  simp only [Executor.open, Executor.utter, List.filterMap_append, List.append_assoc]
  cases hs : Said.ending ⟨value, exit⟩ <;> simp [hs]

/-- An executor that goes on has nothing new to tell of. -/
theorem open_moves {sent : List Sent} {x x' : Executor} (h : x.Moves sent x') :
    List.Subperm (x'.open sent) (x.open sent) := by
  have hdrop : ∀ {e}, sent[x.taken]? = some e →
      (sent.drop x.taken).filterMap Sent.start = e.start.toList ++ (sent.drop (x.taken + 1)).filterMap Sent.start := by
    intro e he
    obtain ⟨hlt, rfl⟩ := List.getElem?_eq_some_iff.mp he
    rw [List.drop_eq_getElem_cons hlt, List.filterMap_cons]
    cases hs : (sent[x.taken]).start <;> rfl
  cases h with
  | take he hj =>
    rename_i e
    have hs : e.start = none := by
      unfold Sent.start
      rw [hj]
    rw [Executor.open, Executor.open, hdrop he, hs]
    exact List.Subperm.refl _
  | create he hj hp =>
    rename_i e j process
    have hs : e.start = some (j, process) := by
      unfold Sent.start
      rw [hj, hp]
    rw [Executor.open, Executor.open, hdrop he, hs]
    refine List.Perm.subperm ?_
    simp only [Option.toList_some, List.append_assoc, List.cons_append, List.nil_append]
    exact List.perm_middle
  | refuse he hj =>
    rename_i e j
    rw [Executor.open, Executor.open, hdrop he]
    apply List.Sublist.subperm
    simp only [List.append_assoc]
    exact List.sublist_append_right _ _
  | answer he hmethod hvalue hid herror =>
    rw [open_utter]
    exact (List.append_nil _).symm ▸ List.Subperm.refl _
  | tell hmethod hexit =>
    rw [open_utter]
    exact (List.append_nil _).symm ▸ List.Subperm.refl _
  | exit hlive hexit =>
    rename_i j process value
    have hs : Said.ending ⟨value, some j⟩ = some (j, process) := by
      unfold Said.ending
      rw [hexit]
    refine List.Perm.subperm ?_
    rw [open_utter, hs]
    simp only [Executor.open, Option.toList_some, List.append_assoc]
    refine List.Perm.append_left _ ?_
    rw [← List.append_assoc]
    refine List.perm_append_comm.trans ?_
    rw [List.singleton_append, ← List.cons_append]
    exact List.Perm.append_right _ (List.perm_cons_erase hlive).symm

theorem faithful_moves {sent : List Sent} {x x' : Executor} (h : x.Moves sent x') :
    (∀ j ∈ x.refused, j ∈ x'.refused) ∧ ((∀ said ∈ x.said, Faithful sent x.refused said) →
      ∀ said ∈ x'.said, Faithful sent x'.refused said) := by
  have hutter : ∀ {y : Executor} {value : Value} {exit : Option String}, Faithful sent y.refused ⟨value, exit⟩ →
      (∀ said ∈ y.said, Faithful sent y.refused said) →
      ∀ said ∈ (y.utter value exit).said, Faithful sent (y.utter value exit).refused said := by
    intro y value exit hnew hall said hsaid
    rcases List.mem_append.mp hsaid with hsaid | hsaid
    · exact hall said hsaid
    · rw [List.mem_singleton.mp hsaid]
      exact hnew
  cases h with
  | take he hj => exact ⟨fun _ h => h, fun h => h⟩
  | create he hj hp => exact ⟨fun _ h => h, fun h => h⟩
  | refuse he hj =>
    exact ⟨fun _ h => List.mem_cons_of_mem _ h,
      fun h said hsaid => (h said hsaid).mono (fun _ h => h) fun _ h => List.mem_cons_of_mem _ h⟩
  | answer he hmethod hvalue hid herror =>
    rename_i e value
    refine ⟨fun _ h => h, hutter ⟨fun _ => ?_, nofun, fun _ y hy => ?_⟩⟩
    · unfold exitOf Value.index
      rw [hvalue]
      rfl
    · exact ⟨e, List.mem_of_mem_take he, hmethod, hid ▸ hy, herror⟩
  | tell hmethod hexit =>
    refine ⟨fun _ h => h, hutter ⟨fun _ => hexit, nofun, fun hnone => ?_⟩⟩
    rw [hnone] at hmethod
    cases hmethod
  | exit hlive hexit =>
    rename_i j process value
    refine ⟨fun _ h => h, hutter (y := { x with live := _ }) ⟨nofun, fun _ _ => ⟨process, hexit⟩, fun hnone => ?_⟩⟩
    have hmethod := (method_of_exitOf hexit).1
    rw [Value.index, hnone] at hmethod
    cases hmethod

/-- `p` carries out its operations duly, and leaves its task completed. -/
def Obeys (supply : Nat → String) (channel : String) (task : Task) (p : Rest) (w : World) : Prop :=
  p.Sat (among supply channel) (fun op a _ => Duly channel task op a)
    (fun _ t => Kept channel t ∧ Completed channel task t) w

theorem Disciplined.obeys {p : M Bool}
    (h : Disciplined supply channel task p w (fun _ t => Kept channel t ∧ Completed channel task t)
      fun _ t => Kept channel t ∧ Completed channel task t) : Obeys supply channel task p.run w := by
  refine Prog.Sat.mono (fun _ _ _ h => h) ?_ h
  rintro (e | r) t ht <;> exact ht

theorem Completed.others (h : Completed channel task w) (ho : Others channel w w') : Completed channel task w' := by
  cases task with
  | serving => trivial
  | reading value => exact Settled.others h ho
  | closing => trivial

theorem Obeys.others {p : Rest} (h : Obeys supply channel task p w) (ho : Others channel w w') :
    Obeys supply channel task p w' :=
  Prog.Sat.stable (fun _ _ _ => Others.trans)
    (fun _ _ _ hr hk => ⟨hk.1.others hr, hk.2.others hr⟩) h ho

theorem Obeys.step {op : Op} {next : Ans op → Rest} (h : Obeys supply channel task (.call op next) w) :
    Duly channel task op w ∧ Obeys supply channel task (next (exec supply op w).1) (exec supply op w).2 :=
  Prog.Sat.step (M := among supply channel) (Others.refl channel) h

/-- The jobs the executor has still to tell of, and the one whose exit is being read. -/
def Scene.openJobs (S : Scene) : List String := (S.executor.open S.world.sent).map Prod.fst ++ S.owner.toList

/-- What holds until the channel is closed. -/
structure Running (supply : Nat → String) (channel : String) (S : Scene) : Prop where
  kept : Kept channel S.world
  state : (S.world.store.channels.lookup channel).map Channel.state ≠ some .lost
  taken : S.executor.taken ≤ S.world.sent.length
  distinct : S.openJobs.Nodup
  started : ∀ j ∈ S.openJobs, j ∈ S.world.startedJobs
  refused : ∀ j ∈ S.executor.refused, j ∈ S.world.startedJobs ∧ j ∉ S.openJobs
  current : ∀ t ∈ S.executor.open S.world.sent, Current channel t.1 t.2 S.world
  said : ∀ said ∈ S.executor.said, Faithful S.world.sent S.executor.refused said
  reading : ∀ value, S.task = .reading value → Faithful S.world.sent S.executor.refused ⟨value, S.owner⟩
  owner : ∀ j, S.owner = some j → ∃ value process, S.task = .reading value ∧ exitOf value = some process ∧
    S.world.store.processJob channel process = some j
  task : S.task ≠ .closing
  idle : S.rest = none → S.owner = none
  rest : ∀ p, S.rest = some p → Obeys supply channel S.task p S.world

-- ---------------------------------------------------------------------------
-- What the steps leave
-- ---------------------------------------------------------------------------

theorem sent_cases (supply : Nat → String) (op : Op) (w : World) :
    (exec supply op w).2.sent = w.sent ∨
      ∃ e, op = .send e ∧ (exec supply op w).2.sent = w.sent ++ [e] ∧
        (exec supply op w).2.store.jobs = w.store.jobs := by
  have hchange : ∀ r : Except Fault Store, (w.change r).2.sent = w.sent := by
    intro r
    cases r <;> rfl
  cases op with
  | beginOperation key digest =>
    refine .inl ?_
    simp only [exec]
    split <;> rfl
  | appendEvent name value origin =>
    refine .inl ?_
    simp only [exec, World.append]
    split <;> rfl
  | recordApproval grant => exact .inl (hchange _)
  | recordPermissions grant => exact .inl (hchange _)
  | recordJob profile name params kind id => exact .inl (hchange _)
  | send e =>
    by_cases h : (w.connected && e.message.size + 1 ≤ MAX_FRAME) = true
    · refine .inr ⟨e, rfl, ?_, ?_⟩
      · simp only [exec, World.send, if_pos h]
      · simp only [exec, World.send, if_pos h]
    · refine .inl ?_
      simp only [exec, World.send, if_neg h]
  | _ => exact .inl rfl

/-- Only the end of the channel changes its state. -/
theorem state_exec {op : Op} (hop : ∀ name, op ≠ .closeChannel name) (w : World) :
    ((exec supply op w).2.store.channels.lookup channel).map Channel.state =
      (w.store.channels.lookup channel).map Channel.state := by
  have hoperation : ∀ (key : String × String) (f : Operation → Operation),
      (w.store.updateOperation key f).channels = w.store.channels := by
    intro key f
    unfold Store.updateOperation
    split <;> rfl
  have hchange : ∀ r : Except Fault Store, (∀ s, r = .ok s → s.channels = w.store.channels) →
      (w.change r).2.store.channels = w.store.channels := by
    intro r hr
    cases r with
    | ok s => exact hr s rfl
    | error e => rfl
  cases op with
  | beginOperation key digest =>
    have h : (exec supply (.beginOperation key digest) w).2.store.channels = w.store.channels := by
      simp only [exec, Store.beginOperation]
      cases w.store.operations.lookup key with
      | none => rfl
      | some op =>
        by_cases hd : op.digest = digest
        · cases hr : op.result <;> simp [hd, hr]
        · simp [hd]
    rw [h]
  | completeOperation key result =>
    have h : (exec supply (.completeOperation key result) w).2.store.channels = w.store.channels := hoperation key _
    rw [h]
  | linkOperation key cursor =>
    have h : (exec supply (.linkOperation key cursor) w).2.store.channels = w.store.channels := hoperation key _
    rw [h]
  | appendEvent name value origin =>
    simp only [exec, World.append]
    obtain ⟨-, heq⟩ | ⟨row, bytes, floor, rows, hrow, -, heq⟩ := Store.appendEvent_cases w.store name value
    · rw [heq]
    · rw [heq]
      dsimp only
      rw [Table.lookup_insert_if]
      split
      · next h => rw [h, hrow]; rfl
      · rfl
  | recordApproval grant =>
    have h : (exec supply (.recordApproval grant) w).2.store.channels = w.store.channels := by
      refine hchange _ fun s hs => ?_
      unfold Store.recordApproval at hs
      split at hs <;> cases hs
      rfl
    rw [h]
  | recordPermissions grant =>
    have h : (exec supply (.recordPermissions grant) w).2.store.channels = w.store.channels := by
      refine hchange _ fun s hs => ?_
      unfold Store.recordPermissions at hs
      split at hs
      · cases hs
        rfl
      · split at hs <;> cases hs
        rfl
    rw [h]
  | recordJob profile name params kind id =>
    have h : (exec supply (.recordJob profile name params kind id) w).2.store.channels = w.store.channels := by
      refine hchange _ fun s hs => ?_
      obtain ⟨_, -, -, -, -, -, rfl⟩ := Store.recordJob_ok hs
      rfl
    rw [h]
  | saveOutput id params =>
    have h : (exec supply (.saveOutput id params) w).2.store.channels = w.store.channels := by
      simp only [exec, Store.saveOutput]
      split <;> rfl
    rw [h]
  | closeChannel name => exact absurd rfl (hop name)
  | send e =>
    have h : (exec supply (.send e) w).2.store.channels = w.store.channels := by
      simp only [exec, World.send]
      split <;> rfl
    rw [h]
  | _ => rfl

theorem Running.others {S : Scene} (h : Running supply channel S) (ho : Others channel S.world w) :
    Running supply channel { S with world := w } where
  kept := h.kept.others ho
  state := by
    rw [ho.channels]
    exact h.state
  taken := by
    rw [ho.sent]
    exact h.taken
  distinct := by
    unfold Scene.openJobs
    rw [ho.sent]
    exact h.distinct
  started := by
    unfold Scene.openJobs World.startedJobs
    rw [ho.sent]
    exact h.started
  refused := by
    unfold Scene.openJobs World.startedJobs
    rw [ho.sent]
    exact h.refused
  current := by
    rw [ho.sent]
    exact fun t ht => (h.current t ht).others ho
  said := by
    rw [ho.sent]
    exact h.said
  reading := by
    rw [ho.sent]
    exact h.reading
  owner j hj := by
    obtain ⟨value, process, htask, hexit, hnewest⟩ := h.owner j hj
    exact ⟨value, process, htask, hexit, (ho.processJob process).trans hnewest⟩
  task := h.task
  idle := h.idle
  rest p hp := (h.rest p hp).others ho

theorem taken_moves {sent : List Sent} {x x' : Executor} (h : x.Moves sent x') (hx : x.taken ≤ sent.length) :
    x'.taken ≤ sent.length := by
  have hnext : ∀ {e : Sent}, sent[x.taken]? = some e → x.taken + 1 ≤ sent.length := by
    intro e he
    obtain ⟨hlt, -⟩ := List.getElem?_eq_some_iff.mp he
    exact hlt
  cases h with
  | take he _ => exact hnext he
  | create he _ _ => exact hnext he
  | refuse he _ => exact hnext he
  | answer => exact hx
  | tell => exact hx
  | exit => exact hx

/-- A job that is refused was the next one to be taken. -/
theorem refused_moves {sent : List Sent} {x x' : Executor} (h : x.Moves sent x') {j : String} (hj : j ∈ x'.refused) :
    j ∈ x.refused ∨ ∃ e ∈ sent, e.job = some j ∧ x.open sent = e.start.toList ++ x'.open sent := by
  cases h with
  | refuse he hjob =>
    rename_i e k
    rcases List.mem_cons.mp hj with rfl | hj
    · obtain ⟨hlt, rfl⟩ := List.getElem?_eq_some_iff.mp he
      refine .inr ⟨_, List.getElem_mem hlt, hjob, ?_⟩
      simp only [Executor.open]
      rw [List.drop_eq_getElem_cons hlt, List.filterMap_cons]
      cases hs : (sent[x.taken]).start <;> rfl
    · exact .inl hj
  | take => exact .inl hj
  | create => exact .inl hj
  | answer => exact .inl hj
  | tell => exact .inl hj
  | exit => exact .inl hj

theorem Running.moves {S : Scene} {x : Executor} (h : Running supply channel S)
    (hx : S.executor.Moves S.world.sent x) : Running supply channel { S with executor := x } := by
  have hopen := open_moves hx
  have hjobs : List.Subperm ((x.open S.world.sent).map Prod.fst ++ S.owner.toList) S.openJobs := by
    obtain ⟨l, hperm, hsub⟩ := hopen
    exact ⟨l.map Prod.fst ++ S.owner.toList, (hperm.map _).append_right _, (hsub.map _).append_right _⟩
  obtain ⟨hrefused, hfaithful⟩ := faithful_moves hx
  exact
    { kept := h.kept
      state := h.state
      taken := taken_moves hx h.taken
      distinct := by
        obtain ⟨l, hperm, hsub⟩ := hjobs
        exact hperm.nodup_iff.mp (h.distinct.sublist hsub)
      started := fun j hj => h.started j (hjobs.subset hj)
      refused := fun j hj => by
        rcases refused_moves hx hj with hj | ⟨e, he, hjob, heq⟩
        · exact ⟨(h.refused j hj).1, fun hin => (h.refused j hj).2 (hjobs.subset hin)⟩
        · refine ⟨List.mem_filterMap.mpr ⟨e, he, hjob⟩, fun hin => ?_⟩
          -- The job stands in front of all that are still open.
          obtain ⟨process, hprocess, -⟩ := h.kept.started e he j hjob
          have hstart : e.start = some (j, process) := by
            unfold Sent.start
            rw [hjob, hprocess]
          have hdistinct := h.distinct
          unfold Scene.openJobs at hdistinct
          rw [heq, hstart, Option.toList_some, List.singleton_append, List.map_cons, List.cons_append,
            List.nodup_cons] at hdistinct
          exact hdistinct.1 hin
      current := fun t ht => h.current t (hopen.subset ht)
      said := hfaithful h.said
      reading := fun value hv => (h.reading value hv).mono (fun _ h => h) hrefused
      owner := h.owner
      task := h.task
      idle := h.idle
      rest := h.rest }

theorem open_append {sent : List Sent} {x : Executor} (hx : x.taken ≤ sent.length) (e : Sent) :
    (x.open (sent ++ [e])).Perm (e.start.toList ++ x.open sent) := by
  have hnew : [e].filterMap Sent.start = e.start.toList := by
    cases hs : e.start <;> simp [hs]
  simp only [Executor.open]
  rw [List.drop_append_of_le_length hx, List.filterMap_append, hnew]
  simp only [List.append_assoc]
  exact List.perm_append_comm_assoc _ _ _

/-- The state of a job is set by the answer to its start, or by its exit. -/
theorem Running.setJobState {S : Scene} (h : Running supply channel S) {id : String} {state : JobState}
    {exit : Option Int} (hduly : Duly channel S.task (.setJobState id state exit) S.world) :
    (S.owner = none ∧ (state.active = true ∨ id ∈ S.executor.refused)) ∨ S.owner = some id := by
  rcases hduly with ⟨value, x, htask, hmethod, hx, hordinary, hsame, hstate⟩ |
    ⟨value, process, htask, hmethod, hprocess, hnewest, -⟩
  · refine .inl ⟨?_, ?_⟩
    · cases howner : S.owner with
      | none => rfl
      | some j =>
        obtain ⟨value', process, htask', hexit, -⟩ := h.owner j howner
        obtain rfl : value = value' := by simpa [htask] using htask'
        have := (method_of_exitOf hexit).1
        rw [Value.index, hmethod] at this
        cases this
    · rcases hstate with hstate | ⟨-, herror⟩
      · rw [hstate]
        exact .inl rfl
      · obtain ⟨e, he, hrequest, hid, hrefused⟩ := (h.reading value htask).answer hmethod x hx
        rcases h.kept.named e he hrequest x hid with hop | ⟨k, hk⟩
        · exact .inr (hrefused herror id (hsame e he hop))
        · exact absurd hk (hordinary k)
  · have hexit : exitOf value = some process := by
      unfold exitOf
      rw [if_pos hmethod, hprocess]
    cases howner : S.owner with
    | none =>
      have := (h.reading value htask).silent howner
      rw [hexit] at this
      cases this
    | some j =>
      obtain ⟨value', process', htask', hexit', hnewest'⟩ := h.owner j howner
      obtain rfl : value = value' := by simpa [htask] using htask'
      obtain rfl := Option.some.inj (hexit.symm.trans hexit')
      exact .inr (hnewest'.symm.trans hnewest)

/-- What an operation adds to the jobs the executor has to tell of. -/
theorem Running.adds {S : Scene} {op : Op} (h : Running supply channel S) (hduly : Duly channel S.task op S.world) :
    ∃ added : List (String × String),
      (S.executor.open (exec supply op S.world).2.sent).Perm (added ++ S.executor.open S.world.sent) ∧
        (added.map Prod.fst).Nodup ∧
        ∀ t ∈ added, t.1 ∉ S.world.startedJobs ∧ t.1 ∈ (exec supply op S.world).2.startedJobs ∧
          Current channel t.1 t.2 (exec supply op S.world).2 := by
  rcases sent_cases supply op S.world with hsent | ⟨e, rfl, hsent, hjobs⟩
  · refine ⟨[], ?_, List.nodup_nil, nofun⟩
    rw [hsent]
    exact List.Perm.refl _
  · refine ⟨e.start.toList, ?_, ?_, ?_⟩
    · rw [hsent]
      exact open_append h.taken e
    · cases e.start with
      | none => exact List.nodup_nil
      | some t => exact List.nodup_singleton _
    · intro t ht
      have hstart : e.start = some t := by simpa using ht
      obtain ⟨hjob, hprocess⟩ : e.job = some t.1 ∧ e.process = some t.2 := by
        unfold Sent.start at hstart
        split at hstart
        · next j process hj hp =>
          cases hstart
          exact ⟨hj, hp⟩
        · cases hstart
      have hrecorded : Recorded channel t.1 t.2 S.world := by
        cases hop : e.operation with
        | none =>
          simp only [Duly, hop] at hduly
          rw [hduly.1] at hjob
          cases hjob
        | some x =>
          simp only [Duly, hop] at hduly
          obtain ⟨process, hp, hrecorded⟩ := hduly.2.2.2.2.1 t.1 hjob
          obtain rfl := Option.some.inj (hprocess.symm.trans hp)
          exact hrecorded
      refine ⟨hrecorded.unsent, ?_, hrecorded.current hjobs⟩
      unfold World.startedJobs
      rw [hsent]
      exact List.mem_filterMap.mpr ⟨e, List.mem_append_right _ (List.mem_singleton.mpr rfl), hjob⟩

theorem Running.act {S : Scene} {op : Op} {next : Ans op → Rest} (h : Running supply channel S)
    (hr : S.rest = some (.call op next)) (htold : Told op S.world) :
    Running supply channel
      { S with
        world := (exec supply op S.world).2
        rest := some (next (exec supply op S.world).1)
        attributed := S.setDown op } := by
  obtain ⟨hduly, hrest⟩ := (h.rest _ hr).step
  -- No job the executor still has to tell of is ended.
  have hcurrent : ∀ t ∈ S.executor.open S.world.sent, Current channel t.1 t.2 (exec supply op S.world).2 := by
    intro t ht
    have hin : t.1 ∈ (S.executor.open S.world.sent).map Prod.fst := List.mem_map_of_mem ht
    refine (h.current t ht).exec hduly htold h.task fun state exit hop => ?_
    subst hop
    rcases h.setJobState hduly with ⟨-, hactive | hrefused⟩ | howner
    · exact hactive
    · exact absurd (List.mem_append_left _ hin) (h.refused _ hrefused).2
    · have hdistinct := h.distinct
      unfold Scene.openJobs at hdistinct
      rw [howner, List.nodup_append] at hdistinct
      exact absurd rfl (hdistinct.2.2 t.1 hin t.1 (List.mem_singleton.mpr rfl))
  have howner : ∀ j, S.owner = some j → ∃ value process, S.task = .reading value ∧ exitOf value = some process ∧
      (exec supply op S.world).2.store.processJob channel process = some j := by
    intro j hj
    obtain ⟨value, process, htask, hexit, hnewest⟩ := h.owner j hj
    refine ⟨value, process, htask, hexit, ?_⟩
    obtain ⟨_, _, _, _, _, rfl, -⟩ | ⟨p, f, hmild, hjobs, -⟩ := jobs_cases supply op S.world
    · rw [hduly.1] at htask
      cases htask
    · rw [processJob_congr hjobs, processJob_updateJobs S.world.store p hmild.key, hnewest]
  have hstate : ((exec supply op S.world).2.store.channels.lookup channel).map Channel.state ≠ some .lost := by
    rw [state_exec]
    · exact h.state
    · rintro name rfl
      exact h.task hduly.1
  have hsubset : ∀ e ∈ S.world.sent, e ∈ (exec supply op S.world).2.sent := by
    intro e he
    rcases sent_cases supply op S.world with hsent | ⟨e', -, hsent, -⟩
    · exact hsent ▸ he
    · exact hsent ▸ List.mem_append_left _ he
  have hold : ∀ j ∈ S.world.startedJobs, j ∈ (exec supply op S.world).2.startedJobs := by
    intro j hj
    obtain ⟨e, he, hjob⟩ := List.mem_filterMap.mp hj
    exact List.mem_filterMap.mpr ⟨e, hsubset e he, hjob⟩
  obtain ⟨added, hopen, hdistinct, hadded⟩ := h.adds hduly
  have hjobs : ((S.executor.open (exec supply op S.world).2.sent).map Prod.fst ++ S.owner.toList).Perm
      (added.map Prod.fst ++ S.openJobs) := by
    unfold Scene.openJobs
    rw [← List.append_assoc, ← List.map_append]
    exact (hopen.map _).append_right _
  exact
    { kept := h.kept.exec hduly
      state := hstate
      taken := by
        rcases sent_cases supply op S.world with hsent | ⟨e, -, hsent, -⟩
        · dsimp only
          rw [hsent]
          exact h.taken
        · dsimp only
          rw [hsent, List.length_append]
          exact Nat.le_add_right_of_le h.taken
      distinct := by
        refine hjobs.nodup_iff.mpr (List.nodup_append.mpr ⟨hdistinct, h.distinct, ?_⟩)
        rintro j hj k hk rfl
        obtain ⟨t, ht, rfl⟩ := List.mem_map.mp hj
        exact (hadded t ht).1 (h.started _ hk)
      started := fun j hj => by
        rcases List.mem_append.mp (hjobs.subset hj) with hj | hj
        · obtain ⟨t, ht, rfl⟩ := List.mem_map.mp hj
          exact (hadded t ht).2.1
        · exact hold j (h.started j hj)
      refused := fun j hj => by
        obtain ⟨hstarted, hnot⟩ := h.refused j hj
        refine ⟨hold j hstarted, fun hin => ?_⟩
        rcases List.mem_append.mp (hjobs.subset hin) with hin | hin
        · obtain ⟨t, ht, rfl⟩ := List.mem_map.mp hin
          exact (hadded t ht).1 hstarted
        · exact hnot hin
      current := fun t ht => by
        rcases List.mem_append.mp (hopen.subset ht) with ht | ht
        · exact (hadded t ht).2.2
        · exact hcurrent t ht
      said := fun said hsaid => (h.said said hsaid).mono hsubset fun _ h => h
      reading := fun value hv => (h.reading value hv).mono hsubset fun _ h => h
      owner := howner
      task := h.task
      idle := nofun
      rest := fun p hp => Option.some.inj hp ▸ hrest }

/-- Another program begins, and nothing is read. -/
theorem Running.begins {S : Scene} (h : Running supply channel S) (stage : Stage) (reported : List String)
    {rest : Option Rest} (hrest : ∀ p, rest = some p → Obeys supply channel .serving p S.world) :
    Running supply channel { S with stage, rest, task := .serving, owner := none, reported } := by
  have hsub : List.Sublist ((S.executor.open S.world.sent).map Prod.fst ++ []) S.openJobs :=
    (List.Sublist.refl _).append (List.nil_sublist _)
  exact
    { h with
      distinct := h.distinct.sublist hsub
      started := fun j hj => h.started j (hsub.subset hj)
      refused := fun j hj => ⟨(h.refused j hj).1, fun hin => (h.refused j hj).2 (hsub.subset hin)⟩
      reading := nofun
      owner := nofun
      task := nofun
      idle := fun _ => rfl
      rest := hrest }

theorem Running.reads {S : Scene} {said : Said} {rest : List Said} {p : M Bool} (h : Running supply channel S)
    (hidle : S.rest = none) (hsaid : S.executor.said = said :: rest)
    (hp : Obeys supply channel (.reading said.value) p.run S.world) :
    Running supply channel (S.reads said rest p) := by
  have hfaithful : Faithful S.world.sent S.executor.refused said := h.said said (hsaid ▸ List.mem_cons_self)
  have hnone : S.owner = none := h.idle hidle
  -- What was said is moved from the end of the list to the owner.
  have hopen : S.executor.open S.world.sent =
      (S.world.sent.drop S.executor.taken).filterMap Sent.start ++ S.executor.live ++
        (said.ending.toList ++ rest.filterMap Said.ending) := by
    rw [Executor.open, hsaid, List.filterMap_cons]
    cases said.ending <;> rfl
  have hexit : said.ending.toList.map Prod.fst = said.exit.toList := by
    unfold Said.ending
    cases hj : said.exit with
    | none => rfl
    | some j =>
      obtain ⟨process, hprocess⟩ := hfaithful.exit j hj
      rw [hprocess]
      rfl
  have hperm : (S.reads said rest p).openJobs.Perm S.openJobs := by
    unfold Scene.openJobs
    rw [hnone, hopen]
    simp only [Scene.reads, Executor.open, List.map_append, hexit, List.append_assoc, Option.toList_none,
      List.append_nil]
    exact (List.perm_append_comm.append_left _).append_left _
  have hsub : ∀ t ∈ (S.reads said rest p).executor.open S.world.sent, t ∈ S.executor.open S.world.sent := by
    intro t ht
    rw [hopen]
    simp only [Scene.reads, Executor.open, List.mem_append] at ht ⊢
    rcases ht with ht | ht
    · exact .inl ht
    · exact .inr (.inr ht)
  refine
    { kept := h.kept
      state := h.state
      taken := h.taken
      distinct := hperm.nodup_iff.mpr h.distinct
      started := fun j hj => h.started j (hperm.subset hj)
      refused := fun j hj => ⟨(h.refused j hj).1, fun hin => (h.refused j hj).2 (hperm.subset hin)⟩
      current := fun t ht => h.current t (hsub t ht)
      said := fun s hs => h.said s (hsaid ▸ List.mem_cons_of_mem _ hs)
      reading := ?_
      owner := ?_
      task := nofun
      idle := nofun
      rest := ?_ }
  · rintro _ ⟨⟩
    exact hfaithful
  · intro j hj
    obtain ⟨process, hprocess⟩ := hfaithful.exit j hj
    refine ⟨said.value, process, rfl, hprocess, ?_⟩
    have hending : said.ending = some (j, process) := by
      unfold Said.ending
      rw [show said.exit = some j from hj, hprocess]
    refine (h.current (j, process) ?_).newest
    rw [hopen, hending]
    exact List.mem_append_right _ (List.mem_append_left _ (List.mem_singleton.mpr rfl))
  · rintro _ ⟨⟩
    exact hp

/-- When an exit was read, its job is over. -/
theorem Running.settled {S : Scene} {r : Except Fault Bool} (h : Running supply channel S)
    (hr : S.rest = some (.done r)) {j : String} (hj : S.owner = some j) :
    ∃ job ∈ S.world.store.jobs, job.id = j ∧ job.channel = channel ∧ job.state.active = false := by
  obtain ⟨value, process, htask, hexit, hnewest⟩ := h.owner j hj
  obtain ⟨hmethod, hprocess⟩ := method_of_exitOf hexit
  have hsettled : Settled channel value S.world := by
    have := (h.rest _ hr).2
    rw [htask] at this
    exact this
  have hstarted : j ∈ S.world.startedJobs := by
    apply h.started
    unfold Scene.openJobs
    rw [hj]
    exact List.mem_append_right _ (List.mem_singleton.mpr rfl)
  obtain ⟨e, he, hjob⟩ := List.mem_filterMap.mp hstarted
  obtain ⟨process', -, hkey⟩ := h.kept.started e he j hjob
  obtain ⟨job, hmem, heq⟩ := List.mem_map.mp hkey
  have hid : job.id = j := congrArg Prod.fst heq
  have hc : job.channel = channel := congrArg (fun k => k.2.1) heq
  exact ⟨job, hmem, hid, hc, hsettled hmethod process hprocess job hmem hc (hid ▸ hnewest)⟩

end

end RemoteCodex.Execution
