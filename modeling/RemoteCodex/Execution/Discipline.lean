import RemoteCodex.Execution.Actor
import RemoteCodex.Execution.Others

/-!
# What every operation of the actor finds

`Duly` says in what state an operation is carried out, and `Kept` what holds of
the channel all the time because of it: a request is sent and answered at most
once, and what the executor is sent can be told apart.
-/

namespace RemoteCodex.Execution

open Interact Protocol Server

-- ---------------------------------------------------------------------------
-- What is kept
-- ---------------------------------------------------------------------------

def Origin.answered : Origin → Option String
  | .answer operation => some operation
  | _ => none

namespace World

/-- The requests that were answered. -/
def answers (w : World) : List String := w.log.filterMap fun e => e.origin.answered

/-- The requests that were sent, and the jobs they start. -/
def requests (w : World) : List String := w.sent.filterMap Sent.operation

def startedJobs (w : World) : List String := w.sent.filterMap Sent.job

end World

/-- The process a message names. -/
def Sent.process (e : Sent) : Option String := ((e.message.index "params").index "processId").asStr

/-- What never changes of a job. -/
def jobKey (job : Job) : String × String × String := (job.id, job.channel, job.processId)

/-- An operation whose identity is not that of a message of the actor's own. -/
def Ordinary (x : String) : Prop := ∀ id, x ≠ "cleanup-" ++ id

structure Kept (channel : String) (w : World) : Prop where
  ids : (w.store.jobs.map Job.id).Nodup
  fresh : ∀ x, w.store.operations.lookup (channel, x) = none →
    w.pending.lookup x = none ∧ x ∉ w.requests ∧ x ∉ w.answers
  requests : w.requests.Nodup
  answers : w.answers.Nodup
  waiting : ∀ x p, w.pending.lookup x = some p →
    Ordinary x ∧ x ∉ w.answers ∧ ∀ e ∈ w.sent, e.operation = some x → e.job = p.job
  startedJobs : w.startedJobs.Nodup
  started : ∀ e ∈ w.sent, ∀ j, e.job = some j →
    ∃ process, e.process = some process ∧ (j, channel, process) ∈ w.store.jobs.map jobKey
  named : ∀ e ∈ w.sent, (e.message.get "method").isSome = true → ∀ x, (e.message.index "id").asStr = some x →
    e.operation = some x ∨ ∃ id, x = "cleanup-" ++ id
  cursors : (w.log.map Entry.cursor).Pairwise (· < ·)
  sequence : ∀ e ∈ w.log, e.cursor ≤ w.store.sequence
  events : ∀ row ∈ w.store.execEvents, row.channel = channel → ∃ origin, ⟨row.cursor, origin, row.record⟩ ∈ w.log

-- ---------------------------------------------------------------------------
-- What an operation finds
-- ---------------------------------------------------------------------------

def Row (channel x : String) (w : World) : Prop := w.store.operations.lookup (channel, x) ≠ none

/-- `x` has a row, and nothing else has happened to it. -/
structure Hand (channel x : String) (w : World) : Prop where
  row : Row channel x w
  pending : w.pending.lookup x = none
  request : x ∉ w.requests
  answer : x ∉ w.answers

/-- The job was recorded for a process of this name, and is not started yet. -/
structure Recorded (channel j process : String) (w : World) : Prop where
  job : ∃ job ∈ w.store.jobs, jobKey job = (j, channel, process) ∧ job.state = .starting
  newest : w.store.processJob channel process = some j
  unsent : j ∉ w.startedJobs

def JobOf (channel : String) (e : Sent) (w : World) : Prop :=
  ∀ j, e.job = some j → ∃ process, e.process = some process ∧ Recorded channel j process w

/-- What the actor is at: something that is not collected, a value that is, or its end. -/
inductive Task
  | serving
  | reading (value : Value)
  | closing

def Event.task : Event → Task
  | .output value => .reading value
  | _ => .serving

/-- In what state each operation of a task is carried out. -/
def Duly (channel : String) (task : Task) : Op → World → Prop
  | .beginOperation key _, _ => key.1 = channel
  | .completeOperation key _, _ => key.1 = channel
  | .linkOperation key _, _ => key.1 = channel
  | .appendEvent name _ origin, w => name = channel ∧
    match origin with
    | .answer x => Row channel x w ∧ w.pending.lookup x = none ∧ x ∉ w.answers
    | _ => True
  | .recordJob _ name _ _ _, _ => task = .serving ∧ name = channel
  | .setJobState id state _, w =>
    (∃ value x, task = .reading value ∧ value.get "method" = none ∧ (value.index "id").asStr = some x ∧ Ordinary x ∧
      (∀ e ∈ w.sent, e.operation = some x → e.job = some id) ∧
      (state = .running ∨ state = .failed ∧ (value.get "error").isSome = true)) ∨
    (∃ value process, task = .reading value ∧ (value.index "method").asStr = some "process/exited" ∧
      (value.pointer ["params", "processId"]).bind Value.asStr = some process ∧
      w.store.processJob channel process = some id ∧ state.active = false)
  | .closeChannel name, _ => task = .closing ∧ name = channel
  | .closeJobs name, _ => task = .closing ∧ name = channel
  | .insertPending x _, w => Hand channel x w ∧ Ordinary x
  | .send e, w =>
    match e.operation with
    | some x => Row channel x w ∧ x ∉ w.requests ∧ x ∉ w.answers ∧ (∀ p, w.pending.lookup x = some p → p.job = e.job) ∧
      JobOf channel e w ∧
      ((e.message.get "method").isSome = true → ∀ y, (e.message.index "id").asStr = some y → y = x)
    | none => e.job = none ∧ ∀ y, (e.message.index "id").asStr = some y → ∃ id, y = "cleanup-" ++ id
  | _, _ => True

-- ---------------------------------------------------------------------------
-- What is kept is kept
-- ---------------------------------------------------------------------------

section

variable {channel : String} {task : Task} {supply : Nat → String} {w w' : World}

/-- A state with the same requests, answers and pending ones, whose rows have only grown. -/
theorem Kept.frame (h : Kept channel w) (hpending : w'.pending = w.pending) (hsent : w'.sent = w.sent)
    (hlog : w'.log = w.log) (hids : (w'.store.jobs.map Job.id).Nodup)
    (hkeys : ∀ j process, (j, channel, process) ∈ w.store.jobs.map jobKey →
      (j, channel, process) ∈ w'.store.jobs.map jobKey)
    (hrows : ∀ x, w'.store.operations.lookup (channel, x) = none → w.store.operations.lookup (channel, x) = none)
    (hsequence : w.store.sequence ≤ w'.store.sequence)
    (hevents : ∀ e ∈ w'.store.execEvents, e.channel = channel → e ∈ w.store.execEvents) : Kept channel w' where
  ids := hids
  fresh x hx := by
    unfold World.requests World.answers
    rw [hpending, hsent, hlog]
    exact h.fresh x (hrows x hx)
  requests := by
    unfold World.requests
    rw [hsent]
    exact h.requests
  answers := by
    unfold World.answers
    rw [hlog]
    exact h.answers
  waiting := by
    unfold World.answers
    rw [hpending, hsent, hlog]
    exact h.waiting
  startedJobs := by
    unfold World.startedJobs
    rw [hsent]
    exact h.startedJobs
  started := by
    rw [hsent]
    intro e he j hj
    obtain ⟨process, hname, hkey⟩ := h.started e he j hj
    exact ⟨process, hname, hkeys j process hkey⟩
  named := by
    rw [hsent]
    exact h.named
  cursors := by
    rw [hlog]
    exact h.cursors
  sequence := by
    rw [hlog]
    exact fun e he => Int.le_trans (h.sequence e he) hsequence
  events := by
    rw [hlog]
    exact fun row hrow hc => h.events row (hevents row hrow hc) hc

theorem Kept.others (h : Kept channel w) (ho : Others channel w w') : Kept channel w' := by
  refine h.frame ho.pending ho.sent ho.log (ho.ids h.ids) ?_ (fun x => (ho.row_iff x).mp) ho.sequence ho.events
  intro j process hkey
  obtain ⟨job, hjob, heq⟩ := List.mem_map.mp hkey
  obtain ⟨rfl, rfl, rfl⟩ : job.id = j ∧ job.channel = channel ∧ job.processId = process := by
    simpa [jobKey] using heq
  exact List.mem_map.mpr ⟨job, (ho.mem_jobs rfl).mpr hjob, rfl⟩

/-- A change of the store that is no concern of the invariant. -/
theorem Kept.store (h : Kept channel w) {s : Store} (hjobs : s.jobs.map jobKey = w.store.jobs.map jobKey)
    (hrows : ∀ x, s.operations.lookup (channel, x) = none → w.store.operations.lookup (channel, x) = none)
    (hsequence : s.sequence = w.store.sequence) (hevents : s.execEvents = w.store.execEvents) :
    Kept channel { w with store := s } := by
  have hids : s.jobs.map Job.id = w.store.jobs.map Job.id := by
    have := congrArg (List.map Prod.fst) hjobs
    simpa [jobKey, Function.comp_def] using this
  refine h.frame rfl rfl rfl (hids ▸ h.ids) (fun j process hkey => hjobs ▸ hkey) hrows ?_ ?_
  · exact Int.le_of_eq hsequence.symm
  · exact fun e he _ => hevents ▸ he

theorem keys_updateJobs (s : Store) (p : Job → Bool) {f : Job → Job} (hf : ∀ job, jobKey (f job) = jobKey job) :
    (s.updateJobs p f).jobs.map jobKey = s.jobs.map jobKey := by
  simp only [Store.updateJobs, List.map_map]
  apply List.map_congr_left
  intro job _
  simp only [Function.comp_apply]
  split
  · exact hf job
  · rfl

theorem rows_updateOperation (s : Store) (key : String × String) (f : Operation → Operation) (k : String × String)
    (h : (s.updateOperation key f).operations.lookup k = none) : s.operations.lookup k = none := by
  unfold Store.updateOperation at h
  split at h
  · rw [Table.lookup_insert_if] at h
    split at h
    · cases h
    · exact h
  · exact h

theorem Kept.updateOperation (h : Kept channel w) (key : String × String) (f : Operation → Operation) :
    Kept channel { w with store := w.store.updateOperation key f } := by
  have hrest : (w.store.updateOperation key f).jobs = w.store.jobs ∧
      (w.store.updateOperation key f).sequence = w.store.sequence ∧
      (w.store.updateOperation key f).execEvents = w.store.execEvents := by
    unfold Store.updateOperation
    split <;> exact ⟨rfl, rfl, rfl⟩
  exact h.store (by rw [hrest.1]) (fun x hx => rows_updateOperation _ _ _ _ hx) hrest.2.1 hrest.2.2

theorem Kept.change (h : Kept channel w) (r : Except Fault Store)
    (hr : ∀ s, r = .ok s → Kept channel { w with store := s }) : Kept channel (w.change r).2 := by
  cases r with
  | ok s => exact hr s rfl
  | error e => exact h

theorem Kept.recordJob (h : Kept channel w) (profile name : String) (params : Value) (kind id : String) :
    Kept channel (w.change (w.store.recordJob profile name params kind id)).2 := by
  refine h.change _ fun s hs => ?_
  obtain ⟨job, rfl, -, -, -, hnew, rfl⟩ := Store.recordJob_ok hs
  refine h.frame rfl rfl rfl ?_ ?_ (fun x hx => hx) (Int.le_refl _) (fun e he _ => he)
  · rw [List.map_append, List.nodup_append]
    refine ⟨h.ids, List.nodup_singleton _, ?_⟩
    intro a ha b hb heq
    obtain ⟨old, hold, rfl⟩ := List.mem_map.mp ha
    exact hnew old hold (heq.trans (List.mem_singleton.mp hb))
  · intro j process hkey
    rw [List.map_append]
    exact List.mem_append_left _ hkey

theorem Kept.append (h : Kept channel w) (value : Value) {origin : Origin}
    (hanswer : ∀ x, origin.answered = some x → Row channel x w ∧ w.pending.lookup x = none ∧ x ∉ w.answers) :
    Kept channel (w.append channel value origin).2 := by
  unfold World.append
  obtain ⟨-, heq⟩ | ⟨row, bytes, floor, rows, -, hrows, heq⟩ := Store.appendEvent_cases w.store channel value
  · rw [heq]
    exact h
  rw [heq]
  have hanswers : (w.log ++ [Entry.mk (w.store.sequence + 1) origin value]).filterMap (fun e => e.origin.answered) =
      w.answers ++ origin.answered.toList := by
    rw [List.filterMap_append]
    cases ha : origin.answered <;> simp [ha, World.answers]
  have hmem : ∀ x, x ∈ w.answers ++ origin.answered.toList → x ∈ w.answers ∨ origin.answered = some x := by
    intro x hx
    simpa using hx
  exact
    { ids := h.ids
      fresh := fun x hx => by
        obtain ⟨hpending, hrequests, hold⟩ := h.fresh x hx
        refine ⟨hpending, hrequests, ?_⟩
        unfold World.answers
        rw [hanswers]
        intro hin
        rcases hmem x hin with hin | hin
        · exact hold hin
        · exact (hanswer x hin).1 hx
      requests := h.requests
      answers := by
        unfold World.answers
        rw [hanswers]
        cases ha : origin.answered with
        | none => simpa using h.answers
        | some x =>
          obtain ⟨-, -, hnew⟩ := hanswer x ha
          rw [List.nodup_append]
          exact ⟨h.answers, List.nodup_singleton _, fun a ha b hb heq => hnew (List.mem_singleton.mp hb ▸ heq ▸ ha)⟩
      waiting := fun x p hp => by
        obtain ⟨hx, hold, hsent⟩ := h.waiting x p hp
        refine ⟨hx, ?_, hsent⟩
        unfold World.answers
        rw [hanswers]
        intro hin
        rcases hmem x hin with hin | hin
        · exact hold hin
        · rw [(hanswer x hin).2.1] at hp
          cases hp
      startedJobs := h.startedJobs
      started := h.started
      named := h.named
      cursors := by
        rw [List.map_append, List.pairwise_append]
        refine ⟨h.cursors, List.pairwise_singleton _ _, ?_⟩
        intro a ha b hb
        obtain ⟨e, he, rfl⟩ := List.mem_map.mp ha
        rw [List.mem_singleton.mp hb]
        exact Int.lt_add_one_of_le (h.sequence e he)
      sequence := fun e he => by
        rcases List.mem_append.mp he with he | he
        · exact Int.le_trans (h.sequence e he) (Int.le_of_lt (Int.lt_succ _))
        · exact Int.le_of_eq (congrArg Entry.cursor (List.mem_singleton.mp he))
      events := fun row hrow hc => by
        rcases List.mem_append.mp (hrows.subset hrow) with hrow | hrow
        · obtain ⟨o, ho⟩ := h.events row hrow hc
          exact ⟨o, List.mem_append_left _ ho⟩
        · rw [List.mem_singleton.mp hrow]
          exact ⟨origin, List.mem_append_right _ (List.mem_singleton.mpr rfl)⟩ }

theorem Kept.insertPending (h : Kept channel w) {x : String} {p : Pending} (hand : Hand channel x w)
    (hx : Ordinary x) :
    Kept channel { w with pending := w.pending.insert x p } where
  __ := h
  fresh y hy := by
    rw [Table.lookup_insert_if]
    split
    · next heq => exact absurd (heq ▸ hy) hand.row
    · exact h.fresh y hy
  waiting y q hq := by
    rw [Table.lookup_insert_if] at hq
    split at hq
    · next heq =>
      subst heq
      refine ⟨hx, hand.answer, fun e he hop => absurd ?_ hand.request⟩
      exact List.mem_filterMap.mpr ⟨e, he, hop⟩
    · exact h.waiting y q hq

theorem Kept.removePending (h : Kept channel w) (x : String) :
    Kept channel { w with pending := w.pending.erase x } where
  __ := h
  fresh y hy := by
    rw [Table.lookup_erase_if]
    obtain ⟨hpending, hrest⟩ := h.fresh y hy
    refine ⟨?_, hrest⟩
    split
    · rfl
    · exact hpending
  waiting y q hq := by
    rw [Table.lookup_erase_if] at hq
    split at hq
    · cases hq
    · exact h.waiting y q hq

theorem Kept.send (h : Kept channel w) {e : Sent} (hduly : Duly channel task (.send e) w) :
    Kept channel (w.send e).2 := by
  unfold World.send
  split
  · have hrequests : (w.sent ++ [e]).filterMap Sent.operation = w.requests ++ e.operation.toList := by
      rw [List.filterMap_append]
      cases ho : e.operation <;> simp [ho, World.requests]
    have hjobs : (w.sent ++ [e]).filterMap Sent.job = w.startedJobs ++ e.job.toList := by
      rw [List.filterMap_append]
      cases hj : e.job <;> simp [hj, World.startedJobs]
    have hjob : ∀ j, e.job = some j → ∃ process, e.process = some process ∧ Recorded channel j process w := by
      intro j hj
      cases ho : e.operation with
      | none =>
        simp only [Duly, ho] at hduly
        rw [hduly.1] at hj
        cases hj
      | some x =>
        simp only [Duly, ho] at hduly
        exact hduly.2.2.2.2.1 j hj
    refine { h with fresh := ?_, requests := ?_, waiting := ?_, startedJobs := ?_, started := ?_, named := ?_ }
    · intro y hy
      obtain ⟨hpending, hold, hanswers⟩ := h.fresh y hy
      refine ⟨hpending, ?_, hanswers⟩
      unfold World.requests
      rw [hrequests]
      intro hin
      rcases List.mem_append.mp hin with hin | hin
      · exact hold hin
      · have ho : e.operation = some y := by simpa using hin
        simp only [Duly, ho] at hduly
        exact hduly.1 hy
    · unfold World.requests
      rw [hrequests]
      cases ho : e.operation with
      | none => simpa using h.requests
      | some x =>
        simp only [Duly, ho] at hduly
        rw [List.nodup_append]
        exact ⟨h.requests, List.nodup_singleton _,
          fun a ha b hb heq => hduly.2.1 (List.mem_singleton.mp hb ▸ heq ▸ ha)⟩
    · intro y q hq
      obtain ⟨hy, hanswers, hsame⟩ := h.waiting y q hq
      refine ⟨hy, hanswers, fun e' he' hop => ?_⟩
      rcases List.mem_append.mp he' with he' | he'
      · exact hsame e' he' hop
      · obtain rfl := List.mem_singleton.mp he'
        simp only [Duly, hop] at hduly
        exact (hduly.2.2.2.1 q hq).symm
    · unfold World.startedJobs
      rw [hjobs]
      cases hj : e.job with
      | none => simpa using h.startedJobs
      | some j =>
        obtain ⟨process, -, hrecorded⟩ := hjob j hj
        rw [List.nodup_append]
        exact ⟨h.startedJobs, List.nodup_singleton _,
          fun a ha b hb heq => hrecorded.unsent (List.mem_singleton.mp hb ▸ heq ▸ ha)⟩
    · intro e' he' j hj
      rcases List.mem_append.mp he' with he' | he'
      · exact h.started e' he' j hj
      · obtain rfl := List.mem_singleton.mp he'
        obtain ⟨process, hname, hrecorded⟩ := hjob j hj
        obtain ⟨job, hmem, hkey, -⟩ := hrecorded.job
        exact ⟨process, hname, List.mem_map.mpr ⟨job, hmem, hkey⟩⟩
    · intro e' he' hmethod y hy
      rcases List.mem_append.mp he' with he' | he'
      · exact h.named e' he' hmethod y hy
      · obtain rfl := List.mem_singleton.mp he'
        cases ho : e'.operation with
        | none =>
          simp only [Duly, ho] at hduly
          exact .inr (hduly.2 y hy)
        | some x =>
          simp only [Duly, ho] at hduly
          exact .inl (congrArg some (hduly.2.2.2.2.2 hmethod y hy)).symm
  · exact h

/-- Every operation that is carried out duly keeps the invariant. -/
theorem Kept.exec (h : Kept channel w) {op : Op} (hduly : Duly channel task op w) :
    Kept channel (exec supply op w).2 := by
  cases op with
  | operationState key digest => exact h
  | beginOperation key digest =>
    simp only [Execution.exec, Store.beginOperation]
    cases hrow : w.store.operations.lookup key with
    | none =>
      refine h.store rfl ?_ rfl rfl
      intro x hx
      rw [Table.lookup_insert_if] at hx
      split at hx
      · cases hx
      · exact hx
    | some op =>
      by_cases hd : op.digest = digest
      · cases hr : op.result <;> simp [hd, hr, h]
      · simp [hd, h]
  | completeOperation key result => exact h.updateOperation key _
  | linkOperation key cursor => exact h.updateOperation key _
  | appendEvent name value origin =>
    obtain ⟨rfl, horigin⟩ := hduly
    refine h.append value fun x hx => ?_
    cases origin with
    | answer y =>
      obtain rfl := Option.some.inj hx
      exact horigin
    | again y => cases hx
    | receipt y => cases hx
    | notice => cases hx
  | recordApproval grant =>
    refine h.change _ fun s hs => ?_
    unfold Store.recordApproval at hs
    split at hs <;> cases hs
    exact h.store rfl (fun x hx => hx) rfl rfl
  | recordPermissions grant =>
    refine h.change _ fun s hs => ?_
    unfold Store.recordPermissions at hs
    split at hs
    · cases hs
      exact h.store rfl (fun x hx => hx) rfl rfl
    · split at hs <;> cases hs
      exact h
  | uuid => exact h.frame rfl rfl rfl h.ids (fun _ _ hk => hk) (fun _ hx => hx) (Int.le_refl _) (fun _ he _ => he)
  | recordJob profile name params kind id => exact h.recordJob profile name params kind id
  | processJob name process => exact h
  | setJobState id state exit =>
    exact h.store (keys_updateJobs _ _ fun _ => rfl) (fun _ hx => hx) rfl rfl
  | saveOutput id params =>
    change Kept channel { w with store := w.store.saveOutput id params }
    unfold Store.saveOutput
    split
    · exact h.store (keys_updateJobs _ _ fun _ => rfl) (fun _ hx => hx) rfl rfl
    · exact h.store (keys_updateJobs _ _ fun _ => rfl) (fun _ hx => hx) rfl rfl
  | runningProcesses name mcpOnly => exact h
  | activeJobs name => exact h
  | closeChannel name =>
    change Kept channel { w with store := w.store.closeChannel name }
    unfold Store.closeChannel
    split
    · exact h
    · exact h.store rfl (fun _ hx => hx) rfl rfl
  | closeJobs name => exact h.store (keys_updateJobs _ _ fun _ => rfl) (fun _ hx => hx) rfl rfl
  | pendingLen => exact h
  | insertPending x p => exact h.insertPending hduly.1 hduly.2
  | removePending x => exact h.removePending x
  | send e => exact h.send hduly

end

end RemoteCodex.Execution
