import RemoteCodex.Execution.Authority
import RemoteCodex.Execution.Lifecycle

/-!
# What stands behind a message to the executor

Before the executor is given a message, the store holds what the message goes
back to: the request with its digest, the grants it came with, and the job it
starts. This is so at every moment, since nothing of it goes while the channel
is open, and so it is what is found after the service has stopped.
-/

namespace RemoteCodex.Execution

open Interact Protocol Server

-- ---------------------------------------------------------------------------
-- What stays
-- ---------------------------------------------------------------------------

/-- What is recorded for the channel in `s` still is in `t`. -/
structure Grown (channel : String) (s t : World) : Prop where
  rows : ∀ x d, (s.store.operations.lookup (channel, x)).map Operation.digest = some d →
    (t.store.operations.lookup (channel, x)).map Operation.digest = some d
  approvals : ∀ id grant, s.store.approvals.lookup id = some grant → grant.channel = channel →
    t.store.approvals.lookup id = some grant
  permissions : ∀ id grant, s.store.sessionPermissions.lookup id = some grant → grant.channel = channel →
    t.store.sessionPermissions.lookup id = some grant
  jobs : ∀ j process, (j, channel, process) ∈ s.store.jobs.map jobKey → (j, channel, process) ∈ t.store.jobs.map jobKey

/-- The evidence of a channel is retired when it is lost, not before. -/
structure Guarded (channel : String) (s t : World) : Prop extends Others channel s t where
  approvals : ∀ id grant, s.store.approvals.lookup id = some grant → grant.channel = channel →
    t.store.approvals.lookup id = some grant
  permissions : ∀ id grant, s.store.sessionPermissions.lookup id = some grant → grant.channel = channel →
    t.store.sessionPermissions.lookup id = some grant

/-- The actor of `channel` among others that leave its evidence. -/
def guarded (supply : Nat → String) (channel : String) : Machine Op Ans World :=
  { among supply channel with rely := Guarded channel }

section

variable {channel : String} {supply : Nat → String} {s t u w : World}

theorem Grown.refl (channel : String) (s : World) : Grown channel s s where
  rows _ _ h := h
  approvals _ _ h _ := h
  permissions _ _ h _ := h
  jobs _ _ h := h

theorem Guarded.grown (h : Guarded channel s t) : Grown channel s t where
  rows x d hd := (h.operations x).trans hd
  approvals := h.approvals
  permissions := h.permissions
  jobs j process hkey := by
    obtain ⟨job, hjob, heq⟩ := List.mem_map.mp hkey
    have hc : job.channel = channel := congrArg (fun key => key.2.1) heq
    exact List.mem_map.mpr ⟨job, (h.mem_jobs hc).mpr hjob, heq⟩

/-- A change that only concerns the jobs. -/
theorem grown_jobs (hoperations : t.store.operations = s.store.operations)
    (happrovals : t.store.approvals = s.store.approvals)
    (hpermissions : t.store.sessionPermissions = s.store.sessionPermissions)
    (hjobs : ∀ key ∈ s.store.jobs.map jobKey, key ∈ t.store.jobs.map jobKey) : Grown channel s t where
  rows x d hd := by rw [hoperations, hd]
  approvals id grant hgrant _ := by rw [happrovals, hgrant]
  permissions id grant hgrant _ := by rw [hpermissions, hgrant]
  jobs j process hkey := hjobs _ hkey

theorem grown_updateOperation (key : String × String) {f : Operation → Operation}
    (hf : ∀ op, (f op).digest = op.digest) :
    Grown channel s { s with store := s.store.updateOperation key f } := by
  unfold Store.updateOperation
  split
  · next row hrow =>
    refine { Grown.refl channel s with rows := fun x d hd => ?_ }
    rw [Table.lookup_insert_if]
    split
    · next hx =>
      rw [hx, hrow] at hd
      exact (congrArg some (hf row)).trans hd
    · exact hd
  · exact .refl channel s

theorem grown_begin (key : String × String) (digest : String) :
    Grown channel s (exec supply (.beginOperation key digest) s).2 := by
  simp only [exec, Store.beginOperation]
  cases hrow : s.store.operations.lookup key with
  | some op =>
    by_cases hd : op.digest = digest
    · cases hr : op.result <;> simp [hd, hr, Grown.refl]
    · simp [hd, Grown.refl]
  | none =>
    refine { Grown.refl channel s with rows := fun x d hd => ?_ }
    rw [Table.lookup_insert_if]
    split
    · next hx =>
      rw [hx, hrow] at hd
      cases hd
    · exact hd

theorem grown_recordApproval (grant : CommandApproval) :
    Grown channel s (s.change (s.store.recordApproval grant)).2 := by
  unfold Store.recordApproval
  split
  · exact .refl channel s
  · next hnew =>
    refine { Grown.refl channel s with approvals := fun id old hold _ => ?_ }
    simp only [World.change]
    rw [Table.lookup_insert_if]
    split
    · next hid =>
      rw [hid, hnew] at hold
      cases hold
    · exact hold

theorem grown_recordPermissions (grant : SessionPermissions) :
    Grown channel s (s.change (s.store.recordPermissions grant)).2 := by
  unfold Store.recordPermissions
  split
  · next hnew =>
    refine { Grown.refl channel s with permissions := fun id old hold _ => ?_ }
    simp only [World.change]
    rw [Table.lookup_insert_if]
    split
    · next hid =>
      rw [hid, hnew] at hold
      cases hold
    · exact hold
  · split <;> exact .refl channel s

theorem keys_exec (supply : Nat → String) (op : Op) (w : World) :
    ∀ key ∈ w.store.jobs.map jobKey, key ∈ (exec supply op w).2.store.jobs.map jobKey := by
  intro key hkey
  rcases jobs_cases supply op w with ⟨_, _, _, _, job, -, -, -, -, -, hjobs⟩ | ⟨p, f, hmild, hjobs, -⟩
  · rw [hjobs, List.map_append]
    exact List.mem_append_left _ hkey
  · rw [hjobs, keys_updateJobs w.store p hmild.key]
    exact hkey

/-- No operation of the actor takes anything away. -/
theorem grown_exec (op : Op) (w : World) : Grown channel w (exec supply op w).2 := by
  have hkeys := keys_exec supply op w
  cases op with
  | beginOperation key digest => exact grown_begin key digest
  | completeOperation key result => exact grown_updateOperation key fun _ => rfl
  | linkOperation key cursor => exact grown_updateOperation key fun _ => rfl
  | recordApproval grant => exact grown_recordApproval grant
  | recordPermissions grant => exact grown_recordPermissions grant
  | appendEvent name value origin =>
    simp only [exec, World.append]
    obtain ⟨-, heq⟩ | ⟨row, bytes, floor, rows, -, -, heq⟩ := Store.appendEvent_cases w.store name value
    · rw [heq]
      exact .refl channel w
    · rw [heq]
      exact grown_jobs rfl rfl rfl fun _ h => h
  | recordJob profile name params kind id =>
    simp only [exec] at hkeys ⊢
    cases hr : w.store.recordJob profile name params kind id with
    | error e => exact .refl channel w
    | ok s =>
      rw [hr] at hkeys
      obtain ⟨job, -, -, -, -, -, rfl⟩ := Store.recordJob_ok hr
      exact grown_jobs rfl rfl rfl hkeys
  | setJobState id state exit => exact grown_jobs rfl rfl rfl hkeys
  | saveOutput id params =>
    refine grown_jobs ?_ ?_ ?_ hkeys <;>
      · simp only [exec, Store.saveOutput]
        split <;> rfl
  | closeChannel name =>
    refine grown_jobs ?_ ?_ ?_ hkeys <;>
      · simp only [exec, Store.closeChannel]
        split <;> rfl
  | closeJobs name => exact grown_jobs rfl rfl rfl hkeys
  | send e =>
    simp only [exec, World.send]
    split <;> exact grown_jobs rfl rfl rfl fun _ h => h
  | _ => exact grown_jobs rfl rfl rfl fun _ h => h

end

-- ---------------------------------------------------------------------------
-- What stands behind a message
-- ---------------------------------------------------------------------------

/-- The message as it is handed over. -/
def Request.handed (r : Request) : Value :=
  if (r.message.get "method").isSome && (r.message.get "id").isSome then r.message.set "id" (.string r.operation)
  else r.message

/-- What the store holds of a request and of what it is authorised by. -/
structure Written (c : Crates) (channel : String) (r : Request) (w : World) : Prop where
  request : (w.store.operations.lookup (channel, r.operation)).map Operation.digest = some (r.digest c)
  approval : ∀ grant, r.approval = some grant → w.store.approvals.lookup grant.id = some grant
  permissions : ∀ grant, r.permissions = some grant → ∃ row, w.store.sessionPermissions.lookup grant.id = some row ∧
    row.channel = grant.channel ∧ row.thread = grant.thread

/-- The same with the job that is started. -/
structure Evidence (c : Crates) (channel : String) (r : Request) (e : Sent) (w : World) : Prop
    extends Written c channel r w where
  job : starts r.message = true → ∃ j process, e.job = some j ∧ e.process = some process ∧
    (j, channel, process) ∈ w.store.jobs.map jobKey

/-- What the actor says by itself. -/
def termination (id process : String) : Value :=
  .object [("id", .string ("cleanup-" ++ id)), ("method", .string "process/terminate"),
    ("params", .object [("processId", .string process)])]

/-- `requests`: those the actor has been given, in their order. A message is
that of the first request with its identity, or ends a process of the channel. -/
def Vouched (c : Crates) (channel : String) (runtime : Runtime) (requests : List Request) (e : Sent) (w : World) :
    Prop :=
  match e.operation with
  | some x => ∃ r, requests.find? (fun r => r.operation = x) = some r ∧ e.message = r.handed ∧
      Allowed c runtime channel r.operation r.approval r.permissions r.message ∧ Evidence c channel r e w
  | none => ∃ id j process, e.message = termination id process ∧ (j, channel, process) ∈ w.store.jobs.map jobKey

section

variable {c : Crates} {runtime : Runtime} {who : Identity} {channel : String} {supply : Nat → String}
  {requests past : List Request} {e : Sent} {r : Request} {s t w : World}

theorem Written.grown (h : Written c channel r s)
    (hallowed : Allowed c runtime channel r.operation r.approval r.permissions r.message) (hg : Grown channel s t) :
    Written c channel r t where
  request := hg.rows _ _ h.request
  approval grant hgrant := hg.approvals _ _ (h.approval grant hgrant) (hallowed.approves grant hgrant).channel
  permissions grant hgrant := by
    obtain ⟨row, hrow, hchannel, hthread⟩ := h.permissions grant hgrant
    have hown : row.channel = channel := hchannel.trans (hallowed.admits grant hgrant).channel
    exact ⟨row, hg.permissions _ _ hrow hown, hchannel, hthread⟩

theorem Evidence.grown (h : Evidence c channel r e s)
    (hallowed : Allowed c runtime channel r.operation r.approval r.permissions r.message) (hg : Grown channel s t) :
    Evidence c channel r e t where
  toWritten := h.toWritten.grown hallowed hg
  job hstarts := by
    obtain ⟨j, process, hj, hprocess, hkey⟩ := h.job hstarts
    exact ⟨j, process, hj, hprocess, hg.jobs _ _ hkey⟩

theorem Vouched.grown (h : Vouched c channel runtime requests e s) (hg : Grown channel s t) :
    Vouched c channel runtime requests e t := by
  unfold Vouched at h ⊢
  split at h
  · obtain ⟨r, hfirst, hmessage, hallowed, hevidence⟩ := h
    exact ⟨r, hfirst, hmessage, hallowed, hevidence.grown hallowed hg⟩
  · obtain ⟨id, j, process, hmessage, hkey⟩ := h
    exact ⟨id, j, process, hmessage, hg.jobs _ _ hkey⟩

/-- Everything the executor was given is vouched for. -/
def Vouches (c : Crates) (channel : String) (runtime : Runtime) (requests : List Request) (w : World) : Prop :=
  ∀ e ∈ w.sent, Vouched c channel runtime requests e w

theorem Vouches.guarded (h : Vouches c channel runtime requests s) (hg : Guarded channel s t) :
    Vouches c channel runtime requests t := by
  intro e he
  rw [hg.sent] at he
  exact (h e he).grown hg.grown

theorem Vouches.exec (h : Vouches c channel runtime requests w) {op : Op}
    (hop : ∀ e, op = .send e → Vouched c channel runtime requests e w) :
    Vouches c channel runtime requests (exec supply op w).2 := by
  intro e he
  have hg : Grown channel w (Execution.exec supply op w).2 := grown_exec op w
  rcases sent_cases supply op w with hsame | ⟨new, rfl, happend, -⟩
  · rw [hsame] at he
    exact (h e he).grown hg
  · rw [happend, List.mem_append, List.mem_singleton] at he
    rcases he with he | rfl
    · exact (h e he).grown hg
    · exact (hop e rfl).grown hg

-- ---------------------------------------------------------------------------
-- Programs that keep it
-- ---------------------------------------------------------------------------

variable {α β : Type}

/-- Every message `p` sends is vouched for, and `p` ends as `Q` says unless it fails. -/
def Vouching (supply : Nat → String) (c : Crates) (channel : String) (runtime : Runtime) (requests : List Request)
    (p : M α) (w : World) (Q : α → World → Prop) : Prop :=
  Act.Sat (guarded supply channel)
    (fun _ a b => Vouches c channel runtime requests a → Vouches c channel runtime requests b) p w Q fun _ _ => True

/-- What is said of the evidence of the channel stays true. -/
def Lasting (channel : String) (P : World → Prop) : Prop := ∀ s t, Grown channel s t → P s → P t

variable {p : M α} {f : α → M β} {Q : α → World → Prop} {R : β → World → Prop} {P : World → Prop}

theorem Vouching.bind (h : Vouching supply c channel runtime requests p w Q)
    (hf : ∀ a t, Q a t → Vouching supply c channel runtime requests (f a) t R) :
    Vouching supply c channel runtime requests (p >>= f) w R := Act.Sat.bind h hf

theorem Vouching.pure {a : α} (h : Q a w) : Vouching supply c channel runtime requests (pure a) w Q := Act.Sat.pure h

theorem Vouching.ofExcept {x : Except Fault α} (h : ∀ a, x = .ok a → Q a w) :
    Vouching supply c channel runtime requests (ofExcept x) w Q := Act.Sat.ofExcept h fun _ _ => trivial

theorem Vouching.attempt {Q : Except Fault α → World → Prop}
    (h : Vouching supply c channel runtime requests p w fun a => Q (.ok a)) (hE : ∀ e t, Q (.error e) t) :
    Vouching supply c channel runtime requests (attempt p) w Q :=
  Act.Sat.attempt (Act.Sat.mono h (fun _ _ h => h) fun e t _ => hE e t)

theorem Vouching.ask {op : Op} {Q : Ans op → World → Prop}
    (h : ∀ a, Guarded channel w a → (∀ e, op = .send e → Vouched c channel runtime requests e a) ∧
      Q (exec supply op a).1 (exec supply op a).2) :
    Vouching supply c channel runtime requests (ask op) w Q := by
  refine Act.Sat.whole (fun _ _ ht => ht) fun a ha => ?_
  obtain ⟨hsend, hq⟩ := h a ha
  exact ⟨fun hv => hv.exec hsend, hq⟩

/-- An operation that tells the executor nothing. -/
theorem Vouching.mute {op : Op} (hop : ∀ e, op ≠ .send e) :
    Vouching supply c channel runtime requests (Execution.ask op) w fun _ _ => True :=
  .ask fun _ _ => ⟨fun e he => absurd he (hop e), trivial⟩

/-- What is said of the evidence of the channel stays true whatever is done. -/
theorem Vouching.keep (h : Vouching supply c channel runtime requests p w Q) (hP : Lasting channel P) (hw : P w) :
    Vouching supply c channel runtime requests p w fun a t => Q a t ∧ P t := by
  have hkeep := Prog.Sat.keep (I := P) h hw (fun _ _ hg => hP _ _ (Guarded.grown hg))
    fun op a => hP _ _ (grown_exec op a)
  refine Prog.Sat.mono (fun _ _ _ h => h) ?_ hkeep
  rintro (e | a) t ⟨hq, ht⟩
  · trivial
  · exact ⟨hq, ht⟩

theorem Lasting.and {P' : World → Prop} (h : Lasting channel P) (h' : Lasting channel P') :
    Lasting channel fun w => P w ∧ P' w := fun s t hg hs => ⟨h s t hg hs.1, h' s t hg hs.2⟩

/-- A program of which nothing is asked but that what it sends is vouched for. -/
abbrev Honest (supply : Nat → String) (c : Crates) (channel : String) (runtime : Runtime) (requests : List Request)
    (p : M α) (w : World) : Prop := Vouching supply c channel runtime requests p w fun _ _ => True

theorem honest_append (w : World) (value : Value) (origin : Origin) :
    Honest supply c channel runtime requests (append channel value origin) w :=
  .bind (.mute nofun) fun _ _ _ => .ofExcept fun _ _ => trivial

theorem honest_receipt (w : World) (x : String) : Honest supply c channel runtime requests (receipt channel x) w :=
  .bind (honest_append w _ _) fun _ _ _ => .pure trivial

theorem honest_repeated (w : World) (x : String) (existing : Option Value) :
    Honest supply c channel runtime requests (repeated channel x existing) w := by
  have hagain : Honest supply c channel runtime requests (answerAgain channel x existing) w := by
    unfold answerAgain
    split
    · exact .pure trivial
    · split
      · exact .pure trivial
      · exact .bind (honest_append w _ _) fun _ _ _ => .pure trivial
  exact .bind hagain fun _ t _ => honest_receipt t x

theorem honest_refuse (w : World) (x : String) (response : Value) :
    Honest supply c channel runtime requests (refuse channel x response) w :=
  .bind (.mute nofun) fun _ t _ => .bind (honest_append t _ _) fun _ t _ => honest_receipt t x

/-- A message that is vouched for. -/
theorem honest_send (hv : Vouched c channel runtime requests e w) :
    Honest supply c channel runtime requests (send e) w := by
  refine .bind (p := ask _) (Q := fun _ _ => True) (.ask fun a ha => ⟨?_, trivial⟩)
    fun _ _ _ => .ofExcept fun _ _ => trivial
  rintro _ ⟨⟩
  exact hv.grown ha.grown

-- ---------------------------------------------------------------------------
-- collect, and the end of a channel
-- ---------------------------------------------------------------------------

theorem honest_answered (w : World) (x : String) (pending : Pending) (value : Value) :
    Honest supply c channel runtime requests (answered channel x pending value) w := by
  have hstarted : ∀ v, Honest supply c channel runtime requests (started pending.job v) w := by
    intro v
    unfold started
    split
    · exact .pure trivial
    · exact .mute nofun
  exact .bind (hstarted _) fun _ _ _ => .bind (.mute nofun) fun _ t _ => .bind (honest_append t _ _) fun _ _ _ =>
    .mute nofun

theorem honest_heed (w : World) (value : Value) : Honest supply c channel runtime requests (heed channel value) w := by
  unfold heed
  split
  · unfold recordOutput
    split
    · exact .pure trivial
    · refine .bind (.mute nofun) fun id t _ => ?_
      split
      · exact .pure trivial
      · exact .mute nofun
  · unfold exited
    split
    · exact .pure trivial
    · refine .bind (.mute nofun) fun id t _ => ?_
      split
      · exact .pure trivial
      · exact .mute nofun
  · exact .pure trivial

theorem honest_collect (w : World) (value : Value) :
    Honest supply c channel runtime requests (collect channel value) w := by
  unfold collect
  split
  · exact .bind (honest_heed w value) fun _ t _ => .bind (honest_append t _ _) fun _ _ _ => .pure trivial
  · split
    · exact .pure trivial
    · refine .bind (.mute nofun) fun pending t _ => ?_
      split
      · exact .pure trivial
      · exact honest_answered t _ _ _

/-- Each of these names is that of a process of the channel. -/
def Processes (channel : String) (names : List String) (w : World) : Prop :=
  ∀ process ∈ names, ∃ j, (j, channel, process) ∈ w.store.jobs.map jobKey

theorem lasting_processes (names : List String) : Lasting channel (Processes channel names) := by
  intro s t hg hs process hp
  obtain ⟨j, hkey⟩ := hs process hp
  exact ⟨j, hg.jobs _ _ hkey⟩

theorem processes_running (w : World) (mcpOnly : Bool) :
    Processes channel (w.store.runningProcesses channel mcpOnly) w := by
  intro process hp
  obtain ⟨job, hjob, rfl⟩ := List.mem_map.mp hp
  obtain ⟨hjob, hguard⟩ := List.mem_filter.mp hjob
  simp only [Bool.and_eq_true, decide_eq_true_eq] at hguard
  exact ⟨job.id, List.mem_map.mpr ⟨job, hjob, by rw [jobKey, hguard.1.1]⟩⟩

theorem honest_terminateEach (names : List String) (h : Processes channel names w) :
    Honest supply c channel runtime requests (terminateEach names) w := by
  induction names generalizing w with
  | nil => exact .pure trivial
  | cons process rest ih =>
    have hlasting : Lasting channel (Processes channel (process :: rest)) := lasting_processes _
    refine .bind (Vouching.keep (.mute nofun) hlasting h) fun id t ht => ?_
    obtain ⟨j, hkey⟩ := ht.2 process List.mem_cons_self
    have hvouched : Vouched c channel runtime requests ⟨none, none, termination id process⟩ t :=
      ⟨id, j, process, rfl, hkey⟩
    refine .bind ((honest_send hvouched).keep hlasting ht.2) fun _ t ht => ?_
    exact ih fun name hname => ht.2 name (List.mem_cons_of_mem _ hname)

theorem honest_terminate (w : World) (mcpOnly : Bool) :
    Honest supply c channel runtime requests (terminate channel mcpOnly) w :=
  .bind (p := ask _) (Q := Processes channel) (.ask fun a _ => ⟨nofun, processes_running a mcpOnly⟩)
    fun names _ ht => honest_terminateEach names ht

theorem honest_attempt {w : World} (h : Honest supply c channel runtime requests p w) :
    Honest supply c channel runtime requests (attempt p) w :=
  Vouching.attempt (Q := fun _ _ => True) h fun _ _ => trivial

theorem honest_drain (outputs : List Value) (w : World) :
    Honest supply c channel runtime requests (drain channel outputs) w := by
  induction outputs generalizing w with
  | nil => exact .pure trivial
  | cons value outputs ih =>
    refine .bind (.mute nofun) fun running t _ => ?_
    split
    · exact .pure trivial
    · exact .bind (honest_attempt (honest_collect t value)) fun _ t _ => ih t

theorem honest_finish (outputs : List Value) (w : World) :
    Honest supply c channel runtime requests (finish channel outputs) w :=
  .bind (honest_attempt (honest_terminate w false)) fun _ t _ =>
    .bind (honest_drain outputs t) fun _ _ _ => .bind (.mute nofun) fun _ _ _ => .mute nofun

end

end RemoteCodex.Execution
