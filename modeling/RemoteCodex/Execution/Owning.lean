import RemoteCodex.Execution.Authority
import RemoteCodex.Execution.Lifecycle
import RemoteCodex.Interact.Every
import RemoteCodex.Server.Untouched

/-!
# The actor's programs keep to their channel

Whatever the others do, every operation of the actor is about its own channel
or about a job of it, and so it leaves what the store holds of other channels.
This is so to the end of the program, when the channel's evidence may be gone.
-/

namespace RemoteCodex.Execution

open Interact Protocol Server

-- ---------------------------------------------------------------------------
-- Its own operations
-- ---------------------------------------------------------------------------

/-- The job is one of the channel's. -/
def JobIn (channel j : String) (w : World) : Prop := ∃ process, (j, channel, process) ∈ w.store.jobs.map jobKey

def Proper (who : Identity) : Op → World → Prop
  | .beginOperation key _, _ => key.1 = who.channel
  | .completeOperation key _, _ => key.1 = who.channel
  | .linkOperation key _, _ => key.1 = who.channel
  | .appendEvent name _ _, _ => name = who.channel
  | .recordApproval grant, _ => grant.channel = who.channel
  | .recordPermissions grant, _ => grant.channel = who.channel
  | .recordJob profile name _ _ _, _ => profile = who.profile ∧ name = who.channel
  | .setJobState id _ _, w => JobIn who.channel id w
  | .saveOutput id _, w => JobIn who.channel id w
  | .insertPending _ pending, w => ∀ j, pending.job = some j → JobIn who.channel j w
  | .closeChannel name, _ => name = who.channel
  | .closeJobs name, _ => name = who.channel
  | _, _ => True

/-- What the others leave in any case: the channel's jobs stay. -/
structure Mates (channel : String) (s t : World) : Prop where
  pending : t.pending = s.pending
  ids : (s.store.jobs.map Job.id).Nodup → (t.store.jobs.map Job.id).Nodup
  jobs : ∀ j, JobIn channel j s → JobIn channel j t

/-- The jobs that are waited for are the channel's. -/
structure Held (channel : String) (w : World) : Prop where
  ids : (w.store.jobs.map Job.id).Nodup
  pending : ∀ x p, w.pending.lookup x = some p → ∀ j, p.job = some j → JobIn channel j w

section

variable {who : Identity} {channel j : String} {supply : Nat → String} {op : Op} {s t w : World}

theorem JobIn.exec (h : JobIn channel j w) : JobIn channel j (exec supply op w).2 := by
  obtain ⟨process, hkey⟩ := h
  refine ⟨process, ?_⟩
  rcases jobs_cases supply op w with ⟨_, _, _, _, job, -, -, -, -, -, hjobs⟩ | ⟨p, f, hmild, hjobs, -⟩
  · rw [hjobs, List.map_append]
    exact List.mem_append_left _ hkey
  · rw [hjobs, keys_updateJobs w.store p hmild.key]
    exact hkey

theorem Held.mates (h : Held channel s) (hm : Mates channel s t) : Held channel t where
  ids := hm.ids h.ids
  pending x p hp j hj := by
    rw [hm.pending] at hp
    exact hm.jobs j (h.pending x p hp j hj)

/-- A job of the channel is not one of another. -/
theorem Held.channel_of_id (h : Held channel w) (hj : JobIn channel j w) {job : Job} (hjob : job ∈ w.store.jobs)
    (hid : job.id = j) : job.channel = channel := by
  obtain ⟨process, hkey⟩ := hj
  obtain ⟨old, hold, heq⟩ := List.mem_map.mp hkey
  obtain ⟨rfl, rfl, rfl⟩ : old.id = j ∧ old.channel = channel ∧ old.processId = process := by simpa [jobKey] using heq
  rw [eq_of_id h.ids hjob hold hid]

theorem pending_cases (supply : Nat → String) (op : Op) (w : World) :
    (exec supply op w).2.pending = w.pending ∨
      (∃ x p, op = .insertPending x p ∧ (exec supply op w).2.pending = w.pending.insert x p) ∨
      ∃ x, op = .removePending x ∧ (exec supply op w).2.pending = w.pending.erase x := by
  have hchange : ∀ r : Except Fault Store, (w.change r).2.pending = w.pending := by
    intro r
    cases r <;> rfl
  cases op with
  | beginOperation key digest =>
    refine .inl ?_
    simp only [exec]
    split <;> rfl
  | appendEvent name value origin =>
    refine .inl ?_
    simp only [exec, World.append]
    split <;> rfl
  | recordApproval grant => exact .inl (hchange _)
  | recordPermissions grant => exact .inl (hchange _)
  | recordJob profile name params kind id => exact .inl (hchange _)
  | send e =>
    refine .inl ?_
    simp only [exec, World.send]
    split <;> rfl
  | insertPending x p => exact .inr (.inl ⟨x, p, rfl, rfl⟩)
  | removePending x => exact .inr (.inr ⟨x, rfl, rfl⟩)
  | _ => exact .inl rfl

theorem Held.exec (h : Held who.channel w) (hown : Proper who op w) : Held who.channel (exec supply op w).2 := by
  refine ⟨ids_exec op h.ids, fun x p hp j hj => JobIn.exec ?_⟩
  rcases pending_cases supply op w with hsame | ⟨y, q, rfl, hinsert⟩ | ⟨y, rfl, herase⟩
  · rw [hsame] at hp
    exact h.pending x p hp j hj
  · rw [hinsert, Table.lookup_insert_if] at hp
    split at hp
    · cases hp
      exact hown j hj
    · exact h.pending x p hp j hj
  · rw [herase, Table.lookup_erase_if] at hp
    split at hp
    · cases hp
    · exact h.pending x p hp j hj

theorem untouched_change (w : World) {r : Except Fault Store}
    (hr : ∀ s, r = .ok s → Untouched channel w.store s) : Untouched channel w.store (w.change r).2.store := by
  cases r with
  | ok s => exact hr s rfl
  | error e => exact .refl channel w.store

/-- An operation of its own leaves the store's other channels as they are. -/
theorem untouched_exec (h : Held who.channel w) (hown : Proper who op w) (hchannel : who.channel ≠ channel) :
    Untouched channel w.store (exec supply op w).2.store := by
  have hjobs : ∀ {id}, JobIn who.channel id w → ∀ job ∈ w.store.jobs, job.id = id → job.channel ≠ channel :=
    fun hin job hjob hid => (h.channel_of_id hin hjob hid).symm ▸ hchannel
  cases op with
  | beginOperation key digest =>
    simp only [exec]
    split
    · next old store hok => exact .beginOperation (by rw [hown]; exact hchannel) hok
    · exact .refl channel w.store
  | completeOperation key result => exact .updateOperation w.store (by rw [hown]; exact hchannel) _
  | linkOperation key cursor => exact .updateOperation w.store (by rw [hown]; exact hchannel) _
  | appendEvent name value origin =>
    obtain rfl : name = who.channel := hown
    simp only [exec, World.append]
    split
    · next cursor store hok => exact .appendEvent hchannel hok
    · exact .refl channel w.store
  | recordApproval grant =>
    exact untouched_change w fun s hs => .recordApproval (by rw [hown]; exact hchannel) hs
  | recordPermissions grant =>
    exact untouched_change w fun s hs => .recordPermissions (by rw [hown]; exact hchannel) hs
  | recordJob profile name params kind id =>
    obtain ⟨-, rfl⟩ := hown
    exact untouched_change w fun s hs => .recordJob hchannel hs
  | setJobState id state exit =>
    refine .updateJobs w.store (fun _ => rfl) (fun _ => rfl) fun job hjob hp => ?_
    simp only [Bool.and_eq_true, decide_eq_true_eq] at hp
    exact hjobs hown job hjob hp.1.1
  | saveOutput id params => exact .saveOutput w.store params (hjobs hown)
  | closeChannel name =>
    obtain rfl : name = who.channel := hown
    exact .closeChannel w.store hchannel
  | closeJobs name =>
    obtain rfl : name = who.channel := hown
    refine .updateJobs w.store (fun _ => rfl) (fun _ => rfl) fun job hjob hp => ?_
    simp only [Bool.and_eq_true, decide_eq_true_eq] at hp
    exact hp.1.symm ▸ hchannel
  | send e =>
    simp only [exec, World.send]
    split <;> exact .refl channel w.store
  | _ => exact .refl channel w.store

end

-- ---------------------------------------------------------------------------
-- Programs
-- ---------------------------------------------------------------------------

/-- The actor of `channel`, whatever happens to the channel's evidence. -/
def housed (supply : Nat → String) (channel : String) : Machine Op Ans World :=
  { among supply channel with rely := Mates channel }

/-- Every operation of `p` is one of `who`'s own, and `p` ends as `Q` says unless it fails. -/
def Owning (supply : Nat → String) (who : Identity) (p : M α) (w : World) (Q : α → World → Prop) : Prop :=
  Act.Sat (housed supply who.channel) (fun op a _ => Proper who op a) p w (fun r t => Held who.channel t ∧ Q r t)
    fun _ => Held who.channel

section

variable {α β : Type} {supply : Nat → String} {c : Crates} {who : Identity} {runtime : Runtime} {w : World} {p : M α}
  {f : α → M β} {Q : α → World → Prop} {R : β → World → Prop}

theorem Owning.bind (h : Owning supply who p w Q)
    (hf : ∀ a t, Held who.channel t → Q a t → Owning supply who (f a) t R) : Owning supply who (p >>= f) w R :=
  Act.Sat.bind h fun a t ht => hf a t ht.1 ht.2

theorem Owning.pure {a : α} (hw : Held who.channel w) (h : Q a w) : Owning supply who (pure a) w Q :=
  Act.Sat.pure ⟨hw, h⟩

theorem Owning.ofExcept {x : Except Fault α} (hw : Held who.channel w) (h : ∀ a, x = .ok a → Q a w) :
    Owning supply who (ofExcept x) w Q := Act.Sat.ofExcept (fun a ha => ⟨hw, h a ha⟩) fun _ _ => hw

theorem Owning.ensure {b : Bool} {e : Fault} (hw : Held who.channel w) :
    Owning supply who (ensure b e) w fun _ _ => True := Act.Sat.ensure (fun _ => ⟨hw, trivial⟩) fun _ => hw

theorem Owning.attempt {Q : Except Fault α → World → Prop}
    (h : Owning supply who p w fun a => Q (.ok a)) (hE : ∀ e t, Q (.error e) t) :
    Owning supply who (attempt p) w Q :=
  Act.Sat.attempt (Act.Sat.mono h (fun _ _ h => h) fun e t ht => ⟨ht, hE e t⟩)

theorem Owning.ask {op : Op} {Q : Ans op → World → Prop} (hw : Held who.channel w)
    (h : ∀ a, Held who.channel a → Mates who.channel w a → Proper who op a ∧ Q (exec supply op a).1 (exec supply op a).2) :
    Owning supply who (ask op) w Q := by
  refine Act.Sat.whole (fun _ _ ht => ht) fun a ha => ?_
  obtain ⟨hown, hq⟩ := h a (hw.mates ha) ha
  exact ⟨hown, (hw.mates ha).exec hown, hq⟩

/-- An operation that is its own in any state. -/
theorem Owning.plain {op : Op} (hw : Held who.channel w) (hop : ∀ a, Proper who op a) :
    Owning supply who (Execution.ask op) w fun _ _ => True := .ask hw fun a _ _ => ⟨hop a, trivial⟩

/-- A job of the channel stays one. -/
theorem Owning.keep {j : String} (h : Owning supply who p w Q) (hj : JobIn who.channel j w) :
    Owning supply who p w fun a t => Q a t ∧ JobIn who.channel j t := by
  have hkeep := Prog.Sat.keep (I := JobIn who.channel j) h hj (fun _ _ hm => Mates.jobs hm j) fun _ _ => JobIn.exec
  refine Prog.Sat.mono (fun _ _ _ h => h) ?_ hkeep
  rintro (e | a) t ⟨hq, ht⟩
  · exact hq
  · exact ⟨hq.1, hq.2, ht⟩

-- ---------------------------------------------------------------------------
-- dispatch
-- ---------------------------------------------------------------------------

theorem owning_append (hw : Held who.channel w) (value : Value) (origin : Origin) :
    Owning supply who (append who.channel value origin) w fun _ _ => True :=
  .bind (.plain hw fun _ => rfl) fun _ _ ht _ => .ofExcept ht fun _ _ => trivial

theorem owning_receipt (hw : Held who.channel w) (x : String) :
    Owning supply who (receipt who.channel x) w fun _ _ => True :=
  .bind (owning_append hw _ _) fun _ _ ht _ => .pure ht trivial

theorem owning_repeated (hw : Held who.channel w) (x : String) (existing : Option Value) :
    Owning supply who (repeated who.channel x existing) w fun _ _ => True := by
  have hagain : Owning supply who (answerAgain who.channel x existing) w fun _ _ => True := by
    unfold answerAgain
    split
    · exact .pure hw trivial
    · split
      · exact .pure hw trivial
      · exact .bind (owning_append hw _ _) fun _ _ ht _ => .pure ht trivial
  exact .bind hagain fun _ _ ht _ => owning_receipt ht x

theorem owning_complete (hw : Held who.channel w) (x : String) (result : Value) :
    Owning supply who (ask (.completeOperation (who.channel, x) result)) w fun _ _ => True := .plain hw fun _ => rfl

theorem owning_refuse (hw : Held who.channel w) (x : String) (response : Value) :
    Owning supply who (refuse who.channel x response) w fun _ _ => True :=
  .bind (owning_complete hw x response) fun _ _ ht _ =>
    .bind (owning_append ht _ _) fun _ _ ht _ => owning_receipt ht x

theorem owning_recordApproval (hw : Held who.channel w) {approval : Option CommandApproval}
    (h : ∀ grant, approval = some grant → grant.channel = who.channel) :
    Owning supply who (recordApproval approval) w fun _ _ => True := by
  unfold recordApproval
  split
  · exact .pure hw trivial
  · next grant => exact .bind (.plain hw fun _ => h grant rfl) fun _ _ ht _ => .ofExcept ht fun _ _ => trivial

theorem owning_recordPermissions (hw : Held who.channel w) {permissions : Option SessionPermissions}
    (h : ∀ grant, permissions = some grant → grant.channel = who.channel) :
    Owning supply who (recordPermissions permissions) w fun _ _ => True := by
  unfold recordPermissions
  split
  · exact .pure hw trivial
  · next grant => exact .bind (.plain hw fun _ => h grant rfl) fun _ _ ht _ => .ofExcept ht fun _ _ => trivial

theorem owning_send (hw : Held who.channel w) (e : Sent) : Owning supply who (send e) w fun _ _ => True :=
  .bind (.plain hw fun _ => trivial) fun _ _ ht _ => .ofExcept ht fun _ _ => trivial

theorem owning_respond (hw : Held who.channel w) (x : String) (message : Value) :
    Owning supply who (respond who.channel x message) w fun _ _ => True :=
  .bind (owning_send hw _) fun _ _ ht _ => .bind (owning_complete ht x _) fun _ _ ht _ => owning_receipt ht x

theorem owning_recordJob (hw : Held who.channel w) (params : Value) :
    Owning supply who (recordJob c who runtime params) w fun j t => JobIn who.channel j t := by
  unfold recordJob
  refine .bind (.ensure hw) fun _ t ht _ => .bind (.plain ht fun _ => trivial) fun id t ht _ => ?_
  refine .bind (p := ask (.recordJob _ _ _ _ _))
    (Q := fun (answer : Except Fault Unit) t => answer = .ok () → JobIn who.channel id t)
    (.ask ht fun a _ _ => ⟨⟨rfl, rfl⟩, fun hok => ?_⟩) fun answer t ht hanswer =>
    .bind (Q := fun _ t' => JobIn who.channel id t') (.ofExcept ht fun _ hok => hanswer hok) fun _ t ht hin =>
      .pure ht hin
  simp only [exec] at hok ⊢
  cases hr : a.store.recordJob who.profile who.channel params
      (if authorizedMcp c runtime params then "mcp" else "command") id with
  | error e =>
    rw [hr] at hok
    cases hok
  | ok s =>
    obtain ⟨job, rfl, hc, -, -, -, rfl⟩ := Store.recordJob_ok hr
    refine ⟨job.processId, List.mem_map.mpr ⟨job, List.mem_append_right _ (List.mem_singleton_self job), ?_⟩⟩
    rw [jobKey, hc]

/-- The job is one of the channel's, if there is one. -/
def Assigned (channel : String) (job : Option String) (w : World) : Prop := ∀ j, job = some j → JobIn channel j w

theorem owning_deliver (hw : Held who.channel w) (x : String) (message : Value) {job : Option String}
    (hjob : Assigned who.channel job w) : Owning supply who (deliver who.channel x message job) w fun _ _ => True := by
  unfold deliver
  split
  · refine .bind (p := ask _) (Q := fun _ _ => True) (.ask hw fun a _ hm => ⟨fun j hj => hm.jobs j (hjob j hj), trivial⟩)
      fun _ t ht _ => owning_send ht _
  · exact .bind (owning_send hw _) fun _ t ht _ => owning_complete ht x _

theorem owning_handOver (hw : Held who.channel w) (r : Request) :
    Owning supply who (handOver c who runtime r) w fun _ _ => True := by
  unfold handOver
  split
  · exact owning_respond hw _ _
  · split
    · refine .bind (owning_recordJob hw _) fun job t ht hin => ?_
      exact .bind (owning_deliver ht _ _ fun j hj => Option.some.inj hj ▸ hin) fun _ t ht _ => owning_receipt ht _
    · exact .bind (owning_deliver hw _ _ nofun) fun _ t ht _ => owning_receipt ht _

theorem owning_dispatch (hw : Held who.channel w) (r : Request) :
    Owning supply who (dispatch c who runtime r) w fun _ _ => True := by
  unfold dispatch
  refine .bind (.plain hw fun _ => trivial) fun answer t ht _ => .bind (Q := fun _ _ => True)
    (.ofExcept ht fun _ _ => trivial) fun existing t ht _ => ?_
  cases existing with
  | some existing => exact owning_repeated ht _ existing
  | none =>
    refine .bind (.plain ht fun _ => trivial) fun pending t ht _ => .bind (.ensure ht) fun _ t ht _ => ?_
    refine .bind (.plain ht fun _ => rfl) fun answer t ht _ => .bind (Q := fun _ _ => True)
      (.ofExcept ht fun _ _ => trivial) fun _ t ht _ => ?_
    split
    · exact owning_refuse ht _ _
    · next hpermission =>
      have hallowed := allowed_of_permission hpermission
      exact .bind (owning_recordApproval ht fun grant hgrant => (hallowed.approves grant hgrant).channel) fun _ t ht _ =>
        .bind (owning_recordPermissions ht fun grant hgrant => (hallowed.admits grant hgrant).channel) fun _ t ht _ =>
          owning_handOver ht r

-- ---------------------------------------------------------------------------
-- collect, and the end of a channel
-- ---------------------------------------------------------------------------

theorem owning_answered (hw : Held who.channel w) (x : String) {pending : Pending} (value : Value)
    (hjob : Assigned who.channel pending.job w) :
    Owning supply who (answered who.channel x pending value) w fun _ _ => True := by
  have hstarted : ∀ v, Owning supply who (started pending.job v) w fun _ _ => True := by
    intro v
    unfold started
    split
    · exact .pure hw trivial
    · next id hid => exact .ask hw fun a _ hm => ⟨hm.jobs id (hjob id hid), trivial⟩
  exact .bind (hstarted _) fun _ t ht _ => .bind (owning_complete ht x _) fun _ t ht _ =>
    .bind (owning_append ht _ _) fun _ t ht _ => .plain ht fun _ => rfl

theorem jobIn_processJob {channel process id : String} (h : w.store.processJob channel process = some id) :
    JobIn channel id w := by
  obtain ⟨job, hjob, rfl⟩ := Option.map_eq_some_iff.mp h
  rw [List.findRev?_eq_find?_reverse] at hjob
  have hguard := List.find?_some hjob
  simp only [decide_eq_true_eq] at hguard
  exact ⟨process, List.mem_map.mpr ⟨job, List.mem_reverse.mp (List.mem_of_find?_eq_some hjob), by
    rw [jobKey, hguard.1, hguard.2]⟩⟩

theorem owning_processJob (hw : Held who.channel w) (process : String) :
    Owning supply who (ask (.processJob who.channel process)) w fun found t => Assigned who.channel found t :=
  .ask hw fun _ _ _ => ⟨trivial, fun _ hid => jobIn_processJob hid⟩

theorem owning_heed (hw : Held who.channel w) (value : Value) :
    Owning supply who (heed who.channel value) w fun _ _ => True := by
  unfold heed
  split
  · unfold recordOutput
    split
    · exact .pure hw trivial
    · refine .bind (owning_processJob hw _) fun found t ht hfound => ?_
      split
      · exact .pure ht trivial
      · next id => exact .ask ht fun a _ hm => ⟨hm.jobs id (hfound id rfl), trivial⟩
  · unfold exited
    split
    · exact .pure hw trivial
    · refine .bind (owning_processJob hw _) fun found t ht hfound => ?_
      split
      · exact .pure ht trivial
      · next id => exact .ask ht fun a _ hm => ⟨hm.jobs id (hfound id rfl), trivial⟩
  · exact .pure hw trivial

theorem owning_collect (hw : Held who.channel w) (value : Value) :
    Owning supply who (collect who.channel value) w fun _ _ => True := by
  unfold collect
  split
  · exact .bind (owning_heed hw value) fun _ t ht _ => .bind (owning_append ht _ _) fun _ _ ht _ => .pure ht trivial
  · split
    · exact .pure hw trivial
    · next x _ =>
      refine .bind (p := ask (.removePending x))
        (Q := fun (found : Option Pending) t => ∀ pending, found = some pending → Assigned who.channel pending.job t)
        (.ask hw fun a ha _ => ⟨trivial, fun pending hp j hj => (ha.pending x pending hp j hj).exec⟩)
        fun found t ht hfound => ?_
      split
      · exact .pure ht trivial
      · next pending => exact owning_answered ht _ _ (hfound pending rfl)

theorem owning_terminate (hw : Held who.channel w) (mcpOnly : Bool) :
    Owning supply who (terminate who.channel mcpOnly) w fun _ _ => True := by
  have heach : ∀ (names : List String) (w : World), Held who.channel w →
      Owning supply who (terminateEach names) w fun _ _ => True := by
    intro names
    induction names with
    | nil => exact fun w hw => .pure hw trivial
    | cons name names ih =>
      exact fun w hw => .bind (.plain hw fun _ => trivial) fun _ t ht _ =>
        .bind (owning_send ht _) fun _ t ht _ => ih t ht
  exact .bind (.plain hw fun _ => trivial) fun names _ ht _ => heach names _ ht

theorem owning_drain (outputs : List Value) (hw : Held who.channel w) :
    Owning supply who (drain who.channel outputs) w fun _ _ => True := by
  induction outputs generalizing w with
  | nil => exact .pure hw trivial
  | cons value outputs ih =>
    refine .bind (.plain hw fun _ => trivial) fun running t ht _ => ?_
    split
    · exact .pure ht trivial
    · exact .bind (Q := fun _ _ => True)
        (.attempt (Q := fun _ _ => True) (owning_collect ht value) fun _ _ => trivial) fun _ t ht _ => ih ht

theorem owning_finish (outputs : List Value) (hw : Held who.channel w) :
    Owning supply who (finish who.channel outputs) w fun _ _ => True :=
  .bind (Q := fun _ _ => True) (.attempt (Q := fun _ _ => True) (owning_terminate hw false) fun _ _ => trivial)
    fun _ _ ht _ => .bind (owning_drain outputs ht) fun _ _ ht _ =>
      .bind (.plain ht fun _ => rfl) fun _ _ ht _ => .plain ht fun _ => rfl

theorem owning_handle (event : Event) (hw : Held who.channel w) :
    Owning supply who (handle c who runtime event) w fun _ _ => True := by
  cases event with
  | execute r => exact .bind (owning_dispatch hw r) fun _ _ ht _ => .pure ht trivial
  | output value => exact .bind (owning_collect hw value) fun _ _ ht _ => .pure ht trivial
  | detached => exact .bind (owning_terminate hw true) fun _ _ ht _ => .pure ht trivial
  | silent =>
    exact .bind (Q := fun _ _ => True) (.attempt (Q := fun _ _ => True) (owning_terminate hw true) fun _ _ => trivial)
      fun _ _ ht _ => .pure ht trivial
  | retireIdle =>
    exact .bind (.plain hw fun _ => trivial) fun _ _ ht _ => .bind (.plain ht fun _ => trivial) fun _ _ ht _ =>
      .pure ht trivial
  | idle => exact .bind (.plain hw fun _ => trivial) fun _ _ ht _ => .pure ht trivial
  | stop => exact .pure hw trivial

theorem owning_turn (event : Event) (outputs : List Value) (hw : Held who.channel w) :
    Owning supply who (turn c who runtime event outputs) w fun _ _ => True := by
  unfold turn
  refine .bind (Q := fun _ _ => True) (.attempt (Q := fun _ _ => True) (owning_handle event hw) fun _ _ => trivial)
    fun result t ht _ => ?_
  split
  · exact .pure ht trivial
  · exact .bind (owning_finish outputs ht) fun _ _ ht _ => .pure ht trivial

-- ---------------------------------------------------------------------------
-- The last operations
-- ---------------------------------------------------------------------------

def Op.closes : Op → Prop
  | .closeChannel _ => True
  | _ => False

def Op.settles : Op → Prop
  | .closeJobs _ => True
  | _ => False

/-- `p` leaves the channel open. -/
abbrev Leaves (p : M α) : Prop := Act.Every (fun op => ¬ op.closes) p

theorem leaves_append (channel : String) (value : Value) (origin : Origin) : Leaves (append channel value origin) :=
  .bind (.request id) fun r => .ofExcept r

theorem leaves_receipt (channel x : String) : Leaves (receipt channel x) :=
  .bind (leaves_append channel _ _) fun _ => .pure ()

theorem leaves_repeated (channel x : String) (existing : Option Value) : Leaves (repeated channel x existing) := by
  refine .bind ?_ fun _ => leaves_receipt channel x
  unfold answerAgain
  split
  · exact .pure ()
  · split
    · exact .pure ()
    · exact .bind (leaves_append channel _ _) fun _ => .pure ()

theorem leaves_send (e : Sent) : Leaves (send e) := .bind (.request id) fun r => .ofExcept r

theorem leaves_deliver (channel x : String) (message : Value) (job : Option String) :
    Leaves (deliver channel x message job) := by
  unfold deliver
  split
  · exact .bind (.request id) fun _ => leaves_send _
  · exact .bind (leaves_send _) fun _ => .request id

theorem leaves_handOver (c : Crates) (who : Identity) (runtime : Runtime) (r : Request) :
    Leaves (handOver c who runtime r) := by
  have hrecord : ∀ params, Leaves (recordJob c who runtime params) := fun params =>
    .bind (.ensure _ _) fun _ => .bind (.request id) fun _ => .bind (.request id) fun r => .bind (.ofExcept r)
      fun _ => .pure _
  unfold handOver
  split
  · exact .bind (leaves_send _) fun _ => .bind (.request id) fun _ => leaves_receipt _ _
  · split
    · exact .bind (hrecord _) fun _ => .bind (leaves_deliver _ _ _ _) fun _ => leaves_receipt _ _
    · exact .bind (leaves_deliver _ _ _ _) fun _ => leaves_receipt _ _

theorem leaves_dispatch (c : Crates) (who : Identity) (runtime : Runtime) (r : Request) :
    Leaves (dispatch c who runtime r) := by
  have happroval : ∀ approval, Leaves (recordApproval approval) := by
    intro approval
    cases approval with
    | none => exact .pure ()
    | some grant => exact .bind (.request id) fun r => .ofExcept r
  have hpermissions : ∀ permissions, Leaves (recordPermissions permissions) := by
    intro permissions
    cases permissions with
    | none => exact .pure ()
    | some grant => exact .bind (.request id) fun r => .ofExcept r
  unfold dispatch
  refine .bind (.request id) fun answer => .bind (.ofExcept _) fun existing => ?_
  cases existing with
  | some existing => exact leaves_repeated _ _ existing
  | none =>
    refine .bind (.request id) fun _ => .bind (.ensure _ _) fun _ => .bind (.request id) fun _ =>
      .bind (.ofExcept _) fun _ => ?_
    split
    · exact .bind (.request id) fun _ => .bind (leaves_append _ _ _) fun _ => leaves_receipt _ _
    · exact .bind (happroval _) fun _ => .bind (hpermissions _) fun _ => leaves_handOver c who runtime r

theorem leaves_collect (channel : String) (value : Value) : Leaves (collect channel value) := by
  have hheed : Leaves (heed channel value) := by
    unfold heed
    split
    · unfold recordOutput
      split
      · exact .pure ()
      · refine .bind (.request id) fun found => ?_
        cases found with
        | none => exact .pure ()
        | some id => exact .request fun h => h
    · unfold exited
      split
      · exact .pure ()
      · refine .bind (.request id) fun found => ?_
        cases found with
        | none => exact .pure ()
        | some id => exact .request fun h => h
    · exact .pure ()
  have hanswered : ∀ x pending, Leaves (answered channel x pending value) := by
    intro x pending
    refine .bind ?_ fun _ => .bind (.request id) fun _ => .bind (leaves_append _ _ _) fun _ => .request id
    cases pending.job with
    | none => exact .pure ()
    | some j => exact .request id
  unfold collect
  split
  · exact .bind hheed fun _ => .bind (leaves_append _ _ _) fun _ => .pure ()
  · split
    · exact .pure ()
    · refine .bind (.request id) fun found => ?_
      cases found with
      | none => exact .pure ()
      | some pending => exact hanswered _ pending

theorem leaves_terminate (channel : String) (mcpOnly : Bool) : Leaves (terminate channel mcpOnly) := by
  refine .bind (.request id) fun names => ?_
  induction names with
  | nil => exact .pure ()
  | cons name names ih => exact .bind (.request id) fun _ => .bind (leaves_send _) fun _ => ih

theorem leaves_drain (channel : String) (outputs : List Value) : Leaves (drain channel outputs) := by
  induction outputs with
  | nil => exact .pure ()
  | cons value outputs ih =>
    refine .bind (.request id) fun running => ?_
    split
    · exact .pure ()
    · exact .bind (.attempt (leaves_collect channel value)) fun _ => ih

theorem leaves_handle (c : Crates) (who : Identity) (runtime : Runtime) (event : Event) :
    Leaves (handle c who runtime event) := by
  cases event with
  | execute r => exact .bind (leaves_dispatch c who runtime r) fun _ => .pure _
  | output value => exact .bind (leaves_collect _ value) fun _ => .pure _
  | detached => exact .bind (leaves_terminate _ true) fun _ => .pure _
  | silent => exact .bind (.attempt (leaves_terminate _ true)) fun _ => .pure _
  | retireIdle => exact .bind (.request id) fun _ => .bind (.request id) fun _ => .pure _
  | idle => exact .bind (.request id) fun _ => .pure _
  | stop => exact .pure _

/-- Once the channel is closed, only its jobs are. -/
theorem sealed_turn (c : Crates) (who : Identity) (runtime : Runtime) (event : Event) (outputs : List Value) :
    Act.Seals Op.closes Op.settles (turn c who runtime event outputs) := by
  unfold turn
  refine .bind (.attempt (leaves_handle c who runtime event)) fun result => ?_
  split
  · exact Act.Every.seals (.pure true)
  · simp only [finish, markChannelLost, bind_assoc]
    refine .bind (.attempt (leaves_terminate who.channel false)) fun _ => .bind (leaves_drain who.channel outputs)
      fun _ => .request fun _ => ⟨.bind (.request id) fun _ => Act.Every.seals (.pure false), ?_⟩
    exact .bind (.request trivial) fun _ => .pure false

/-- The channel is lost. -/
def Lost (channel : String) (store : Store) : Prop := (store.channels.lookup channel).map Channel.state = some .lost

/-- The actor of a channel among others that leave the channel's state. -/
def leaving (supply : Nat → String) (channel : String) : Machine Op Ans World :=
  { among supply channel with rely := fun s t => Lost channel t.store ↔ Lost channel s.store }

/-- A turn after which the actor goes on has left the channel open. -/
theorem open_turn (c : Crates) (who : Identity) (runtime : Runtime) (event : Event) (outputs : List Value)
    {supply : Nat → String} {w : World} (hopen : ¬ Lost who.channel w.store) :
    Act.Sat (leaving supply who.channel) (fun _ _ _ => True) (turn c who runtime event outputs) w
      (fun goesOn t => goesOn = true → ¬ Lost who.channel t.store) fun _ _ => True := by
  have hhandle : Act.Sat (leaving supply who.channel) (fun _ _ _ => True) (attempt (handle c who runtime event)) w
      (fun _ t => ¬ Lost who.channel t.store) fun _ _ => True := by
    refine Act.Sat.mono (Act.Every.sat (.attempt (leaves_handle c who runtime event)) hopen ?_ ?_)
      (fun _ _ h => h) fun _ _ _ => trivial
    · exact fun _ _ hr h hlost => h (hr.mp hlost)
    · intro op a hop h
      have hname : ∀ name, op ≠ .closeChannel name := by
        rintro name rfl
        exact hop trivial
      have hstate : ((exec supply op a).2.store.channels.lookup who.channel).map Channel.state =
          (a.store.channels.lookup who.channel).map Channel.state := state_exec hname a
      exact fun hlost => h (hstate.symm.trans hlost)
  unfold turn
  refine hhandle.bind fun result t ht => ?_
  split
  · exact Act.Sat.pure fun _ => ht
  · exact Act.Sat.bind (Act.Sat.any _ t) fun _ _ _ => Act.Sat.pure nofun

end

end RemoteCodex.Execution
