import RemoteCodex.Execution.Discipline

/-!
# The actor's programs are disciplined

One lemma for each function: started where the invariant holds, every operation
it carries out finds what `Duly` asks for, whatever the others do meanwhile.
-/

namespace RemoteCodex.Execution

open Interact Protocol Server

section

variable {channel x : String} {w w' : World}

theorem Row.others (h : Row channel x w) (ho : Others channel w w') : Row channel x w' :=
  fun hnone => h ((ho.row_iff x).mp hnone)

theorem Hand.others (h : Hand channel x w) (ho : Others channel w w') : Hand channel x w' where
  row := h.row.others ho
  pending := by rw [ho.pending, h.pending]
  request := by
    unfold World.requests
    rw [ho.sent]
    exact h.request
  answer := by
    unfold World.answers
    rw [ho.log]
    exact h.answer

theorem Recorded.others {j process : String} (h : Recorded channel j process w) (ho : Others channel w w') :
    Recorded channel j process w' where
  job := by
    obtain ⟨job, hjob, hkey, hstate⟩ := h.job
    have hc : job.channel = channel := congrArg (fun k => k.2.1) hkey
    exact ⟨job, (ho.mem_jobs hc).mpr hjob, hkey, hstate⟩
  newest := (ho.processJob process).trans h.newest
  unsent := by
    unfold World.startedJobs
    rw [ho.sent]
    exact h.unsent

end

/-- `p` is disciplined from `w` on, and ends as `Q` says; so it does with an error. -/
def Disciplined (supply : Nat → String) (channel : String) (task : Task) (p : M α) (w : World)
    (Q : α → World → Prop) (E : Fault → World → Prop) : Prop :=
  Act.Sat (among supply channel) (fun op a _ => Duly channel task op a) p w Q E

/-- Nothing is said of the end but that the invariant holds. -/
def Orderly (supply : Nat → String) (channel : String) (task : Task) (p : M α) (w : World) : Prop :=
  Disciplined supply channel task p w (fun _ => Kept channel) fun _ => Kept channel

section

variable {supply : Nat → String} {channel : String} {task : Task} {w : World} {p : M α} {f : α → M β}
  {Q : α → World → Prop} {R : β → World → Prop} {E : Fault → World → Prop}

theorem Disciplined.bind (h : Disciplined supply channel task p w Q E)
    (hf : ∀ a t, Q a t → Disciplined supply channel task (f a) t R E) :
    Disciplined supply channel task (p >>= f) w R E := Act.Sat.bind h hf

theorem Disciplined.mono {Q' : α → World → Prop} {E' : Fault → World → Prop}
    (h : Disciplined supply channel task p w Q E) (hQ : ∀ a t, Q a t → Q' a t) (hE : ∀ e t, E e t → E' e t) :
    Disciplined supply channel task p w Q' E' := Act.Sat.mono h hQ hE

theorem Disciplined.pure {a : α} (h : Q a w) : Disciplined supply channel task (pure a) w Q E := Act.Sat.pure h

theorem Disciplined.ensure {b : Bool} {e : Fault} {Q : Unit → World → Prop} (ht : Q () w) (hf : E e w) :
    Disciplined supply channel task (ensure b e) w Q E := Act.Sat.ensure (fun _ => ht) fun _ => hf

theorem Disciplined.ofExcept {r : Except Fault α} (hok : ∀ a, r = .ok a → Q a w) (herr : ∀ e, r = .error e → E e w) :
    Disciplined supply channel task (ofExcept r) w Q E := Act.Sat.ofExcept hok herr

theorem Disciplined.attempt {Q : Except Fault α → World → Prop}
    (h : Disciplined supply channel task p w (fun a => Q (.ok a)) fun e => Q (.error e)) :
    Disciplined supply channel task (attempt p) w Q E := Act.Sat.attempt h

/-- The others act, and then the operation is carried out. -/
theorem Disciplined.ask {op : Op} {Q : Ans op → World → Prop} (hw : Kept channel w)
    (h : ∀ a, Others channel w a → Kept channel a → Duly channel task op a ∧
      (Kept channel (exec supply op a).2 → Q (exec supply op a).1 (exec supply op a).2)) :
    Disciplined supply channel task (ask op) w Q E := by
  refine Act.Sat.whole (fun _ _ ht => ht) fun a ha => ?_
  obtain ⟨hduly, hq⟩ := h a ha (hw.others ha)
  exact ⟨hduly, hq ((hw.others ha).exec hduly)⟩

/-- The same for an operation that may be carried out at any time. -/
theorem Orderly.ask {op : Op} (hw : Kept channel w) (hop : ∀ a, Duly channel task op a) :
    Orderly supply channel task (ask op) w := Disciplined.ask hw fun a _ _ => ⟨hop a, fun hk => hk⟩

theorem Orderly.bind (h : Orderly supply channel task p w)
    (hf : ∀ a t, Kept channel t → Orderly supply channel task (f a) t) : Orderly supply channel task (p >>= f) w :=
  Disciplined.bind h hf

theorem Orderly.attempt (h : Orderly supply channel task p w) : Orderly supply channel task (attempt p) w :=
  Disciplined.attempt h

-- ---------------------------------------------------------------------------
-- dispatch
-- ---------------------------------------------------------------------------

/-- An event that answers nothing may be appended at any time. -/
theorem orderly_append (hw : Kept channel w) (value : Value) {origin : Origin} (ho : origin.answered = none) :
    Orderly supply channel task (append channel value origin) w := by
  have hop : ∀ a, Duly channel task (.appendEvent channel value origin) a := by
    intro a
    refine ⟨rfl, ?_⟩
    cases origin with
    | answer x => cases ho
    | again x => trivial
    | receipt x => trivial
    | notice => trivial
  exact .bind (.ask hw hop) fun r t ht => Disciplined.ofExcept (fun _ _ => ht) fun _ _ => ht

theorem orderly_receipt (hw : Kept channel w) (x : String) : Orderly supply channel task (receipt channel x) w :=
  .bind (orderly_append hw _ rfl) fun _ _ ht => Disciplined.pure ht

theorem orderly_repeated (hw : Kept channel w) (x : String) (existing : Option Value) :
    Orderly supply channel task (repeated channel x existing) w := by
  have hagain : Orderly supply channel task (answerAgain channel x existing) w := by
    unfold answerAgain
    split
    · exact Disciplined.pure hw
    · split
      · exact Disciplined.pure hw
      · exact .bind (orderly_append hw _ rfl) fun _ _ ht => Disciplined.pure ht
  exact .bind hagain fun _ t ht => orderly_receipt ht x

/-- The answer to a request, if there is none yet. -/
theorem orderly_answer {x : String} (hw : Kept channel w) (hrow : Row channel x w)
    (hpending : w.pending.lookup x = none) (hanswer : x ∉ w.answers) (value : Value) :
    Orderly supply channel task (append channel value (.answer x)) w := by
  refine .bind (p := ask _) (Disciplined.ask hw fun a ha _ => ⟨⟨rfl, hrow.others ha, ?_, ?_⟩, fun hk => hk⟩)
    fun r t ht => Disciplined.ofExcept (fun _ _ => ht) fun _ _ => ht
  · rw [ha.pending, hpending]
  · unfold World.answers
    rw [ha.log]
    exact hanswer

theorem row_updateOperation {x : String} (h : Row channel x w) (key : String × String) (f : Operation → Operation) :
    Row channel x { w with store := w.store.updateOperation key f } :=
  fun hnone => h (rows_updateOperation _ _ _ _ hnone)

theorem orderly_refuse {x : String} (hw : Kept channel w) (hand : Hand channel x w) (response : Value) :
    Orderly supply channel task (refuse channel x response) w := by
  have hcomplete : Disciplined supply channel task (ask (.completeOperation (channel, x) response)) w
      (fun _ t => Kept channel t ∧ Hand channel x t) fun _ => Kept channel := by
    refine .ask hw fun a ha _ => ⟨rfl, fun hk => ⟨hk, ?_⟩⟩
    have hand' := hand.others ha
    exact ⟨row_updateOperation hand'.row _ _, hand'.pending, hand'.request, hand'.answer⟩
  refine hcomplete.bind fun _ t ⟨ht, hand⟩ => ?_
  exact .bind (orderly_answer ht hand.row hand.pending hand.answer response) fun _ t ht => orderly_receipt ht x

/-- An operation that changes nothing of what is in hand. -/
theorem disciplined_ask {x : String} (op : Op) (hw : Kept channel w) (hand : Hand channel x w)
    (hduly : ∀ a, Duly channel task op a) (hop : ∀ a, Hand channel x a → Hand channel x (exec supply op a).2) :
    Disciplined supply channel task (ask op) w (fun _ t => Kept channel t ∧ Hand channel x t) fun _ => Kept channel :=
  .ask hw fun a ha _ => ⟨hduly a, fun hk => ⟨hk, hop a (hand.others ha)⟩⟩

theorem Hand.change {x : String} (hand : Hand channel x w) (r : Except Fault Store)
    (hr : ∀ s, r = .ok s → s.operations = w.store.operations) : Hand channel x (w.change r).2 := by
  cases r with
  | error e => exact hand
  | ok s =>
    refine ⟨?_, hand.pending, hand.request, hand.answer⟩
    intro hnone
    apply hand.row
    rw [← hr s rfl]
    exact hnone

theorem disciplined_recordApproval {x : String} (hw : Kept channel w) (hand : Hand channel x w)
    (approval : Option CommandApproval) :
    Disciplined supply channel task (recordApproval approval) w (fun _ t => Kept channel t ∧ Hand channel x t)
      fun _ => Kept channel := by
  unfold recordApproval
  split
  · exact .pure ⟨hw, hand⟩
  · next grant =>
    refine (disciplined_ask (.recordApproval grant) hw hand (fun _ => trivial) fun a ha =>
      ha.change _ fun s hs => ?_).bind fun r t ht => .ofExcept (fun _ _ => ht) fun _ _ => ht.1
    unfold Store.recordApproval at hs
    split at hs <;> cases hs
    rfl

theorem disciplined_recordPermissions {x : String} (hw : Kept channel w) (hand : Hand channel x w)
    (permissions : Option SessionPermissions) :
    Disciplined supply channel task (recordPermissions permissions) w (fun _ t => Kept channel t ∧ Hand channel x t)
      fun _ => Kept channel := by
  unfold recordPermissions
  split
  · exact .pure ⟨hw, hand⟩
  · next grant =>
    refine (disciplined_ask (.recordPermissions grant) hw hand (fun _ => trivial) fun a ha =>
      ha.change _ fun s hs => ?_).bind fun r t ht => .ofExcept (fun _ _ => ht) fun _ _ => ht.1
    unfold Store.recordPermissions at hs
    split at hs
    · cases hs
      rfl
    · split at hs <;> cases hs
      rfl

/-- The job that was just recorded is the newest one of its process, and has not been started. -/
theorem recorded_of_recordJob {profile id kind process : String} {params : Value} {s : Store}
    (hw : Kept channel w) (hname : (params.index "processId").asStr = some process)
    (h : w.store.recordJob profile channel params kind id = .ok s) :
    Recorded channel id process { w with store := s } := by
  obtain ⟨job, rfl, hc, hname', hstate, hnew, rfl⟩ := Store.recordJob_ok h
  obtain rfl := Option.some.inj (hname.symm.trans hname')
  refine ⟨⟨job, List.mem_append_right _ (List.mem_singleton.mpr rfl), ?_, hstate⟩, ?_, ?_⟩
  · rw [jobKey, hc]
  · rw [Store.processJob, List.findRev?_eq_find?_reverse, List.reverse_append]
    simp [hc]
  · intro hin
    obtain ⟨e, he, hj⟩ := List.mem_filterMap.mp hin
    obtain ⟨process', -, hkey⟩ := hw.started e he job.id hj
    obtain ⟨old, hold, heq⟩ := List.mem_map.mp hkey
    exact hnew old hold (congrArg Prod.fst heq)

theorem disciplined_recordJob {who : Identity} {x : String} (hw : Kept who.channel w) (hand : Hand who.channel x w)
    (c : Crates) (runtime : Runtime) (params : Value) :
    Disciplined supply who.channel .serving (recordJob c who runtime params) w
      (fun j t => (Kept who.channel t ∧ Hand who.channel x t) ∧
        ∃ process, (params.index "processId").asStr = some process ∧ Recorded who.channel j process t)
      fun _ => Kept who.channel := by
  unfold recordJob
  refine (Act.Sat.ensure (Q := fun _ t => t = w ∧ (params.index "processId").asStr.isSome = true)
    (fun h => ⟨rfl, h⟩) fun _ => hw : Disciplined ..).bind fun _ t ht => ?_
  obtain ⟨rfl, hsome⟩ := ht
  obtain ⟨process, hname⟩ := Option.isSome_iff_exists.mp hsome
  refine (disciplined_ask .uuid hw hand (fun _ => trivial) fun a ha =>
    ⟨ha.row, ha.pending, ha.request, ha.answer⟩).bind fun id t ht => ?_
  obtain ⟨ht, hand⟩ := ht
  have hrecord : Disciplined supply who.channel .serving
      (ask (.recordJob who.profile who.channel params (if authorizedMcp c runtime params then "mcp" else "command")
        id)) t
      (fun r t => (Kept who.channel t ∧ Hand who.channel x t) ∧ (r = .ok () → Recorded who.channel id process t))
      fun _ => Kept who.channel := by
    refine .ask ht fun a ha hk => ⟨⟨rfl, rfl⟩, fun hk' => ⟨⟨hk', (hand.others ha).change _ fun s hs => ?_⟩, ?_⟩⟩
    · obtain ⟨_, -, -, -, -, -, rfl⟩ := Store.recordJob_ok hs
      rfl
    · simp only [exec, World.change]
      cases hr : a.store.recordJob who.profile who.channel params
        (if authorizedMcp c runtime params then "mcp" else "command") id with
      | error e =>
        intro h
        cases h
      | ok s =>
        intro _
        exact recorded_of_recordJob hk hname hr
  refine hrecord.bind fun r t hrecorded => ?_
  obtain ⟨ht, hr⟩ := hrecorded
  refine (Disciplined.ofExcept (Q := fun _ t' => t' = t ∧ r = .ok ()) (fun u hu => ⟨rfl, hu⟩) fun _ _ => ht.1).bind
    fun _ t' hdone => ?_
  obtain ⟨rfl, hok⟩ := hdone
  exact .pure ⟨ht, process, hname, hr hok⟩

/-- A message of `x` that starts `job`, if that is a job at all. -/
structure Message (channel x : String) (e : Sent) (w : World) : Prop where
  operation : e.operation = some x
  job : JobOf channel e w
  name : (e.message.get "method").isSome = true → ∀ y, (e.message.index "id").asStr = some y → y = x

theorem JobOf.others {e : Sent} {w' : World} (h : JobOf channel e w) (ho : Others channel w w') :
    JobOf channel e w' := by
  intro j hj
  obtain ⟨process, hname, hrecorded⟩ := h j hj
  exact ⟨process, hname, hrecorded.others ho⟩

theorem orderly_send {x : String} {e : Sent} (hw : Kept channel w) (hrow : Row channel x w) (hrequest : x ∉ w.requests)
    (hanswer : x ∉ w.answers) (hpending : ∀ p, w.pending.lookup x = some p → p.job = e.job)
    (hmessage : Message channel x e w) : Orderly supply channel task (send e) w := by
  refine .bind (p := ask _) (Disciplined.ask hw fun a ha _ => ⟨?_, fun hk => hk⟩)
    fun r t ht => Disciplined.ofExcept (fun _ _ => ht) fun _ _ => ht
  simp only [Duly, hmessage.operation]
  refine ⟨hrow.others ha, ?_, ?_, ?_, hmessage.job.others ha, hmessage.name⟩
  · unfold World.requests
    rw [ha.sent]
    exact hrequest
  · unfold World.answers
    rw [ha.log]
    exact hanswer
  · rw [ha.pending]
    exact hpending

theorem orderly_complete (hw : Kept channel w) (x : String) (result : Value) :
    Orderly supply channel task (ask (.completeOperation (channel, x) result)) w := .ask hw fun _ => rfl

theorem orderly_respond {x : String} {message : Value} (hw : Kept channel w) (hand : Hand channel x w)
    (hmethod : (message.get "method").isNone = true) : Orderly supply channel task (respond channel x message) w := by
  refine .bind (orderly_send hw hand.row hand.request hand.answer ?_ ⟨rfl, ?_, ?_⟩) fun _ t ht =>
    .bind (orderly_complete ht x _) fun _ t ht => orderly_receipt ht x
  · intro p hp
    rw [hand.pending] at hp
    cases hp
  · rintro _ ⟨⟩
  · intro hsome
    rw [Option.isNone_iff_eq_none.mp hmethod] at hsome
    cases hsome

/-- The job a request starts, if any, was just recorded. -/
def Starts (channel : String) (message : Value) (job : Option String) (w : World) : Prop :=
  ∀ j, job = some j → ∃ process, ((message.index "params").index "processId").asStr = some process ∧
    Recorded channel j process w

theorem index_set_params {message original : Value} (h : message.get "id" = some original) (v : Value) :
    (message.set "id" v).index "params" = message.index "params" := by
  unfold Value.index
  rw [Value.get_set (by rw [h]; rfl)]
  rfl

theorem index_set_id {message original : Value} (h : message.get "id" = some original) (v : Value) :
    (message.set "id" v).index "id" = v := by
  unfold Value.index
  rw [Value.get_set (by rw [h]; rfl)]
  rfl

theorem orderly_deliver {x : String} {message : Value} {job : Option String} (hw : Kept channel w)
    (hand : Hand channel x w) (hx : Ordinary x) (hstarts : Starts channel message job w) :
    Orderly supply channel task (deliver channel x message job) w := by
  unfold deliver
  split
  · next original hid =>
    have hinsert : Disciplined supply channel task (ask (.insertPending x ⟨original, job⟩)) w
        (fun _ t => Kept channel t ∧ (Row channel x t ∧ x ∉ t.requests ∧ x ∉ t.answers ∧
          (∀ p, t.pending.lookup x = some p → p.job = job) ∧ Starts channel message job t))
        fun _ => Kept channel := by
      refine .ask hw fun a ha _ => ⟨⟨hand.others ha, hx⟩, fun hk => ⟨hk, ?_⟩⟩
      have hand' := hand.others ha
      refine ⟨hand'.row, hand'.request, hand'.answer, ?_, ?_⟩
      · intro p hp
        simp only [exec] at hp
        rw [AList.lookup_insert] at hp
        cases hp
        rfl
      · intro j hj
        obtain ⟨process, hname, hrecorded⟩ := hstarts j hj
        have hrecorded' := hrecorded.others ha
        exact ⟨process, hname, hrecorded'.job, hrecorded'.newest, hrecorded'.unsent⟩
    refine hinsert.bind fun _ t hinserted => ?_
    obtain ⟨ht, hrow, hrequest, hanswer, hpending, hstarts⟩ := hinserted
    refine orderly_send ht hrow hrequest hanswer hpending ⟨rfl, ?_, ?_⟩
    · intro j hj
      obtain ⟨process, hname, hrecorded⟩ := hstarts j hj
      refine ⟨process, ?_, hrecorded⟩
      rw [Sent.process, index_set_params hid]
      exact hname
    · intro _ y hy
      rw [index_set_id hid] at hy
      exact (Option.some.inj hy).symm
  · next hid =>
    refine .bind (orderly_send hw hand.row hand.request hand.answer ?_ ⟨rfl, hstarts, ?_⟩)
      fun _ t ht => orderly_complete ht x _
    · intro p hp
      rw [hand.pending] at hp
      cases hp
    · intro _ y hy
      rw [Value.index, hid] at hy
      cases hy

theorem orderly_forward {x : String} {message : Value} {job : Option String} (hw : Kept channel w)
    (hand : Hand channel x w) (hx : Ordinary x) (hstarts : Starts channel message job w) :
    Orderly supply channel task (forward channel x message job) w :=
  .bind (orderly_deliver hw hand hx hstarts) fun _ _ ht => orderly_receipt ht x

theorem orderly_dispatch {who : Identity} (c : Crates) (runtime : Runtime) (r : Request) (hw : Kept who.channel w)
    (hx : Ordinary r.operation) :
    Orderly supply who.channel .serving (dispatch c who runtime r) w := by
  have hhandOver : ∀ t, Kept who.channel t → Hand who.channel r.operation t →
      Orderly supply who.channel .serving (handOver c who runtime r) t := by
    intro t ht hand
    unfold handOver
    split
    · next hmethod => exact orderly_respond ht hand hmethod
    · split
      · refine (disciplined_recordJob ht hand c runtime _).bind fun j t hjob => ?_
        obtain ⟨⟨ht, hand⟩, process, hname, hrecorded⟩ := hjob
        refine orderly_forward ht hand hx ?_
        rintro _ ⟨⟩
        exact ⟨process, hname, hrecorded⟩
      · refine orderly_forward ht hand hx ?_
        rintro _ ⟨⟩
  have hstate : Disciplined supply who.channel .serving
      (ask (.operationState (who.channel, r.operation) (r.digest c))) w
      (fun answer t => Kept who.channel t ∧
        (answer = .ok none → t.store.operations.lookup (who.channel, r.operation) = none))
      fun _ => Kept who.channel := by
    refine .ask hw fun a _ _ => ⟨trivial, fun hk => ⟨hk, fun h => ?_⟩⟩
    simp only [exec, Store.operationState] at h ⊢
    split at h
    · next hnone => exact hnone
    · split at h <;> cases h
  unfold dispatch
  refine hstate.bind fun answer t hread => ?_
  obtain ⟨ht, hfresh⟩ := hread
  refine (Disciplined.ofExcept (Q := fun a t' => t' = t ∧ answer = .ok a) (fun a ha => ⟨rfl, ha⟩) fun _ _ => ht).bind
    fun existing t' hexisting => ?_
  obtain ⟨ht', hanswer⟩ := hexisting
  subst ht'
  cases existing with
  | some existing => exact orderly_repeated ht r.operation existing
  | none =>
    have hnone := hfresh hanswer
    -- Nobody else makes the row, so what holds of an operation without one still holds when it is made.
    have hbegin : ∀ t, Kept who.channel t → t.store.operations.lookup (who.channel, r.operation) = none →
        Disciplined supply who.channel .serving (ask (.beginOperation (who.channel, r.operation) (r.digest c))) t
          (fun _ t => Kept who.channel t ∧ Hand who.channel r.operation t) fun _ => Kept who.channel := by
      intro t ht hnone
      refine .ask ht fun a ha hk => ⟨rfl, fun hk' => ⟨hk', ?_⟩⟩
      have hnone' := (ha.row_iff r.operation).mpr hnone
      obtain ⟨hpending, hrequest, hans⟩ := hk.fresh r.operation hnone'
      simp only [exec, Store.beginOperation, hnone']
      refine ⟨?_, hpending, hrequest, hans⟩
      simp [Row]
    have hlen : Disciplined supply who.channel .serving (ask .pendingLen) t'
        (fun _ t => Kept who.channel t ∧ t.store.operations.lookup (who.channel, r.operation) = none)
        fun _ => Kept who.channel :=
      .ask ht fun a ha _ => ⟨trivial, fun hk => ⟨hk, (ha.row_iff r.operation).mpr hnone⟩⟩
    refine hlen.bind fun pending t hlen => ?_
    obtain ⟨ht, hnone⟩ := hlen
    refine (Disciplined.ensure (Q := fun _ t' => t' = t) rfl ht).bind fun _ t' ht' => ?_
    subst ht'
    refine (hbegin t' ht hnone).bind fun answer t hbegun => ?_
    obtain ⟨ht, hand⟩ := hbegun
    refine (Disciplined.ofExcept (Q := fun _ t' => t' = t) (fun _ _ => rfl) fun _ _ => ht).bind fun _ t' ht' => ?_
    subst ht'
    split
    · exact orderly_refuse ht hand _
    · refine (disciplined_recordApproval ht hand _).bind fun _ t hgrant => ?_
      obtain ⟨ht, hand⟩ := hgrant
      refine (disciplined_recordPermissions ht hand _).bind fun _ t hgrant => ?_
      obtain ⟨ht, hand⟩ := hgrant
      exact hhandOver t ht hand

-- ---------------------------------------------------------------------------
-- collect
-- ---------------------------------------------------------------------------

theorem orderly_answered {x : String} {pending : Pending} {value : Value} (hw : Kept channel w)
    (hx : Ordinary x) (hrow : Row channel x w) (hpending : w.pending.lookup x = none) (hanswer : x ∉ w.answers)
    (hjob : ∀ e ∈ w.sent, e.operation = some x → e.job = pending.job) (hmethod : value.get "method" = none)
    (hid : (value.index "id").asStr = some x) :
    Orderly supply channel (.reading value) (answered channel x pending value) w := by
  have hstarted : Disciplined supply channel (.reading value) (started pending.job (value.set "id" pending.original)) w
      (fun _ t => Kept channel t ∧ Row channel x t ∧ t.pending.lookup x = none ∧ x ∉ t.answers)
      fun _ => Kept channel := by
    unfold started
    split
    · exact .pure ⟨hw, hrow, hpending, hanswer⟩
    · next id hpid =>
      -- Putting back the id leaves the error as it is.
      have hsome : (value.get "id").isSome = true := by
        unfold Value.index at hid
        cases hget : value.get "id" with
        | none =>
          rw [hget] at hid
          cases hid
        | some v => rfl
      have herror : (value.set "id" pending.original).get "error" = value.get "error" := Value.get_set hsome ..
      rw [herror]
      refine .ask hw fun a ha _ => ⟨.inl ⟨value, x, rfl, hmethod, hid, hx, ?_, ?_⟩,
        fun hk => ⟨hk, fun h => hrow.others ha h, ?_, ?_⟩⟩
      · rw [ha.sent, ← hpid]
        exact hjob
      · split
        · next herr => exact .inr ⟨rfl, herr⟩
        · exact .inl rfl
      · simp only [exec]
        rw [ha.pending, hpending]
      · unfold World.answers
        simp only [exec]
        rw [ha.log]
        exact hanswer
  refine hstarted.bind fun _ t hstarted => ?_
  obtain ⟨ht, hrow, hpending, hanswer⟩ := hstarted
  have hcomplete : Disciplined supply channel (.reading value)
      (ask (.completeOperation (channel, x) (value.set "id" pending.original))) t
      (fun _ t => Kept channel t ∧ Row channel x t ∧ t.pending.lookup x = none ∧ x ∉ t.answers)
      fun _ => Kept channel := by
    refine .ask ht fun a ha _ => ⟨rfl, fun hk => ⟨hk, row_updateOperation (hrow.others ha) _ _, ?_, ?_⟩⟩
    · simp only [exec]
      rw [ha.pending, hpending]
    · unfold World.answers
      simp only [exec]
      rw [ha.log]
      exact hanswer
  refine hcomplete.bind fun _ t hcompleted => ?_
  obtain ⟨ht, hrow, hpending, hanswer⟩ := hcompleted
  exact .bind (orderly_answer ht hrow hpending hanswer _) fun n t ht => Orderly.ask ht fun _ => rfl

/-- If `value` tells of an exit, the job it was taken for is over. -/
def Settled (channel : String) (value : Value) (w : World) : Prop :=
  (value.index "method").asStr = some "process/exited" →
    ∀ process, (value.pointer ["params", "processId"]).bind Value.asStr = some process →
      ∀ job ∈ w.store.jobs, job.channel = channel → w.store.processJob channel process = some job.id →
        job.state.active = false

theorem Settled.others {value : Value} {w' : World} (h : Settled channel value w) (ho : Others channel w w') :
    Settled channel value w' := by
  intro hmethod process hname job hjob hc hnewest
  exact h hmethod process hname job ((ho.mem_jobs hc).mp hjob) hc ((ho.processJob process).symm.trans hnewest)

theorem processJob_updateJobs (s : Store) (p : Job → Bool) {f : Job → Job} (hf : ∀ job, jobKey (f job) = jobKey job)
    (name process : String) : (s.updateJobs p f).processJob name process = s.processJob name process := by
  have hg : ∀ job, jobKey (if p job then f job else job) = jobKey job := by
    intro job
    split
    · exact hf job
    · rfl
  generalize hgdef : (fun job => if p job then f job else job) = g at *
  have hg : ∀ job, jobKey (g job) = jobKey job := by
    intro job
    rw [← hgdef]
    exact hg job
  rw [Store.processJob, Store.processJob, Store.updateJobs, hgdef, List.findRev?_eq_find?_reverse,
    List.findRev?_eq_find?_reverse, ← List.map_reverse, List.find?_map]
  have hpred : (fun job => decide (job.channel = name ∧ job.processId = process)) ∘ g =
      fun job => decide (job.channel = name ∧ job.processId = process) := by
    funext job
    have hkey := hg job
    simp only [jobKey, Prod.mk.injEq] at hkey
    simp only [Function.comp_apply, hkey]
  rw [hpred, Option.map_map]
  congr 1
  funext job
  exact congrArg Prod.fst (hg job)

theorem processJob_setJobState (s : Store) (id : String) (state : JobState) (exit : Option Int)
    (name process : String) : (s.setJobState id state exit).processJob name process = s.processJob name process :=
  processJob_updateJobs s _ (f := fun job => { job with state, exitCode := exit }) (fun _ => rfl) name process

/-- A job that is set to a state of its end is at its end. -/
theorem active_setJobState {s : Store} {id : String} {state : JobState} {exit : Option Int}
    (hstate : state.active = false) {job : Job} (hjob : job ∈ (s.setJobState id state exit).jobs) (hid : job.id = id) :
    job.state.active = false := by
  obtain ⟨old, -, rfl⟩ := List.mem_map.mp hjob
  dsimp only at hid ⊢
  split
  · exact hstate
  · next hguard =>
    rw [if_neg hguard] at hid
    have hrunning : state ≠ .running := by
      intro h
      rw [h] at hstate
      cases hstate
    cases hactive : old.state.active with
    | false => rfl
    | true => simp [hid, hactive, hrunning] at hguard

theorem disciplined_exited {value : Value} (hw : Kept channel w)
    (hmethod : (value.index "method").asStr = some "process/exited") :
    Disciplined supply channel (.reading value) (exited channel value) w
      (fun _ t => Kept channel t ∧ Settled channel value t) E := by
  unfold exited
  split
  · next hnone =>
    refine .pure ⟨hw, fun _ process hname => ?_⟩
    rw [hnone] at hname
    cases hname
  · next process hname =>
    have hterminal : ∀ exit : Option Int,
        (if exit = some 0 then JobState.completed else JobState.failed).active = false := by
      intro exit
      split <;> rfl
    have hjob : Disciplined supply channel (.reading value) (ask (.processJob channel process)) w
        (fun id t => Kept channel t ∧ t.store.processJob channel process = id) E :=
      .ask hw fun a _ _ => ⟨trivial, fun hk => ⟨hk, rfl⟩⟩
    refine hjob.bind fun id t ⟨ht, hnewest⟩ => ?_
    cases id with
    | none =>
      refine .pure ⟨ht, fun _ process' hname' job _ _ hjob => ?_⟩
      obtain rfl := Option.some.inj (hname.symm.trans hname')
      rw [hnewest] at hjob
      cases hjob
    | some id =>
      refine .ask ht fun a ha _ => ?_
      have hsame := (ha.processJob process).trans hnewest
      refine ⟨.inr ⟨value, process, rfl, hmethod, hname, hsame, hterminal _⟩, fun hk => ⟨hk, ?_⟩⟩
      intro _ process' hname' job hjob _ hnewest'
      obtain rfl := Option.some.inj (hname.symm.trans hname')
      have hid : some id = some job.id := hsame.symm.trans ((processJob_setJobState ..).symm.trans hnewest')
      exact active_setJobState (hterminal _) hjob (Option.some.inj hid).symm

theorem disciplined_recordOutput {params : Value} (hw : Kept channel w) :
    Disciplined supply channel task (recordOutput channel params) w (fun _ => Kept channel) E := by
  unfold recordOutput
  split
  · exact .pure hw
  · have hjob : ∀ process, Disciplined supply channel task (ask (.processJob channel process)) w
        (fun _ => Kept channel) E := fun process => .ask hw fun _ _ _ => ⟨trivial, fun hk => hk⟩
    refine (hjob _).bind fun id t ht => ?_
    cases id with
    | none => exact .pure ht
    | some id => exact .ask ht fun _ _ _ => ⟨trivial, fun hk => hk⟩

theorem Settled.of_method {value : Value} (h : (value.index "method").asStr ≠ some "process/exited") (w : World) :
    Settled channel value w := fun hmethod => absurd hmethod h

/-- The job of an exit is settled before anything can go wrong. -/
theorem disciplined_heed {value : Value} (hw : Kept channel w) :
    Disciplined supply channel (.reading value) (heed channel value) w
      (fun _ t => Kept channel t ∧ Settled channel value t) E := by
  unfold heed
  split
  · next hmethod =>
    refine (disciplined_recordOutput hw).mono (fun _ t ht => ⟨ht, .of_method ?_ t⟩) fun _ _ h => h
    rw [hmethod]
    decide
  · next hmethod => exact disciplined_exited hw hmethod
  · next hother => exact .pure ⟨hw, .of_method hother w⟩

theorem Settled.append {value : Value} (h : Settled channel value w) (name : String) (v : Value) (origin : Origin) :
    Settled channel value (w.append name v origin).2 := by
  unfold World.append
  obtain ⟨-, heq⟩ | ⟨row, bytes, floor, rows, -, -, heq⟩ := Store.appendEvent_cases w.store name v
  · rw [heq]
    exact h
  · rw [heq]
    exact h

theorem disciplined_collect {value : Value} (hw : Kept channel w) :
    Disciplined supply channel (.reading value) (collect channel value) w
      (fun _ t => Kept channel t ∧ Settled channel value t) fun _ t => Kept channel t ∧ Settled channel value t := by
  unfold collect
  split
  · refine (disciplined_heed hw).bind fun _ t ⟨ht, hsettled⟩ => ?_
    have happend : Disciplined supply channel (.reading value) (ask (.appendEvent channel value .notice)) t
        (fun _ t => Kept channel t ∧ Settled channel value t) fun _ t => Kept channel t ∧ Settled channel value t :=
      .ask ht fun a ha _ => ⟨⟨rfl, trivial⟩, fun hk => ⟨hk, Settled.append (hsettled.others ha) channel value .notice⟩⟩
    exact (happend.bind fun r t ht => .ofExcept (fun _ _ => ht) fun _ _ => ht).bind fun _ t ht => .pure ht
  · next hmethod =>
    have hnone : value.get "method" = none := by
      cases h : value.get "method" with
      | none => rfl
      | some m => simp [h] at hmethod
    have hsettled : ∀ t, Settled channel value t := by
      apply Settled.of_method
      rw [Value.index, hnone]
      decide
    split
    · exact .pure ⟨hw, hsettled w⟩
    · next x hid =>
      have hremove : Disciplined supply channel (.reading value) (ask (.removePending x)) w
          (fun r t => Kept channel t ∧ ∀ p, r = some p → Ordinary x ∧ Row channel x t ∧ t.pending.lookup x = none ∧
            x ∉ t.answers ∧ ∀ e ∈ t.sent, e.operation = some x → e.job = p.job)
          fun _ t => Kept channel t ∧ Settled channel value t := by
        refine .ask hw fun a ha hk => ⟨trivial, fun hk' => ⟨hk', fun p hp => ?_⟩⟩
        obtain ⟨hx, hanswer, hsame⟩ := hk.waiting x p hp
        refine ⟨hx, fun hrow => ?_, AList.lookup_erase _ _, hanswer, hsame⟩
        have hnone : a.pending.lookup x = none := (hk.fresh x hrow).1
        exact Option.some_ne_none p (hp.symm.trans hnone)
      refine hremove.bind fun r t ⟨ht, hr⟩ => ?_
      cases r with
      | none => exact .pure ⟨ht, hsettled t⟩
      | some p =>
        obtain ⟨hx, hrow, hpending, hanswer, hsame⟩ := hr p rfl
        exact (orderly_answered ht hx hrow hpending hanswer hsame hnone hid).mono
          (fun _ t ht => ⟨ht, hsettled t⟩) fun _ t ht => ⟨ht, hsettled t⟩

-- ---------------------------------------------------------------------------
-- The turns of the actor
-- ---------------------------------------------------------------------------

theorem orderly_terminateEach (processes : List String) (hw : Kept channel w) :
    Orderly supply channel task (terminateEach processes) w := by
  induction processes generalizing w with
  | nil => exact Disciplined.pure hw
  | cons process rest ih =>
    refine .bind (.ask hw fun _ => trivial) fun id t ht => .bind ?_ fun _ t ht => ih ht
    refine .bind (p := ask _) (.ask ht fun _ => ⟨rfl, fun y hy => ⟨id, (Option.some.inj hy).symm⟩⟩) fun r t ht => ?_
    exact Disciplined.ofExcept (fun _ _ => ht) fun _ _ => ht

theorem orderly_terminate (hw : Kept channel w) (mcpOnly : Bool) :
    Orderly supply channel task (terminate channel mcpOnly) w :=
  .bind (.ask hw fun _ => trivial) fun processes _ ht => orderly_terminateEach processes ht

/-- What holds when the task is done. -/
def Completed (channel : String) : Task → World → Prop
  | .reading value, w => Settled channel value w
  | _, _ => True

theorem disciplined_handle {who : Identity} (c : Crates) (runtime : Runtime) (e : Event) (hw : Kept who.channel w)
    (hx : ∀ r, e = .execute r → Ordinary r.operation) :
    Disciplined supply who.channel e.task (handle c who runtime e) w
      (fun _ t => Kept who.channel t ∧ Completed who.channel e.task t)
      fun _ t => Kept who.channel t ∧ Completed who.channel e.task t := by
  have hpure : ∀ {α : Type} {p : M α} {b : Bool}, Orderly supply who.channel .serving p w →
      Disciplined supply who.channel .serving (p >>= fun _ => pure b) w
        (fun _ t => Kept who.channel t ∧ Completed who.channel .serving t)
        fun _ t => Kept who.channel t ∧ Completed who.channel .serving t := by
    intro α p b hp
    exact (hp.mono (fun _ t ht => ht) fun _ t ht => ⟨ht, trivial⟩).bind fun _ t ht => .pure ⟨ht, trivial⟩
  cases e with
  | execute r => exact hpure (orderly_dispatch c runtime r hw (hx r rfl))
  | output value => exact Disciplined.bind (disciplined_collect hw) fun _ t ht => Disciplined.pure ht
  | detached => exact hpure (orderly_terminate hw true)
  | silent => exact hpure (Orderly.attempt (orderly_terminate hw true))
  | retireIdle =>
    refine Disciplined.bind (Q := fun _ => Kept who.channel) (.ask hw fun _ _ _ => ⟨trivial, fun hk => hk⟩)
      fun pending t ht => ?_
    refine Disciplined.bind (Q := fun _ => Kept who.channel) (.ask ht fun _ _ _ => ⟨trivial, fun hk => hk⟩)
      fun running t ht => ?_
    exact .pure ⟨ht, trivial⟩
  | idle =>
    refine Disciplined.bind (Q := fun _ => Kept who.channel) (.ask hw fun _ _ _ => ⟨trivial, fun hk => hk⟩)
      fun active t ht => ?_
    exact .pure ⟨ht, trivial⟩
  | stop => exact .pure ⟨hw, trivial⟩

end

end RemoteCodex.Execution
