import RemoteCodex.Execution.Evidence
import RemoteCodex.Execution.Jobs
import RemoteCodex.Execution.Refusals

/-!
# What the executor is given in a run of the loop

Whatever requests the loop takes and wherever the service stops: each message
is that of the first request with its identity, has authority and is on record,
and no identity and no approval is used twice.
-/

namespace RemoteCodex.Execution

open Interact Protocol Server

def Event.request : Event → Option Request
  | .execute r => some r
  | _ => none

/-- The requests a run takes. -/
def executed (events : List (Event × List Value)) : List Request := events.filterMap fun e => e.1.request

/-- The requests have rows. -/
def Rows (channel : String) (rs : List Request) (w : World) : Prop := ∀ r ∈ rs, Row channel r.operation w

section

variable {c : Crates} {runtime : Runtime} {who : Identity} {channel : String} {supply : Nat → String}
  {requests past rest : List Request} {e : Sent} {r : Request} {w t : World} {P : World → Prop}

theorem lasting_row (x : String) : Lasting channel (Row channel x) := by
  intro s t hg hs hnone
  obtain ⟨op, hop⟩ := Option.ne_none_iff_exists'.mp hs
  have hd := hg.rows x op.digest (by rw [hop]; rfl)
  rw [hnone] at hd
  cases hd

theorem lasting_rows (rs : List Request) : Lasting channel (Rows channel rs) :=
  fun s t hg hs r hr => lasting_row r.operation s t hg (hs r hr)

theorem Rows.snoc (h : Rows channel past w) (hr : Row channel r.operation w) : Rows channel (past ++ [r]) w := by
  intro r' hr'
  rcases List.mem_append.mp hr' with hr' | hr'
  · exact h r' hr'
  · rw [List.mem_singleton.mp hr']
    exact hr

/-- A request without a row is the first one with its identity. -/
theorem find_first (hpast : Rows channel past w) (hnone : w.store.operations.lookup (channel, r.operation) = none)
    (hall : requests = past ++ r :: rest) : requests.find? (fun r' => r'.operation = r.operation) = some r := by
  have hnew : past.find? (fun r' => r'.operation = r.operation) = none := by
    rw [List.find?_eq_none]
    intro r' hr' hsame
    exact hpast r' hr' ((of_decide_eq_true hsame) ▸ hnone)
  rw [hall, List.find?_append, hnew]
  simp

-- ---------------------------------------------------------------------------
-- dispatch
-- ---------------------------------------------------------------------------

theorem vouching_recordApproval (w : World) (approval : Option CommandApproval) :
    Vouching supply c channel runtime requests (recordApproval approval) w fun _ t =>
      ∀ grant, approval = some grant → t.store.approvals.lookup grant.id = some grant := by
  unfold recordApproval
  split
  · exact .pure nofun
  · next grant =>
    refine .bind (p := ask (.recordApproval grant))
      (Q := fun (answer : Except Fault Unit) t => answer = .ok () → t.store.approvals.lookup grant.id = some grant)
      (.ask fun a ha => ⟨nofun, ?_⟩) fun answer t ht => .ofExcept fun _ hok => ?_
    · simp only [exec]
      unfold Store.recordApproval
      split
      · intro herr
        cases herr
      · intro _
        exact AList.lookup_insert _
    · rintro _ ⟨⟩
      exact ht hok

theorem vouching_recordPermissions (w : World) (permissions : Option SessionPermissions) :
    Vouching supply c channel runtime requests (recordPermissions permissions) w fun _ t =>
      ∀ grant, permissions = some grant → ∃ row, t.store.sessionPermissions.lookup grant.id = some row ∧
        row.channel = grant.channel ∧ row.thread = grant.thread := by
  unfold recordPermissions
  split
  · exact .pure nofun
  · next grant =>
    refine .bind (p := ask (.recordPermissions grant)) (Q := fun (answer : Except Fault Unit) t => answer = .ok () →
      ∃ row, t.store.sessionPermissions.lookup grant.id = some row ∧ row.channel = grant.channel ∧
        row.thread = grant.thread) (.ask fun a ha => ⟨nofun, ?_⟩) fun answer t ht => .ofExcept fun _ hok => ?_
    · simp only [exec]
      unfold Store.recordPermissions
      split
      · intro _
        exact ⟨grant, AList.lookup_insert _, rfl, rfl⟩
      · next old hold =>
        split
        · next hsame =>
          intro _
          exact ⟨old, hold, hsame⟩
        · intro herr
          cases herr
    · rintro _ ⟨⟩
      exact ht hok

theorem vouching_recordJob (w : World) (params : Value) :
    Vouching supply c who.channel runtime requests (recordJob c who runtime params) w fun j t =>
      ∃ process, (params.index "processId").asStr = some process ∧
        (j, who.channel, process) ∈ t.store.jobs.map jobKey := by
  unfold recordJob
  refine .bind (Act.Sat.ensure (Q := fun _ _ => (params.index "processId").asStr.isSome = true) id fun _ => trivial)
    fun _ t hsome => ?_
  obtain ⟨process, hname⟩ := Option.isSome_iff_exists.mp hsome
  refine .bind (.mute nofun) fun id t _ => ?_
  refine .bind (p := ask (.recordJob _ _ _ _ _)) (Q := fun (answer : Except Fault Unit) t => answer = .ok () →
    (id, who.channel, process) ∈ t.store.jobs.map jobKey) (.ask fun a ha => ⟨nofun, fun hok => ?_⟩)
    fun answer t ht => .bind (Q := fun _ t' => t' = t ∧ answer = .ok ()) (.ofExcept fun _ hok => ⟨rfl, hok⟩)
      fun _ t' hdone => ?_
  · simp only [exec] at hok ⊢
    cases hr : a.store.recordJob who.profile who.channel params
        (if authorizedMcp c runtime params then "mcp" else "command") id with
    | error e =>
      rw [hr] at hok
      cases hok
    | ok s =>
      obtain ⟨job, rfl, hc, hname', -, -, rfl⟩ := Store.recordJob_ok hr
      obtain rfl := Option.some.inj (hname.symm.trans hname')
      simp only [World.change, List.map_append, List.mem_append, List.map_cons, List.map_nil, List.mem_singleton]
      exact .inr (by rw [jobKey, hc])
  · obtain ⟨rfl, hok⟩ := hdone
    exact .pure ⟨process, hname, ht hok⟩

/-- The request may be handed over: it is the first of its identity, has authority, and is on record. -/
structure Ready (c : Crates) (channel : String) (runtime : Runtime) (requests : List Request) (r : Request)
    (w : World) : Prop where
  first : requests.find? (fun r' => r'.operation = r.operation) = some r
  allowed : Allowed c runtime channel r.operation r.approval r.permissions r.message
  written : Written c channel r w

theorem lasting_ready : Lasting channel (Ready c channel runtime requests r) :=
  fun _ _ hg hs => ⟨hs.first, hs.allowed, hs.written.grown hs.allowed hg⟩

/-- The job the request starts, if it does, is on record. -/
def Begun (channel : String) (r : Request) (job : Option String) (w : World) : Prop :=
  starts r.message = true → ∃ j process, job = some j ∧
    ((r.message.index "params").index "processId").asStr = some process ∧
      (j, channel, process) ∈ w.store.jobs.map jobKey

theorem lasting_begun (job : Option String) : Lasting channel (Begun channel r job) := by
  intro s t hg hs hstarts
  obtain ⟨j, process, hj, hprocess, hkey⟩ := hs hstarts
  exact ⟨j, process, hj, hprocess, hg.jobs _ _ hkey⟩

theorem Ready.vouched {job : Option String} (h : Ready c channel runtime requests r w)
    (hjob : Begun channel r job w) :
    Vouched c channel runtime requests ⟨some r.operation, job, r.handed⟩ w := by
  refine ⟨r, h.first, rfl, h.allowed, h.written, fun hstarts => ?_⟩
  obtain ⟨j, process, hj, hprocess, hkey⟩ := hjob hstarts
  refine ⟨j, process, hj, ?_, hkey⟩
  rw [Sent.process, Request.handed]
  split
  · next hguard =>
    simp only [Bool.and_eq_true] at hguard
    obtain ⟨original, hid⟩ := Option.isSome_iff_exists.mp hguard.2
    rw [index_set_params hid]
    exact hprocess
  · exact hprocess

theorem honest_deliver {job : Option String} (hready : Ready c channel runtime requests r w)
    (hmethod : (r.message.get "method").isSome = true) (hjob : Begun channel r job w) :
    Honest supply c channel runtime requests (deliver channel r.operation r.message job) w := by
  unfold deliver
  split
  · next original hid =>
    have hhanded : r.handed = r.message.set "id" (.string r.operation) := by
      rw [Request.handed, if_pos]
      rw [hmethod, hid]
      rfl
    refine .bind (Vouching.keep (.mute nofun) (lasting_ready.and (lasting_begun job)) ⟨hready, hjob⟩) fun _ t ht => ?_
    exact honest_send (hhanded ▸ ht.2.1.vouched ht.2.2)
  · next hid =>
    have hhanded : r.handed = r.message := by
      rw [Request.handed, if_neg]
      rw [hid]
      simp
    exact .bind (honest_send (hhanded ▸ hready.vouched hjob)) fun _ _ _ => .mute nofun

theorem honest_handOver (hready : Ready c who.channel runtime requests r w) :
    Honest supply c who.channel runtime requests (handOver c who runtime r) w := by
  have hforward : ∀ {job t}, Ready c who.channel runtime requests r t → (r.message.get "method").isSome = true →
      Begun who.channel r job t →
      Honest supply c who.channel runtime requests (forward who.channel r.operation r.message job) t :=
    fun hready hmethod hjob => .bind (honest_deliver hready hmethod hjob) fun _ t _ => honest_receipt t _
  unfold handOver
  split
  · next hnone =>
    have hstarts : starts r.message = true → False := by
      intro hstarts
      rw [method_of_starts hstarts] at hnone
      cases hnone
    have hhanded : r.handed = r.message := by
      rw [Request.handed, if_neg]
      rw [Option.isNone_iff_eq_none.mp hnone]
      simp
    have hvouched : Vouched c who.channel runtime requests ⟨some r.operation, none, r.message⟩ w :=
      hhanded ▸ hready.vouched fun hstarts' => (hstarts hstarts').elim
    exact .bind (honest_send hvouched) fun _ _ _ => .bind (.mute nofun) fun _ t _ => honest_receipt t _
  · next hsome =>
    have hmethod : (r.message.get "method").isSome = true := by
      rw [← Option.not_isNone, Bool.not_eq_true']
      exact Bool.eq_false_iff.mpr hsome
    split
    · refine .bind ((vouching_recordJob w _).keep lasting_ready hready) fun j t ht => ?_
      obtain ⟨⟨process, hname, hkey⟩, hready⟩ := ht
      exact hforward hready hmethod fun _ => ⟨j, process, rfl, hname, hkey⟩
    · next hstarts => exact hforward hready hmethod fun hstarts' => absurd hstarts' hstarts

/-- A request that may go on. -/
theorem honest_proceed
    (hrow : (w.store.operations.lookup (who.channel, r.operation)).map Operation.digest = some (r.digest c))
    (hfirst : requests.find? (fun r' => r'.operation = r.operation) = some r)
    (hallowed : Allowed c runtime who.channel r.operation r.approval r.permissions r.message) :
    Honest supply c who.channel runtime requests (proceed c who runtime r) w := by
  have hrecorded : Lasting who.channel fun w =>
      (w.store.operations.lookup (who.channel, r.operation)).map Operation.digest = some (r.digest c) :=
    fun s t hg hs => hg.rows _ _ hs
  have happroved : Lasting who.channel fun w =>
      ∀ grant, r.approval = some grant → w.store.approvals.lookup grant.id = some grant :=
    fun s t hg hs grant hgrant => hg.approvals _ _ (hs grant hgrant) (hallowed.approves grant hgrant).channel
  refine .bind ((vouching_recordApproval w _).keep hrecorded hrow) fun _ t ht => ?_
  refine .bind ((vouching_recordPermissions t _).keep (happroved.and hrecorded) ht) fun _ t ht => ?_
  obtain ⟨hpermissions, happroval, hrow⟩ := ht
  exact honest_handOver ⟨hfirst, hallowed, hrow, happroval, hpermissions⟩

theorem vouching_dispatch (hall : requests = past ++ r :: rest) (hpast : Rows who.channel past w) :
    Vouching supply c who.channel runtime requests (dispatch c who runtime r) w fun _ =>
      Rows who.channel (past ++ [r]) := by
  have hlasting : Lasting who.channel (Rows who.channel past) := lasting_rows past
  have hdone : ∀ {p : M Unit} {t : World}, Honest supply c who.channel runtime requests p t →
      Rows who.channel past t → Row who.channel r.operation t →
      Vouching supply c who.channel runtime requests p t fun _ => Rows who.channel (past ++ [r]) :=
    fun hp hpast hrow => Act.Sat.mono (hp.keep (lasting_rows (past ++ [r])) (hpast.snoc hrow))
      (fun _ _ h => h.2) fun _ _ h => h
  unfold dispatch
  refine .bind (p := ask (.operationState _ _))
    (Q := fun (answer : Except Fault (Option (Option Value))) t => Rows who.channel past t ∧
    (answer = .ok none → t.store.operations.lookup (who.channel, r.operation) = none) ∧
    ∀ existing, answer = .ok (some existing) → Row who.channel r.operation t) (.ask fun a ha => ⟨by rintro _ ⟨⟩, ?_, ?_, ?_⟩)
    fun answer t ht => ?_
  · exact hlasting _ _ ha.grown hpast
  · simp only [exec, Store.operationState]
    intro hok
    split at hok
    · next hnone => exact hnone
    · split at hok <;> cases hok
  · simp only [exec, Store.operationState]
    intro existing hok
    split at hok
    · cases hok
    · next op hop => exact fun hnone => Option.some_ne_none _ (hop.symm.trans hnone)
  obtain ⟨hpast, hfresh, hrow⟩ := ht
  refine .bind (Q := fun existing t' => t' = t ∧ answer = .ok existing) (.ofExcept fun _ hok => ⟨rfl, hok⟩)
    fun existing t' hexisting => ?_
  obtain ⟨rfl, hanswer⟩ := hexisting
  cases existing with
  | some existing => exact hdone (honest_repeated _ _ _) hpast (hrow existing hanswer)
  | none =>
    have hnone := hfresh hanswer
    have hfirst := find_first hpast hnone hall
    refine .bind (p := ask _) (Q := fun _ t => Rows who.channel past t ∧
      t.store.operations.lookup (who.channel, r.operation) = none)
      (.ask fun a ha => ⟨by rintro _ ⟨⟩, hlasting _ _ ha.grown hpast, (ha.row_iff r.operation).mpr hnone⟩)
      fun pending t ht => ?_
    refine .bind (Act.Sat.ensure (Q := fun _ t' => t' = t) (fun _ => rfl) fun _ => trivial) fun _ t' ht' => ?_
    subst ht'
    refine .bind (p := ask _) (Q := fun _ t => Rows who.channel past t ∧
      (t.store.operations.lookup (who.channel, r.operation)).map Operation.digest = some (r.digest c))
      (.ask fun a ha => ⟨by rintro _ ⟨⟩, ?_, ?_⟩) fun answer t ht => ?_
    · exact hlasting _ _ (grown_exec _ a) (hlasting _ _ ha.grown ht.1)
    · have hnone' := (ha.row_iff r.operation).mpr ht.2
      simp only [exec, Store.beginOperation, hnone']
      rw [AList.lookup_insert]
      rfl
    obtain ⟨hpast, hbegun⟩ := ht
    have hrow : Row who.channel r.operation t := by
      intro hnone
      rw [hnone] at hbegun
      cases hbegun
    refine .bind (Q := fun _ t' => t' = t) (.ofExcept fun _ _ => rfl) fun _ t' ht' => ?_
    subst ht'
    split
    · exact hdone (honest_refuse _ _ _) hpast hrow
    · next hpermission =>
      exact hdone (honest_proceed hbegun hfirst (allowed_of_permission hpermission)) hpast hrow

-- ---------------------------------------------------------------------------
-- The loop
-- ---------------------------------------------------------------------------

theorem vouching_handle (event : Event) (hall : requests = past ++ event.request.toList ++ rest)
    (hpast : Rows who.channel past w) :
    Vouching supply c who.channel runtime requests (handle c who runtime event) w fun _ =>
      Rows who.channel (past ++ event.request.toList) := by
  have hother : Honest supply c who.channel runtime requests (handle c who runtime event) w →
      event.request = none → Vouching supply c who.channel runtime requests (handle c who runtime event) w fun _ =>
        Rows who.channel (past ++ event.request.toList) := by
    intro h hnone
    refine Act.Sat.mono (h.keep (lasting_rows past) hpast) (fun _ _ h => ?_) fun _ _ h => h
    rw [hnone, Option.toList_none, List.append_nil]
    exact h.2
  cases event with
  | execute r =>
    have hall' : requests = past ++ r :: rest := by simpa [Event.request] using hall
    exact .bind (vouching_dispatch hall' hpast) fun _ _ ht => .pure ht
  | output value => exact hother (.bind (honest_collect w value) fun _ _ _ => .pure trivial) rfl
  | detached => exact hother (.bind (honest_terminate w true) fun _ _ _ => .pure trivial) rfl
  | silent => exact hother (.bind (honest_attempt (honest_terminate w true)) fun _ _ _ => .pure trivial) rfl
  | retireIdle =>
    exact hother (.bind (.mute nofun) fun _ _ _ => .bind (.mute nofun) fun _ _ _ => .pure trivial) rfl
  | idle => exact hother (.bind (.mute nofun) fun _ _ _ => .pure trivial) rfl
  | stop => exact hother (.pure trivial) rfl

theorem vouching_turn (event : Event) (outputs : List Value)
    (hall : requests = past ++ event.request.toList ++ rest) (hpast : Rows who.channel past w) :
    Vouching supply c who.channel runtime requests (turn c who runtime event outputs) w fun goesOn t =>
      goesOn = true → Rows who.channel (past ++ event.request.toList) t := by
  have hhandle : Vouching supply c who.channel runtime requests (attempt (handle c who runtime event)) w
      fun result t => ∀ goesOn, result = .ok goesOn → Rows who.channel (past ++ event.request.toList) t :=
    .attempt (Act.Sat.mono (vouching_handle event hall hpast) (fun _ _ h _ _ => h) fun _ _ h => h) nofun
  unfold turn
  refine hhandle.bind fun result t ht => ?_
  split
  · exact .pure fun _ => ht true rfl
  · exact .bind (honest_finish outputs t) fun _ _ _ => .pure nofun

theorem honest_serve (events : List (Event × List Value)) (hall : requests = past ++ executed events)
    (hpast : Rows who.channel past w) :
    Honest supply c who.channel runtime requests (serve c who runtime events) w := by
  induction events generalizing past w with
  | nil => exact .pure trivial
  | cons event events ih =>
    obtain ⟨event, outputs⟩ := event
    have hall' : requests = past ++ event.request.toList ++ executed events := by
      rw [hall, List.append_assoc]
      cases h : event.request <;> simp [executed, h]
    unfold serve
    refine .bind (vouching_turn event outputs hall' hpast) fun goesOn t ht => ?_
    split
    · next hgo => exact ih hall' (ht hgo)
    · exact .pure trivial

theorem guarded_refl (channel : String) (s : World) : Guarded channel s s where
  toOthers := .refl channel s
  approvals _ _ h _ := h
  permissions _ _ h _ := h

theorem vouches_stops {events : List (Event × List Value)} (hopened : Opened who.channel w)
    (h : Prog.Stops (guarded supply who.channel) (serve c who runtime events).run w t) :
    Vouches c who.channel runtime (executed events) t := by
  have hserve : Honest supply c who.channel runtime (executed events) (serve c who runtime events) w :=
    honest_serve events (List.nil_append _).symm nofun
  have hfirst : Vouches c who.channel runtime (executed events) w := by
    intro e he
    rw [hopened.sent] at he
    cases he
  exact Prog.Sat.stops (I := Vouches c who.channel runtime (executed events)) hserve h hfirst
    (fun _ _ hg hv => hv.guarded hg) fun _ _ _ hkeeps hv => hkeeps hv

/-- Somebody has chosen full access for the thread. -/
def removal : Request where
  operation := firstBuild.operation
  message := .object [("id", .int 1), ("method", .string "fs/remove")]
  permissions := some ⟨"grant", newcomer.channel, "thread"⟩

/-- A run that is given the same requests twice. -/
def twice (r : Request) : List (Event × List Value) := [(.execute r, []), (.execute r, [])]

def afterTwice (r : Request) : World :=
  ((serve plain newcomer {} (twice r)).run.run (guarded letters newcomer.channel) opened).2

theorem stops_twice (r : Request) :
    Prog.Stops (guarded letters newcomer.channel) (serve plain newcomer {} (twice r)).run opened (afterTwice r) :=
  Prog.stops_run (guarded_refl newcomer.channel) _ _

/-- Every operation of `p` is one of some task's, carried out when it may be. -/
def Dutiful (supply : Nat → String) (channel : String) (p : M α) (w : World) : Prop :=
  Act.Sat (among supply channel) (fun op a _ => ∃ task, Duly channel task op a) p w (fun _ => Kept channel)
    fun _ => Kept channel

theorem Orderly.dutiful {task : Task} {p : M α} (h : Orderly supply channel task p w) : Dutiful supply channel p w :=
  Act.Sat.weaken h fun _ _ _ hduly => ⟨task, hduly⟩

theorem dutiful_ask (task : Task) {op : Op} (hw : Kept channel w) (hop : ∀ a, Duly channel task op a) :
    Dutiful supply channel (ask op) w := (Orderly.ask hw hop).dutiful

theorem Dutiful.bind {p : M α} {f : α → M β} (h : Dutiful supply channel p w)
    (hf : ∀ a t, Kept channel t → Dutiful supply channel (f a) t) : Dutiful supply channel (p >>= f) w :=
  Act.Sat.bind h hf

theorem Dutiful.attempt {p : M α} (h : Dutiful supply channel p w) : Dutiful supply channel (attempt p) w :=
  Act.Sat.attempt h

theorem dutiful_handle (event : Event) (hw : Kept who.channel w)
    (hx : ∀ r, event.request = some r → Ordinary r.operation) :
    Dutiful supply who.channel (handle c who runtime event) w := by
  have hordinary : ∀ r, event = .execute r → Ordinary r.operation := fun r hr => hx r (by rw [hr]; rfl)
  exact Act.Sat.mono (Act.Sat.weaken (disciplined_handle c runtime event hw hordinary) fun _ _ _ hduly => ⟨_, hduly⟩)
    (fun _ _ h => h.1) fun _ _ h => h.1

theorem dutiful_drain (outputs : List Value) (hw : Kept channel w) :
    Dutiful supply channel (drain channel outputs) w := by
  induction outputs generalizing w with
  | nil => exact Act.Sat.pure hw
  | cons value outputs ih =>
    have hcollect : ∀ t, Kept channel t → Dutiful supply channel (collect channel value) t := fun t ht =>
      Act.Sat.mono (Act.Sat.weaken (disciplined_collect ht) fun _ _ _ hduly => ⟨_, hduly⟩) (fun _ _ h => h.1)
        fun _ _ h => h.1
    refine .bind (dutiful_ask .serving hw fun _ => trivial) fun running t ht => ?_
    split
    · exact Act.Sat.pure ht
    · exact .bind (.attempt (hcollect t ht)) fun _ t ht => ih ht

theorem dutiful_finish (outputs : List Value) (hw : Kept channel w) :
    Dutiful supply channel (finish channel outputs) w := by
  have hterminate : Orderly supply channel .serving (terminate channel false) w := orderly_terminate hw false
  refine .bind (.attempt hterminate.dutiful) fun _ t ht => ?_
  refine .bind (dutiful_drain outputs ht) fun _ t ht => ?_
  refine .bind (dutiful_ask .closing ht fun _ => ⟨rfl, rfl⟩) fun _ t ht => ?_
  exact dutiful_ask .closing ht fun _ => ⟨rfl, rfl⟩

theorem dutiful_turn (event : Event) (outputs : List Value) (hw : Kept who.channel w)
    (hx : ∀ r, event.request = some r → Ordinary r.operation) :
    Dutiful supply who.channel (turn c who runtime event outputs) w := by
  unfold turn
  refine .bind (.attempt (dutiful_handle event hw hx)) fun result t ht => ?_
  split
  · exact Act.Sat.pure ht
  · exact .bind (dutiful_finish outputs ht) fun _ _ ht => Act.Sat.pure ht

theorem dutiful_serve (events : List (Event × List Value)) (hw : Kept who.channel w)
    (hx : ∀ r ∈ executed events, Ordinary r.operation) :
    Dutiful supply who.channel (serve c who runtime events) w := by
  induction events generalizing w with
  | nil => exact Act.Sat.pure hw
  | cons event events ih =>
    obtain ⟨event, outputs⟩ := event
    have hevent : ∀ r, event.request = some r → Ordinary r.operation :=
      fun r hr => hx r (List.mem_filterMap.mpr ⟨_, List.mem_cons_self, hr⟩)
    have hrest : ∀ r ∈ executed events, Ordinary r.operation := by
      intro r hr
      obtain ⟨e, he, hreq⟩ := List.mem_filterMap.mp hr
      exact hx r (List.mem_filterMap.mpr ⟨e, List.mem_cons_of_mem _ he, hreq⟩)
    unfold serve
    refine .bind (dutiful_turn event outputs hw hevent) fun goesOn t ht => ?_
    split
    · exact ih ht hrest
    · exact Act.Sat.pure ht

/-- The message is that of a request that came with the approval. -/
def spends (requests : List Request) (id : String) (e : Sent) : Bool :=
  ((e.operation.bind fun x => requests.find? fun r => r.operation = x).bind Request.approval).any fun grant =>
    grant.id = id

theorem operation_of_spends {id : String} (hv : Vouched c channel runtime requests e w)
    (h : spends requests id e = true) : e.operation = some id := by
  unfold Vouched at hv
  split at hv
  · next x hx =>
    obtain ⟨r, hfirst, -, hallowed, -⟩ := hv
    simp only [spends, hx, Option.bind_some, hfirst, Option.any_eq_true, decide_eq_true_eq] at h
    obtain ⟨grant, hgrant, rfl⟩ := h
    have hoperation : r.operation = x := by simpa using List.find?_some hfirst
    rw [hx, ← hoperation, (hallowed.approves grant hgrant).operation]
  · next hnone => simp [spends, hnone] at h

/-- Messages that are vouched for spend an approval once, if no request is handed over twice. -/
theorem spent_once (hkept : Kept channel w) (hv : Vouches c channel runtime requests w) (id : String) :
    (w.sent.filter (spends requests id)).length ≤ 1 := by
  have hspent : ∀ e ∈ w.sent.filter (spends requests id), e.operation = some id := by
    intro e he
    obtain ⟨he, hspends⟩ := List.mem_filter.mp he
    exact operation_of_spends (hv e he) hspends
  have hsame : (w.sent.filter (spends requests id)).filterMap Sent.operation =
      List.replicate (w.sent.filter (spends requests id)).length id := by
    rw [List.filterMap_congr hspent]
    exact (congrFun List.filterMap_eq_map _).trans (List.map_const' ..)
  have hnodup : ((w.sent.filter (spends requests id)).filterMap Sent.operation).Nodup :=
    hkept.requests.sublist (List.filter_sublist.filterMap _)
  rw [hsame] at hnodup
  exact List.nodup_replicate.mp hnodup

/-- Wherever the service stops, no request was handed over twice, and no
approval was used for more than one command. -/
theorem sent_once {events : List (Event × List Value)} (hopened : Opened who.channel w)
    (hx : ∀ r ∈ executed events, parseUuid r.operation = true)
    (h : Prog.Stops (guarded supply who.channel) (serve c who runtime events).run w t) :
    t.requests.Nodup ∧ ∀ id, (t.sent.filter (spends (executed events) id)).length ≤ 1 := by
  have hrunning : Running supply who.channel { world := w } := running_opened hopened
  have hkept : Kept who.channel w := hrunning.kept
  have hkept' : Kept who.channel t := by
    have hstops := Prog.Stops.rely_mono (M := among supply who.channel) h fun _ _ hg => Guarded.toOthers hg
    exact Prog.Sat.stops_whole (I := Kept who.channel)
      (dutiful_serve events hkept fun r hr => ordinary_of_parseUuid (hx r hr)) hstops
      (fun _ _ _ ht => ht) hkept (fun _ _ ho hk => hk.others ho) fun _ _ hduly hk =>
        hduly.elim fun _ hduly => hk.exec hduly
  exact ⟨hkept'.requests, spent_once hkept' (vouches_stops hopened h)⟩

/-- Somebody has approved of the command. -/
def approvedBuild : Request where
  operation := firstBuild.operation
  message := .object [("id", .int 1), ("method", .string "process/start"),
    ("params", .object [("argv", .array [.string "make"]), ("cwd", .string "/"),
      ("env", .object [("CODEX_THREAD_ID", .string "thread")]), ("processId", .string "build")])]
  approval := some ⟨firstBuild.operation, newcomer.channel, "thread", "turn", "item", ["make"], "/"⟩

theorem sent_once_approved : (afterTwice approvedBuild).requests.Nodup ∧
    ∀ id, ((afterTwice approvedBuild).sent.filter (spends (executed (twice approvedBuild)) id)).length ≤ 1 :=
  sent_once opened_opened (by decide) (stops_twice approvedBuild)

end

end RemoteCodex.Execution
