import RemoteCodex.Execution.Alike

/-!
# Refusals

A request that is refused should concern nobody else. Some refusals are
answered with an error; the others end the actor's loop.
-/

namespace RemoteCodex.Execution

open Interact Protocol Server

section

variable (c : Crates) (who : Identity) (runtime : Runtime)

/-- `r` is new and there is room for it. -/
structure Entered (w : World) (r : Request) : Prop where
  fresh : w.store.operations.lookup (who.channel, r.operation) = none
  room : w.pending.entries.length < PENDING

def permitted (r : Request) : Except Fault Unit :=
  permission c runtime who.channel r.operation r.approval r.permissions r.message

/-- The refusals that are answered: the request is not authorised, or asks for
what the environment does not allow. -/
structure Denied (w : World) (r : Request) : Prop extends Entered who w r where
  denied : ∃ error, permitted c who runtime r = .error error

structure Permitted (w : World) (r : Request) : Prop extends Entered who w r where
  permitted : permitted c who runtime r = .ok ()

/-- What is recorded of earlier grants stands in the way of `r`, or what a process needs is missing. -/
inductive Hindered (w : World) (r : Request) : Prop
  | approvalReused (grant : CommandApproval) : r.approval = some grant →
      (w.store.approvals.lookup grant.id).isSome = true → Hindered w r
  | otherContext (grant old : SessionPermissions) : r.permissions = some grant →
      w.store.sessionPermissions.lookup grant.id = some old →
      ¬ (old.channel = grant.channel ∧ old.thread = grant.thread) → Hindered w r
  | noProcess : starts r.message = true → ((r.message.index "params").index "processId").asStr = none → Hindered w r

/-- The refusals that are not answered. -/
inductive Fatal (w : World) (r : Request) : Prop
  | conflict (op : Operation) : w.store.operations.lookup (who.channel, r.operation) = some op →
      op.digest ≠ r.digest c → Fatal w r
  | busy : w.store.operations.lookup (who.channel, r.operation) = none →
      PENDING ≤ w.pending.entries.length → Fatal w r
  | hindered : Permitted c who runtime w r → Hindered w r → Fatal w r

/-- `dispatch` refuses `r` before anything is forwarded. -/
def Refused (w : World) (r : Request) : Prop := Fatal c who runtime w r ∨ Denied c who runtime w r

variable {c who runtime} {supply : Nat → String} {w : World} {r : Request}

theorem eval_ask {f : Ans op → M α} :
    Act.eval (alone supply) (ask op >>= f) w =
      Act.eval (alone supply) (f (exec supply op w).1) (exec supply op w).2 := by
  rw [Act.eval_bind]
  rfl

theorem eval_ok {a : α} {f : α → M β} {r : Except Fault α} (h : r = .ok a) :
    Act.eval (alone supply) (ofExcept r >>= f) w = Act.eval (alone supply) (f a) w := by
  rw [h, Act.eval_bind]
  rfl

theorem eval_error {e : Fault} {f : α → M β} {r : Except Fault α} (h : r = .error e) :
    Act.eval (alone supply) (ofExcept r >>= f) w = (.error e, w) := by
  rw [h, Act.eval_bind]
  rfl

theorem operationState_none {s : Store} {key : String × String} (h : s.operations.lookup key = none)
    (digest : String) : s.operationState key digest = .ok none := by
  rw [Store.operationState, h]

theorem eval_conflict (supply : Nat → String) (runtime : Runtime) {op : Operation}
    (hrow : w.store.operations.lookup (who.channel, r.operation) = some op)
    (hd : op.digest ≠ r.digest c) :
    ∃ e, Act.eval (alone supply) (dispatch c who runtime r) w = (.error e, w) := by
  have hstate : w.store.operationState (who.channel, r.operation) (r.digest c) =
      .error (Transfer.fault "REQUEST_CONFLICT" "request identity reused with different arguments") := by
    simp only [Store.operationState, hrow, hd, ne_eq, not_false_eq_true, if_true]
  exact ⟨_, eval_ask.trans (eval_error hstate)⟩

theorem eval_busy (supply : Nat → String) (c : Crates) (runtime : Runtime)
    (hrow : w.store.operations.lookup (who.channel, r.operation) = none)
    (hfull : PENDING ≤ w.pending.entries.length) :
    ∃ e, Act.eval (alone supply) (dispatch c who runtime r) w = (.error e, w) := by
  have hroom : decide (w.pending.entries.length < PENDING) = false := by simpa using hfull
  have hensure : Act.eval (alone supply) (ensure (decide (w.pending.entries.length < PENDING)) busy : M Unit) w =
      (.error busy, w) := by
    rw [Act.eval_ensure, hroom]
    rfl
  exact ⟨_, eval_ask.trans ((eval_ok (operationState_none hrow _)).trans
    (eval_ask.trans (Act.eval_bind_error hensure)))⟩

/-- The row of the request is there before it is decided. -/
def begun (c : Crates) (who : Identity) (r : Request) (w : World) : World :=
  { w with store := { w.store with
      operations := w.store.operations.insert (who.channel, r.operation)
        { digest := r.digest c } } }

theorem eval_entered (h : Entered who w r) :
    Act.eval (alone supply) (dispatch c who runtime r) w =
      Act.eval (alone supply)
        (match permitted c who runtime r with
          | .error error => refuse who.channel r.operation (refusal (r.message.get "id") error)
          | .ok () => proceed c who runtime r) (begun c who r w) := by
  have hroom : decide (w.pending.entries.length < PENDING) = true := by simpa using h.room
  have hensure : Act.eval (alone supply) (ensure (decide (w.pending.entries.length < PENDING)) busy : M Unit) w =
      (.ok (), w) := by
    rw [Act.eval_ensure, hroom]
    rfl
  have hbegin : exec supply (.beginOperation (who.channel, r.operation)
      (r.digest c)) w = (.ok none, begun c who r w) := by
    simp only [exec, Store.beginOperation, h.fresh]
    rfl
  refine eval_ask.trans ((eval_ok (operationState_none h.fresh _)).trans (eval_ask.trans
    ((Act.eval_bind_ok hensure).trans (eval_ask.trans ?_))))
  rw [hbegin]
  exact eval_ok rfl

-- ---------------------------------------------------------------------------
-- Refusals that are answered
-- ---------------------------------------------------------------------------

/-- Appending an event of `x` is nothing to the others. -/
theorem eval_append_own (supply : Nat → String) {channel x : String} {row : Channel}
    (hrow : w.store.channels.lookup channel = some row) (value : Value) {origin : Origin}
    (horigin : origin.about = some x) :
    ∃ n t, Act.eval (alone supply) (append channel value origin) w = (.ok n, t) ∧ Alike channel x w t ∧
      t.log = w.log ++ [⟨n, origin, value⟩] ∧ ∃ row', t.store.channels.lookup channel = some row' := by
  rw [eval_append, World.append]
  obtain ⟨hnone, -⟩ | ⟨row', bytes, floor, rows, hrow', -, heq⟩ := Store.appendEvent_cases w.store channel value
  · rw [hrow] at hnone
    cases hnone
  · rw [heq]
    refine ⟨_, _, rfl, ?_, rfl, _, AList.lookup_insert _⟩
    exact
      { (Alike.refl channel x w) with
        channels := fun id => by
          rw [Table.lookup_insert_if]
          split
          · next h => rw [h, hrow']; rfl
          · rfl
        others := by simp [World.others, horigin] }

/-- Nor is a change of the row of `x`. -/
theorem updateOperation_own (w : World) (channel x : String) (f : Operation → Operation) :
    Alike channel x w { w with store := w.store.updateOperation (channel, x) f } ∧
      (w.store.updateOperation (channel, x) f).channels = w.store.channels := by
  unfold Store.updateOperation
  split
  · exact ⟨Alike.setOwn _ _, rfl⟩
  · exact ⟨Alike.refl _ _ _, rfl⟩

theorem eval_refuse (supply : Nat → String) {channel x : String} {row : Channel}
    (hrow : w.store.channels.lookup channel = some row) (response : Value) :
    ∃ n m t, Act.eval (alone supply) (refuse channel x response) w = (.ok (), t) ∧ Alike channel x w t ∧
      t.log = w.log ++ [⟨n, .answer x, response⟩, ⟨m, .receipt x, accepted x⟩] := by
  obtain ⟨hcomplete, hchannels⟩ := updateOperation_own w channel x fun op => { op with result := some response }
  have hrow₁ : (w.store.completeOperation (channel, x) response).channels.lookup channel = some row :=
    (congrArg _ hchannels).trans hrow
  obtain ⟨n, t, heval, halike, hlog, row', hrow'⟩ := eval_append_own supply
    (w := { w with store := w.store.completeOperation (channel, x) response }) hrow₁ response
    (show (Origin.answer x).about = some x from rfl)
  obtain ⟨m, t', heval', halike', hlog', -⟩ := eval_append_own supply hrow' (accepted x)
    (show (Origin.receipt x).about = some x from rfl)
  refine ⟨n, m, t', eval_ask.trans ((Act.eval_bind_ok heval).trans ((Act.eval_bind_ok heval').trans rfl)),
    hcomplete.trans (halike.trans halike'), ?_⟩
  rw [hlog', hlog, List.append_assoc]
  rfl

theorem eval_denied (supply : Nat → String) {row : Channel} (hrow : w.store.channels.lookup who.channel = some row)
    (h : Denied c who runtime w r) :
    ∃ error n m t, permitted c who runtime r = .error error ∧
      Act.eval (alone supply) (dispatch c who runtime r) w = (.ok (), t) ∧ Alike who.channel r.operation w t ∧
      t.log = w.log ++ [⟨n, .answer r.operation, refusal (r.message.get "id") error⟩,
        ⟨m, .receipt r.operation, accepted r.operation⟩] := by
  obtain ⟨error, hdenied⟩ := h.denied
  obtain ⟨n, m, t, heval, halike, hlog⟩ := eval_refuse supply (w := begun c who r w) hrow
    (x := r.operation) (refusal (r.message.get "id") error)
  refine ⟨error, n, m, t, hdenied, ?_, (Alike.setOwn _ _).trans halike, hlog⟩
  rw [eval_entered h.toEntered, hdenied]
  exact heval

-- ---------------------------------------------------------------------------
-- Refusals that end the loop
-- ---------------------------------------------------------------------------

theorem eval_recordApproval (supply : Nat → String) (w : World) (approval : Option CommandApproval) :
    (∃ approvals, Act.eval (alone supply) (recordApproval approval) w =
          (.ok (), { w with store := { w.store with approvals } }) ∧
        ∀ grant, approval = some grant → w.store.approvals.lookup grant.id = none) ∨
      ∃ e grant, Act.eval (alone supply) (recordApproval approval) w = (.error e, w) ∧ approval = some grant ∧
        (w.store.approvals.lookup grant.id).isSome = true := by
  cases approval with
  | none => exact .inl ⟨_, rfl, nofun⟩
  | some grant =>
    have heval : Act.eval (alone supply) (recordApproval (some grant)) w =
        w.change (w.store.recordApproval grant) := eval_ask.trans (Act.eval_ofExcept _)
    rw [heval, Store.recordApproval]
    cases hold : w.store.approvals.lookup grant.id with
    | none => exact .inl ⟨_, rfl, fun g hg => Option.some.inj hg ▸ hold⟩
    | some old => exact .inr ⟨_, grant, rfl, rfl, by rw [hold]; rfl⟩

theorem eval_recordPermissions (supply : Nat → String) (w : World) (permissions : Option SessionPermissions) :
    (∃ sessionPermissions, Act.eval (alone supply) (recordPermissions permissions) w =
          (.ok (), { w with store := { w.store with sessionPermissions } }) ∧
        ∀ grant old, permissions = some grant → w.store.sessionPermissions.lookup grant.id = some old →
          old.channel = grant.channel ∧ old.thread = grant.thread) ∨
      ∃ e grant old, Act.eval (alone supply) (recordPermissions permissions) w = (.error e, w) ∧
        permissions = some grant ∧ w.store.sessionPermissions.lookup grant.id = some old ∧
        ¬ (old.channel = grant.channel ∧ old.thread = grant.thread) := by
  cases permissions with
  | none => exact .inl ⟨_, rfl, nofun⟩
  | some grant =>
    have heval : Act.eval (alone supply) (recordPermissions (some grant)) w =
        w.change (w.store.recordPermissions grant) := eval_ask.trans (Act.eval_ofExcept _)
    rw [heval, Store.recordPermissions]
    cases hold : w.store.sessionPermissions.lookup grant.id with
    | none =>
      refine .inl ⟨_, rfl, ?_⟩
      intro g old hg hlookup
      obtain rfl := Option.some.inj hg
      rw [hold] at hlookup
      cases hlookup
    | some old =>
      by_cases hsame : old.channel = grant.channel ∧ old.thread = grant.thread
      · refine .inl ⟨w.store.sessionPermissions, by simp only [hsame, and_self, if_true, World.change], ?_⟩
        intro g old' hg hlookup
        obtain rfl := Option.some.inj hg
        rw [hold] at hlookup
        obtain rfl := Option.some.inj hlookup
        exact hsame
      · refine .inr ⟨Transfer.fault "APPROVAL_MISMATCH" "session permission identity reused in another context",
          grant, old, ?_, rfl, hold, hsame⟩
        dsimp only
        rw [if_neg hsame]
        rfl

/-- Either a grant stands in the way, or both are recorded. -/
theorem eval_proceed (c : Crates) (who : Identity) (runtime : Runtime) (supply : Nat → String) (w : World)
    (r : Request) :
    (Hindered w r ∧ ∃ e t, Act.eval (alone supply) (proceed c who runtime r) w = (.error e, t) ∧ t.sent = w.sent) ∨
      ((Hindered w r → starts r.message = true ∧ ((r.message.index "params").index "processId").asStr = none) ∧
        ∃ approvals sessionPermissions, Act.eval (alone supply) (proceed c who runtime r) w =
          Act.eval (alone supply) (handOver c who runtime r)
            { w with store := { w.store with approvals, sessionPermissions } }) := by
  obtain ⟨approvals, heval, happroval⟩ | ⟨e, grant, heval, hgrant, hused⟩ :=
    eval_recordApproval supply w r.approval
  · obtain ⟨permissions, heval', hcontext⟩ | ⟨e, grant, old, heval', hgrant, hold, hother⟩ :=
      eval_recordPermissions supply { w with store := { w.store with approvals } } r.permissions
    · refine .inr ⟨?_, approvals, permissions, (Act.eval_bind_ok heval).trans (Act.eval_bind_ok heval')⟩
      rintro (⟨grant, hgrant, hused⟩ | ⟨grant, old, hgrant, hold, hother⟩ | ⟨hstart, hnone⟩)
      · rw [happroval grant hgrant] at hused
        cases hused
      · exact absurd (hcontext grant old hgrant hold) hother
      · exact ⟨hstart, hnone⟩
    · exact .inl ⟨.otherContext grant old hgrant hold hother, e, _,
        (Act.eval_bind_ok heval).trans (Act.eval_bind_error heval'), rfl⟩
  · exact .inl ⟨.approvalReused grant hgrant hused, e, w, Act.eval_bind_error heval, rfl⟩

theorem method_of_starts {message : Value} (h : starts message = true) : (message.get "method").isNone = false := by
  have hm : (message.index "method").asStr = some "process/start" := of_decide_eq_true h
  unfold Value.index at hm
  cases hget : message.get "method" with
  | none =>
    rw [hget] at hm
    cases hm
  | some v => rfl

theorem eval_noProcess (c : Crates) (who : Identity) (runtime : Runtime) (hstart : starts r.message = true)
    (hnone : ((r.message.index "params").index "processId").asStr = none) :
    ∃ e, Act.eval (alone supply) (handOver c who runtime r) w = (.error e, w) := by
  refine ⟨Transfer.fault "INVALID_EXECUTION" "process ID missing", ?_⟩
  rw [handOver, method_of_starts hstart, if_neg (by decide), if_pos hstart]
  apply Act.eval_bind_error
  apply Act.eval_bind_error
  rw [Act.eval_ensure, hnone]
  rfl

theorem eval_permitted (h : Permitted c who runtime w r) :
    Act.eval (alone supply) (dispatch c who runtime r) w =
      Act.eval (alone supply) (proceed c who runtime r) (begun c who r w) := by
  rw [eval_entered h.toEntered, h.permitted]

/-- Such a refusal is an error, and nothing is sent. -/
theorem eval_fatal (supply : Nat → String) (h : Fatal c who runtime w r) :
    ∃ e t, Act.eval (alone supply) (dispatch c who runtime r) w = (.error e, t) ∧ t.sent = w.sent := by
  cases h with
  | conflict op hrow hd =>
    obtain ⟨e, heval⟩ := eval_conflict supply runtime hrow hd
    exact ⟨e, w, heval, rfl⟩
  | busy hrow hfull =>
    obtain ⟨e, heval⟩ := eval_busy supply c runtime hrow hfull
    exact ⟨e, w, heval, rfl⟩
  | hindered hp hh =>
    rw [eval_permitted hp]
    have hh' : Hindered (begun c who r w) r := by
      cases hh with
      | approvalReused grant hgrant hused => exact .approvalReused grant hgrant hused
      | otherContext grant old hgrant hold hother => exact .otherContext grant old hgrant hold hother
      | noProcess hstart hnone => exact .noProcess hstart hnone
    obtain ⟨-, hfail⟩ | ⟨hprocess, approvals, permissions, heval⟩ :=
      eval_proceed c who runtime supply (begun c who r w) r
    · exact hfail
    · obtain ⟨hstart, hnone⟩ := hprocess hh'
      obtain ⟨e, hfail⟩ := eval_noProcess c who runtime hstart hnone
      exact ⟨e, _, heval.trans hfail, rfl⟩

-- ---------------------------------------------------------------------------
-- Every other new request goes to the executor
-- ---------------------------------------------------------------------------

theorem eval_send (entry : Sent) : Act.eval (alone supply) (send entry) w = w.send entry :=
  eval_ask.trans (Act.eval_ofExcept _)

theorem sent_receipt (channel operation : String) :
    (Act.eval (alone supply) (receipt channel operation) w).2.sent = w.sent := by
  have happend : (w.append channel (accepted operation) (.receipt operation)).2.sent = w.sent := by
    unfold World.append
    split <;> rfl
  rw [receipt, Act.eval_bind, eval_append]
  generalize w.append channel (accepted operation) (.receipt operation) = p at happend
  obtain ⟨e | n, t⟩ := p <;> exact happend

/-- What follows the sending of a message sends nothing. -/
theorem sent_after {p : M α} {f : α → M β} (hf : ∀ a t, (Act.eval (alone supply) (f a) t).2.sent = t.sent) :
    (Act.eval (alone supply) (p >>= f) w).2.sent = (Act.eval (alone supply) p w).2.sent := by
  rw [Act.eval_bind]
  rcases Act.eval (alone supply) p w with ⟨e | a, t⟩
  · rfl
  · exact hf a t

/-- What `p` gives the executor is one message, of `operation`, if it takes it. -/
def HandsOver (supply : Nat → String) (p : M Unit) (operation : String) (w : World) : Prop :=
  ∃ (entry : Sent) (t : World), entry.operation = some operation ∧ t.sent = w.sent ∧
    (Act.eval (alone supply) p w).2.sent = (t.send entry).2.sent

theorem handsOver_forward (channel operation : String) (message : Value) (job : Option String) :
    HandsOver supply (forward channel operation message job) operation w := by
  have hdeliver : HandsOver supply (deliver channel operation message job) operation w := by
    unfold deliver
    split
    · next original _ =>
      refine ⟨⟨some operation, job, message.set "id" (.string operation)⟩,
        (exec supply (.insertPending operation ⟨original, job⟩) w).2, rfl, rfl, ?_⟩
      exact congrArg (fun x : Except Fault Unit × World => x.2.sent) (eval_ask.trans (eval_send _))
    · refine ⟨⟨some operation, job, message⟩, w, rfl, rfl, ?_⟩
      rw [sent_after fun _ _ => rfl, eval_send]
  obtain ⟨entry, t, hop, hsent, hgiven⟩ := hdeliver
  refine ⟨entry, t, hop, hsent, ?_⟩
  rw [forward, sent_after fun _ _ => sent_receipt _ _, hgiven]

theorem HandsOver.of_eval {p q : M Unit} {operation : String} {t : World} (h : HandsOver supply q operation t)
    (hsent : t.sent = w.sent) (heval : Act.eval (alone supply) p w = Act.eval (alone supply) q t) :
    HandsOver supply p operation w := by
  obtain ⟨entry, t', hop, hsent', hgiven⟩ := h
  exact ⟨entry, t', hop, hsent'.trans hsent, by rw [heval, hgiven]⟩

theorem eval_recordJob (c : Crates) (who : Identity) (runtime : Runtime) {params : Value}
    (hprocess : (params.index "processId").asStr.isSome = true)
    (hid : ∀ job ∈ w.store.jobs, job.id ≠ supply w.drawn) :
    ∃ t, Act.eval (alone supply) (recordJob c who runtime params) w = (.ok (supply w.drawn), t) ∧ t.sent = w.sent := by
  obtain ⟨process, hname⟩ := Option.isSome_iff_exists.mp hprocess
  have hfresh : (w.store.jobs.any fun job => job.id = supply w.drawn) = false := by
    rw [List.any_eq_false]
    intro job hjob heq
    exact hid job hjob (of_decide_eq_true heq)
  have hensure : Act.eval (alone supply) (ensure (params.index "processId").asStr.isSome
      (Transfer.fault "INVALID_EXECUTION" "process ID missing") : M Unit) w = (.ok (), w) := by
    rw [Act.eval_ensure, hprocess]
    rfl
  have hrecord : ∀ kind, ∃ s, w.store.recordJob who.profile who.channel params kind (supply w.drawn) = .ok s := by
    intro kind
    unfold Store.recordJob
    rw [hname]
    dsimp only
    rw [hfresh]
    exact ⟨_, rfl⟩
  obtain ⟨s, hs⟩ := hrecord (if authorizedMcp c runtime params then "mcp" else "command")
  refine ⟨{ w with store := s, drawn := w.drawn + 1 },
    (Act.eval_bind_ok hensure).trans (eval_ask.trans (eval_ask.trans ?_)), rfl⟩
  simp only [exec, hs, World.change]
  exact eval_ok rfl

theorem handsOver_handOver (c : Crates) (who : Identity) (runtime : Runtime)
    (hprocess : starts r.message = true → ((r.message.index "params").index "processId").asStr.isSome = true)
    (hid : ∀ job ∈ w.store.jobs, job.id ≠ supply w.drawn) :
    HandsOver supply (handOver c who runtime r) r.operation w := by
  unfold handOver
  split
  · refine ⟨⟨some r.operation, none, r.message⟩, w, rfl, rfl, ?_⟩
    rw [respond, sent_after fun _ t => ?_, eval_send]
    exact (congrArg (fun x : Except Fault Unit × World => x.2.sent) eval_ask).trans (sent_receipt _ _)
  · split
    · next hstart =>
      obtain ⟨t, heval, hsent⟩ := eval_recordJob c who runtime (hprocess hstart) hid
      exact .of_eval (handsOver_forward ..) hsent (Act.eval_bind_ok heval)
    · exact handsOver_forward ..

/-- A new request that is not refused is handed to the executor. -/
theorem handsOver_dispatch (hfresh : w.store.operations.lookup (who.channel, r.operation) = none)
    (hn : ¬ Refused c who runtime w r) (hid : ∀ job ∈ w.store.jobs, job.id ≠ supply w.drawn) :
    HandsOver supply (dispatch c who runtime r) r.operation w := by
  have hentered : Entered who w r := by
    refine ⟨hfresh, Nat.lt_of_not_le fun hfull => hn (.inl (.busy hfresh hfull))⟩
  have hpermitted : Permitted c who runtime w r := by
    refine ⟨hentered, ?_⟩
    cases hp : permitted c who runtime r with
    | ok => rfl
    | error e => exact absurd (.inr ⟨hentered, e, hp⟩) hn
  have hfree : ¬ Hindered (begun c who r w) r := by
    intro hh
    apply hn
    refine .inl (.hindered hpermitted ?_)
    cases hh with
    | approvalReused grant hgrant hused => exact .approvalReused grant hgrant hused
    | otherContext grant old hgrant hold hother => exact .otherContext grant old hgrant hold hother
    | noProcess hstart hnone => exact .noProcess hstart hnone
  obtain ⟨hh, -⟩ | ⟨-, approvals, permissions, hproceed⟩ := eval_proceed c who runtime supply (begun c who r w) r
  · exact absurd hh hfree
  refine .of_eval ?_ ?_ ((eval_permitted hpermitted).trans hproceed)
  rotate_left
  · rfl
  refine handsOver_handOver c who runtime ?_ hid
  intro hstart
  cases hp : ((r.message.index "params").index "processId").asStr with
  | none => exact absurd (.noProcess hstart hp) hfree
  | some process => rfl

-- ---------------------------------------------------------------------------
-- Isolation
-- ---------------------------------------------------------------------------

/-- The state after the turn that takes `r`. -/
def after (c : Crates) (who : Identity) (runtime : Runtime) (supply : Nat → String) (w : World) (r : Request)
    (outputs : List Value) : World :=
  (Act.eval (alone supply) (turn c who runtime (.execute r) outputs) w).2

/-- `value` answers the request that is pending under `operation`. -/
structure Answers (w : World) (operation : String) (pending : Pending) (value : Value) : Prop where
  waiting : w.pending.lookup operation = some pending
  response : value.get "method" = none
  name : (value.index "id").asStr = some operation

/-- Taking `r` concerns nobody else: the loop goes on, all is as before but for
`r` itself, every pending request can still be answered, and whatever the
actor takes from then on comes to what it would come to without `r`. -/
structure Isolated (c : Crates) (who : Identity) (runtime : Runtime) (supply : Nat → String) (w : World)
    (r : Request) : Prop where
  goesOn : ∀ outputs, (Act.eval (alone supply) (turn c who runtime (.execute r) outputs) w).1 = .ok true
  alike : ∀ outputs, Alike who.channel r.operation w (after c who runtime supply w r outputs)
  completes : ∀ outputs operation pending value later, Answers w operation pending value →
    ∃ n t, Act.eval (alone supply) (turn c who runtime (.output value) later)
        (after c who runtime supply w r outputs) = (.ok true, t) ∧
      ⟨n, .answer operation, value.set "id" pending.original⟩ ∈ t.log
  later : ∀ outputs events, (∀ e ∈ events, e.1.apart r.operation) →
    Act.Pair (alone supply) (serve c who runtime events) (serve c who runtime events) w
      (after c who runtime supply w r outputs) (fun a b t t' => b = a ∧ Alike who.channel r.operation t t')
      fun e e' t t' => e' = e ∧ Alike who.channel r.operation t t'

theorem eval_turn_ok {e : Event} {t : World} (outputs : List Value)
    (h : Act.eval (alone supply) (handle c who runtime e) w = (.ok true, t)) :
    Act.eval (alone supply) (turn c who runtime e outputs) w = (.ok true, t) := by
  have hattempt : Act.eval (alone supply) (attempt (handle c who runtime e)) w = (.ok (.ok true), t) := by
    rw [Act.eval_attempt, h]
  exact Act.eval_bind_ok hattempt

theorem eval_finish (supply : Nat → String) (channel : String) (outputs : List Value) (w : World) :
    ∃ t, Act.eval (alone supply) (finish channel outputs) w = (.ok (), t) := by
  have hdrain : ∀ outputs w, ∃ t, Act.eval (alone supply) (drain channel outputs) w = (.ok (), t) := by
    intro outputs
    induction outputs with
    | nil => exact fun w => ⟨w, rfl⟩
    | cons value outputs ih =>
      intro w
      by_cases hempty : (w.store.runningProcesses channel false).isEmpty = true
      · exact ⟨w, eval_ask.trans (by rw [exec, if_pos hempty]; rfl)⟩
      · obtain ⟨t, ht⟩ := ih (Act.eval (alone supply) (collect channel value) w).2
        exact ⟨t, eval_ask.trans (by rw [exec, if_neg hempty]; exact (Act.eval_bind_ok (Act.eval_attempt _)).trans ht)⟩
  obtain ⟨t, ht⟩ := hdrain outputs (Act.eval (alone supply) (terminate channel false) w).2
  exact ⟨_, (Act.eval_bind_ok (Act.eval_attempt _)).trans ((Act.eval_bind_ok ht).trans (eval_ask.trans rfl))⟩

theorem eval_turn_error {e : Event} {fault : Fault} {t : World} (outputs : List Value)
    (h : Act.eval (alone supply) (handle c who runtime e) w = (.error fault, t)) :
    (Act.eval (alone supply) (turn c who runtime e outputs) w).1 = .ok false := by
  have hattempt : Act.eval (alone supply) (attempt (handle c who runtime e)) w = (.ok (.error fault), t) := by
    rw [Act.eval_attempt, h]
  obtain ⟨t', hfinish⟩ := eval_finish supply who.channel outputs t
  have hturn : Act.eval (alone supply) (turn c who runtime e outputs) w = (.ok false, t') :=
    (Act.eval_bind_ok hattempt).trans ((Act.eval_bind_ok hfinish).trans rfl)
  rw [hturn]

theorem eval_answered (supply : Nat → String) {channel x : String} {row : Channel}
    (hrow : w.store.channels.lookup channel = some row)
    (pending : Pending) (value : Value) :
    ∃ n t, Act.eval (alone supply) (answered channel x pending value) w = (.ok (), t) ∧
      ⟨n, .answer x, value.set "id" pending.original⟩ ∈ t.log := by
  have hstarted : ∃ t, Act.eval (alone supply) (started pending.job (value.set "id" pending.original)) w = (.ok (), t) ∧
      t.store.channels.lookup channel = some row := by
    unfold started
    split
    · exact ⟨w, rfl, hrow⟩
    · exact ⟨_, rfl, hrow⟩
  obtain ⟨t, hstart, hrow₁⟩ := hstarted
  have hrow₂ : (t.store.completeOperation (channel, x) (value.set "id" pending.original)).channels.lookup channel =
      some row := (congrArg _ (updateOperation_own t channel x _).2).trans hrow₁
  obtain ⟨n, t', happend, -, hlog, -⟩ := eval_append_own supply
    (w := { t with store := t.store.completeOperation (channel, x) (value.set "id" pending.original) }) hrow₂
    (value.set "id" pending.original) (show (Origin.answer x).about = some x from rfl)
  refine ⟨n, { t' with store := t'.store.linkOperation (channel, x) n },
    (Act.eval_bind_ok hstart).trans (eval_ask.trans ((Act.eval_bind_ok happend).trans rfl)), ?_⟩
  simp [hlog]

end

-- ---------------------------------------------------------------------------
-- One refusal of each kind
-- ---------------------------------------------------------------------------

/-- A running channel with one process, and no request pending. -/
def building : World where
  store :=
    { channels := AList.insert "channel" { profile := "default", revision := 1 } ∅
      jobs := [{ id := "job", processId := "build", kind := "command", profile := "default", channel := "channel",
                 thread := none, cwd := "", state := .running }] }

def builder : Identity := ⟨"channel", "default"⟩

def unrestricted : Runtime := { unrestricted := true }

def modelRequest : Request :=
  { operation := "first", message := .object [("id", .int 1), ("method", .string "model/run")] }

/-- `process/start` without a process id. -/
def nameless : Request :=
  { operation := "first", message := .object [("id", .int 1), ("method", .string "process/start")] }

theorem refused_modelRequest : ¬ Fatal plain builder unrestricted building modelRequest ∧
    Denied plain builder unrestricted building modelRequest := by
  have hdenied : permitted plain builder unrestricted modelRequest =
      .error (Transfer.fault "EXECUTION_METHOD_DENIED" "only execution environment methods are permitted") := rfl
  constructor
  · rintro (⟨op, hrow, -⟩ | ⟨-, hfull⟩ | ⟨hp, -⟩)
    · cases hrow
    · exact absurd hfull (by decide)
    · have := hp.permitted
      rw [hdenied] at this
      cases this
  · exact ⟨⟨rfl, by decide⟩, _, hdenied⟩

end RemoteCodex.Execution
