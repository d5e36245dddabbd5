import RemoteCodex.Execution.Actor
import RemoteCodex.Interact.Pair

/-!
# States that differ in one operation

`Alike` compares two states of a channel but for one operation and for what a
cursor is. A program that does not name the operation does the same in both.
-/

namespace RemoteCodex.Execution

open Interact Protocol Server

-- ---------------------------------------------------------------------------
-- States that differ in one operation
-- ---------------------------------------------------------------------------

def Origin.about : Origin → Option String
  | .answer operation => some operation
  | .again operation => some operation
  | .receipt operation => some operation
  | .notice => none

/-- A row of an operation but for the event it is linked to. -/
def unlinked (op : Operation) : Operation := { op with eventCursor := none }

/-- A row of a channel but for the state of its replay buffer. -/
def unbuffered (row : Channel) : Channel := { row with replayBytes := 0, replayFloor := 0 }

/-- The events the actor appended for others. -/
def World.others (w : World) (operation : String) : List (Origin × Value) :=
  (w.log.filter fun e => e.origin.about ≠ some operation).map fun e => (e.origin, e.value)

structure Alike (channel operation : String) (w w' : World) : Prop where
  pending : w'.pending = w.pending
  connected : w'.connected = w.connected
  sent : w'.sent = w.sent
  drawn : w'.drawn = w.drawn
  approvals : w'.store.approvals = w.store.approvals
  permissions : w'.store.sessionPermissions = w.store.sessionPermissions
  jobs : w'.store.jobs = w.store.jobs
  outputSequence : w'.store.outputSequence = w.store.outputSequence
  jobOutput : w'.store.jobOutput = w.store.jobOutput
  channels : ∀ id, (w'.store.channels.lookup id).map unbuffered = (w.store.channels.lookup id).map unbuffered
  operations : ∀ key, key ≠ (channel, operation) →
    (w'.store.operations.lookup key).map unlinked = (w.store.operations.lookup key).map unlinked
  others : w'.others operation = w.others operation

namespace Alike

variable {channel x : String} {w w' w'' : World}

theorem refl (channel x : String) (w : World) : Alike channel x w w := by
  constructor <;> intros <;> rfl

theorem symm (h : Alike channel x w w') : Alike channel x w' w where
  pending := h.pending.symm
  connected := h.connected.symm
  sent := h.sent.symm
  drawn := h.drawn.symm
  approvals := h.approvals.symm
  permissions := h.permissions.symm
  jobs := h.jobs.symm
  outputSequence := h.outputSequence.symm
  jobOutput := h.jobOutput.symm
  channels id := (h.channels id).symm
  operations key hkey := (h.operations key hkey).symm
  others := h.others.symm

theorem trans (h : Alike channel x w w') (h' : Alike channel x w' w'') : Alike channel x w w'' where
  pending := h'.pending.trans h.pending
  connected := h'.connected.trans h.connected
  sent := h'.sent.trans h.sent
  drawn := h'.drawn.trans h.drawn
  approvals := h'.approvals.trans h.approvals
  permissions := h'.permissions.trans h.permissions
  jobs := h'.jobs.trans h.jobs
  outputSequence := h'.outputSequence.trans h.outputSequence
  jobOutput := h'.jobOutput.trans h.jobOutput
  channels id := (h'.channels id).trans (h.channels id)
  operations key hkey := (h'.operations key hkey).trans (h.operations key hkey)
  others := h'.others.trans h.others

end Alike

/-- Two lookups that agree but for the event a row is linked to. -/
theorem unlinked_cases {a b : Option Operation} (h : b.map unlinked = a.map unlinked) :
    (a = none ∧ b = none) ∨ ∃ op op', a = some op ∧ b = some op' ∧ op'.digest = op.digest ∧ op'.result = op.result := by
  rcases a with _ | op <;> rcases b with _ | op'
  · exact .inl ⟨rfl, rfl⟩
  · cases h
  · cases h
  · have heq : unlinked op' = unlinked op := Option.some.inj h
    exact .inr ⟨op, op', rfl, rfl, (Operation.mk.inj heq).1, (Operation.mk.inj heq).2.1⟩

theorem isSome_of_map_eq {f : α → β} {a b : Option α} (h : b.map f = a.map f) : b.isSome = a.isSome := by
  have := congrArg Option.isSome h
  simpa using this

-- ---------------------------------------------------------------------------
-- One operation, in both states
-- ---------------------------------------------------------------------------

/-- An operation of a program that does not name `x`, and whose answer is no cursor. -/
def Apart (channel x : String) : Op → Prop
  | .operationState key _ => key ≠ (channel, x)
  | .beginOperation key _ => key ≠ (channel, x)
  | .appendEvent _ _ _ => False
  | .linkOperation _ _ => False
  | _ => True

section

variable {channel x : String} {w w' : World}

theorem Alike.operationState (h : Alike channel x w w') {key : String × String} (hkey : key ≠ (channel, x))
    (digest : String) : w'.store.operationState key digest = w.store.operationState key digest := by
  unfold Store.operationState
  obtain ⟨ha, hb⟩ | ⟨op, op', ha, hb, hdigest, hresult⟩ := unlinked_cases (h.operations key hkey)
  · rw [ha, hb]
  · simp only [ha, hb, hdigest, hresult]

/-- Both rows of a key are given the same new row, but for its event. -/
theorem Alike.setRow (h : Alike channel x w w') (key : String × String) {op op' : Operation}
    (hop : unlinked op' = unlinked op) :
    Alike channel x
      { w with store := { w.store with operations := w.store.operations.insert key op } }
      { w' with store := { w'.store with operations := w'.store.operations.insert key op' } } where
  __ := h
  operations k hk := by
    have hk' := h.operations k hk
    simp only [Table.lookup_insert_if]
    split
    · simp [hop]
    · exact hk'

/-- The row of `x` itself is not compared. -/
theorem Alike.setOwn (w : World) (op : Operation) :
    Alike channel x w { w with store := { w.store with operations := w.store.operations.insert (channel, x) op } } where
  __ := Alike.refl channel x w
  operations k hk := by rw [Table.lookup_insert_if, if_neg hk]

theorem Alike.updateOperation (h : Alike channel x w w') (key : String × String) (f f' : Operation → Operation)
    (hf : ∀ op op', unlinked op' = unlinked op → unlinked (f' op') = unlinked (f op)) :
    Alike channel x { w with store := w.store.updateOperation key f }
      { w' with store := w'.store.updateOperation key f' } := by
  unfold Store.updateOperation
  have hrows := h.operations key
  rcases ha : w.store.operations.lookup key with _ | op <;>
    rcases hb : w'.store.operations.lookup key with _ | op' <;> simp only [ha, hb] at hrows ⊢
  · exact h
  · obtain rfl : key = (channel, x) := by_contra fun hne => nomatch hrows hne
    exact h.trans (setOwn _ _)
  · obtain rfl : key = (channel, x) := by_contra fun hne => nomatch hrows hne
    exact (setOwn _ _).symm.trans h
  · by_cases hkey : key = (channel, x)
    · subst hkey
      exact (setOwn _ _).symm.trans (h.trans (setOwn _ _))
    · exact h.setRow key (hf _ _ (Option.some.inj (hrows hkey)))

/-- A change of parts of the store that both states share. -/
theorem Alike.change (h : Alike channel x w w') {f : Store → Except Fault Store}
    (hf : (∃ e, f w.store = .error e ∧ f w'.store = .error e) ∨
      ∃ s s', f w.store = .ok s ∧ f w'.store = .ok s' ∧ Alike channel x { w with store := s } { w' with store := s' }) :
    (w'.change (f w'.store)).1 = (w.change (f w.store)).1 ∧
      Alike channel x (w.change (f w.store)).2 (w'.change (f w'.store)).2 := by
  obtain ⟨e, he, he'⟩ | ⟨s, s', hs, hs', halike⟩ := hf
  · simp only [he, he', World.change]
    exact ⟨trivial, h⟩
  · simp only [hs, hs', World.change]
    exact ⟨trivial, halike⟩

theorem Alike.recordApproval (h : Alike channel x w w') (grant : CommandApproval) :
    (w'.change (w'.store.recordApproval grant)).1 = (w.change (w.store.recordApproval grant)).1 ∧
      Alike channel x (w.change (w.store.recordApproval grant)).2 (w'.change (w'.store.recordApproval grant)).2 := by
  apply h.change (f := fun s => s.recordApproval grant)
  simp only [Store.recordApproval, h.approvals]
  split
  · exact .inl ⟨_, rfl, rfl⟩
  · exact .inr ⟨_, _, rfl, rfl, { h with approvals := rfl }⟩

theorem Alike.recordPermissions (h : Alike channel x w w') (grant : SessionPermissions) :
    (w'.change (w'.store.recordPermissions grant)).1 = (w.change (w.store.recordPermissions grant)).1 ∧
      Alike channel x (w.change (w.store.recordPermissions grant)).2
        (w'.change (w'.store.recordPermissions grant)).2 := by
  apply h.change (f := fun s => s.recordPermissions grant)
  simp only [Store.recordPermissions, h.permissions]
  split
  · exact .inr ⟨_, _, rfl, rfl, { h with permissions := rfl }⟩
  · split
    · exact .inr ⟨_, _, rfl, rfl, h⟩
    · exact .inl ⟨_, rfl, rfl⟩

theorem Alike.recordJob (h : Alike channel x w w') (profile name : String) (params : Value) (kind id : String) :
    (w'.change (w'.store.recordJob profile name params kind id)).1 =
        (w.change (w.store.recordJob profile name params kind id)).1 ∧
      Alike channel x (w.change (w.store.recordJob profile name params kind id)).2
        (w'.change (w'.store.recordJob profile name params kind id)).2 := by
  apply h.change (f := fun s => s.recordJob profile name params kind id)
  simp only [Store.recordJob, h.jobs]
  split
  · exact .inl ⟨_, rfl, rfl⟩
  · split
    · exact .inl ⟨_, rfl, rfl⟩
    · exact .inr ⟨_, _, rfl, rfl, { h with jobs := rfl }⟩

theorem Alike.updateJobs (h : Alike channel x w w') (p : Job → Bool) (f : Job → Job) :
    Alike channel x { w with store := w.store.updateJobs p f } { w' with store := w'.store.updateJobs p f } where
  __ := h
  jobs := by simp only [Store.updateJobs, h.jobs]

theorem Alike.saveOutput (h : Alike channel x w w') (id : String) (params : Value) :
    Alike channel x { w with store := w.store.saveOutput id params }
      { w' with store := w'.store.saveOutput id params } := by
  simp only [Store.saveOutput, h.jobs]
  split
  · exact { h.updateJobs _ _ with
      outputSequence := by simp only [Store.updateJobs, h.outputSequence]
      jobOutput := by simp only [Store.updateJobs, h.outputSequence, h.jobOutput] }
  · exact h.updateJobs _ _

theorem Alike.channel_cases (h : Alike channel x w w') (id : String) :
    (w.store.channels.lookup id = none ∧ w'.store.channels.lookup id = none) ∨
      ∃ row row', w.store.channels.lookup id = some row ∧ w'.store.channels.lookup id = some row' ∧
        unbuffered row' = unbuffered row := by
  have hrow := h.channels id
  rcases ha : w.store.channels.lookup id with _ | row <;>
    rcases hb : w'.store.channels.lookup id with _ | row' <;> rw [ha, hb] at hrow
  · exact .inl ⟨rfl, rfl⟩
  · cases hrow
  · cases hrow
  · exact .inr ⟨row, row', rfl, rfl, Option.some.inj hrow⟩

/-- Both rows of a channel are given the same new row, but for its buffer. -/
theorem Alike.setChannel (h : Alike channel x w w') (id : String) {row row' : Channel}
    (hrow : unbuffered row' = unbuffered row) :
    Alike channel x { w with store := { w.store with channels := w.store.channels.insert id row } }
      { w' with store := { w'.store with channels := w'.store.channels.insert id row' } } where
  __ := h
  channels k := by
    have hk := h.channels k
    simp only [Table.lookup_insert_if]
    split
    · simp [hrow]
    · exact hk

theorem Alike.closeChannel (h : Alike channel x w w') (id : String) :
    Alike channel x { w with store := w.store.closeChannel id } { w' with store := w'.store.closeChannel id } := by
  unfold Store.closeChannel
  obtain ⟨ha, hb⟩ | ⟨row, row', ha, hb, hrow⟩ := h.channel_cases id
  · simp only [ha, hb]
    exact h
  · simp only [ha, hb]
    refine h.setChannel id ?_
    simp only [unbuffered, Channel.mk.injEq] at hrow ⊢
    simp [hrow]

variable {supply : Nat → String}

theorem Alike.beginOperation (h : Alike channel x w w') {key : String × String} (hkey : key ≠ (channel, x))
    (digest : String) :
    (exec supply (.beginOperation key digest) w').1 = (exec supply (.beginOperation key digest) w).1 ∧
      Alike channel x (exec supply (.beginOperation key digest) w).2
        (exec supply (.beginOperation key digest) w').2 := by
  unfold exec Store.beginOperation
  obtain ⟨ha, hb⟩ | ⟨op, op', ha, hb, hdigest, hresult⟩ := unlinked_cases (h.operations key hkey)
  · simp only [ha, hb]
    exact ⟨trivial, h.setRow key rfl⟩
  · by_cases hd : op.digest = digest
    · rcases hr : op.result with _ | value
      · simp only [ha, hb, hdigest, hresult, hd, hr, ne_eq, not_true, if_false]
        exact ⟨trivial, h⟩
      · simp only [ha, hb, hdigest, hresult, hd, hr, ne_eq, not_true, if_false]
        exact ⟨trivial, h⟩
    · simp only [ha, hb, hdigest, hd, ne_eq, not_false_eq_true, if_true]
      exact ⟨trivial, h⟩

theorem Alike.send (h : Alike channel x w w') (entry : Sent) :
    (w'.send entry).1 = (w.send entry).1 ∧ Alike channel x (w.send entry).2 (w'.send entry).2 := by
  have hcond : (w'.connected && entry.message.size + 1 ≤ MAX_FRAME) =
      (w.connected && entry.message.size + 1 ≤ MAX_FRAME) := by rw [h.connected]
  unfold World.send
  rw [hcond]
  split
  · exact ⟨rfl, { h with sent := by simp only [h.sent] }⟩
  · exact ⟨rfl, h⟩

/-- One operation does the same in both states. -/
theorem Alike.exec (h : Alike channel x w w') {op : Op} (hop : Apart channel x op) :
    (exec supply op w').1 = (exec supply op w).1 ∧
      Alike channel x (exec supply op w).2 (exec supply op w').2 := by
  cases op with
  | operationState key digest => exact ⟨h.operationState hop digest, h⟩
  | beginOperation key digest => exact h.beginOperation hop digest
  | completeOperation key result =>
    refine ⟨rfl, h.updateOperation key _ _ ?_⟩
    intro op op' heq
    simp only [unlinked, Operation.mk.injEq] at heq ⊢
    exact ⟨heq.1, trivial, trivial⟩
  | linkOperation key cursor => exact hop.elim
  | appendEvent channel value origin => exact hop.elim
  | recordApproval grant => exact h.recordApproval grant
  | recordPermissions grant => exact h.recordPermissions grant
  | uuid =>
    exact ⟨by simp only [Execution.exec, h.drawn], { h with drawn := by simp only [Execution.exec, h.drawn] }⟩
  | recordJob profile name params kind id => exact h.recordJob profile name params kind id
  | processJob name process => exact ⟨by simp only [Execution.exec, Store.processJob, h.jobs], h⟩
  | setJobState id state exit => exact ⟨rfl, h.updateJobs _ _⟩
  | saveOutput id params => exact ⟨rfl, h.saveOutput id params⟩
  | runningProcesses name mcpOnly => exact ⟨by simp only [Execution.exec, Store.runningProcesses, h.jobs], h⟩
  | activeJobs name => exact ⟨by simp only [Execution.exec, Store.activeJobs, h.jobs], h⟩
  | closeChannel name => exact ⟨rfl, h.closeChannel name⟩
  | closeJobs name => exact ⟨rfl, h.updateJobs _ _⟩
  | pendingLen => exact ⟨by simp only [Execution.exec, h.pending], h⟩
  | insertPending operation pending =>
    exact ⟨rfl, { h with pending := by simp only [Execution.exec, h.pending] }⟩
  | removePending operation =>
    exact ⟨by simp only [Execution.exec, h.pending], { h with pending := by simp only [Execution.exec, h.pending] }⟩
  | send entry => exact h.send entry

theorem Alike.linkOperation (h : Alike channel x w w') (key : String × String) (n n' : Int) :
    Alike channel x { w with store := w.store.linkOperation key n }
      { w' with store := w'.store.linkOperation key n' } := by
  refine h.updateOperation key _ _ ?_
  intro op op' heq
  simp only [unlinked, Operation.mk.injEq] at heq ⊢
  exact ⟨heq.1, heq.2.1, trivial⟩

theorem Alike.append (h : Alike channel x w w') (name : String) (value : Value) (origin : Origin) :
    ((∃ e, (w.append name value origin).1 = .error e ∧ (w'.append name value origin).1 = .error e) ∨
      ∃ n n', (w.append name value origin).1 = .ok n ∧ (w'.append name value origin).1 = .ok n') ∧
      Alike channel x (w.append name value origin).2 (w'.append name value origin).2 := by
  unfold World.append
  obtain ⟨hrow, heq⟩ | ⟨row, bytes, floor, rows, hrow, -, heq⟩ := Store.appendEvent_cases w.store name value
  · obtain ⟨hrow', heq'⟩ | ⟨row', _, _, _, hrow', -, heq'⟩ := Store.appendEvent_cases w'.store name value
    · rw [heq, heq']
      exact ⟨.inl ⟨_, rfl, rfl⟩, h⟩
    · have := isSome_of_map_eq (h.channels name)
      simp [hrow, hrow'] at this
  · obtain ⟨hrow', heq'⟩ | ⟨row', bytes', floor', _, hrow', -, heq'⟩ := Store.appendEvent_cases w'.store name value
    · have := isSome_of_map_eq (h.channels name)
      simp [hrow, hrow'] at this
    · rw [heq, heq']
      have hsame : unbuffered { row' with replayBytes := bytes', replayFloor := floor' } =
          unbuffered { row with replayBytes := bytes, replayFloor := floor } := by
        have := h.channels name
        rw [hrow, hrow'] at this
        exact Option.some.inj this
      refine ⟨.inr ⟨_, _, rfl, rfl⟩, { h.setChannel name hsame with others := ?_ }⟩
      have := h.others
      simp only [World.others, List.filter_append, List.map_append] at this ⊢
      rw [this]
      by_cases hx : origin.about = some x <;> simp [hx]

end

-- ---------------------------------------------------------------------------
-- Programs that do not name the operation
-- ---------------------------------------------------------------------------

/-- From two states that are alike, `p` and `q` come to the same. -/
def Blind (supply : Nat → String) (channel x : String) (p q : M α) : Prop :=
  ∀ w w', Alike channel x w w' → Act.Pair (alone supply) p q w w'
    (fun a b t t' => b = a ∧ Alike channel x t t') fun e e' t t' => e' = e ∧ Alike channel x t t'

namespace Blind

variable {supply : Nat → String} {channel x : String} {p q : M α} {f g : α → M β}

theorem pure (a : α) : Blind supply channel x (Pure.pure a) (Pure.pure a) := fun _ _ h => .pure ⟨rfl, h⟩

theorem bind (h : Blind supply channel x p q) (hnext : ∀ a, Blind supply channel x (f a) (g a)) :
    Blind supply channel x (p >>= f) (q >>= g) := by
  intro w w' halike
  refine .bind (h w w' halike) ?_
  rintro _ a t t' ⟨rfl, halike⟩
  exact hnext a t t' halike

theorem ask {op : Op} (hop : Apart channel x op) : Blind supply channel x (ask op) (ask op) :=
  fun _ _ h => .request (h.exec hop)

theorem ensure (b : Bool) (e : Fault) :
    Blind supply channel x (Interact.ensure b e : M Unit) (Interact.ensure b e) :=
  fun _ _ h => .ensure (fun _ => ⟨rfl, h⟩) fun _ => ⟨rfl, h⟩

theorem ofExcept (r : Except Fault α) : Blind supply channel x (ofExcept r) (ofExcept r) :=
  fun _ _ h => .ofExcept (fun _ _ => ⟨rfl, h⟩) fun _ _ => ⟨rfl, h⟩

theorem attempt (h : Blind supply channel x p q) :
    Blind supply channel x (Interact.attempt p) (Interact.attempt q) := by
  intro w w' halike
  refine .attempt (h w w' halike) ?_ ?_
  · rintro a _ t t' ⟨rfl, halike⟩
    exact ⟨rfl, halike⟩
  · rintro e _ t t' ⟨rfl, halike⟩
    exact ⟨rfl, halike⟩

end Blind

section

variable {supply : Nat → String} {channel x : String}

theorem eval_append (name : String) (value : Value) (origin : Origin) (w : World) :
    Act.eval (alone supply) (append name value origin) w = w.append name value origin := by
  unfold append
  rw [Act.eval_bind_ok (x := ask _) rfl]
  exact Act.eval_ofExcept _

/-- The two sides get different cursors. -/
theorem blind_append {f : Int → M α} (name : String) (value : Value) (origin : Origin)
    (hf : ∀ n n', Blind supply channel x (f n) (f n')) :
    Blind supply channel x (append name value origin >>= f) (append name value origin >>= f) := by
  intro w w' halike
  obtain ⟨⟨e, he, he'⟩ | ⟨n, n', hn, hn'⟩, happend⟩ := halike.append name value origin
  · unfold Act.Pair
    rw [Act.eval_bind_error ((eval_append ..).trans (Prod.ext he rfl)),
      Act.eval_bind_error ((eval_append ..).trans (Prod.ext he' rfl))]
    exact .error ⟨rfl, happend⟩
  · unfold Act.Pair
    rw [Act.eval_bind_ok ((eval_append ..).trans (Prod.ext hn rfl)),
      Act.eval_bind_ok ((eval_append ..).trans (Prod.ext hn' rfl))]
    exact hf n n' _ _ happend

theorem blind_receipt (name operation : String) :
    Blind supply channel x (receipt name operation) (receipt name operation) :=
  blind_append _ _ _ fun _ _ => .pure ()

theorem blind_send (entry : Sent) : Blind supply channel x (send entry) (send entry) :=
  .bind (.ask trivial) fun r => .ofExcept r

theorem blind_answered (name operation : String) (pending : Pending) (value : Value) :
    Blind supply channel x (answered name operation pending value) (answered name operation pending value) := by
  have hstarted : ∀ value, Blind supply channel x (started pending.job value) (started pending.job value) := by
    intro value
    unfold started
    split
    · exact .pure ()
    · exact .ask trivial
  refine .bind (hstarted _) fun _ => .bind (.ask trivial) fun _ => blind_append _ _ _ fun n n' => ?_
  exact fun w w' h => .request ⟨rfl, h.linkOperation _ n n'⟩

theorem blind_recordOutput (name : String) (params : Value) :
    Blind supply channel x (recordOutput name params) (recordOutput name params) := by
  unfold recordOutput
  split
  · exact .pure ()
  · refine .bind (.ask trivial) fun job => ?_
    split
    · exact .pure ()
    · exact .ask trivial

theorem blind_exited (name : String) (value : Value) :
    Blind supply channel x (exited name value) (exited name value) := by
  unfold exited
  split
  · exact .pure ()
  · refine .bind (.ask trivial) fun job => ?_
    split
    · exact .pure ()
    · exact .ask trivial

theorem blind_noticed (name : String) (value : Value) :
    Blind supply channel x (noticed name value) (noticed name value) := by
  have hheed : Blind supply channel x (heed name value) (heed name value) := by
    unfold heed
    split
    · exact blind_recordOutput _ _
    · exact blind_exited _ _
    · exact .pure ()
  exact .bind hheed fun _ => blind_append _ _ _ fun _ _ => .pure ()

theorem blind_collect (name : String) (value : Value) :
    Blind supply channel x (collect name value) (collect name value) := by
  unfold collect
  split
  · exact blind_noticed name value
  · split
    · exact .pure ()
    · refine .bind (.ask trivial) fun pending => ?_
      split
      · exact .pure ()
      · exact blind_answered name _ _ value

theorem blind_forward (name operation : String) (message : Value) (job : Option String) :
    Blind supply channel x (forward name operation message job) (forward name operation message job) := by
  have hdeliver : Blind supply channel x (deliver name operation message job) (deliver name operation message job) := by
    unfold deliver
    split
    · exact .bind (.ask trivial) fun _ => blind_send _
    · exact .bind (blind_send _) fun _ => .ask trivial
  exact .bind hdeliver fun _ => blind_receipt _ _

theorem blind_recordJob (c : Crates) (who : Identity) (runtime : Runtime) (params : Value) :
    Blind supply channel x (recordJob c who runtime params) (recordJob c who runtime params) :=
  .bind (.ensure _ _) fun _ => .bind (.ask (show Apart channel x .uuid from trivial)) fun _ =>
    .bind (.ask trivial) fun r => .bind (.ofExcept r) fun _ => .pure _

theorem blind_proceed (c : Crates) (who : Identity) (runtime : Runtime) (r : Request) :
    Blind supply channel x (proceed c who runtime r) (proceed c who runtime r) := by
  have happroval : Blind supply channel x (recordApproval r.approval) (recordApproval r.approval) := by
    unfold recordApproval
    split
    · exact .pure ()
    · exact .bind (.ask trivial) fun r => .ofExcept r
  have hpermissions : Blind supply channel x (recordPermissions r.permissions) (recordPermissions r.permissions) := by
    unfold recordPermissions
    split
    · exact .pure ()
    · exact .bind (.ask trivial) fun r => .ofExcept r
  refine .bind happroval fun _ => .bind hpermissions fun _ => ?_
  unfold handOver
  split
  · exact .bind (blind_send _) fun _ => .bind (.ask trivial) fun _ => blind_receipt _ _
  · split
    · exact .bind (blind_recordJob _ _ _ _) fun _ => blind_forward _ _ _ _
    · exact blind_forward _ _ _ _

theorem blind_repeated (name operation : String) (existing : Option Value) :
    Blind supply channel x (repeated name operation existing) (repeated name operation existing) := by
  have hagain : Blind supply channel x (answerAgain name operation existing) (answerAgain name operation existing) := by
    unfold answerAgain
    split
    · exact .pure ()
    · split
      · exact .pure ()
      · exact blind_append _ _ _ fun _ _ => .pure ()
  exact .bind hagain fun _ => blind_receipt _ _

theorem blind_dispatch (c : Crates) (who : Identity) (runtime : Runtime) (r : Request) (hr : r.operation ≠ x) :
    Blind supply channel x (dispatch c who runtime r) (dispatch c who runtime r) := by
  have hkey : (who.channel, r.operation) ≠ (channel, x) := fun h => hr (congrArg Prod.snd h)
  refine .bind (.ask hkey) fun answer => .bind (.ofExcept answer) fun existing => ?_
  cases existing with
  | some existing => exact blind_repeated _ _ _
  | none =>
    refine .bind (.ask trivial) fun pending => .bind (.ensure _ _) fun _ =>
      .bind (.ask hkey) fun answer => .bind (.ofExcept answer) fun _ => ?_
    split
    · exact .bind (.ask trivial) fun _ => blind_append _ _ _ fun _ _ => blind_receipt _ _
    · exact blind_proceed c who runtime r

theorem blind_terminate (name : String) (mcpOnly : Bool) :
    Blind supply channel x (terminate name mcpOnly) (terminate name mcpOnly) := by
  have heach : ∀ processes, Blind supply channel x (terminateEach processes) (terminateEach processes) := by
    intro processes
    induction processes with
    | nil => exact .pure ()
    | cons process rest ih =>
      exact .bind (.ask (show Apart channel x .uuid from trivial)) fun _ => .bind (blind_send _) fun _ => ih
  exact .bind (.ask trivial) fun processes => heach processes

theorem blind_finish (name : String) (outputs : List Value) :
    Blind supply channel x (finish name outputs) (finish name outputs) := by
  have hdrain : Blind supply channel x (drain name outputs) (drain name outputs) := by
    induction outputs with
    | nil => exact .pure ()
    | cons value outputs ih =>
      refine .bind (.ask trivial) fun running => ?_
      split
      · exact .pure ()
      · exact .bind (.attempt (blind_collect name value)) fun _ => ih
  exact .bind (.attempt (blind_terminate name false)) fun _ => .bind hdrain fun _ =>
    .bind (.ask trivial) fun _ => .ask trivial

/-- The event is not the request of `operation` itself. -/
def Event.apart (operation : String) : Event → Prop
  | .execute r => r.operation ≠ operation
  | _ => True

theorem blind_handle (c : Crates) (who : Identity) (runtime : Runtime) {e : Event} (he : e.apart x) :
    Blind supply channel x (handle c who runtime e) (handle c who runtime e) := by
  cases e with
  | execute r => exact .bind (blind_dispatch c who runtime r he) fun _ => .pure true
  | output value => exact .bind (blind_collect _ value) fun _ => .pure true
  | detached => exact .bind (blind_terminate _ _) fun _ => .pure true
  | silent => exact .bind (.attempt (blind_terminate _ _)) fun _ => .pure true
  | retireIdle =>
    exact .bind (.ask (show Apart channel x .pendingLen from trivial)) fun _ => .bind (.ask trivial) fun _ => .pure _
  | idle => exact .bind (.ask trivial) fun _ => .pure _
  | stop => exact .pure false

theorem blind_turn (c : Crates) (who : Identity) (runtime : Runtime) {e : Event} (he : e.apart x)
    (outputs : List Value) : Blind supply channel x (turn c who runtime e outputs) (turn c who runtime e outputs) := by
  refine .bind (.attempt (blind_handle c who runtime he)) fun r => ?_
  split
  · exact .pure true
  · exact .bind (blind_finish _ _) fun _ => .pure false

theorem blind_serve (c : Crates) (who : Identity) (runtime : Runtime) (events : List (Event × List Value))
    (he : ∀ e ∈ events, e.1.apart x) :
    Blind supply channel x (serve c who runtime events) (serve c who runtime events) := by
  induction events with
  | nil => exact .pure true
  | cons e events ih =>
    refine .bind (blind_turn c who runtime (he _ (List.mem_cons_self ..)) _) fun r => ?_
    split
    · exact ih fun e he' => he e (List.mem_cons_of_mem _ he')
    · exact .pure false

end

end RemoteCodex.Execution
