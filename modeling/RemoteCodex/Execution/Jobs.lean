import RemoteCodex.Execution.Lifecycle

/-!
# Jobs in every run

The invariant is carried through the stages of the actor, and what it says of
the jobs is read off at the end.
-/

namespace RemoteCodex.Execution

open Interact Protocol Server

section

variable {supply : Nat → String} {c : Crates} {who : Identity} {runtime : Runtime} {allowed : Op → World → Prop}
  {S S' : Scene}

theorem ids_reopen (reason : String) (w : World) :
    ((w.store.reopen reason).jobs.map Job.id) = w.store.jobs.map Job.id :=
  ids_updateJobs (f := fun job => { job with state := .unknown }) (fun _ => rfl) w.store

/-- Whatever the scene does, a job that is over stays as it is. -/
theorem Scene.Step.aged (h : Scene.Step supply c who runtime allowed S S') :
    Aged who.channel S.world S'.world ∧
      ((S.world.store.jobs.map Job.id).Nodup → (S'.world.store.jobs.map Job.id).Nodup) := by
  cases h with
  | turn e => exact ⟨.refl _ _, fun h => h⟩
  | collect => exact ⟨.refl _ _, fun h => h⟩
  | listen => exact ⟨.refl _ _, fun h => h⟩
  | act => exact ⟨aged_exec _ _, ids_exec _⟩
  | ended => exact ⟨.refl _ _, fun h => h⟩
  | deadline => exact ⟨.refl _ _, fun h => h⟩
  | others ho => exact ⟨ho.aged, ho.ids⟩
  | executor => exact ⟨.refl _ _, fun h => h⟩
  | restart reason => exact ⟨aged_reopen reason S.world, fun h => (ids_reopen reason S.world).symm ▸ h⟩

theorem aged_run (h : Relation.ReflTransGen (Scene.Step supply c who runtime allowed) S S') :
    Aged who.channel S.world S'.world ∧
      ((S.world.store.jobs.map Job.id).Nodup → (S'.world.store.jobs.map Job.id).Nodup) := by
  induction h with
  | refl => exact ⟨.refl _ _, fun h => h⟩
  | tail _ hstep ih =>
    obtain ⟨haged, hids⟩ := hstep.aged
    exact ⟨ih.1.trans haged, fun h => hids (ih.2 h)⟩

/-- What is set down is right, what is reported is over, and so is all of a lost channel. -/
structure Ledger (channel : String) (S : Scene) : Prop where
  ids : (S.world.store.jobs.map Job.id).Nodup
  attributed : ∀ a ∈ S.attributed, a.1 = a.2
  reported : ∀ j ∈ S.reported, ∃ job ∈ S.world.store.jobs, job.id = j ∧ job.channel = channel ∧ job.state.active = false
  lost : (S.world.store.channels.lookup channel).map Channel.state = some .lost → Quiet channel S.world

theorem Ledger.step {channel : String} (h : Ledger channel S) (haged : Aged channel S.world S'.world)
    (hids : (S.world.store.jobs.map Job.id).Nodup → (S'.world.store.jobs.map Job.id).Nodup)
    (hattributed : ∀ a ∈ S'.attributed, a ∈ S.attributed ∨ a.1 = a.2)
    (hreported : ∀ j ∈ S'.reported, j ∈ S.reported ∨
      ∃ job ∈ S.world.store.jobs, job.id = j ∧ job.channel = channel ∧ job.state.active = false)
    (hlost : (S'.world.store.channels.lookup channel).map Channel.state = some .lost → Quiet channel S'.world) :
    Ledger channel S' where
  ids := hids h.ids
  attributed a ha := (hattributed a ha).elim (h.attributed a) fun heq => heq
  reported j hj := by
    obtain ⟨job, hjob, hid, hc, hover⟩ := (hreported j hj).elim (h.reported j) fun h => h
    obtain ⟨job', hjob', hkey, hsame⟩ := haged job hjob hc
    refine ⟨job', hjob', (congrArg Prod.fst hkey).trans hid, (congrArg (fun k => k.2.1) hkey).trans hc, ?_⟩
    rw [(hsame hover).1, hover]
  lost := hlost

theorem quiet_others {channel : String} {w w' : World} (h : Quiet channel w) (ho : Others channel w w') :
    Quiet channel w' := fun job hjob hc => h job ((ho.mem_jobs hc).mp hjob) hc

theorem quiet_updateJobs {channel : String} {w w' : World} {p : Job → Bool} {f : Job → Job} (h : Quiet channel w)
    (hf : Mild p f) (hjobs : w'.store.jobs = (w.store.updateJobs p f).jobs) : Quiet channel w' := by
  intro job hjob hc
  rw [hjobs] at hjob
  obtain ⟨old, hold, rfl⟩ := List.mem_map.mp hjob
  split at hc
  · next hp =>
    have hover := h old hold ((congrArg (fun k => k.2.1) (hf.key old)).symm.trans hc)
    rw [if_pos hp, (hf.ended old hp hover).1, hover]
  · next hp =>
    rw [if_neg hp]
    exact h old hold hc

theorem quiet_reopen (channel reason : String) (w : World) :
    Quiet channel { w with store := w.store.reopen reason } := by
  intro job hjob _
  obtain ⟨old, -, rfl⟩ := List.mem_map.mp hjob
  dsimp only
  split
  · rfl
  · next hactive => exact Bool.eq_false_iff.mpr hactive

/-- The channel is being closed: before its first statement, or after it with nothing that runs. -/
def Closing (channel : String) (S : Scene) : Prop :=
  S.rest = some (close channel).run ∨
    (Quiet channel S.world ∧
      (S.rest = some (.call (.closeJobs channel) fun _ => .done (.ok true)) ∨ S.rest = some (.done (.ok true))))

/-- What holds in each stage. -/
def Scene.Stands (supply : Nat → String) (channel : String) (S : Scene) : Prop :=
  match S.stage with
  | .closing => S.owner = none ∧ Closing channel S
  | .finished => S.owner = none ∧ S.rest = none
  | _ => Running supply channel S

structure Steady (supply : Nat → String) (channel : String) (S : Scene) : Prop where
  ledger : Ledger channel S
  stands : S.Stands supply channel

theorem Scene.Stands.cases {channel : String} (h : S.Stands supply channel) :
    (S.stage = .closing ∧ S.owner = none ∧ Closing channel S) ∨ (S.stage = .finished ∧ S.owner = none ∧ S.rest = none) ∨
      (S.stage ≠ .closing ∧ S.stage ≠ .finished ∧ Running supply channel S) := by
  unfold Scene.Stands at h
  cases hstage : S.stage <;> rw [hstage] at h
  case closing => exact .inl ⟨rfl, h⟩
  case finished => exact .inr (.inl ⟨rfl, h⟩)
  all_goals exact .inr (.inr ⟨Stage.noConfusion, Stage.noConfusion, h⟩)

theorem stands_closing {channel : String} (hstage : S.stage = .closing) (h : S.owner = none ∧ Closing channel S) :
    S.Stands supply channel := by
  unfold Scene.Stands
  rw [hstage]
  exact h

theorem stands_over {channel : String} (hstage : S.stage = .finished) (h : S.owner = none ∧ S.rest = none) :
    S.Stands supply channel := by
  unfold Scene.Stands
  rw [hstage]
  exact h

theorem stands_running {channel : String} (hclosing : S.stage ≠ .closing) (hover : S.stage ≠ .finished)
    (h : Running supply channel S) : S.Stands supply channel := by
  unfold Scene.Stands
  split
  · next heq => exact absurd heq hclosing
  · next heq => exact absurd heq hover
  · exact h

theorem Steady.running {channel : String} (h : Steady supply channel S) (hclosing : S.stage ≠ .closing)
    (hover : S.stage ≠ .finished) : Running supply channel S := by
  rcases h.stands.cases with ⟨heq, -⟩ | ⟨heq, -⟩ | ⟨-, -, hrun⟩
  · exact absurd heq hclosing
  · exact absurd heq hover
  · exact hrun

/-- The program of the next stage is as disciplined as the last one. -/
theorem obeys_after {channel : String} {stage : Stage} {r : Except Fault Bool} {w : World} (hw : Kept channel w)
    (hnext : (stage.after channel r).1 ≠ .closing) {p : Rest} (hp : (stage.after channel r).2 = some p) :
    Obeys supply channel .serving p w := by
  have hterminate : Obeys supply channel .serving (terminateAll channel).run w :=
    Disciplined.obeys (Disciplined.bind
      (Disciplined.mono (Orderly.attempt (orderly_terminate hw false)) (fun _ _ ht => ht) fun _ _ ht => ⟨ht, trivial⟩)
      fun _ t ht => Disciplined.pure ⟨ht, trivial⟩)
  have hlook : Obeys supply channel .serving (look channel).run w :=
    Disciplined.obeys (Disciplined.bind (Q := fun _ => Kept channel) (.ask hw fun _ _ _ => ⟨trivial, fun hk => hk⟩)
      fun _ t ht => Disciplined.pure ⟨ht, trivial⟩)
  cases stage with
  | serving =>
    rcases r with e | (_ | _)
    · exact Option.some.inj hp ▸ hterminate
    · exact Option.some.inj hp ▸ hterminate
    · cases hp
  | terminating => exact Option.some.inj hp ▸ hlook
  | looking =>
    rcases r with e | (_ | _)
    · exact absurd rfl hnext
    · exact absurd rfl hnext
    · cases hp
  | listening => exact Option.some.inj hp ▸ hlook
  | closing => cases hp
  | finished => cases hp

theorem after_closing {channel : String} {stage : Stage} {r : Except Fault Bool}
    (hnext : (stage.after channel r).1 = .closing) : (stage.after channel r).2 = some (close channel).run := by
  unfold Stage.after at hnext ⊢
  split at hnext <;> first | rfl | cases hnext

theorem of_after_over {channel : String} {stage : Stage} {r : Except Fault Bool}
    (hnext : (stage.after channel r).1 = .finished) : stage = .closing ∨ stage = .finished := by
  unfold Stage.after at hnext
  split at hnext <;> first | exact .inl rfl | exact .inr rfl | cases hnext

theorem task_of_ne {stage : Stage} (h : stage ≠ .closing) : stage.task = .serving := by
  cases stage with
  | closing => exact absurd rfl h
  | _ => rfl

/-- Nothing that is read gives the actor an owner it does not have. -/
theorem setDown_of_running {channel : String} {op : Op} (h : Running supply channel S)
    (hduly : Duly channel S.task op S.world) : ∀ a ∈ S.setDown op, a ∈ S.attributed ∨ a.1 = a.2 := by
  intro a ha
  cases op with
  | setJobState id state exit =>
    rcases List.mem_append.mp ha with ha | ha
    · cases howner : S.owner with
      | none => simp [howner] at ha
      | some j =>
        have heq : a = (j, id) := by simpa [howner] using ha
        rcases h.setJobState hduly with ⟨hnone, -⟩ | hsome
        · rw [howner] at hnone
          cases hnone
        · rw [heq]
          exact .inr (Option.some.inj (howner.symm.trans hsome))
    · exact .inl ha
  | _ => exact .inl ha

/-- The steps of the channel's end. -/
theorem closing_act {channel : String} {op : Op} {next : Ans op → Rest} (h : Closing channel S)
    (hr : S.rest = some (.call op next)) (htold : Told op S.world) :
    Closing channel
      { S with
        world := (exec supply op S.world).2
        rest := some (next (exec supply op S.world).1)
        attributed := S.setDown op } ∧ S.setDown op = S.attributed ∧ Quiet channel (exec supply op S.world).2 := by
  have hjobs : ∀ w, Quiet channel w → Quiet channel (exec supply (.closeJobs channel) w).2 := by
    intro w hw
    refine quiet_updateJobs (p := fun job => job.channel = channel && job.state.active)
      (f := fun job => { job with state := .unknown }) hw ⟨fun _ => rfl, ?_⟩ rfl
    intro job hp hover
    simp [hover] at hp
  rcases h with hrest | ⟨hquiet, hrest | hrest⟩
  · have heq := Option.some.inj (hrest.symm.trans hr)
    cases heq
    have hquiet : Quiet channel (exec supply (.closeChannel channel) S.world).2 := by
      refine quiet_updateJobs (p := fun _ => false) (f := id) htold ⟨fun _ => rfl, nofun⟩ ?_
      simp only [exec, Store.closeChannel, Store.updateJobs]
      split <;> simp
    exact ⟨.inr ⟨hquiet, .inl rfl⟩, rfl, hquiet⟩
  · have heq := Option.some.inj (hrest.symm.trans hr)
    cases heq
    exact ⟨.inr ⟨hjobs _ hquiet, .inr rfl⟩, rfl, hjobs _ hquiet⟩
  · have heq := Option.some.inj (hrest.symm.trans hr)
    cases heq

/-- A request's identity is none of the actor's own. -/
theorem ordinary_of_parseUuid {x : String} (h : parseUuid x = true) : Ordinary x := by
  rintro id rfl
  have htext : ("cleanup-" ++ id).toList = 'c' :: 'l' :: ("eanup-".toList ++ id.toList) := by
    rw [String.toList_append]
    rfl
  rcases hexDigit_of_parseUuid h htext with hdigit | hbrace | hu
  · exact absurd hdigit (by decide)
  · exact absurd hbrace (by decide)
  · exact absurd hu (by decide)

theorem obeys_listen {channel : String} {value : Value} {w : World} (hw : Kept channel w) :
    Obeys supply channel (.reading value) (listen channel value).run w := by
  refine Disciplined.obeys (Disciplined.bind (Disciplined.attempt ?_) fun _ t ht => Disciplined.pure ht)
  exact disciplined_collect hw

theorem Steady.act {op : Op} {next : Ans op → Rest} (h : Steady supply who.channel S)
    (hr : S.rest = some (.call op next)) (htold : Told op S.world) :
    Steady supply who.channel
      { S with
        world := (exec supply op S.world).2
        rest := some (next (exec supply op S.world).1)
        attributed := S.setDown op } := by
  rcases h.stands.cases with ⟨hstage, hnone, hclosing⟩ | ⟨-, -, hidle⟩ | ⟨hclosing, hover, hrun⟩
  · obtain ⟨hclosing, hsame, hquiet⟩ := closing_act hclosing hr htold
    refine ⟨h.ledger.step (aged_exec _ _) (ids_exec _) (fun a ha => .inl ?_) (fun j hj => .inl hj) fun _ => hquiet,
      stands_closing hstage ⟨hnone, hclosing⟩⟩
    rw [hsame] at ha
    exact ha
  · rw [hidle] at hr
    cases hr
  · have hrun' := hrun.act hr htold
    obtain ⟨hduly, -⟩ := (hrun.rest _ hr).step
    refine ⟨h.ledger.step (aged_exec _ _) (ids_exec _) (setDown_of_running hrun hduly) (fun j hj => .inl hj) ?_,
      stands_running hclosing hover hrun'⟩
    exact fun hlost => absurd hlost hrun'.state

theorem Steady.ended {r : Except Fault Bool} (h : Steady supply who.channel S) (hr : S.rest = some (.done r)) :
    Steady supply who.channel (S.ended who.channel r) := by
  have hledger : (∀ j, S.owner = some j → ∃ job ∈ S.world.store.jobs, job.id = j ∧ job.channel = who.channel ∧
      job.state.active = false) → Ledger who.channel (S.ended who.channel r) := by
    intro howner
    refine h.ledger.step (.refl _ _) (fun h => h) (fun a ha => .inl ha) (fun j hj => ?_) h.ledger.lost
    rcases List.mem_append.mp hj with hj | hj
    · exact .inr (howner j (by simpa using hj))
    · exact .inl hj
  rcases h.stands.cases with ⟨hstage, hnone, hclosing⟩ | ⟨-, -, hidle⟩ | ⟨hclosing, hover, hrun⟩
  · refine ⟨hledger (by rw [hnone]; nofun), stands_over ?_ ⟨rfl, ?_⟩⟩
    · rw [Scene.ended, hstage]
      rfl
    · rw [Scene.ended, hstage]
      rfl
  · rw [hidle] at hr
    cases hr
  · refine ⟨hledger fun j hj => hrun.settled hr hj, ?_⟩
    by_cases hnext : (S.stage.after who.channel r).1 = .closing
    · exact stands_closing hnext ⟨rfl, .inl (after_closing hnext)⟩
    · have hkept : Kept who.channel S.world := (hrun.rest _ hr).1
      refine stands_running hnext (fun h => (of_after_over h).elim hclosing hover) ?_
      rw [Scene.ended, task_of_ne hnext]
      exact hrun.begins _ _ fun p hp => obeys_after hkept hnext hp

/-- Every step that `Told` allows keeps the invariant. -/
theorem Steady.step (h : Steady supply who.channel S) (hstep : Scene.Step supply c who runtime Told S S') :
    Steady supply who.channel S' := by
  obtain ⟨haged, hids⟩ := hstep.aged
  have hsame : ∀ {T : Scene}, Aged who.channel S.world T.world →
      ((S.world.store.jobs.map Job.id).Nodup → (T.world.store.jobs.map Job.id).Nodup) →
      T.attributed = S.attributed → T.reported = S.reported →
      ((T.world.store.channels.lookup who.channel).map Channel.state = some .lost → Quiet who.channel T.world) →
      Ledger who.channel T := fun ha hi hattributed hreported hlost =>
    h.ledger.step ha hi (fun a ha => .inl (hattributed ▸ ha)) (fun j hj => .inl (hreported ▸ hj)) hlost
  cases hstep with
  | turn e hstage hidle hvalue hexecute =>
    have hopen : S.stage ≠ .closing ∧ S.stage ≠ .finished := by simp [hstage]
    have hrun := h.running hopen.1 hopen.2
    have hobeys : Obeys supply who.channel .serving (handle c who runtime e).run S.world := by
      have htask : e.task = .serving := by
        cases e with
        | output value => exact absurd rfl (hvalue value)
        | _ => rfl
      rw [← htask]
      exact (disciplined_handle c runtime e hrun.kept fun r hr => ordinary_of_parseUuid (hexecute r hr)).obeys
    refine ⟨hsame haged hids rfl rfl h.ledger.lost, ?_⟩
    refine stands_running hopen.1 hopen.2 (hrun.begins S.stage S.reported ?_)
    rintro _ ⟨⟩
    exact hobeys
  | collect hstage hidle hsaid =>
    have hopen : S.stage ≠ .closing ∧ S.stage ≠ .finished := by simp [hstage]
    have hrun := h.running hopen.1 hopen.2
    refine ⟨hsame haged hids rfl rfl h.ledger.lost, stands_running ?_ ?_ (hrun.reads hidle hsaid ?_)⟩
    · exact hopen.1
    · exact hopen.2
    · refine (disciplined_handle c runtime (.output _) hrun.kept ?_).obeys
      rintro _ ⟨⟩
  | listen hstage hidle hsaid =>
    have hopen : S.stage ≠ .closing ∧ S.stage ≠ .finished := by simp [hstage]
    have hrun := h.running hopen.1 hopen.2
    refine ⟨hsame haged hids rfl rfl h.ledger.lost, stands_running ?_ ?_ (hrun.reads hidle hsaid ?_)⟩
    · exact hopen.1
    · exact hopen.2
    · exact obeys_listen hrun.kept
  | act hr htold => exact h.act hr htold
  | ended hr => exact h.ended hr
  | deadline hstage hidle =>
    have hopen : S.stage ≠ .closing ∧ S.stage ≠ .finished := by simp [hstage]
    have hrun := h.running hopen.1 hopen.2
    exact ⟨hsame haged hids rfl rfl h.ledger.lost, hrun.idle hidle, .inl rfl⟩
  | others ho =>
    refine ⟨hsame haged hids rfl rfl ?_, ?_⟩
    · rw [ho.channels]
      exact fun hlost => quiet_others (h.ledger.lost hlost) ho
    · rcases h.stands.cases with ⟨hstage, hnone, hclosing⟩ | ⟨hstage, hover⟩ | ⟨hclosing, hover, hrun⟩
      · refine stands_closing hstage ⟨hnone, ?_⟩
        exact hclosing.imp_right (And.imp_left fun hquiet => quiet_others hquiet ho)
      · exact stands_over hstage hover
      · exact stands_running hclosing hover (hrun.others ho)
  | executor hx =>
    refine ⟨hsame haged hids rfl rfl h.ledger.lost, ?_⟩
    rcases h.stands.cases with ⟨hstage, hclosing⟩ | ⟨hstage, hover⟩ | ⟨hclosing, hover, hrun⟩
    · exact stands_closing hstage hclosing
    · exact stands_over hstage hover
    · exact stands_running hclosing hover (hrun.moves hx)
  | restart reason =>
    exact ⟨hsame haged hids rfl rfl fun _ => quiet_reopen _ reason S.world, rfl, rfl⟩

theorem running_opened {channel : String} {w : World} (h : Opened channel w) :
    Running supply channel { world := w } where
  kept :=
    { ids := h.ids
      fresh := fun x _ => by
        refine ⟨by rw [h.pending]; rfl, ?_, ?_⟩
        · rw [World.requests, h.sent]
          exact List.not_mem_nil
        · rw [World.answers, h.log]
          exact List.not_mem_nil
      requests := by
        rw [World.requests, h.sent]
        exact List.nodup_nil
      answers := by
        rw [World.answers, h.log]
        exact List.nodup_nil
      waiting := fun x p hp => by
        rw [h.pending] at hp
        cases hp
      startedJobs := by
        rw [World.startedJobs, h.sent]
        exact List.nodup_nil
      started := by
        rw [h.sent]
        rintro _ ⟨⟩
      named := by
        rw [h.sent]
        rintro _ ⟨⟩
      cursors := by
        rw [h.log]
        exact List.Pairwise.nil
      sequence := by
        rw [h.log]
        rintro _ ⟨⟩
      events := fun row hrow hc => absurd hc (h.events row hrow) }
  state := by
    rw [h.state]
    rintro ⟨⟩
  taken := Nat.zero_le _
  distinct := by
    unfold Scene.openJobs Executor.open
    rw [h.sent]
    exact List.nodup_nil
  started := by
    unfold Scene.openJobs Executor.open
    rw [h.sent]
    rintro _ ⟨⟩
  refused := by rintro _ ⟨⟩
  current := by
    unfold Executor.open
    rw [h.sent]
    rintro _ ⟨⟩
  said := by rintro _ ⟨⟩
  reading := by rintro _ ⟨⟩
  owner := by rintro _ ⟨⟩
  task := by rintro ⟨⟩
  idle _ := rfl
  rest := by rintro _ ⟨⟩

theorem steady_opened {channel : String} {w : World} (h : Opened channel w) : Steady supply channel { world := w } where
  ledger :=
    { ids := h.ids
      attributed := by rintro _ ⟨⟩
      reported := by rintro _ ⟨⟩
      lost := fun hlost => by
        rw [h.state] at hlost
        cases hlost }
  stands := running_opened h

theorem steady_run (h : Steady supply who.channel S)
    (hrun : Relation.ReflTransGen (Scene.Step supply c who runtime Told) S S') : Steady supply who.channel S' := by
  induction hrun with
  | refl => exact h
  | tail _ hstep ih => exact ih.step hstep

/-- What the lifecycle of the jobs of a channel comes to. -/
structure Lifecycle (channel : String) (S : Scene) : Prop where
  attributed : ∀ a ∈ S.attributed, a.1 = a.2
  reported : ∀ j ∈ S.reported, ∀ job ∈ S.world.store.jobs, job.id = j → job.state.active = false
  lost : (S.world.store.channels.lookup channel).map Channel.state = some .lost →
    ∀ job ∈ S.world.store.jobs, job.channel = channel → job.state.active = false

end

-- ---------------------------------------------------------------------------
-- Runs that can be computed
-- ---------------------------------------------------------------------------

/-- What happens next, where the rest is settled. -/
inductive Cue
  | turn (r : Request)
  | collect
  | create
  | refuse
  /-- The answer to the message the executor took as its `i`-th. -/
  | answer (i : Nat) (value : Value)
  | exit (j process : String) (value : Value)

section

variable (supply : Nat → String) (c : Crates) (who : Identity) (runtime : Runtime) (allowed : Op → World → Prop)
  [∀ op w, Decidable (allowed op w)]

/-- At most `n` operations, and the end of the program. -/
def Scene.carry : Nat → Scene → Option Scene
  | 0, _ => none
  | n + 1, S =>
    match S.rest with
    | some (.call op next) =>
      if allowed op S.world then
        Scene.carry n
          { S with
            world := (exec supply op S.world).2
            rest := some (next (exec supply op S.world).1)
            attributed := S.setDown op }
      else none
    | some (.done r) => some (S.ended who.channel r)
    | none => none

def Scene.follow (S : Scene) : Cue → Option Scene
  | .turn r =>
    if S.stage = .serving ∧ S.rest.isNone ∧ parseUuid r.operation = true then
      Scene.carry supply who allowed 32
        { S with rest := some (handle c who runtime (.execute r)).run, task := .serving, owner := none }
    else none
  | .collect =>
    match S.executor.said with
    | [] => none
    | said :: rest =>
      if S.stage = .serving ∧ S.rest.isNone then
        Scene.carry supply who allowed 32 (S.reads said rest (handle c who runtime (.output said.value)))
      else none
  | .create =>
    match S.world.sent[S.executor.taken]? with
    | none => none
    | some e =>
      match e.job, e.process with
      | some j, some process =>
        some { S with
          executor := { S.executor with taken := S.executor.taken + 1, live := (j, process) :: S.executor.live } }
      | _, _ => none
  | .refuse =>
    match S.world.sent[S.executor.taken]? with
    | none => none
    | some e =>
      match e.job with
      | some j =>
        some { S with
          executor := { S.executor with taken := S.executor.taken + 1, refused := j :: S.executor.refused } }
      | none => none
  | .answer i value =>
    match (S.world.sent.take S.executor.taken)[i]? with
    | none => none
    | some e =>
      if (e.message.get "method").isSome = true ∧ (value.get "method").isNone = true ∧
          (value.index "id").asStr = (e.message.index "id").asStr ∧ (value.index "id").asStr.isSome = true ∧
          ((value.get "error").isSome = true → ∀ j ∈ e.job, j ∈ S.executor.refused) then
        some { S with executor := S.executor.utter value none }
      else none
  | .exit j process value =>
    if (j, process) ∈ S.executor.live ∧ exitOf value = some process then
      some { S with
        executor := { S.executor with live := S.executor.live.erase (j, process) }.utter value (some j) }
    else none

def Scene.play (S : Scene) : List Cue → Option Scene
  | [] => some S
  | cue :: cues => (S.follow supply c who runtime allowed cue).bind fun S => S.play cues

variable {supply c who runtime allowed}

theorem carry_run {n : Nat} {S S' : Scene} (h : S.carry supply who allowed n = some S') :
    Relation.ReflTransGen (Scene.Step supply c who runtime allowed) S S' := by
  induction n generalizing S with
  | zero => cases h
  | succ n ih =>
    unfold Scene.carry at h
    split at h
    · next op next hr =>
      split at h
      · next hallowed => exact .head (.act hr hallowed) (ih h)
      · cases h
    · next r hr =>
      cases h
      exact .single (.ended hr)
    · cases h

theorem asStr_eq_some {v : Value} {x : String} (h : v.asStr = some x) : v = .string x := by
  unfold Value.asStr at h
  split at h
  · cases h
    rfl
  · cases h

theorem follow_run {cue : Cue} {S S' : Scene} (h : S.follow supply c who runtime allowed cue = some S') :
    Relation.ReflTransGen (Scene.Step supply c who runtime allowed) S S' := by
  cases cue with
  | turn r =>
    simp only [Scene.follow] at h
    split at h
    · next hturn =>
      refine .head (.turn (.execute r) hturn.1 (Option.isNone_iff_eq_none.mp hturn.2.1) nofun ?_) (carry_run h)
      rintro _ ⟨⟩
      exact hturn.2.2
    · cases h
  | collect =>
    simp only [Scene.follow] at h
    split at h
    · cases h
    · next said rest hsaid =>
      split at h
      · next hturn =>
        exact .head (.collect hturn.1 (Option.isNone_iff_eq_none.mp hturn.2) hsaid) (carry_run h)
      · cases h
  | create =>
    simp only [Scene.follow] at h
    split at h
    · cases h
    · next e he =>
      split at h
      · next j process hj hprocess =>
        cases h
        exact .single (.executor (.create he hj hprocess))
      · cases h
  | refuse =>
    simp only [Scene.follow] at h
    split at h
    · cases h
    · next e he =>
      split at h
      · next j hj =>
        cases h
        exact .single (.executor (.refuse he hj))
      · cases h
  | answer i value =>
    simp only [Scene.follow] at h
    split at h
    · cases h
    · next e he =>
      split at h
      · next hanswer =>
        cases h
        obtain ⟨hmethod, hvalue, hid, hsome, herror⟩ := hanswer
        obtain ⟨x, hx⟩ := Option.isSome_iff_exists.mp hsome
        have hsame : value.index "id" = e.message.index "id" := by
          rw [asStr_eq_some hx, asStr_eq_some (hid.symm.trans hx)]
        exact .single (.executor (.answer (List.mem_of_getElem? he) hmethod (Option.isNone_iff_eq_none.mp hvalue) hsame
          herror))
      · cases h
  | exit j process value =>
    simp only [Scene.follow] at h
    split at h
    · next hexit =>
      cases h
      exact .single (.executor (.exit hexit.1 hexit.2))
    · cases h

theorem play_run {cues : List Cue} {S S' : Scene} (h : S.play supply c who runtime allowed cues = some S') :
    Relation.ReflTransGen (Scene.Step supply c who runtime allowed) S S' := by
  induction cues generalizing S with
  | nil =>
    cases h
    exact .refl
  | cons cue cues ih =>
    obtain ⟨T, hT, hrest⟩ := Option.bind_eq_some_iff.mp h
    exact (follow_run hT).trans (ih hrest)

end

-- ---------------------------------------------------------------------------
-- A process name that is used twice
-- ---------------------------------------------------------------------------

def newcomer : Identity := ⟨"channel", "default"⟩

def opened : World where
  store := { channels := AList.insert newcomer.channel { profile := newcomer.profile, revision := 1 } ∅ }

theorem opened_opened : Opened newcomer.channel opened :=
  ⟨rfl, rfl, rfl, List.nodup_nil, by rintro _ ⟨⟩, fun _ => rfl, by rintro _ ⟨⟩, rfl⟩

/-- A request that starts the process `build`. -/
def startBuild (operation : String) : Request where
  operation
  message := .object [("id", .int 1), ("method", .string "process/start"),
    ("params", .object [("argv", .array []), ("cwd", .string "/"), ("processId", .string "build")])]

def firstBuild : Request := startBuild "67e55044-10b1-426f-9247-bb680e5fe0c8"

def secondBuild : Request := startBuild "67e55044-10b1-426f-9247-bb680e5fe0c9"

def buildStarted (r : Request) : Value := .object [("id", .string r.operation), ("result", .object [])]

def buildRefused (r : Request) : Value := .object [("error", .object []), ("id", .string r.operation)]

def buildExited : Value :=
  .object [("method", .string "process/exited"),
    ("params", .object [("exitCode", .int 0), ("processId", .string "build")])]

/-- The exit is read before the answer to its start, and then the name is used once more. -/
def oneAfterTheOther : List Cue :=
  [.turn firstBuild, .create, .exit (letters 0) "build" buildExited, .answer 0 (buildStarted firstBuild), .collect,
    .collect, .turn secondBuild, .create, .exit (letters 1) "build" buildExited, .collect]

/-- A start that the executor refuses, since a process of its name runs. -/
def oneBesideTheOther : List Cue :=
  [.turn firstBuild, .create, .turn secondBuild, .refuse, .answer 1 (buildRefused secondBuild), .collect,
    .exit (letters 0) "build" buildExited, .collect]

end RemoteCodex.Execution
