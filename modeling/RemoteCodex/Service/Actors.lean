import RemoteCodex.Execution.Handover
import RemoteCodex.Service.Isolation

/-!
# The actors of the service

What is proved of one actor among others that keep to themselves holds of every
actor of the service, since each of the others does: as long as a channel is
open its actor keeps its accounts, and when it is lost nothing more is sent.
-/

namespace RemoteCodex.Service

open Interact Protocol Server
open Execution (Crates Op Ans World Sent Kept Allowed Vouches Vouched Guarded Others Lost Duly Rows Ordinary exec spends
  guarded leaving)

-- ---------------------------------------------------------------------------
-- What others leave of a world
-- ---------------------------------------------------------------------------

section

variable {channel name : String} {s t : Store} {own : Own}

theorem guarded_of_untouched (h : Untouched channel s t) : Guarded channel (own.world s) (own.world t) where
  pending := rfl
  sent := rfl
  log := rfl
  connected hc := hc
  ids := h.ids
  jobs := h.jobs
  operations x := congrArg _ (h.operations x)
  channels := congrArg _ h.row
  events row hrow hc := by
    have hmem : row ∈ Store.eventsOf channel t.execEvents := List.mem_filter.mpr ⟨hrow, decide_eq_true hc⟩
    rw [h.events] at hmem
    exact (List.mem_filter.mp hmem).1
  sequence := h.sequence
  approvals id grant hgrant hc := (h.approvals id grant hc).mpr hgrant
  permissions id grant hgrant hc := (h.permissions id grant hc).mpr hgrant

theorem guarded_prune (ack : Int) : Guarded channel (own.world s) (own.world (s.pruneAcknowledged name ack)) where
  __ := Execution.guarded_refl channel (own.world s)
  channels := by
    simp only [Own.world, Store.pruneAcknowledged]
    cases hrow : s.channels.lookup name with
    | none => rfl
    | some row =>
      rw [Table.lookup_insert_if]
      split
      · next h => rw [h, hrow]; rfl
      · rfl
  events row hrow _ := (List.mem_filter.mp hrow).1

theorem guarded_compact (ack : Int) : Guarded channel (own.world s) (own.world (s.compactOperations name ack)) where
  __ := Execution.guarded_refl channel (own.world s)
  operations x := by
    simp only [Own.world, Store.compactOperations, Table.lookup_update]
    cases s.operations.lookup (channel, x) with
    | none => rfl
    | some op =>
      simp only [Option.map_some]
      split <;> rfl

theorem guarded_died (w : World) : Guarded channel w { w with connected := false } where
  __ := Execution.guarded_refl channel w
  connected := nofun

end

-- ---------------------------------------------------------------------------
-- One actor
-- ---------------------------------------------------------------------------

/-- The accounts of an actor whose channel is open. -/
structure Steady (supply : String → Nat → String) (c : Crates) (x : Handle) (w : World) : Prop where
  kept : Kept x.who.channel w
  vouches : Vouches c x.who.channel x.runtime x.taken w
  rest : x.rest.Sat (guarded (supply x.who.channel) x.who.channel)
    (fun op a b => (∃ task, Duly x.who.channel task op a) ∧
      (Vouches c x.who.channel x.runtime x.taken a → Vouches c x.who.channel x.runtime x.taken b))
    (fun r t => r = .ok true → Rows x.who.channel x.taken t) w

/-- What the executor was given, which is so also when the evidence is gone. -/
structure Once (c : Crates) (x : Handle) : Prop where
  requests : (x.own.sent.filterMap Sent.operation).Nodup
  approvals : ∀ id, (x.own.sent.filter (spends x.taken id)).length ≤ 1
  messages : ∀ e ∈ x.own.sent, ∀ operation, e.operation = some operation → ∃ r ∈ x.taken, r.operation = operation ∧
    e.message = r.handed ∧ Allowed c x.runtime x.who.channel r.operation r.approval r.permissions r.message

structure Upright (supply : String → Nat → String) (c : Crates) (store : Store) (x : Handle) : Prop where
  once : Once c x
  seals : x.rest.Seals Op.closes Op.settles
  goes : x.rest.Sat (leaving (supply x.who.channel) x.who.channel) (fun _ _ _ => True)
    (fun r t => r = .ok true → ¬ Lost x.who.channel t.store) (x.own.world store)
  settled : Lost x.who.channel store → x.rest.Every Op.settles
  steady : ¬ Lost x.who.channel store → Steady supply c x (x.own.world store)

section

variable {supply : String → Nat → String} {c : Crates} {identity : String} {s t : State} {store store' : Store}
  {acts : List (String × Touch)} {x x' : Handle} {e : Event} {k : Nat} {channel : String} {w w' : World}

theorem guarded_trans {u v w : World} (h : Guarded channel u v) (h' : Guarded channel v w) : Guarded channel u w where
  toOthers := h.toOthers.trans h'.toOthers
  approvals id grant hgrant hc := h'.approvals id grant (h.approvals id grant hgrant hc) hc
  permissions id grant hgrant hc := h'.permissions id grant (h.permissions id grant hgrant hc) hc

theorem Steady.others (h : Steady supply c x w) (hg : Guarded x.who.channel w w') : Steady supply c x w' where
  kept := h.kept.others hg.toOthers
  vouches := h.vouches.guarded hg
  rest := Prog.Sat.stable (fun _ _ _ => guarded_trans)
    (fun _ _ _ hr hrows hr' => Execution.lasting_rows _ _ _ hr.grown (hrows hr')) h.rest hg

theorem Steady.once (h : Steady supply c x (x.own.world store)) : Once c x := by
  refine ⟨h.kept.requests, Execution.spent_once h.kept h.vouches, fun e he operation hoperation => ?_⟩
  have hv := h.vouches e he
  simp only [Execution.Vouched, hoperation] at hv
  obtain ⟨r, hfirst, hmessage, hallowed, -⟩ := hv
  have hsame : r.operation = operation := by simpa using List.find?_some hfirst
  exact ⟨r, List.mem_of_find?_eq_some hfirst, hsame, hmessage, hallowed⟩

/-- What was sent is the same. -/
theorem Once.of_sent (h : Once c x) (hwho : x'.who = x.who) (hruntime : x'.runtime = x.runtime)
    (htaken : x'.taken = x.taken) (hsent : x'.own.sent = x.own.sent) : Once c x' := by
  refine ⟨hsent ▸ h.requests, by rw [hsent, htaken]; exact h.approvals, ?_⟩
  rw [hwho, hruntime, htaken, hsent]
  exact h.messages

theorem Upright.moves (h : Upright supply c store x) (hlost : Lost x.who.channel store' ↔ Lost x.who.channel store)
    (hguarded : ¬ Lost x.who.channel store → Guarded x.who.channel (x.own.world store) (x.own.world store')) :
    Upright supply c store' x where
  once := h.once
  seals := h.seals
  goes := by
    refine Prog.Sat.stable (fun _ _ _ h h' => h'.trans h) (fun _ _ _ hr hq hr' hlost => hq hr' (hr.mp hlost)) h.goes ?_
    exact hlost
  settled hl := h.settled (hlost.mp hl)
  steady hl := (h.steady fun hl' => hl (hlost.mpr hl')).others (hguarded fun hl' => hl (hlost.mpr hl'))

theorem Upright.guarded (h : Upright supply c store x)
    (hg : Guarded x.who.channel (x.own.world store) (x.own.world store')) : Upright supply c store' x := by
  have hstate : Lost x.who.channel store' ↔ Lost x.who.channel store := iff_of_eq (congrArg (· = _) hg.channels)
  exact h.moves hstate fun _ => hg

theorem Upright.untouched (h : Upright supply c store x) (huntouched : Untouched x.who.channel store store') :
    Upright supply c store' x := h.guarded (guarded_of_untouched huntouched)

theorem Upright.queue (h : Upright supply c store x) (queue : List Input) : Upright supply c store { x with queue } :=
  ⟨h.once.of_sent rfl rfl rfl rfl, h.seals, h.goes, h.settled, fun hl => ⟨(h.steady hl).kept, (h.steady hl).vouches, (h.steady hl).rest⟩⟩

/-- A request that is taken later changes nothing of what was sent. -/
theorem vouches_append {requests more : List Execution.Request} {runtime : Execution.Runtime}
    (h : Vouches c channel runtime requests w) : Vouches c channel runtime (requests ++ more) w := by
  intro e he
  have hv := h e he
  unfold Execution.Vouched at hv ⊢
  split at hv
  · obtain ⟨r, hfirst, hrest⟩ := hv
    exact ⟨r, by rw [List.find?_append, hfirst]; rfl, hrest⟩
  · exact hv

/-- The rest of a turn. -/
theorem steady_turn {event : Execution.Event} {outputs : List Value} (h : Steady supply c x w)
    (hrows : Rows x.who.channel x.taken w) (hx : ∀ r, event.request = some r → Ordinary r.operation)
    (htaken : x'.taken = x.taken ++ event.request.toList) (hwho : x'.who = x.who) (hruntime : x'.runtime = x.runtime)
    (hrest : x'.rest = (Execution.turn c x.who x.runtime event outputs).run) : Steady supply c x' w := by
  have hvouching : Execution.Vouching (supply x.who.channel) c x.who.channel x.runtime (x.taken ++ event.request.toList)
      (Execution.turn c x.who x.runtime event outputs) w
      fun goesOn t => goesOn = true → Rows x.who.channel (x.taken ++ event.request.toList) t :=
    Execution.vouching_turn event outputs (List.append_nil _).symm hrows
  have hdutiful : Execution.Dutiful (supply x.who.channel) x.who.channel
      (Execution.turn c x.who x.runtime event outputs) w := Execution.dutiful_turn event outputs h.kept hx
  have hnarrow := Prog.Sat.narrow hdutiful fun _ _ (hg : Guarded x.who.channel _ _) => hg.toOthers
  refine ⟨by rw [hwho]; exact h.kept, by rw [hwho, hruntime, htaken]; exact vouches_append h.vouches, ?_⟩
  rw [hwho, hruntime, htaken, hrest]
  refine Prog.Sat.mono (fun _ _ _ h => h) (fun r t hr => ?_) (Prog.Sat.and hnarrow hvouching)
  rintro rfl
  exact hr.2 rfl

/-- An execution that is at no turn begins one. -/
theorem Upright.begin (h : Upright supply c store x) (hrest : x.rest = .done (.ok true)) {event : Execution.Event}
    {outputs : List Value} (hx : ∀ r, event.request = some r → Ordinary r.operation) :
    Upright supply c store (x.begin c event outputs) := by
  have hopen : ¬ Lost x.who.channel store := by
    have hgoes := h.goes
    rw [hrest] at hgoes
    exact hgoes rfl
  have hrows : Rows x.who.channel x.taken (x.own.world store) := by
    have hsteady := (h.steady hopen).rest
    rw [hrest] at hsteady
    exact hsteady rfl
  have htaken : (x.begin c event outputs).taken = x.taken ++ event.request.toList := by
    cases event <;> simp [Handle.begin, Execution.Event.request]
  have hsteady : Steady supply c (x.begin c event outputs) (x.own.world store) :=
    steady_turn (h.steady hopen) hrows hx htaken rfl rfl rfl
  refine ⟨hsteady.once, Execution.sealed_turn c x.who x.runtime event outputs, ?_, fun hl => absurd hl hopen,
    fun _ => hsteady⟩
  refine Prog.Sat.mono (fun _ _ _ h => h) (fun r t hr => ?_)
    (Execution.open_turn c x.who x.runtime event outputs hopen)
  rintro rfl
  exact hr rfl

theorem Upright.take (h : Upright supply c store x) (hmanned : Manned supply store acts x)
    (hrest : x.rest = .done (.ok true)) {cue : Cue} {outputs : List Value} (htake : x.take c outputs cue = some x') :
    Upright supply c store x' := by
  cases cue with
  | input =>
    simp only [Handle.take] at htake
    split at htake
    · cases htake
    · next input queue hqueue =>
      have hqueued := h.queue queue
      split at htake <;> cases htake
      · next event hevent =>
        refine hqueued.begin hrest fun r hr => ?_
        have hinput : input = .execute r := by
          cases input <;> cases hevent <;> cases hr
          rfl
        have huuid := (hmanned.heard r (.inr (by rw [hqueue, hinput]; exact List.mem_cons_self))).1
        exact Execution.ordinary_of_parseUuid huuid
      · exact hqueued
  | _ =>
    obtain rfl := Option.some.inj htake
    exact h.begin hrest (by rintro _ ⟨⟩)

theorem Upright.act (h : Upright supply c store x) {op : Op} {next : Ans op → Prog Op Ans (Except Fault Bool)}
    (hrest : x.rest = .call op next) :
    Upright supply c (exec (supply x.who.channel) op (x.own.world store)).2.store
      { x with
        own := .of (exec (supply x.who.channel) op (x.own.world store)).2
        rest := next (exec (supply x.who.channel) op (x.own.world store)).1 } := by
  obtain ⟨honce, hseals, hgoes, hsettled, hsteady⟩ := h
  rw [hrest] at hseals hgoes hsettled
  have hnext := (Prog.Sat.step (fun _ => Iff.rfl) hgoes).2
  by_cases hlost : Lost x.who.channel store
  · have hop := (hsettled hlost).1
    have hsent : (exec (supply x.who.channel) op (x.own.world store)).2.sent = x.own.sent := by
      rcases Execution.sent_cases (supply x.who.channel) op (x.own.world store) with hsame | ⟨e, rfl, -, -⟩
      · exact hsame
      · cases hop
    have hstate : Lost x.who.channel (exec (supply x.who.channel) op (x.own.world store)).2.store := by
      have hname : ∀ name, op ≠ .closeChannel name := by
        rintro name rfl
        cases hop
      rw [Lost, Execution.state_exec hname]
      exact hlost
    exact ⟨honce.of_sent rfl rfl rfl hsent, (hseals _).1, hnext, fun _ => (hsettled hlost).2 _, fun hl => absurd hstate hl⟩
  · obtain ⟨hkept, hvouches, hsat⟩ := hsteady hlost
    rw [hrest] at hsat
    obtain ⟨⟨⟨task, hduly⟩, hkeeps⟩, hthen⟩ := Prog.Sat.step (Execution.guarded_refl x.who.channel) hsat
    have hafter : Steady supply c
        { x with
          own := .of (exec (supply x.who.channel) op (x.own.world store)).2
          rest := next (exec (supply x.who.channel) op (x.own.world store)).1 }
        (exec (supply x.who.channel) op (x.own.world store)).2 := ⟨hkept.exec hduly, hkeeps hvouches, hthen⟩
    refine ⟨Steady.once hafter, (hseals _).1, hnext, fun hl => ?_, fun _ => hafter⟩
    refine (hseals _).2 ?_
    cases op with
    | closeChannel name => trivial
    | _ =>
      rw [Lost, Execution.state_exec (by nofun)] at hl
      exact absurd hl hlost

-- ---------------------------------------------------------------------------
-- Every actor
-- ---------------------------------------------------------------------------

theorem opened_create {profile : String} {revision : Int} (h : Housed supply s)
    (hok : store.createChannel channel profile revision = .ok store') (hstore : store = s.store) :
    Execution.Opened channel (Own.world {} store') := by
  have hblank : Untouched channel {} store := hstore ▸ h.blank channel (hstore ▸ (keeps_createChannel hok).1)
  have hids : (store.jobs.map Job.id).Nodup := hstore ▸ h.ids
  unfold Store.createChannel at hok
  split at hok <;> cases hok
  refine ⟨rfl, rfl, rfl, hids, fun job hjob hc => ?_, hblank.operations, fun row hrow hc => ?_, ?_⟩
  · cases (hblank.mem_jobs hc).mp hjob
  · have hmem : row ∈ Store.eventsOf channel store.execEvents := List.mem_filter.mpr ⟨hrow, decide_eq_true hc⟩
    rw [hblank.events] at hmem
    cases hmem
  · simp only [Own.world, AList.lookup_insert, Option.map_some]

theorem Upright.opened (hchannel : x.who.channel = channel) (hown : x.own = {}) (hrest : x.rest = .done (.ok true))
    (htaken : x.taken = []) (hopened : Execution.Opened channel (Own.world {} store)) : Upright supply c store x := by
  subst hchannel
  have hopen : ¬ Lost x.who.channel store := by
    intro hl
    cases hl.symm.trans hopened.state
  have hrunning : Execution.Running (supply x.who.channel) x.who.channel { world := Own.world {} store } :=
    Execution.running_opened hopened
  have hkept : Kept x.who.channel (Own.world {} store) := hrunning.kept
  have hsteady : Steady supply c x (x.own.world store) := by
    refine ⟨by rw [hown]; exact hkept, ?_, ?_⟩
    · rw [hown]
      exact nofun
    · rw [hrest, htaken]
      exact fun _ => nofun
  refine ⟨hsteady.once, ?_, ?_, fun hl => absurd hl hopen, fun _ => hsteady⟩
  · rw [hrest]
    trivial
  · rw [hrest]
    exact fun _ => hopen

theorem lost_retireChannel (store : Store) (name : String) :
    Lost channel (store.retireChannel name) ↔ Lost channel store := by
  cases hrow : store.channels.lookup name with
  | none => simp only [Lost, Store.retireChannel, hrow]
  | some row =>
    simp only [Lost, Store.retireChannel, hrow, Table.lookup_insert_if]
    split
    · next h =>
      rw [h, hrow]
      rfl
    · rfl

theorem lost_retireClosedEvidence (store : Store) (newest : List String) :
    Lost channel (store.retireClosedEvidence newest) ↔ Lost channel store := by
  unfold Store.retireClosedEvidence
  generalize store.expired newest = channels
  induction channels generalizing store with
  | nil => rfl
  | cons name channels ih => exact (ih _).trans (lost_retireChannel store name)

/-- A channel of an earlier start is lost. -/
theorem lost_reopen {owner : String} (h : ownerOf store channel = some owner) (reason : String) :
    Lost channel (store.reopen reason) := by
  obtain ⟨row, hrow, -⟩ := Option.map_eq_some_iff.mp h
  simp only [Lost, Store.reopen, Table.lookup_update]
  refine (congrArg (fun row => (Option.map _ row).map Channel.state) hrow).trans ?_
  rw [Option.map_some, Option.map_some]
  split
  · rfl
  · next hstate =>
    cases hs : row.state with
    | running => exact absurd hs hstate
    | lost => rfl

theorem Upright.restarted (h : Upright supply c store x) (hmanned : Manned supply store acts x) (reason : String) :
    Upright supply c (store.reopen reason)
      { x with alive := false, queue := [], rest := .done (.ok false), own := { x.own with connected := false } } :=
  ⟨h.once.of_sent rfl rfl rfl rfl, trivial, nofun, fun _ => trivial, fun hl => absurd (lost_reopen hmanned.owner reason) hl⟩

theorem upright_next (h : Sound supply s) (hu : ∀ x ∈ s.executions, Upright supply c s.store x)
    (hturned : Turned supply c s e t) : ∀ x ∈ t.executions, Upright supply c t.store x := by
  have hset : ∀ {k x x'}, s.executions[k]? = some x → t.executions = s.executions.set k x' →
      Upright supply c t.store x' → (∀ y ∈ s.executions, x.who.channel ≠ y.who.channel → Upright supply c t.store y) →
      ∀ y ∈ t.executions, Upright supply c t.store y := by
    intro k x x' hx hexecutions hx' hothers y hy
    obtain ⟨j, hj⟩ := List.mem_iff_getElem?.mp hy
    rw [hexecutions, List.getElem?_set] at hj
    split at hj
    · split at hj <;> cases hj
      exact hx'
    · next hne =>
      refine hothers y (List.mem_of_getElem? hj) fun hsame => hne ?_
      have hlt : k < (s.executions.map fun x => x.who.channel).length := by
        rw [List.length_map]
        exact (List.getElem?_eq_some_iff.mp hx).1
      refine (List.getElem?_inj hlt h.executors).mp ?_
      rw [List.getElem?_map, List.getElem?_map, hx, hj, Option.map_some, Option.map_some, hsame]
  cases hturned with
  | queued hstore hqueued =>
    intro y hy
    obtain ⟨k, hk⟩ := List.mem_iff_getElem?.mp hy
    have hlt : k < s.executions.length := hqueued.length ▸ (List.getElem?_eq_some_iff.mp hk).1
    obtain ⟨inputs, hx', -⟩ := hqueued.inputs k _ (List.getElem?_eq_getElem hlt)
    obtain rfl := Option.some.inj (hk.symm.trans hx')
    rw [hstore]
    exact (hu _ (List.getElem_mem hlt)).queue _
  | pruned conn channel ack _ _ _ _ hexecutions hstore =>
    intro y hy
    rw [hexecutions] at hy
    rw [hstore]
    exact (hu y hy).guarded (guarded_prune ack)
  | compacted conn channel ack _ _ _ _ hexecutions hstore =>
    intro y hy
    rw [hexecutions] at hy
    rw [hstore]
    exact (hu y hy).guarded (guarded_compact ack)
  | retired newest hexecutions hstore =>
    intro y hy
    rw [hexecutions] at hy
    rw [hstore]
    exact (hu y hy).moves (lost_retireClosedEvidence s.store newest) fun hopen =>
      guarded_of_untouched (.retireClosedEvidence s.store newest hopen)
  | opened channel profile revision runtime selected _ hok hexecutions =>
    intro y hy
    rw [hexecutions] at hy
    rcases List.mem_append.mp hy with hy | hy
    · have howner := (h.manned y hy).owner
      refine (hu y hy).untouched (.createChannel ?_ hok)
      rintro rfl
      cases (keeps_createChannel hok).1.symm.trans howner
    · cases List.mem_singleton.mp hy
      exact .opened rfl rfl rfl rfl (opened_create h.toHoused hok rfl)
  | taken k x x' cue outputs hx _ hrest htake hstore hexecutions =>
    have hmem : x ∈ s.executions := List.mem_of_getElem? hx
    refine hset hx hexecutions ?_ fun y hy _ => by rw [hstore]; exact hu y hy
    rw [hstore]
    exact (hu x hmem).take (h.manned x hmem) hrest htake
  | acted k x op next hx _ hrest hstore hexecutions =>
    have hmem : x ∈ s.executions := List.mem_of_getElem? hx
    refine hset hx hexecutions ?_ fun y hy hother => ?_
    · rw [hstore]
      exact (hu x hmem).act hrest
    · rw [hstore]
      have hmanned := h.manned x hmem
      exact (hu y hy).untouched (Execution.untouched_exec hmanned.held (hmanned.act hrest).1 hother)
  | finished k x r hx _ _ hstore hexecutions =>
    refine hset hx hexecutions ?_ fun y hy _ => by rw [hstore]; exact hu y hy
    rw [hstore]
    obtain ⟨honce, hseals, hgoes, hsettled, hsteady⟩ := hu x (List.mem_of_getElem? hx)
    exact ⟨honce.of_sent rfl rfl rfl rfl, hseals, hgoes, hsettled,
      fun hl => ⟨(hsteady hl).kept, (hsteady hl).vouches, (hsteady hl).rest⟩⟩
  | died k x hx _ hstore hexecutions =>
    refine hset hx hexecutions ?_ fun y hy _ => by rw [hstore]; exact hu y hy
    rw [hstore]
    obtain ⟨honce, hseals, hgoes, hsettled, hsteady⟩ := hu x (List.mem_of_getElem? hx)
    refine ⟨honce.of_sent rfl rfl rfl rfl, hseals, ?_, hsettled, fun hl => ?_⟩
    · exact Prog.Sat.stable (fun _ _ _ h h' => h'.trans h) (fun _ _ _ hr hq hr' hlost => hq hr' (hr.mp hlost)) hgoes Iff.rfl
    · obtain ⟨hkept, hvouches, hrest⟩ := (hsteady hl).others (guarded_died _)
      exact ⟨hkept, hvouches, hrest⟩
  | restarted reason _ heq =>
    subst heq
    intro y hy
    obtain ⟨x, hx, rfl⟩ := List.mem_map.mp hy
    exact (hu x hx).restarted (h.manned x hx) reason

theorem upright_of_run {C : State → Event → Prop} {events : List Event}
    (hrun : Run (State.next supply c identity) C {} events s) :
    Sound supply s ∧ ∀ x ∈ s.executions, Upright supply c s.store x := by
  have hstart : Run (State.next supply c identity) C {} [] {} := .start
  have hempty : Sound supply {} := sound_of_run hstart
  refine hrun.invariant (I := fun s => Sound supply s ∧ ∀ x ∈ s.executions, Upright supply c s.store x)
    ⟨hempty, nofun⟩ ?_
  rintro s e t ⟨hs, hu⟩ - hn
  exact ⟨hs.next hn, upright_next hs hu (next_step hn).2⟩

/-- Whatever calls are made, in whatever order the actors get to their
operations, and wherever the service stops and starts: a message that an
executor was given is that of a request its channel's owner has sent, and has
authority; none was handed over twice, and no approval was used twice. Until the
channel is lost, the store has what the message goes back to. -/
theorem accountable {C : State → Event → Prop} {events : List Event}
    (hrun : Run (State.next supply c identity) C {} events s) : ∀ x ∈ s.executions,
    (x.own.sent.filterMap Sent.operation).Nodup ∧ (∀ id, (x.own.sent.filter (spends x.taken id)).length ≤ 1) ∧
      (∀ e ∈ x.own.sent, ∀ operation, e.operation = some operation →
        ∃ r, (x.who.profile, .executes x.who.channel r) ∈ s.acts ∧ r.operation = operation ∧ e.message = r.handed ∧
          Allowed c x.runtime x.who.channel r.operation r.approval r.permissions r.message) ∧
      (¬ Lost x.who.channel s.store → ∀ e ∈ x.own.sent,
        Vouched c x.who.channel x.runtime x.taken e (x.own.world s.store)) := by
  obtain ⟨hsound, hu⟩ := upright_of_run hrun
  intro x hx
  obtain ⟨honce, -, -, -, hsteady⟩ := hu x hx
  refine ⟨honce.requests, honce.approvals, fun e he operation hoperation => ?_, fun hl => (hsteady hl).vouches⟩
  obtain ⟨r, hr, hsame, hmessage, hallowed⟩ := honce.messages e he operation hoperation
  exact ⟨r, ((hsound.manned x hx).heard r (.inl hr)).2, hsame, hmessage, hallowed⟩

/-- The approval a message of an open channel has spent is on record for that channel. -/
theorem approval_of_spends {requests : List Execution.Request} {runtime : Execution.Runtime} {id : String} {e : Sent}
    (hv : Vouched c channel runtime requests e w) (h : spends requests id e = true) :
    ∃ grant, w.store.approvals.lookup id = some grant ∧ grant.channel = channel := by
  unfold Vouched at hv
  split at hv
  · next x hx =>
    obtain ⟨r, hfirst, -, hallowed, hevidence⟩ := hv
    simp only [spends, hx, Option.bind_some, hfirst, Option.any_eq_true, decide_eq_true_eq] at h
    obtain ⟨grant, hgrant, rfl⟩ := h
    exact ⟨grant, hevidence.approval grant hgrant, (hallowed.approves grant hgrant).channel⟩
  · next hnone => simp [spends, hnone] at h

/-- Of all the messages that the executors of open channels were given, one at most has used an approval. -/
theorem spent_by_one {C : State → Event → Prop} {events : List Event}
    (hrun : Run (State.next supply c identity) C {} events s) {y : Handle} {id : String} {e e' : Sent}
    (hx : x ∈ s.executions) (hy : y ∈ s.executions) (hopen : ¬ Lost x.who.channel s.store)
    (hopen' : ¬ Lost y.who.channel s.store) (he : e ∈ x.own.sent) (he' : e' ∈ y.own.sent)
    (hspends : spends x.taken id e = true) (hspends' : spends y.taken id e' = true) : x = y ∧ e = e' := by
  obtain ⟨hsound, hu⟩ := upright_of_run hrun
  obtain ⟨grant, hgrant, hchannel⟩ := approval_of_spends (((hu x hx).steady hopen).vouches e he) hspends
  obtain ⟨grant', hgrant', hchannel'⟩ := approval_of_spends (((hu y hy).steady hopen').vouches e' he') hspends'
  obtain rfl : grant = grant' := Option.some.inj (hgrant.symm.trans hgrant')
  obtain rfl : x = y := List.inj_on_of_nodup_map hsound.executors hx hy (hchannel.symm.trans hchannel')
  refine ⟨rfl, ?_⟩
  have hmem : e ∈ x.own.sent.filter (spends x.taken id) := List.mem_filter.mpr ⟨he, hspends⟩
  have hmem' : e' ∈ x.own.sent.filter (spends x.taken id) := List.mem_filter.mpr ⟨he', hspends'⟩
  obtain ⟨only, honly⟩ := List.length_eq_one_iff.mp
    (Nat.le_antisymm ((hu x hx).once.approvals id) (List.length_pos_of_mem hmem))
  rw [honly, List.mem_singleton] at hmem hmem'
  exact hmem.trans hmem'.symm

def approvedChannel : String := "67e55044-10b1-426f-9247-bb680e5fe0c9"

/-- A command that its owner has approved of. -/
def approvedMake : Execution.Request where
  operation := Execution.firstBuild.operation
  message := .object [("id", .int 1), ("method", .string "process/start"),
    ("params", .object [("argv", .array [.string "make"]), ("cwd", .string "/"),
      ("env", .object [("CODEX_THREAD_ID", .string "thread")]), ("processId", .string "build")])]
  approval := some ⟨Execution.firstBuild.operation, approvedChannel, "thread", "turn", "item", ["make"], "/"⟩

def approvedRun : List Event :=
  [.call ⟨4, "work", none, .openExecution approvedChannel ⟨"1", "linux", ""⟩ 1 []⟩, .lock 0, .owner 0, .prepare 0 {} 1 [],
    .create 0, .call ⟨4, "work", some "here", .attachExecution approvedChannel 0⟩, .owner 1, .look 1, .hand 1,
    .execute 1 approvedMake, .take 0 .input [], .take 0 .input []] ++ List.replicate 9 (.act 0)

theorem accountable_approved : ∃ s x,
    Run (State.next (fun channel n => channel ++ letters n) Execution.plain "here") Free {} approvedRun.reverse s ∧
    x ∈ s.executions ∧ x.own.sent.length = 1 ∧ (x.own.sent.filterMap Sent.operation).Nodup := by
  have hplay : (play (State.next (fun channel n => channel ++ letters n) Execution.plain "here") Free {}
      approvedRun).map (fun s => s.executions.map fun x => x.own.sent.length) = some [1] := by decide +kernel
  obtain ⟨s, hs, hsent⟩ := Option.map_eq_some_iff.mp hplay
  obtain ⟨x, hx, hlen⟩ := List.map_eq_singleton_iff.mp hsent
  have hmem : x ∈ s.executions := by
    rw [hx]
    exact List.mem_singleton_self x
  exact ⟨s, x, run_of_play_list hs, hmem, hlen, (accountable (run_of_play_list hs) x hmem).1⟩

theorem spent_by_one_approved : ∃ s x e,
    Run (State.next (fun channel n => channel ++ letters n) Execution.plain "here") Free {} approvedRun.reverse s ∧
    x ∈ s.executions ∧ e ∈ x.own.sent ∧ spends x.taken Execution.firstBuild.operation e = true ∧
    ∀ y ∈ s.executions, ¬ Lost y.who.channel s.store → ∀ e' ∈ y.own.sent,
      spends y.taken Execution.firstBuild.operation e' = true → x = y ∧ e = e' := by
  have hplay : (play (State.next (fun channel n => channel ++ letters n) Execution.plain "here") Free {}
      approvedRun).map (fun s => s.executions.map fun x =>
        ((s.store.channels.lookup x.who.channel).map Channel.state,
          x.own.sent.map (spends x.taken Execution.firstBuild.operation))) = some [(some .running, [true])] := by decide +kernel
  obtain ⟨s, hs, hsent⟩ := Option.map_eq_some_iff.mp hplay
  obtain ⟨x, hx, hboth⟩ := List.map_eq_singleton_iff.mp hsent
  obtain ⟨hstate, hspent⟩ := Prod.mk.inj hboth
  obtain ⟨e, he, hspends⟩ := List.map_eq_singleton_iff.mp hspent
  have hmem : x ∈ s.executions := by
    rw [hx]
    exact List.mem_singleton_self x
  have hmem' : e ∈ x.own.sent := by
    rw [he]
    exact List.mem_singleton_self e
  have hopen : ¬ Lost x.who.channel s.store := by
    intro hl
    cases hl.symm.trans hstate
  refine ⟨s, x, e, run_of_play_list hs, hmem, hmem', hspends, fun y hy hopen' e' he' hspends' => ?_⟩
  exact spent_by_one (run_of_play_list hs) hmem hy hopen hopen' hmem' he' hspends hspends'

end

end RemoteCodex.Service
