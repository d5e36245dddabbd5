import RemoteCodex.Execution.Jobs
import RemoteCodex.Service.Owners
import RemoteCodex.Service.Steps

/-!
# Profiles are kept apart

Calls of any profiles come in any order, and the actors of all channels carry
out their operations one at a time among them. What is done for a profile is
done with channels and jobs of its own, and a channel has one executor, ever.
-/

namespace RemoteCodex.Service

open Interact Protocol Server
open Execution (Crates Op Ans World exec JobIn Mates Held Proper housed)

/-- What is done with the profile's own. -/
def Rightful (store : Store) (profile : String) : Touch → Prop
  | .outputs row => ∃ job ∈ store.jobs, job.id = row.job ∧ job.profile = profile
  | touch => ∃ channel, touch.channel = some channel ∧ ownerOf store channel = some profile

/-- What a connection knows. -/
structure Linked (s : State) (conn : Connection) : Prop where
  owned : conn.stage = .owned → ∀ channel, conn.call.request.channel = some channel →
    ownerOf s.store channel = some conn.call.profile
  told : conn.stage = .told → ∀ id after, conn.call.request = .jobOutput id after →
    ∃ job ∈ s.store.jobs, job.id = id ∧ job.profile = conn.call.profile
  execution : ∀ k, conn.stage.execution = some k → ∀ channel, conn.call.request.channel = some channel →
    ∃ x, s.executions[k]? = some x ∧ x.who = ⟨channel, conn.call.profile⟩

/-- The owner of an execution's channel is whom it works for, and it works for nobody else. -/
structure Manned (supply : String → Nat → String) (store : Store) (acts : List (String × Touch)) (x : Handle) :
    Prop where
  owner : ownerOf store x.who.channel = some x.who.profile
  heard : ∀ r, r ∈ x.taken ∨ .execute r ∈ x.queue →
    parseUuid r.operation = true ∧ (x.who.profile, .executes x.who.channel r) ∈ acts
  held : Held x.who.channel (x.own.world store)
  rest : x.rest.Sat (housed (supply x.who.channel) x.who.channel) (fun op w _ => Proper x.who op w)
    (fun _ => Held x.who.channel) (x.own.world store)

/-- What holds of the store and of the executions. -/
structure Housed (supply : String → Nat → String) (s : State) : Prop where
  blank : ∀ channel, ownerOf s.store channel = none → Untouched channel {} s.store
  ids : (s.store.jobs.map Job.id).Nodup
  jobs : ∀ job ∈ s.store.jobs, ownerOf s.store job.channel = some job.profile
  executors : (s.executions.map fun x => x.who.channel).Nodup
  manned : ∀ x ∈ s.executions, Manned supply s.store s.acts x

structure Sound (supply : String → Nat → String) (s : State) : Prop extends Housed supply s where
  live : ∀ channel k, s.live.lookup channel = some k → ∃ x, s.executions[k]? = some x ∧ x.who.channel = channel
  linked : ∀ conn ∈ s.connections, Linked s conn
  acts : ∀ act ∈ s.acts, Rightful s.store act.1 act.2

section

variable {supply : String → Nat → String} {c : Crates} {identity : String} {s t : State} {store store' : Store}
  {acts acts' : List (String × Touch)} {x x' : Handle} {e : Event} {k : Nat} {conn : Connection} {channel : String}

-- ---------------------------------------------------------------------------
-- One execution
-- ---------------------------------------------------------------------------

theorem Mates.trans {u v w : World} (h : Mates channel u v) (h' : Mates channel v w) : Mates channel u w :=
  ⟨h'.pending.trans h.pending, fun hd => h'.ids (h.ids hd), fun j hj => h'.jobs j (h.jobs j hj)⟩

theorem Mates.refl (channel : String) (w : World) : Mates channel w w := ⟨rfl, id, fun _ => id⟩

/-- What has become of the others changes nothing. -/
theorem Manned.others (h : Manned supply store acts x) (hkeeps : Keeps store store')
    (hids : (store'.jobs.map Job.id).Nodup) (hacts : ∀ act ∈ acts, act ∈ acts') :
    Manned supply store' acts' x := by
  have hmates : Mates x.who.channel (x.own.world store) (x.own.world store') := hkeeps.mates rfl hids
  refine ⟨hkeeps.owners _ _ h.owner, fun r hr => ?_, h.held.mates hmates, ?_⟩
  · obtain ⟨huuid, hact⟩ := h.heard r hr
    exact ⟨huuid, hacts _ hact⟩
  · exact Prog.Sat.stable (fun _ _ _ => Mates.trans) (fun _ _ _ hm hheld => hheld.mates hm) h.rest hmates

theorem Manned.queue (h : Manned supply store acts x) {queue : List Input}
    (hqueue : ∀ r, .execute r ∈ queue → .execute r ∈ x.queue ∨
      parseUuid r.operation = true ∧ (x.who.profile, .executes x.who.channel r) ∈ acts) :
    Manned supply store acts { x with queue } := by
  refine ⟨h.owner, fun r hr => ?_, h.held, h.rest⟩
  rcases hr with hr | hr
  · exact h.heard r (.inl hr)
  · rcases hqueue r hr with hr | hr
    · exact h.heard r (.inr hr)
    · exact hr

/-- An execution begins a turn. -/
theorem Manned.begin (h : Manned supply store acts x) {event : Execution.Event} {outputs : List Value}
    (hevent : ∀ r, event = .execute r →
      parseUuid r.operation = true ∧ (x.who.profile, .executes x.who.channel r) ∈ acts) :
    Manned supply store acts (x.begin c event outputs) := by
  refine ⟨h.owner, fun r hr => ?_, h.held, ?_⟩
  · rcases hr with hr | hr
    · simp only [Handle.begin] at hr
      split at hr
      · next r' =>
        rcases List.mem_append.mp hr with hr | hr
        · exact h.heard r (.inl hr)
        · obtain rfl := List.mem_singleton.mp hr
          exact hevent r rfl
      · exact h.heard r (.inl hr)
    · exact h.heard r (.inr hr)
  · refine Prog.Sat.mono (fun _ _ _ h => h) ?_ (Execution.owning_turn event outputs h.held)
    rintro (error | next) w hw
    · exact hw
    · exact hw.1

theorem Manned.take (h : Manned supply store acts x) {cue : Cue} {outputs : List Value}
    (htake : x.take c outputs cue = some x') : Manned supply store acts x' ∧ x'.who = x.who := by
  cases cue with
  | input =>
    simp only [Handle.take] at htake
    split at htake
    · cases htake
    · next input queue hqueue =>
      have hrest : Manned supply store acts { x with queue } :=
        h.queue fun r hr => .inl (by rw [hqueue]; exact List.mem_cons_of_mem _ hr)
      split at htake <;> cases htake
      · next event hevent =>
        refine ⟨hrest.begin fun r hr => ?_, rfl⟩
        subst hr
        have hinput : input = .execute r := by
          cases input <;> cases hevent
          rfl
        exact h.heard r (.inr (by rw [hqueue, hinput]; exact List.mem_cons_self))
      · exact ⟨hrest, rfl⟩
  | _ =>
    obtain rfl := Option.some.inj htake
    exact ⟨h.begin (by nofun), rfl⟩

/-- An execution carries out an operation. -/
theorem Manned.act (h : Manned supply store acts x) {op : Op} {next : Ans op → Prog Op Ans (Except Fault Bool)}
    (hrest : x.rest = .call op next) :
    Proper x.who op (x.own.world store) ∧
      Manned supply (exec (supply x.who.channel) op (x.own.world store)).2.store acts
        { x with
          own := .of (exec (supply x.who.channel) op (x.own.world store)).2
          rest := next (exec (supply x.who.channel) op (x.own.world store)).1 } := by
  have hsat := h.rest
  rw [hrest] at hsat
  obtain ⟨hown, hnext⟩ := Prog.Sat.step (Mates.refl x.who.channel) hsat
  exact ⟨hown, (keeps_exec _ op _).owners _ _ h.owner, h.heard, h.held.exec hown, hnext⟩

-- ---------------------------------------------------------------------------
-- Store and executions
-- ---------------------------------------------------------------------------

theorem channels_set {xs ys : List Handle} (hx : xs[k]? = some x) (hys : ys = xs.set k x') (hwho : x'.who = x.who) :
    (ys.map fun x => x.who.channel) = xs.map fun x => x.who.channel := by
  rw [hys, List.map_set, hwho]
  refine List.ext_getElem? fun i => ?_
  rw [List.getElem?_set]
  split
  · next hi =>
    subst hi
    rw [List.getElem?_map, hx]
    simp [(List.getElem?_eq_some_iff.mp hx).1]
  · rfl

/-- The jobs stay those of their channels' owners. -/
theorem jobs_of_tags (hkeeps : Keeps store store') (htags : store'.jobs.map tag = store.jobs.map tag)
    (h : ∀ job ∈ store.jobs, ownerOf store job.channel = some job.profile) :
    ∀ job ∈ store'.jobs, ownerOf store' job.channel = some job.profile := by
  intro job hjob
  have hmem : tag job ∈ store.jobs.map tag := htags ▸ List.mem_map_of_mem hjob
  obtain ⟨old, hold, heq⟩ := List.mem_map.mp hmem
  have hc : old.channel = job.channel := congrArg (fun x => x.1.2.1) heq
  have hp : old.profile = job.profile := congrArg Prod.snd heq
  exact hc ▸ hp ▸ hkeeps.owners _ _ (h old hold)

/-- A statement that changes no title. -/
theorem Housed.titled (h : Housed supply s) (htitles : Titles s.store t.store)
    (huntouched : ∀ channel, ownerOf s.store channel = none → Untouched channel s.store t.store)
    (hexecutors : (t.executions.map fun x => x.who.channel).Nodup)
    (hmanned : ∀ x ∈ t.executions, Manned supply t.store t.acts x) : Housed supply t where
  blank channel hc := by
    have hfree : ownerOf s.store channel = none := (htitles.owners channel).symm.trans hc
    exact (h.blank channel hfree).trans (huntouched channel hfree)
  ids := htitles.ids ▸ h.ids
  jobs := jobs_of_tags htitles.keeps htitles.tags h.jobs
  executors := hexecutors
  manned := hmanned

/-- The same when the executions are as they were. -/
theorem Housed.stored (h : Housed supply s) (htitles : Titles s.store t.store)
    (huntouched : ∀ channel, ownerOf s.store channel = none → Untouched channel s.store t.store)
    (hexecutions : t.executions = s.executions) (hacts : ∀ act ∈ s.acts, act ∈ t.acts) : Housed supply t := by
  refine h.titled htitles huntouched (by rw [hexecutions]; exact h.executors) fun x hx => ?_
  rw [hexecutions] at hx
  exact (h.manned x hx).others htitles.keeps (htitles.ids ▸ h.ids) hacts

/-- One execution changes, and no statement is carried out. -/
theorem Housed.set (h : Housed supply s) (hx : s.executions[k]? = some x)
    (hexecutions : t.executions = s.executions.set k x') (hstore : t.store = s.store) (hwho : x'.who = x.who)
    (hx' : Manned supply s.store s.acts x') (hacts : ∀ act ∈ s.acts, act ∈ t.acts) : Housed supply t := by
  have hsame : Titles s.store t.store := by
    rw [hstore]
    exact titles_same rfl rfl
  refine h.titled hsame (fun channel _ => hstore ▸ .refl channel _) ?_ fun y hy => ?_
  · rw [channels_set hx hexecutions hwho]
    exact h.executors
  · rw [hexecutions] at hy
    have hy' : Manned supply s.store s.acts y := by
      rcases List.mem_or_eq_of_mem_set hy with hy | rfl
      · exact h.manned y hy
      · exact hx'
    exact hy'.others hsame.keeps (hsame.ids ▸ h.ids) hacts

theorem Housed.queued (h : Sound supply s) (hstore : t.store = s.store) (hqueued : Queued s t)
    (hacts : ∀ act ∈ s.acts, act ∈ t.acts) : Housed supply t := by
  have hsame : Titles s.store t.store := by
    rw [hstore]
    exact titles_same rfl rfl
  refine h.toHoused.titled hsame (fun channel _ => hstore ▸ .refl channel _) ?_ fun y hy => ?_
  · have hchannels : (t.executions.map fun x => x.who.channel) = s.executions.map fun x => x.who.channel := by
      refine List.ext_getElem? fun k => ?_
      rw [List.getElem?_map, List.getElem?_map]
      cases hx : s.executions[k]? with
      | none =>
        rw [List.getElem?_eq_none_iff.mpr (hqueued.length ▸ List.getElem?_eq_none_iff.mp hx)]
      | some x =>
        obtain ⟨inputs, hx', -⟩ := hqueued.inputs k x hx
        rw [hx']
        rfl
    rw [hchannels]
    exact h.executors
  · obtain ⟨k, hk⟩ := List.mem_iff_getElem?.mp hy
    have hlt : k < s.executions.length := hqueued.length ▸ (List.getElem?_eq_some_iff.mp hk).1
    obtain ⟨inputs, hx', hinputs⟩ := hqueued.inputs k _ (List.getElem?_eq_getElem hlt)
    obtain rfl := Option.some.inj (hk.symm.trans hx')
    have hold := (h.manned _ (List.getElem_mem hlt)).others hsame.keeps (hsame.ids ▸ h.ids) hacts
    refine hold.queue fun r hr => ?_
    rcases List.mem_append.mp hr with hr | hr
    · exact .inl hr
    · obtain ⟨huuid, conn, hconn, hexecution, channel, hchannel, hact⟩ := hinputs r hr
      obtain ⟨x, hx, hwho⟩ := (h.linked conn hconn).execution k hexecution channel hchannel
      obtain rfl := Option.some.inj ((List.getElem?_eq_getElem hlt).symm.trans hx)
      refine .inr ⟨huuid, ?_⟩
      rw [hwho]
      exact hact

theorem Housed.opened (h : Housed supply s) {profile : String} {revision : Int} {runtime : Execution.Runtime}
    {selected : ExecutionRuntime} (hok : s.store.createChannel channel profile revision = .ok t.store)
    (hexecutions : t.executions = s.executions ++ [{ who := ⟨channel, profile⟩, runtime, selected }])
    (hacts : ∀ act ∈ s.acts, act ∈ t.acts) : Housed supply t := by
  obtain ⟨hfree, howner, hjobs, hkeeps⟩ := keeps_createChannel hok
  have hids : (t.store.jobs.map Job.id).Nodup := by
    rw [hjobs]
    exact h.ids
  refine ⟨fun name hname => ?_, hids, ?_, ?_, fun x hx => ?_⟩
  · have hold : ownerOf s.store name = none := by
      cases hs : ownerOf s.store name with
      | none => rfl
      | some owner => cases hname.symm.trans (hkeeps.owners _ _ hs)
    have hother : channel ≠ name := by
      rintro rfl
      cases hname.symm.trans howner
    exact (h.blank name hold).trans (.createChannel hother hok)
  · exact jobs_of_tags hkeeps (by rw [hjobs]) h.jobs
  · rw [hexecutions, List.map_append, List.nodup_append]
    refine ⟨h.executors, List.nodup_singleton _, fun a ha b hb heq => ?_⟩
    obtain ⟨x, hx, rfl⟩ := List.mem_map.mp ha
    rw [heq, List.mem_singleton.mp hb] at ha
    obtain ⟨y, hy, hchannel⟩ := List.mem_map.mp ha
    have := (h.manned y hy).owner
    rw [hchannel, hfree] at this
    cases this
  · rw [hexecutions] at hx
    rcases List.mem_append.mp hx with hx | hx
    · exact (h.manned x hx).others hkeeps hids hacts
    · cases List.mem_singleton.mp hx
      have hheld : Held channel (Own.world {} t.store) := ⟨hids, nofun⟩
      exact ⟨howner, by simp, hheld, hheld⟩

theorem Housed.acted (h : Housed supply s) {op : Op} {next : Ans op → Prog Op Ans (Except Fault Bool)}
    (hx : s.executions[k]? = some x) (hrest : x.rest = .call op next)
    (hstore : t.store = (exec (supply x.who.channel) op (x.own.world s.store)).2.store)
    (hexecutions : t.executions = s.executions.set k { x with
      own := .of (exec (supply x.who.channel) op (x.own.world s.store)).2
      rest := next (exec (supply x.who.channel) op (x.own.world s.store)).1 })
    (hacts : ∀ act ∈ s.acts, act ∈ t.acts) : Housed supply t := by
  have hmem : x ∈ s.executions := List.mem_of_getElem? hx
  obtain ⟨hown, hx'⟩ := (h.manned x hmem).act hrest
  rw [← hstore] at hx'
  have hkeeps : Keeps s.store t.store := hstore ▸ keeps_exec (supply x.who.channel) op (x.own.world s.store)
  have hids : (t.store.jobs.map Job.id).Nodup := hx'.held.ids
  refine ⟨fun channel hc => ?_, hids, ?_, ?_, fun y hy => ?_⟩
  · have hfree : ownerOf s.store channel = none := by
      cases hs : ownerOf s.store channel with
      | none => rfl
      | some owner => cases hc.symm.trans (hkeeps.owners _ _ hs)
    have hother : x.who.channel ≠ channel := by
      rintro rfl
      cases hfree.symm.trans (h.manned x hmem).owner
    rw [hstore]
    exact (h.blank channel hfree).trans (Execution.untouched_exec (h.manned x hmem).held hown hother)
  · rcases titles_exec (supply x.who.channel) op (x.own.world s.store) with htitles | htitles
    · rw [← hstore] at htitles
      exact jobs_of_tags hkeeps htitles.tags h.jobs
    · obtain ⟨profile, name, params, kind, id, store, rfl, hr, heq⟩ := htitles
      obtain ⟨howners, job, hprofile, hchannel, -, hjobs⟩ := recordJob_tag hr
      obtain ⟨rfl, rfl⟩ := hown
      rw [← heq, ← hstore] at hjobs
      rw [hjobs]
      intro y hy
      rcases List.mem_append.mp hy with hy | hy
      · exact hkeeps.owners _ _ (h.jobs y hy)
      · rw [List.mem_singleton.mp hy, hchannel, hprofile]
        exact hx'.owner
  · rw [channels_set hx hexecutions rfl]
    exact h.executors
  · rw [hexecutions] at hy
    rcases List.mem_or_eq_of_mem_set hy with hy | rfl
    · exact (h.manned y hy).others hkeeps hids hacts
    · exact hx'.others (.refl _) hids hacts

theorem Housed.restarted (h : Housed supply s) (reason : String) : Housed supply (s.restart reason) := by
  have htitles : Titles s.store (s.restart reason).store := titles_reopen s.store reason
  refine h.titled htitles (fun channel hc => ?_) ?_ fun y hy => ?_
  · have hnone : s.store.channels.lookup channel = none := Option.map_eq_none_iff.mp hc
    refine .reopen s.store reason (fun row hrow => ?_) fun job hjob hchannel => ?_
    · cases hnone.symm.trans hrow
    · cases ((h.blank channel hc).mem_jobs hchannel).mp hjob
  · have hchannels : ((s.restart reason).executions.map fun x => x.who.channel) =
        s.executions.map fun x => x.who.channel := by
      simp only [State.restart, List.map_map]
      rfl
    rw [hchannels]
    exact h.executors
  · obtain ⟨x, hx, rfl⟩ := List.mem_map.mp hy
    obtain ⟨howner, hheard, hheld, -⟩ := (h.manned x hx).others htitles.keeps (htitles.ids ▸ h.ids) fun _ => id
    refine ⟨howner, fun r hr => hheard r (.inl ?_), ⟨hheld.ids, hheld.pending⟩, ⟨hheld.ids, hheld.pending⟩⟩
    exact hr.resolve_right (by simp)

/-- The channel of a connection that has an execution is its profile's. -/
theorem Sound.owner (h : Sound supply s) (hconn : conn ∈ s.connections)
    (hexecution : ∃ k, conn.stage.execution = some k) (hchannel : conn.call.request.channel = some channel) :
    ownerOf s.store channel = some conn.call.profile := by
  obtain ⟨k, hk⟩ := hexecution
  obtain ⟨x, hx, hwho⟩ := (h.linked conn hconn).execution k hk channel hchannel
  have howner := (h.manned x (List.mem_of_getElem? hx)).owner
  rwa [hwho] at howner

theorem Housed.next (h : Sound supply s) (hacts : ∀ act ∈ s.acts, act ∈ t.acts) (hturned : Turned supply c s e t) :
    Housed supply t := by
  have hother : ∀ {conn channel}, conn ∈ s.connections → (∃ k, conn.stage.execution = some k) →
      conn.call.request.channel = some channel → ∀ name, ownerOf s.store name = none → channel ≠ name := by
    rintro conn channel hconn hexecution hchannel name hname rfl
    cases hname.symm.trans (h.owner hconn hexecution hchannel)
  cases hturned with
  | queued hstore hqueued => exact .queued h hstore hqueued hacts
  | pruned conn channel ack hconn hexecution hchannel _ hexecutions hstore =>
    refine h.toHoused.stored ?_ (fun name hname => ?_) hexecutions hacts
    · rw [hstore]
      exact titles_pruneAcknowledged s.store channel ack
    · rw [hstore]
      exact .pruneAcknowledged s.store (hother hconn hexecution hchannel name hname) ack
  | compacted conn channel ack hconn hexecution hchannel _ hexecutions hstore =>
    refine h.toHoused.stored ?_ (fun name hname => ?_) hexecutions hacts
    · rw [hstore]
      exact titles_same rfl rfl
    · rw [hstore]
      exact .compactOperations s.store (hother hconn hexecution hchannel name hname) ack
  | retired newest hexecutions hstore =>
    refine h.toHoused.stored ?_ (fun name hname => ?_) hexecutions hacts
    · rw [hstore]
      exact titles_retireClosedEvidence s.store newest
    · rw [hstore]
      refine .retireClosedEvidence s.store newest ?_
      rw [Option.map_eq_none_iff.mp hname]
      exact nofun
  | opened channel profile revision runtime selected _ hok hexecutions =>
    exact h.toHoused.opened hok hexecutions hacts
  | taken k x x' cue outputs hx _ _ htake hstore hexecutions =>
    obtain ⟨hx', hwho⟩ := (h.manned x (List.mem_of_getElem? hx)).take htake
    exact h.toHoused.set hx hexecutions hstore hwho hx' hacts
  | acted k x op next hx _ hrest hstore hexecutions => exact h.toHoused.acted hx hrest hstore hexecutions hacts
  | finished k x r hx _ _ hstore hexecutions =>
    obtain ⟨howner, hheard, hheld, hrest⟩ := h.manned x (List.mem_of_getElem? hx)
    exact h.toHoused.set hx hexecutions hstore rfl ⟨howner, hheard, hheld, hrest⟩ hacts
  | died k x hx _ hstore hexecutions =>
    obtain ⟨howner, hheard, hheld, hrest⟩ := h.manned x (List.mem_of_getElem? hx)
    have hmates : Mates x.who.channel (x.own.world s.store) ({ x.own with connected := false }.world s.store) :=
      ⟨rfl, id, fun _ => id⟩
    have hrest' := Prog.Sat.stable (fun _ _ _ => Mates.trans) (fun _ _ _ hm hheld => hheld.mates hm) hrest hmates
    exact h.toHoused.set hx hexecutions hstore rfl ⟨howner, hheard, hheld.mates hmates, hrest'⟩ hacts
  | restarted reason _ heq =>
    rw [heq]
    exact h.toHoused.restarted reason

-- ---------------------------------------------------------------------------
-- Connections
-- ---------------------------------------------------------------------------

theorem keeps_turned (hturned : Turned supply c s e t) : Keeps s.store t.store := by
  cases hturned with
  | pruned conn channel ack _ _ _ _ _ hstore =>
    rw [hstore]
    exact (titles_pruneAcknowledged s.store channel ack).keeps
  | compacted conn channel ack _ _ _ _ _ hstore =>
    rw [hstore]
    exact ⟨fun _ _ h => h, fun _ h => h⟩
  | retired newest _ hstore =>
    rw [hstore]
    exact (titles_retireClosedEvidence s.store newest).keeps
  | opened channel profile revision runtime selected _ hok _ => exact (keeps_createChannel hok).2.2.2
  | acted k x op next _ _ _ hstore _ =>
    rw [hstore]
    exact keeps_exec (supply x.who.channel) op (x.own.world s.store)
  | restarted reason _ heq =>
    rw [heq]
    exact (titles_reopen s.store reason).keeps
  | queued hstore => exact hstore ▸ .refl s.store
  | taken _ _ _ _ _ _ _ _ _ hstore => exact hstore ▸ .refl s.store
  | finished _ _ _ _ _ _ hstore => exact hstore ▸ .refl s.store
  | died _ _ _ _ hstore => exact hstore ▸ .refl s.store

/-- An execution stays where it is, for the one it works for. -/
theorem staff_turned (hturned : Turned supply c s e t) {j : Nat} {y : Handle} (hy : s.executions[j]? = some y) :
    ∃ y', t.executions[j]? = some y' ∧ y'.who = y.who := by
  have hsame : t.executions = s.executions → ∃ y', t.executions[j]? = some y' ∧ y'.who = y.who :=
    fun h => ⟨y, by rw [h, hy], rfl⟩
  have hset : ∀ {k x x'}, s.executions[k]? = some x → t.executions = s.executions.set k x' →
      Handle.who x' = Handle.who x → ∃ y', t.executions[j]? = some y' ∧ y'.who = y.who := by
    intro k x x' hx h hwho
    rw [h, List.getElem?_set]
    split
    · next hk =>
      subst hk
      obtain rfl := Option.some.inj (hx.symm.trans hy)
      rw [if_pos (List.getElem?_eq_some_iff.mp hx).1]
      exact ⟨x', rfl, hwho⟩
    · exact ⟨y, hy, rfl⟩
  cases hturned with
  | queued _ hqueued =>
    obtain ⟨inputs, hy', -⟩ := hqueued.inputs j y hy
    exact ⟨_, hy', rfl⟩
  | pruned _ _ _ _ _ _ _ h _ => exact hsame h
  | compacted _ _ _ _ _ _ _ h _ => exact hsame h
  | retired _ h _ => exact hsame h
  | opened channel profile revision runtime selected _ _ h =>
    rw [h, List.getElem?_append_left (List.getElem?_eq_some_iff.mp hy).1]
    exact ⟨y, hy, rfl⟩
  | taken k x x' cue outputs hx _ _ htake _ h =>
    refine hset hx h ?_
    cases cue with
    | input =>
      simp only [Handle.take] at htake
      split at htake
      · cases htake
      · split at htake <;> cases htake <;> rfl
    | _ =>
      obtain rfl := Option.some.inj htake
      rfl
  | acted k x op next hx _ _ _ h => exact hset hx h rfl
  | finished k x r hx _ _ _ h => exact hset hx h rfl
  | died k x hx _ _ h => exact hset hx h rfl
  | restarted reason _ h =>
    refine ⟨{ y with alive := false, queue := [], rest := .done (.ok false), own := { y.own with connected := false } },
      ?_, rfl⟩
    rw [h]
    simp only [State.restart, List.getElem?_map, hy, Option.map_some]

/-- What a connection knows stays so. -/
theorem Linked.keeps (h : Linked s conn) (hturned : Turned supply c s e t) : Linked t conn := by
  have hkeeps := keeps_turned hturned
  refine ⟨fun hstage channel hc => hkeeps.owners _ _ (h.owned hstage channel hc), fun hstage id after hc => ?_,
    fun k hk channel hc => ?_⟩
  · obtain ⟨job, hjob, hid, hprofile⟩ := h.told hstage id after hc
    obtain ⟨job', hjob', hid', -, hprofile'⟩ := hkeeps.job hjob
    exact ⟨job', hjob', hid'.trans hid, hprofile'.trans hprofile⟩
  · obtain ⟨x, hx, hwho⟩ := h.execution k hk channel hc
    obtain ⟨x', hx', hwho'⟩ := staff_turned hturned hx
    exact ⟨x', hx', hwho'.trans hwho⟩

/-- A connection goes on. -/
theorem Linked.goes (h : Sound supply s) (hconn : conn ∈ s.connections) {stage : Stage} (hfits : Fits s conn stage) :
    Linked s { conn with stage } := by
  refine ⟨fun hstage => ?_, fun hstage => ?_, fun k hk channel hchannel => ?_⟩
  · obtain rfl : stage = .owned := hstage
    exact hfits
  · obtain rfl : stage = .told := hstage
    exact hfits
  · have hold : ∀ k, conn.stage.execution = some k →
        ∃ x, s.executions[k]? = some x ∧ x.who = ⟨channel, conn.call.profile⟩ :=
      fun k hk => (h.linked conn hconn).execution k hk channel hchannel
    cases stage with
    | found j =>
      obtain rfl : j = k := Option.some.inj hk
      obtain ⟨howned, hlive⟩ := hfits
      obtain ⟨x, hx, hc⟩ := h.live _ _ (hlive channel hchannel)
      have howner := (h.manned x (List.mem_of_getElem? hx)).owner
      rw [hc, (h.linked conn hconn).owned howned channel hchannel] at howner
      obtain ⟨⟨name, profile⟩, _⟩ := x
      obtain rfl : name = channel := hc
      obtain rfl : conn.call.profile = profile := Option.some.inj howner
      exact ⟨_, hx, rfl⟩
    | streaming => exact hold k (hfits k hk)
    | paging => exact hold k (hfits k hk)
    | acking => exact hold k (hfits k hk)
    | leaving => exact hold k (hfits k hk)
    | _ => cases hk

/-- What stays rightful. -/
theorem Rightful.keeps {profile : String} {touch : Touch} (h : Rightful store profile touch)
    (hkeeps : Keeps store store') : Rightful store' profile touch := by
  cases touch with
  | outputs row =>
    obtain ⟨job, hjob, hid, hprofile⟩ := h
    obtain ⟨job', hjob', hid', -, hprofile'⟩ := hkeeps.job hjob
    exact ⟨job', hjob', hid'.trans hid, hprofile'.trans hprofile⟩
  | _ =>
    obtain ⟨channel, hchannel, howner⟩ := h
    exact ⟨channel, hchannel, hkeeps.owners _ _ howner⟩

/-- What a connection may do, it does with its profile's own. -/
theorem Due.rightful (h : Sound supply s) (hkeeps : Keeps s.store t.store) (hconn : conn ∈ s.connections)
    {touch : Touch} (hdue : Due s t conn touch) : Rightful t.store conn.call.profile touch := by
  have hexecution : ∀ {name}, some name = conn.call.request.channel → (∃ k, conn.stage.execution = some k) →
      ∃ channel, some name = some channel ∧ ownerOf t.store channel = some conn.call.profile :=
    fun hname hk => ⟨_, rfl, hkeeps.owners _ _ (h.owner hconn hk hname.symm)⟩
  cases touch with
  | opens channel => exact ⟨channel, rfl, hdue⟩
  | inspects channel => exact ⟨channel, rfl, hkeeps.owners _ _ hdue⟩
  | lists job =>
    obtain ⟨hjob, hprofile⟩ := hdue
    exact ⟨job.channel, rfl, hkeeps.owners _ _ (hprofile ▸ h.jobs job hjob)⟩
  | outputs row =>
    obtain ⟨hstage, after, hrequest⟩ := hdue
    obtain ⟨job, hjob, hid, hprofile⟩ := (h.linked conn hconn).told hstage _ _ hrequest
    obtain ⟨job', hjob', hid', -, hprofile'⟩ := hkeeps.job hjob
    exact ⟨job', hjob', hid'.trans hid, hprofile'.trans hprofile⟩
  | executes channel r => exact hexecution hdue.1 hdue.2
  | attaches channel => exact hexecution hdue.1 hdue.2
  | detaches channel => exact hexecution hdue.1 hdue.2
  | acknowledges channel ack => exact hexecution hdue.1 hdue.2
  | reads row => exact hexecution hdue.1 hdue.2

theorem Sound.next (h : Sound supply s) (hn : s.next supply c identity e = some t) : Sound supply t := by
  obtain ⟨hproceeds, hturned⟩ := next_step hn
  have hkeeps := keeps_turned hturned
  refine { Housed.next h hproceeds.kept hturned with
    live := fun channel k hk => ?_, linked := fun conn hconn => ?_, acts := fun act hact => ?_ }
  · rcases hproceeds.live channel k hk with hk | hk
    · obtain ⟨x, hx, hc⟩ := h.live channel k hk
      obtain ⟨x', hx', hwho⟩ := staff_turned hturned hx
      exact ⟨x', hx', hwho ▸ hc⟩
    · exact hk
  · rcases hproceeds.connections conn hconn with hold | ⟨conn', hold, stage, rfl, hfits⟩ | hstage
    · exact (h.linked conn hold).keeps hturned
    · exact (Linked.goes h hold hfits).keeps hturned
    · have hplain : conn.stage ≠ .owned ∧ conn.stage ≠ .told ∧ conn.stage.execution = none := by
        rcases hstage with hstage | ⟨reply, hstage⟩ <;> rw [hstage] <;> exact ⟨nofun, nofun, rfl⟩
      refine ⟨fun howned => absurd howned hplain.1, fun htold => absurd htold hplain.2.1, fun k hk => ?_⟩
      cases hplain.2.2.symm.trans hk
  · rcases hproceeds.acts act hact with hact | ⟨conn, hconn, hprofile, hdue⟩
    · exact (h.acts act hact).keeps hkeeps
    · rw [hprofile]
      exact hdue.rightful h hkeeps hconn

theorem sound_of_run {C : State → Event → Prop} {events : List Event}
    (hrun : Run (State.next supply c identity) C {} events s) : Sound supply s := by
  refine hrun.invariant ?_ fun _ _ _ h _ hn => h.next hn
  exact {
    blank := fun channel _ => .refl channel _
    ids := .nil
    jobs := nofun
    executors := .nil
    manned := nofun
    live := nofun
    linked := nofun
    acts := nofun }

-- ---------------------------------------------------------------------------
-- Whatever happens
-- ---------------------------------------------------------------------------

/-- Profiles keep to themselves: whatever was done for one was done with its
own channels and jobs. No channel ever has a second executor, and an executor
takes no request but those that its owner's connections were sent. -/
theorem isolated {C : State → Event → Prop} {events : List Event}
    (hrun : Run (State.next supply c identity) C {} events s) :
    (∀ act ∈ s.acts, Rightful s.store act.1 act.2) ∧
      (s.store.jobs.map Job.id).Nodup ∧ (∀ job ∈ s.store.jobs, ownerOf s.store job.channel = some job.profile) ∧
      (s.executions.map fun x => x.who.channel).Nodup ∧
      ∀ x ∈ s.executions, ownerOf s.store x.who.channel = some x.who.profile ∧
        ∀ r ∈ x.taken, parseUuid r.operation = true ∧ (x.who.profile, .executes x.who.channel r) ∈ s.acts := by
  have h := sound_of_run hrun
  exact ⟨h.acts, h.ids, h.jobs, h.executors, fun x hx => ⟨(h.manned x hx).owner, fun r hr => (h.manned x hx).heard r (.inl hr)⟩⟩

/-- A connection's profile asks for a channel, and another profile for the same one. -/
def twoProfiles : List Event :=
  [.call ⟨4, "work", none, .openExecution "67e55044-10b1-426f-9247-bb680e5fe0c9" ⟨"1", "linux", ""⟩ 1 []⟩, .lock 0,
    .owner 0, .prepare 0 {} 1 [], .create 0,
    .call ⟨4, "work", some "here", .attachExecution "67e55044-10b1-426f-9247-bb680e5fe0c9" 0⟩, .owner 1, .look 1, .hand 1,
    .call ⟨4, "home", some "here", .attachExecution "67e55044-10b1-426f-9247-bb680e5fe0c9" 0⟩, .owner 2,
    .execute 1 Execution.firstBuild, .take 0 .input [], .take 0 .input [], .act 0]

theorem isolated_two : ∃ s, Run (State.next (fun channel n => channel ++ letters n) Execution.plain "here") Free {} twoProfiles.reverse s ∧
    s.acts.length = 3 ∧ ∀ act ∈ s.acts, Rightful s.store act.1 act.2 := by
  have hplay : (play (State.next (fun channel n => channel ++ letters n) Execution.plain "here") Free {} twoProfiles).map
      (fun s => s.acts.length) = some 3 := rfl
  obtain ⟨s, hs, hlen⟩ := Option.map_eq_some_iff.mp hplay
  exact ⟨s, run_of_play_list hs, hlen, (isolated (run_of_play_list hs)).1⟩

-- ---------------------------------------------------------------------------
-- What happens elsewhere
-- ---------------------------------------------------------------------------

/-- A step that is not about the channel, and not the start of the service. -/
def Elsewhere (channel : String) (s : State) (e : Event) : Prop :=
  match e with
  | .restart _ => False
  | e => s.about e ≠ some channel

instance : Decidable (Elsewhere channel s e) := by
  unfold Elsewhere
  split <;> infer_instance

theorem Elsewhere.about (h : Elsewhere channel s e) : s.about e ≠ some channel := by
  cases e with
  | restart reason => exact h.elim
  | _ => exact h

/-- An execution that nothing is done with; it may have been given inputs. -/
def Waits (x x' : Handle) : Prop := ∃ inputs, x' = { x with queue := x.queue ++ inputs }

theorem Waits.refl (x : Handle) : Waits x x := ⟨[], by rw [List.append_nil]⟩

theorem Waits.trans {y z : Handle} (h : Waits x y) (h' : Waits y z) : Waits x z := by
  obtain ⟨inputs, rfl⟩ := h
  obtain ⟨inputs', rfl⟩ := h'
  exact ⟨inputs ++ inputs', by rw [List.append_assoc]⟩

theorem untouched_next (h : Sound supply s) (hturned : Turned supply c s e t) (helse : Elsewhere channel s e)
    (hopen : (s.store.channels.lookup channel).map Channel.state ≠ some .lost) : Untouched channel s.store t.store := by
  have hother : ∀ {name}, s.about e = some name → name ≠ channel := by
    rintro name habout rfl
    exact helse.about habout
  cases hturned with
  | pruned conn name ack _ _ _ habout _ hstore => exact hstore ▸ .pruneAcknowledged s.store (hother habout) ack
  | compacted conn name ack _ _ _ habout _ hstore => exact hstore ▸ .compactOperations s.store (hother habout) ack
  | retired newest _ hstore => exact hstore ▸ .retireClosedEvidence s.store newest hopen
  | opened name profile revision runtime selected habout hok _ => exact .createChannel (hother habout) hok
  | acted k x op next hx habout hrest hstore _ =>
    have hmanned := h.manned x (List.mem_of_getElem? hx)
    exact hstore ▸ Execution.untouched_exec hmanned.held (hmanned.act hrest).1 (hother habout)
  | restarted reason he _ =>
    subst he
    exact helse.elim
  | queued hstore => exact hstore ▸ .refl channel s.store
  | taken _ _ _ _ _ _ _ _ _ hstore => exact hstore ▸ .refl channel s.store
  | finished _ _ _ _ _ _ hstore => exact hstore ▸ .refl channel s.store
  | died _ _ _ _ hstore => exact hstore ▸ .refl channel s.store

theorem waits_next (hturned : Turned supply c s e t) (helse : Elsewhere channel s e) (hx : s.executions[k]? = some x)
    (hchannel : x.who.channel = channel) : ∃ x', t.executions[k]? = some x' ∧ Waits x x' := by
  have hsame : t.executions = s.executions → ∃ x', t.executions[k]? = some x' ∧ Waits x x' :=
    fun h => ⟨x, by rw [h, hx], .refl x⟩
  have hset : ∀ {j y y'}, s.executions[j]? = some y → s.about e = some y.who.channel →
      t.executions = s.executions.set j y' → ∃ x', t.executions[k]? = some x' ∧ Waits x x' := by
    intro j y y' hy habout h
    have hne : j ≠ k := by
      rintro rfl
      obtain rfl := Option.some.inj (hx.symm.trans hy)
      exact helse.about (hchannel ▸ habout)
    exact ⟨x, by rw [h, List.getElem?_set_ne hne, hx], .refl x⟩
  cases hturned with
  | queued _ hqueued =>
    obtain ⟨inputs, hx', -⟩ := hqueued.inputs k x hx
    exact ⟨_, hx', inputs, rfl⟩
  | pruned _ _ _ _ _ _ _ h _ => exact hsame h
  | compacted _ _ _ _ _ _ _ h _ => exact hsame h
  | retired _ h _ => exact hsame h
  | opened channel profile revision runtime selected _ _ h =>
    rw [h, List.getElem?_append_left (List.getElem?_eq_some_iff.mp hx).1]
    exact ⟨x, hx, .refl x⟩
  | taken _ _ _ _ _ hy habout _ _ _ h => exact hset hy habout h
  | acted _ _ _ _ hy habout _ _ h => exact hset hy habout h
  | finished _ _ _ hy habout _ _ h => exact hset hy habout h
  | died _ _ hy habout _ h => exact hset hy habout h
  | restarted reason he _ =>
    subst he
    exact helse.elim

/-- Whatever happens elsewhere, and in whatever order, the store holds of an
open channel what it held, and the channel's executor is where it was. -/
theorem kept_elsewhere {events later : List Event} (hrun : Run (State.next supply c identity) Free {} events s)
    (hlater : Run (State.next supply c identity) (Elsewhere channel) s later t)
    (hopen : (s.store.channels.lookup channel).map Channel.state ≠ some .lost) :
    Untouched channel s.store t.store ∧
      ∀ (k : Nat) (x : Handle), s.executions[k]? = some x → x.who.channel = channel →
        ∃ x', t.executions[k]? = some x' ∧ Waits x x' := by
  have hall : Sound supply t ∧ Untouched channel s.store t.store ∧
      ∀ (k : Nat) (x : Handle), s.executions[k]? = some x → x.who.channel = channel →
        ∃ x', t.executions[k]? = some x' ∧ Waits x x' := by
    refine hlater.invariant (I := fun t => Sound supply t ∧ Untouched channel s.store t.store ∧
        ∀ (k : Nat) (x : Handle), s.executions[k]? = some x → x.who.channel = channel →
          ∃ x', t.executions[k]? = some x' ∧ Waits x x')
      ⟨sound_of_run hrun, .refl channel _, fun k x hx _ => ⟨x, hx, .refl x⟩⟩ ?_
    rintro u e v ⟨hsound, huntouched, hwaits⟩ helse hn
    obtain ⟨-, hturned⟩ := next_step hn
    refine ⟨hsound.next hn, huntouched.trans (untouched_next hsound hturned helse ?_), fun k x hx hchannel => ?_⟩
    · rw [huntouched.row]
      exact hopen
    · obtain ⟨y, hy, hwaits⟩ := hwaits k x hx hchannel
      have hsame : y.who.channel = channel := by
        obtain ⟨_, rfl⟩ := hwaits
        exact hchannel
      obtain ⟨z, hz, hwaits'⟩ := waits_next hturned helse hy hsame
      exact ⟨z, hz, hwaits.trans hwaits'⟩
  exact hall.2

/-- While a request of one profile is being carried out, the other one opens a channel. -/
def otherProfile : List Event :=
  [.call ⟨4, "home", none, .openExecution "67e55044-10b1-426f-9247-bb680e5fe0c8" ⟨"1", "linux", ""⟩ 1 []⟩, .lock 3,
    .owner 3, .prepare 3 {} 1 [], .create 3]

theorem kept_elsewhere_two : ∃ s t,
    Run (State.next (fun channel n => channel ++ letters n) Execution.plain "here") Free {} twoProfiles.reverse s ∧
    Run (State.next (fun channel n => channel ++ letters n) Execution.plain "here")
      (Elsewhere "67e55044-10b1-426f-9247-bb680e5fe0c9") s otherProfile.reverse t ∧
    t.executions.length = 2 ∧ Untouched "67e55044-10b1-426f-9247-bb680e5fe0c9" s.store t.store := by
  have hplay : ((play (State.next (fun channel n => channel ++ letters n) Execution.plain "here") Free {}
      twoProfiles).bind fun s => (play (State.next (fun channel n => channel ++ letters n) Execution.plain "here")
        (Elsewhere "67e55044-10b1-426f-9247-bb680e5fe0c9") s otherProfile).map fun t => (s, t)).map
      (fun r => (r.2.executions.length,
        (r.1.store.channels.lookup "67e55044-10b1-426f-9247-bb680e5fe0c9").map Channel.state)) =
      some (2, some .running) := rfl
  obtain ⟨⟨s, t⟩, hboth, hends⟩ := Option.map_eq_some_iff.mp hplay
  obtain ⟨hlength, hopen⟩ := Prod.mk.inj hends
  obtain ⟨s', hs, hthen⟩ := Option.bind_eq_some_iff.mp hboth
  obtain ⟨t', ht, heq⟩ := Option.map_eq_some_iff.mp hthen
  cases heq
  refine ⟨s, t, run_of_play_list hs, run_of_play_list ht, hlength, ?_⟩
  exact (kept_elsewhere (run_of_play_list hs) (run_of_play_list ht) (by rw [hopen]; exact nofun)).1

end

end RemoteCodex.Service
