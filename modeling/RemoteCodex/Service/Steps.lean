import RemoteCodex.Server.Output
import RemoteCodex.Service.Calls

/-!
# What a step of the service can do

`Proceeds` says what becomes of the connections, of the executions that can be
found and of what is done for a profile, and why; `Turned` says what becomes of
the store and of the executions.
-/

namespace RemoteCodex.Service

open Interact Protocol Server
open Execution (Crates Op Ans exec)

/-- The channel something is done with. -/
def Touch.channel : Touch → Option String
  | .opens channel => some channel
  | .executes channel _ => some channel
  | .attaches channel => some channel
  | .detaches channel => some channel
  | .inspects channel => some channel
  | .acknowledges channel _ => some channel
  | .reads row => some row.channel
  | .lists job => some job.channel
  | .outputs _ => none

/-- What lets a connection come to a stage. -/
def Fits (s : State) (conn : Connection) : Stage → Prop
  | .owned => ∀ channel, conn.call.request.channel = some channel → ownerOf s.store channel = some conn.call.profile
  | .told => ∀ id after, conn.call.request = .jobOutput id after →
      ∃ job ∈ s.store.jobs, job.id = id ∧ job.profile = conn.call.profile
  | .found k => conn.stage = .owned ∧ ∀ channel, conn.call.request.channel = some channel →
      s.live.lookup channel = some k
  | stage => ∀ k, stage.execution = some k → conn.stage.execution = some k

/-- What is done for the profile of a connection. -/
def Due (s t : State) (conn : Connection) : Touch → Prop
  | .opens channel => ownerOf t.store channel = some conn.call.profile
  | .inspects channel => ownerOf s.store channel = some conn.call.profile
  | .lists job => job ∈ s.store.jobs ∧ job.profile = conn.call.profile
  | .outputs row => conn.stage = .told ∧ ∃ after, conn.call.request = .jobOutput row.job after
  | touch => touch.channel = conn.call.request.channel ∧ ∃ k, conn.stage.execution = some k

structure Proceeds (s t : State) : Prop where
  connections : ∀ conn' ∈ t.connections, conn' ∈ s.connections ∨
    (∃ conn ∈ s.connections, ∃ stage, conn' = { conn with stage } ∧ Fits s conn stage) ∨
    conn'.stage = .validated ∨ ∃ reply, conn'.stage = .ended reply
  live : ∀ channel k, t.live.lookup channel = some k → s.live.lookup channel = some k ∨
    ∃ x, t.executions[k]? = some x ∧ x.who.channel = channel
  kept : ∀ act ∈ s.acts, act ∈ t.acts
  acts : ∀ act ∈ t.acts, act ∈ s.acts ∨ ∃ conn ∈ s.connections, act.1 = conn.call.profile ∧ Due s t conn act.2

/-- Executions are given inputs, and requests by connections that have them. -/
structure Queued (s t : State) : Prop where
  length : t.executions.length = s.executions.length
  inputs : ∀ k x, s.executions[k]? = some x →
    ∃ inputs, t.executions[k]? = some { x with queue := x.queue ++ inputs } ∧
      ∀ r, .execute r ∈ inputs → parseUuid r.operation = true ∧ ∃ conn ∈ s.connections,
        conn.stage.execution = some k ∧ ∃ channel, conn.call.request.channel = some channel ∧
          (conn.call.profile, .executes channel r) ∈ t.acts

/-- The channel a step is about. -/
def State.about (s : State) : Event → Option String
  | .call _ => none
  | .lock n => s.connections[n]?.bind fun conn => conn.call.request.channel
  | .owner n => s.connections[n]?.bind fun conn => conn.call.request.channel
  | .prepare n _ _ _ => s.connections[n]?.bind fun conn => conn.call.request.channel
  | .create n => s.connections[n]?.bind fun conn => conn.call.request.channel
  | .look n => s.connections[n]?.bind fun conn => conn.call.request.channel
  | .hand n => s.connections[n]?.bind fun conn => conn.call.request.channel
  | .execute n _ => s.connections[n]?.bind fun conn => conn.call.request.channel
  | .heartbeat n => s.connections[n]?.bind fun conn => conn.call.request.channel
  | .ack n _ => s.connections[n]?.bind fun conn => conn.call.request.channel
  | .compact n => s.connections[n]?.bind fun conn => conn.call.request.channel
  | .floor n => s.connections[n]?.bind fun conn => conn.call.request.channel
  | .page n _ => s.connections[n]?.bind fun conn => conn.call.request.channel
  | .detach n => s.connections[n]?.bind fun conn => conn.call.request.channel
  | .drop n _ => s.connections[n]?.bind fun conn => conn.call.request.channel
  | .query n => s.connections[n]?.bind fun conn => conn.call.request.channel
  | .outputs n => s.connections[n]?.bind fun conn => conn.call.request.channel
  | .fails n _ => s.connections[n]?.bind fun conn => conn.call.request.channel
  | .take k _ _ => s.executions[k]?.map fun x => x.who.channel
  | .act k => s.executions[k]?.map fun x => x.who.channel
  | .finish k => s.executions[k]?.map fun x => x.who.channel
  | .dies k => s.executions[k]?.map fun x => x.who.channel
  | .stop k => s.executions[k]?.map fun x => x.who.channel
  | .restart _ => none

inductive Turned (supply : String → Nat → String) (c : Crates) (s : State) (e : Event) (t : State) : Prop
  | queued : t.store = s.store → Queued s t → Turned supply c s e t
  | pruned (conn : Connection) (channel : String) (ack : Int) : conn ∈ s.connections →
      (∃ k, conn.stage.execution = some k) → conn.call.request.channel = some channel → s.about e = some channel →
      t.executions = s.executions → t.store = s.store.pruneAcknowledged channel ack → Turned supply c s e t
  | compacted (conn : Connection) (channel : String) (ack : Int) : conn ∈ s.connections →
      (∃ k, conn.stage.execution = some k) → conn.call.request.channel = some channel → s.about e = some channel →
      t.executions = s.executions → t.store = s.store.compactOperations channel ack → Turned supply c s e t
  | retired (newest : List String) : t.executions = s.executions → t.store = s.store.retireClosedEvidence newest →
      Turned supply c s e t
  | opened (channel profile : String) (revision : Int) (runtime : Execution.Runtime) (selected : ExecutionRuntime) :
      s.about e = some channel → s.store.createChannel channel profile revision = .ok t.store →
      t.executions = s.executions ++ [{ who := ⟨channel, profile⟩, runtime, selected }] → Turned supply c s e t
  | taken (k : Nat) (x x' : Handle) (cue : Cue) (outputs : List Value) : s.executions[k]? = some x →
      s.about e = some x.who.channel → x.rest = .done (.ok true) → x.take c outputs cue = some x' →
      t.store = s.store → t.executions = s.executions.set k x' → Turned supply c s e t
  | acted (k : Nat) (x : Handle) (op : Op) (next : Ans op → Prog Op Ans (Except Fault Bool)) :
      s.executions[k]? = some x → s.about e = some x.who.channel → x.rest = .call op next →
      t.store = (exec (supply x.who.channel) op (x.own.world s.store)).2.store →
      t.executions = s.executions.set k { x with
        own := .of (exec (supply x.who.channel) op (x.own.world s.store)).2
        rest := next (exec (supply x.who.channel) op (x.own.world s.store)).1 } → Turned supply c s e t
  | finished (k : Nat) (x : Handle) (r : Except Fault Bool) : s.executions[k]? = some x →
      s.about e = some x.who.channel → x.rest = .done r → t.store = s.store →
      t.executions = s.executions.set k { x with alive := false } → Turned supply c s e t
  | died (k : Nat) (x : Handle) : s.executions[k]? = some x → s.about e = some x.who.channel → t.store = s.store →
      t.executions = s.executions.set k { x with own := { x.own with connected := false } } → Turned supply c s e t
  | restarted (reason : String) : e = .restart reason → t = s.restart reason → Turned supply c s e t

section

variable {supply : String → Nat → String} {c : Crates} {identity : String} {s t u : State} {n k : Nat}
  {e : Event} {conn : Connection} {stage : Stage} {input : Input}

-- ---------------------------------------------------------------------------
-- Connections
-- ---------------------------------------------------------------------------

theorem Proceeds.refl (s : State) : Proceeds s s := ⟨fun _ => .inl, fun _ _ => .inl, fun _ => id, fun _ => .inl⟩

theorem proceeds_goes (hconn : conn ∈ s.connections) (hfits : Fits s conn stage) :
    Proceeds s (s.goes n conn stage) where
  __ := Proceeds.refl s
  connections conn' h := by
    rcases List.mem_or_eq_of_mem_set h with h | rfl
    · exact .inl h
    · exact .inr (.inl ⟨conn, hconn, stage, rfl, hfits⟩)

theorem proceeds_answers (s : State) (n : Nat) (conn : Connection) (reply : Except Fault Unit) :
    Proceeds s (s.answers n conn reply) where
  __ := Proceeds.refl s
  connections conn' h := by
    rcases List.mem_or_eq_of_mem_set h with h | rfl
    · exact .inl h
    · exact .inr (.inr (.inr ⟨reply, rfl⟩))

/-- A connection goes on with a statement that changes the store. -/
theorem proceeds_stored (hconn : conn ∈ s.connections) (hfits : Fits s conn stage) (store : Store) :
    Proceeds s { s.goes n conn stage with store } :=
  ⟨(proceeds_goes (n := n) hconn hfits).connections, fun _ _ => .inl, fun _ => id, fun _ => .inl⟩

/-- Something is done for the profile of a connection. -/
theorem Proceeds.did (h : Proceeds s t) (hconn : conn ∈ s.connections) {touches : List Touch}
    (hdue : ∀ touch ∈ touches, Due s t conn touch) : Proceeds s (t.did conn.call.profile touches) where
  __ := h
  kept act hact := List.mem_append_left _ (h.kept act hact)
  acts act hact := by
    rcases List.mem_append.mp hact with hact | hact
    · rcases h.acts act hact with hact | ⟨conn', hmem, hprofile, hdue'⟩
      · exact .inl hact
      · refine .inr ⟨conn', hmem, hprofile, ?_⟩
        cases hact' : act.2 <;> rw [hact'] at hdue' <;> exact hdue'
    · obtain ⟨touch, htouch, rfl⟩ := List.mem_map.mp hact
      refine .inr ⟨conn, hconn, rfl, ?_⟩
      have := hdue touch htouch
      cases touch <;> exact this

-- ---------------------------------------------------------------------------
-- Executions
-- ---------------------------------------------------------------------------

theorem queued_same (h : t.executions = s.executions) : Queued s t where
  length := by rw [h]
  inputs k x hx := ⟨[], by rw [h, hx, List.append_nil], nofun⟩

theorem send_ok {x x' : Handle} (h : x.send input = .ok x') : x' = { x with queue := x.queue ++ [input] } := by
  unfold Handle.send at h
  split at h
  · cases h
  · split at h <;> cases h
    rfl

theorem gives_ok (h : s.gives k input = .ok t) :
    ∃ x, s.executions[k]? = some x ∧ t = s.setHandle k { x with queue := x.queue ++ [input] } := by
  unfold State.gives at h
  split at h
  · cases h
  · next x hx =>
    cases hsend : x.send input with
    | error fault =>
      rw [hsend] at h
      cases h
    | ok x' =>
      rw [hsend] at h
      cases h
      exact ⟨x, hx, by rw [send_ok hsend]⟩

/-- An input that is no request, or one of a connection that has the execution. -/
theorem queued_gives {u : State} (h : s.gives k input = .ok t) (hu : u.executions = t.executions)
    (hinput : ∀ r, input = .execute r → parseUuid r.operation = true ∧ ∃ conn ∈ s.connections,
      conn.stage.execution = some k ∧ ∃ channel, conn.call.request.channel = some channel ∧
        (conn.call.profile, .executes channel r) ∈ u.acts) : Queued s u := by
  obtain ⟨x, hx, rfl⟩ := gives_ok h
  constructor
  · rw [hu]
    exact List.length_set
  · intro j y hy
    rw [hu]
    by_cases hj : k = j
    · subst hj
      obtain rfl := Option.some.inj (hx.symm.trans hy)
      refine ⟨[input], List.getElem?_set_self (List.getElem?_eq_some_iff.mp hx).1, fun r hr => ?_⟩
      exact hinput r (List.mem_singleton.mp hr).symm
    · exact ⟨[], by rw [List.append_nil, State.setHandle, List.getElem?_set_ne hj, hy], nofun⟩

theorem gives_same (h : s.gives k input = .ok t) :
    t.store = s.store ∧ t.connections = s.connections ∧ t.live = s.live ∧ t.acts = s.acts := by
  obtain ⟨x, -, rfl⟩ := gives_ok h
  exact ⟨rfl, rfl, rfl, rfl⟩

-- ---------------------------------------------------------------------------
-- The functions
-- ---------------------------------------------------------------------------

/-- What a step has to be. -/
abbrev Stepped (supply : String → Nat → String) (c : Crates) (s : State) (e : Event) (t : State) : Prop :=
  Proceeds s t ∧ Turned supply c s e t

theorem stepped_answers (reply : Except Fault Unit) : Stepped supply c s e (s.answers n conn reply) :=
  ⟨proceeds_answers s n conn reply, .queued rfl (queued_same rfl)⟩

theorem stepped_goes (hconn : conn ∈ s.connections) (hfits : Fits s conn stage) :
    Stepped supply c s e (s.goes n conn stage) := ⟨proceeds_goes hconn hfits, .queued rfl (queued_same rfl)⟩

/-- Nothing but connections, the lock and what was done changes. -/
theorem stepped_did (hp : Proceeds s t) (hstore : t.store = s.store) (hexecutions : t.executions = s.executions)
    (hconn : conn ∈ s.connections) {touches : List Touch} (hdue : ∀ touch ∈ touches, Due s t conn touch) :
    Stepped supply c s e (t.did conn.call.profile touches) :=
  ⟨hp.did hconn hdue, .queued hstore (queued_same hexecutions)⟩

theorem stepped_takeLock (hconn : conn ∈ s.connections) (h : s.takeLock n conn = some t) :
    Stepped supply c s e t := by
  unfold State.takeLock at h
  split at h
  · split at h
    · split at h <;> cases h
      have hfits : Fits s conn .locked := nofun
      exact ⟨{ proceeds_goes hconn hfits with live := fun channel k hk => .inl (Table.mem_retain.mp hk).1 },
        .queued rfl (queued_same rfl)⟩
    · cases h
      exact stepped_answers _
  · cases h

theorem stepped_checkOwner {channel : String} (hconn : conn ∈ s.connections)
    (hchannel : conn.call.request.channel = some channel) : Stepped supply c s e (s.checkOwner n conn channel) := by
  unfold State.checkOwner
  split
  · next howner =>
    refine stepped_goes hconn fun name hname => ?_
    cases hchannel.symm.trans hname
    exact howner
  · exact stepped_answers _

theorem stepped_askOwner (hconn : conn ∈ s.connections) (h : s.askOwner identity n conn = some t) :
    Stepped supply c s e t := by
  unfold State.askOwner at h
  split at h
  · split at h <;> cases h
    · exact stepped_goes hconn nofun
    · exact stepped_answers _
  · next hrequest =>
    split at h <;> cases h
    · exact stepped_checkOwner hconn (by rw [hrequest]; rfl)
    · exact stepped_answers _
  · next hrequest =>
    cases h
    exact stepped_checkOwner hconn (by rw [hrequest]; rfl)
  · cases h

theorem stepped_prepare {snapshot : Execution.Runtime} {revision : Int} {newest : List String}
    (hconn : conn ∈ s.connections) (h : s.prepare n conn snapshot revision newest = some t) :
    Stepped supply c s e t := by
  unfold State.prepare at h
  split at h
  · split at h
    · cases h
      exact stepped_answers _
    · split at h
      · cases h
        exact stepped_answers _
      · split at h <;> cases h
        · exact stepped_answers _
        · exact ⟨proceeds_stored hconn (by nofun) _, .retired newest rfl rfl⟩
  · cases h

theorem stepped_create (hconn : conn ∈ s.connections) (habout : s.about e = conn.call.request.channel)
    (h : s.create n conn = some t) : Stepped supply c s e t := by
  unfold State.create at h
  split at h
  · next runtime channel selected revision mcp _ hrequest =>
    split at h <;> cases h
    · exact stepped_answers _
    · next store hok =>
      refine ⟨⟨(proceeds_answers s n conn (.ok ())).connections, fun name k hk => ?_,
        fun act hact => List.mem_append_left _ hact, fun act hact => ?_⟩, ?_⟩
      · rw [Table.lookup_insert_if] at hk
        split at hk
        · next hname =>
          cases hk
          exact .inr ⟨_, List.getElem?_concat_length, hname.symm⟩
        · exact .inl hk
      · rcases List.mem_append.mp hact with hact | hact
        · exact .inl hact
        · cases List.mem_singleton.mp hact
          refine .inr ⟨conn, hconn, rfl, ?_⟩
          unfold Store.createChannel at hok
          split at hok <;> cases hok
          simp only [Due, ownerOf]
          rw [AList.lookup_insert]
          rfl
      · exact .opened channel _ revision runtime selected (by rw [habout, hrequest]; rfl) hok rfl
  · cases h

theorem stepped_findExecution {channel : String} (hconn : conn ∈ s.connections) (howned : conn.stage = .owned)
    (hchannel : conn.call.request.channel = some channel) (h : s.findExecution n conn channel = some t) :
    Stepped supply c s e t := by
  unfold State.findExecution at h
  split at h
  · split at h <;> cases h
    · exact stepped_answers _
    · next k hk =>
      refine stepped_goes hconn ⟨howned, fun name hname => ?_⟩
      cases hchannel.symm.trans hname
      exact hk
  · cases h

theorem stepped_look (hconn : conn ∈ s.connections) (h : s.look n conn = some t) : Stepped supply c s e t := by
  unfold State.look at h
  split at h
  · next howned hrequest => exact stepped_findExecution hconn howned (by rw [hrequest]; rfl) h
  · next howned hrequest => exact stepped_findExecution hconn howned (by rw [hrequest]; rfl) h
  · cases h

/-- An execution has been given an input that is no request. -/
theorem stepped_given {touches : List Touch} (hconn : conn ∈ s.connections) (hgives : s.gives k input = .ok t)
    (hinput : ∀ r, input ≠ .execute r) (hp : Proceeds s u) (hstore : u.store = t.store)
    (hexecutions : u.executions = t.executions) (hdue : ∀ touch ∈ touches, Due s u conn touch) :
    Stepped supply c s e (u.did conn.call.profile touches) :=
  ⟨hp.did hconn hdue, .queued (hstore.trans (gives_same hgives).1)
    (queued_gives hgives hexecutions fun r hr => absurd hr (hinput r))⟩

/-- The same when a connection goes on with it. -/
theorem proceeds_given (hconn : conn ∈ s.connections) (hgives : s.gives k input = .ok t) (hfits : Fits s conn stage) :
    Proceeds s (t.goes n conn stage) := by
  obtain ⟨x, -, rfl⟩ := gives_ok hgives
  exact ⟨(proceeds_goes (n := n) hconn hfits).connections, fun _ _ => .inl, fun _ => id, fun _ => .inl⟩

theorem proceeds_answered (hgives : s.gives k input = .ok t) (reply : Except Fault Unit) :
    Proceeds s (t.answers n conn reply) := by
  obtain ⟨x, -, rfl⟩ := gives_ok hgives
  exact ⟨(proceeds_answers s n conn reply).connections, fun _ _ => .inl, fun _ => id, fun _ => .inl⟩

theorem stepped_hand (hconn : conn ∈ s.connections) (h : s.hand n conn = some t) : Stepped supply c s e t := by
  unfold State.hand at h
  split at h
  · next k channel after hstage hrequest =>
    split at h <;> cases h
    · exact stepped_answers _
    · next u hgives =>
      have hfits : Fits s conn (.streaming k after) := fun j hj => by rw [hstage]; exact hj
      refine stepped_given hconn hgives nofun (proceeds_given hconn hgives hfits) rfl rfl fun touch htouch => ?_
      cases List.mem_singleton.mp htouch
      exact ⟨by rw [hrequest]; rfl, k, by rw [hstage]; rfl⟩
  · next k channel hstage hrequest =>
    split at h <;> cases h
    · exact stepped_answers _
    · next u hgives =>
      refine stepped_given hconn hgives nofun (proceeds_answered hgives _) rfl rfl fun touch htouch => ?_
      cases List.mem_singleton.mp htouch
      exact ⟨by rw [hrequest]; rfl, k, by rw [hstage]; rfl⟩
  · cases h

/-- A frame that is an input. -/
theorem frame_cases {touches : String → List Touch} (h : s.frame n conn input touches = some t) :
    ∃ k cursor channel after, conn.stage = .streaming k cursor ∧ conn.call.request = .attachExecution channel after ∧
      ((∃ fault, s.gives k input = .error fault ∧ t = s.goes n conn (.leaving k)) ∨
        ∃ u, s.gives k input = .ok u ∧ t = u.did conn.call.profile (touches channel)) := by
  unfold State.frame at h
  split at h
  · next k cursor channel after hstage hrequest =>
    refine ⟨k, cursor, channel, after, hstage, hrequest, ?_⟩
    split at h <;> cases h
    · next fault hgives => exact .inl ⟨fault, hgives, rfl⟩
    · next u hgives => exact .inr ⟨u, hgives, rfl⟩
  · cases h

theorem fits_leaving {cursor : Int} (hstage : conn.stage = .streaming k cursor) : Fits s conn (.leaving k) := by
  intro j hj
  rw [hstage]
  exact hj

theorem proceeds_gives (hgives : s.gives k input = .ok t) : Proceeds s t := by
  obtain ⟨x, -, rfl⟩ := gives_ok hgives
  exact ⟨fun _ => .inl, fun _ _ => .inl, fun _ => id, fun _ => .inl⟩

/-- A frame that is no request. -/
theorem stepped_frame {touches : String → List Touch} (hconn : conn ∈ s.connections)
    (hinput : ∀ r, input ≠ .execute r)
    (hdue : ∀ channel, ∀ touch ∈ touches channel, touch = .detaches channel)
    (h : s.frame n conn input touches = some t) : Stepped supply c s e t := by
  obtain ⟨k, cursor, channel, after, hstage, hrequest, hcases⟩ := frame_cases h
  rcases hcases with ⟨fault, -, rfl⟩ | ⟨u, hgives, rfl⟩
  · exact stepped_goes hconn (fits_leaving hstage)
  · refine stepped_given hconn hgives hinput (proceeds_gives hgives) rfl rfl fun touch htouch => ?_
    rw [hdue channel touch htouch]
    exact ⟨by rw [hrequest]; rfl, k, by rw [hstage]; rfl⟩

theorem stepped_execute {r : Execution.Request} (hconn : conn ∈ s.connections) (h : s.execute n conn r = some t) :
    Stepped supply c s e t := by
  unfold State.execute at h
  split at h
  · next k cursor hstage =>
    split at h
    · next huuid =>
      obtain ⟨k, cursor, channel, after, hstage, hrequest, hcases⟩ := frame_cases h
      have hchannel : conn.call.request.channel = some channel := by rw [hrequest]; rfl
      have hexecution : conn.stage.execution = some k := by rw [hstage]; rfl
      rcases hcases with ⟨fault, -, rfl⟩ | ⟨u, hgives, rfl⟩
      · exact stepped_goes hconn (fits_leaving hstage)
      · refine ⟨(proceeds_gives hgives).did hconn fun touch htouch => ?_,
          .queued (gives_same hgives).1 (queued_gives hgives rfl fun r' hr => ?_)⟩
        · cases List.mem_singleton.mp htouch
          exact ⟨hchannel.symm, k, hexecution⟩
        · cases hr
          exact ⟨huuid, conn, hconn, hexecution, channel, hchannel,
            List.mem_append_right _ (List.mem_singleton_self _)⟩
    · cases h
      exact stepped_goes hconn (fits_leaving hstage)
  · cases h

theorem stepped_detach (hconn : conn ∈ s.connections) (h : s.detach n conn = some t) : Stepped supply c s e t := by
  unfold State.detach at h
  split at h
  · next j cursor' hstage' =>
    obtain ⟨u, hframe, rfl⟩ := Option.map_eq_some_iff.mp h
    obtain ⟨k, cursor, channel, after, hstage, hrequest, hcases⟩ := frame_cases hframe
    obtain ⟨rfl, rfl⟩ : j = k ∧ cursor' = cursor := by
      have hsame := hstage'.symm.trans hstage
      injection hsame with hk hcursor
      exact ⟨hk, hcursor⟩
    have hfits : Fits s conn (.leaving j) := fits_leaving hstage
    rcases hcases with ⟨fault, -, rfl⟩ | ⟨v, hgives, rfl⟩
    · have hsame : (s.goes n conn (.leaving j)).goes n conn (.leaving j) = s.goes n conn (.leaving j) := by
        simp only [State.goes, List.set_set]
      rw [hsame]
      exact stepped_goes hconn hfits
    · have hdue : ∀ touch ∈ [Touch.detaches channel], Due s (v.goes n conn (.leaving j)) conn touch := by
        intro touch htouch
        cases List.mem_singleton.mp htouch
        exact ⟨by rw [hrequest]; rfl, j, by rw [hstage]; rfl⟩
      exact stepped_given hconn hgives nofun (proceeds_given hconn hgives hfits) rfl rfl hdue
  · cases h

theorem stepped_acknowledge {ack : Int} (hconn : conn ∈ s.connections)
    (habout : s.about e = conn.call.request.channel) (h : s.acknowledge n conn ack = some t) :
    Stepped supply c s e t := by
  unfold State.acknowledge at h
  split at h
  · next k cursor channel after hstage hrequest =>
    have hchannel : conn.call.request.channel = some channel := by rw [hrequest]; rfl
    have hexecution : conn.stage.execution = some k := by rw [hstage]; rfl
    split at h <;> cases h
    · have hfits : Fits s conn (.acking k cursor ack) := fun j hj => hexecution.trans hj
      refine ⟨(proceeds_stored hconn hfits _).did hconn fun touch htouch => ?_,
        .pruned conn channel ack hconn ⟨k, hexecution⟩ hchannel (habout.trans hchannel) rfl rfl⟩
      cases List.mem_singleton.mp htouch
      exact ⟨hchannel.symm, k, hexecution⟩
    · exact stepped_goes hconn (fits_leaving hstage)
  · cases h

theorem stepped_compact (hconn : conn ∈ s.connections) (habout : s.about e = conn.call.request.channel)
    (h : s.compact n conn = some t) : Stepped supply c s e t := by
  unfold State.compact at h
  split at h
  · next k cursor ack channel after hstage hrequest =>
    have hchannel : conn.call.request.channel = some channel := by rw [hrequest]; rfl
    have hexecution : conn.stage.execution = some k := by rw [hstage]; rfl
    have hfits : Fits s conn (.streaming k cursor) := fun j hj => hexecution.trans hj
    cases h
    exact ⟨proceeds_stored hconn hfits _,
      .compacted conn channel ack hconn ⟨k, hexecution⟩ hchannel (habout.trans hchannel) rfl rfl⟩
  · cases h

theorem stepped_floor (hconn : conn ∈ s.connections) (h : s.floor n conn = some t) : Stepped supply c s e t := by
  unfold State.floor at h
  split at h
  · next k cursor channel after hstage hrequest =>
    split at h <;> cases h
    · exact stepped_goes hconn (fits_leaving hstage)
    · exact stepped_goes hconn fun j hj => by rw [hstage]; exact hj
  · cases h

theorem stepped_page {got : Nat} (hconn : conn ∈ s.connections) (h : s.page n conn got = some t) :
    Stepped supply c s e t := by
  unfold State.page at h
  split at h
  · next k cursor channel after hstage hrequest =>
    have hfits : ∀ cursor', Fits s conn (.streaming k cursor') := fun cursor' j hj => by rw [hstage]; exact hj
    cases h
    refine stepped_did (proceeds_goes hconn (hfits _)) rfl rfl hconn fun touch htouch => ?_
    obtain ⟨row, hrow, rfl⟩ := List.mem_map.mp htouch
    have hguard := (List.mem_filter.mp (List.mem_of_mem_take (List.mem_of_mem_take hrow))).2
    simp only [decide_eq_true_eq] at hguard
    exact ⟨by rw [hrequest, Touch.channel, hguard.1]; rfl, k, by rw [hstage]; rfl⟩
  · cases h

theorem stepped_dropped {latest : Bool} (k : Nat) : Stepped supply c s e (s.dropped n conn latest k) := by
  unfold State.dropped
  split
  · exact stepped_answers _
  · next u hgives =>
    split at hgives
    · exact ⟨proceeds_answered hgives _, .queued (gives_same hgives).1 (queued_gives hgives rfl nofun)⟩
    · cases hgives
      exact stepped_answers _

theorem stepped_drop {latest : Bool} (h : s.drop n conn latest = some t) : Stepped supply c s e t := by
  unfold State.drop at h
  split at h <;> cases h <;> exact stepped_dropped _

theorem stepped_query (hconn : conn ∈ s.connections) (h : s.query n conn = some t) : Stepped supply c s e t := by
  unfold State.query at h
  split at h
  · next channel hstage hrequest =>
    split at h <;> cases h
    · next howner =>
      refine stepped_did (proceeds_answers s n conn _) rfl rfl hconn fun touch htouch => ?_
      cases List.mem_singleton.mp htouch
      exact howner
    · exact stepped_answers _
  · cases h
    refine stepped_did (proceeds_answers s n conn _) rfl rfl hconn fun touch htouch => ?_
    obtain ⟨job, hjob, rfl⟩ := List.mem_map.mp htouch
    obtain ⟨hmem, hguard⟩ := List.mem_filter.mp hjob
    simp only [Bool.and_eq_true, decide_eq_true_eq] at hguard
    exact ⟨hmem, hguard.1.1⟩
  · next id after hstage hrequest =>
    split at h <;> cases h
    · exact stepped_answers _
    · next job hjob =>
      have hmem := List.mem_of_find?_eq_some hjob
      have hguard := List.find?_some hjob
      simp only [decide_eq_true_eq] at hguard
      have hfits : Fits s conn .told := by
        intro id' after' hreq
        cases hrequest.symm.trans hreq
        exact ⟨job, hmem, hguard.2, hguard.1⟩
      refine stepped_did (proceeds_goes hconn hfits) rfl rfl hconn fun touch htouch => ?_
      cases List.mem_singleton.mp htouch
      exact ⟨hmem, hguard.1⟩
  · split at h <;> cases h
    refine ⟨⟨(proceeds_answers s n conn _).connections, fun _ _ => .inl, fun _ => id, fun _ => .inl⟩,
      .queued rfl ⟨List.length_mapIdx, fun k x hx => ?_⟩⟩
    simp only [State.answers, State.goes, State.retireIdle, List.getElem?_mapIdx, hx, Option.map_some]
    split
    · cases hsend : x.send .retireIdle with
      | error fault => exact ⟨[], by rw [List.append_nil]; rfl, nofun⟩
      | ok x' => exact ⟨[.retireIdle], by rw [send_ok hsend]; rfl, by simp⟩
    · exact ⟨[], by rw [List.append_nil], nofun⟩
  · cases h

theorem stepped_outputs (hconn : conn ∈ s.connections) (h : s.outputs n conn = some t) : Stepped supply c s e t := by
  unfold State.outputs at h
  split at h
  · next id after hstage hrequest =>
    cases h
    refine stepped_did (proceeds_answers s n conn _) rfl rfl hconn fun touch htouch => ?_
    obtain ⟨row, hrow, rfl⟩ := List.mem_map.mp htouch
    have hguard := (List.mem_filter.mp (List.mem_of_mem_take ((Output.page_prefix _).subset hrow))).2
    simp only [decide_eq_true_eq] at hguard
    exact ⟨hstage, after, by rw [hrequest, hguard.1]⟩
  · cases h

theorem stepped_fails {fault : Fault} (hconn : conn ∈ s.connections) (h : s.fails n conn fault = some t) :
    Stepped supply c s e t := by
  unfold State.fails at h
  split at h
  · next hstage =>
    cases h
    exact stepped_goes hconn (fits_leaving hstage)
  · next hstage =>
    cases h
    exact stepped_goes hconn fun j hj => by rw [hstage]; exact hj
  · next hstage =>
    cases h
    exact stepped_goes hconn fun j hj => by rw [hstage]; exact hj
  · cases h
  · cases h
  · cases h
    exact stepped_answers _

theorem stepped_call {call : Call} (h : s.next supply c identity (.call call) = some t) :
    Stepped supply c s (.call call) t := by
  have hadds : ∀ conn : Connection, (conn.stage = .validated ∨ ∃ reply, conn.stage = .ended reply) →
      Stepped supply c s (.call call) { s with connections := s.connections ++ [conn] } := by
    intro conn hstage
    refine ⟨{ Proceeds.refl s with connections := fun conn' hmem => ?_ }, .queued rfl (queued_same rfl)⟩
    rcases List.mem_append.mp hmem with hmem | hmem
    · exact .inl hmem
    · cases List.mem_singleton.mp hmem
      exact .inr (.inr hstage)
  cases hvalid : validate identity call with
  | error fault =>
    simp only [State.next, hvalid, Option.some.injEq] at h
    subst h
    exact hadds _ (.inr ⟨_, rfl⟩)
  | ok =>
    simp only [State.next, hvalid, Option.some.injEq] at h
    subst h
    exact hadds _ (.inl rfl)

/-- Only an execution changes, and maybe the store. -/
theorem proceeds_handle {x : Handle} (store : Store) : Proceeds s { s.setHandle k x with store } :=
  ⟨fun _ => .inl, fun _ _ => .inl, fun _ => id, fun _ => .inl⟩

theorem stepped_takes {x : Handle} {cue : Cue} {outputs : List Value} (hx : s.executions[k]? = some x)
    (habout : s.about e = some x.who.channel) (h : s.takes c k x cue outputs = some t) : Stepped supply c s e t := by
  unfold State.takes at h
  split at h
  · next hrest =>
    obtain ⟨x', htake, rfl⟩ := Option.map_eq_some_iff.mp h
    exact ⟨proceeds_handle s.store, .taken k x x' cue outputs hx habout hrest htake rfl rfl⟩
  · cases h

theorem stepped_carries {x : Handle} (hx : s.executions[k]? = some x) (habout : s.about e = some x.who.channel)
    (h : s.carries supply k x = some t) : Stepped supply c s e t := by
  unfold State.carries at h
  split at h
  · cases h
  · next op next hrest =>
    cases h
    exact ⟨proceeds_handle _, .acted k x op next hx habout hrest rfl rfl⟩

theorem stepped_finish {x : Handle} (hx : s.executions[k]? = some x) (habout : s.about e = some x.who.channel)
    (h : s.finish k x = some t) : Stepped supply c s e t := by
  unfold State.finish at h
  split at h <;> cases h
  next r _ hrest => exact ⟨proceeds_handle s.store, .finished k x r hx habout hrest rfl rfl⟩

theorem stepped_stop (h : (s.gives k .stop).toOption = some t) : Stepped supply c s (.stop k) t := by
  cases hgives : s.gives k .stop with
  | error fault =>
    rw [hgives] at h
    cases h
  | ok u =>
    rw [hgives] at h
    cases h
    exact ⟨proceeds_gives hgives, .queued (gives_same hgives).1 (queued_gives hgives rfl nofun)⟩

theorem stepped_restart (reason : String) : Stepped supply c s (.restart reason) (s.restart reason) :=
  ⟨⟨nofun, nofun, fun _ => id, fun _ => .inl⟩, .restarted reason rfl rfl⟩

/-- Every step. -/
theorem next_step (h : s.next supply c identity e = some t) : Stepped supply c s e t := by
  have hbind : ∀ {α : Type} {xs : List α} {f : α → Option State} {i : Nat}, xs[i]?.bind f = some t →
      ∃ x, xs[i]? = some x ∧ x ∈ xs ∧ f x = some t := by
    intro α xs f i h
    obtain ⟨x, hx, hf⟩ := Option.bind_eq_some_iff.mp h
    exact ⟨x, hx, List.mem_of_getElem? hx, hf⟩
  cases e with
  | call call => exact stepped_call h
  | lock n =>
    obtain ⟨conn, -, hconn, h⟩ := hbind h
    exact stepped_takeLock hconn h
  | owner n =>
    obtain ⟨conn, -, hconn, h⟩ := hbind h
    exact stepped_askOwner hconn h
  | prepare n snapshot revision newest =>
    obtain ⟨conn, -, hconn, h⟩ := hbind h
    exact stepped_prepare hconn h
  | create n =>
    obtain ⟨conn, hn, hconn, h⟩ := hbind h
    exact stepped_create hconn (by rw [State.about, hn]; rfl) h
  | look n =>
    obtain ⟨conn, -, hconn, h⟩ := hbind h
    exact stepped_look hconn h
  | hand n =>
    obtain ⟨conn, -, hconn, h⟩ := hbind h
    exact stepped_hand hconn h
  | execute n r =>
    obtain ⟨conn, -, hconn, h⟩ := hbind h
    exact stepped_execute hconn h
  | heartbeat n =>
    obtain ⟨conn, -, hconn, h⟩ := hbind h
    exact stepped_frame hconn (by nofun) (by nofun) h
  | ack n ack =>
    obtain ⟨conn, hn, hconn, h⟩ := hbind h
    exact stepped_acknowledge hconn (by rw [State.about, hn]; rfl) h
  | compact n =>
    obtain ⟨conn, hn, hconn, h⟩ := hbind h
    exact stepped_compact hconn (by rw [State.about, hn]; rfl) h
  | floor n =>
    obtain ⟨conn, -, hconn, h⟩ := hbind h
    exact stepped_floor hconn h
  | page n got =>
    obtain ⟨conn, -, hconn, h⟩ := hbind h
    exact stepped_page hconn h
  | detach n =>
    obtain ⟨conn, -, hconn, h⟩ := hbind h
    exact stepped_detach hconn h
  | drop n latest =>
    obtain ⟨conn, -, hconn, h⟩ := hbind h
    exact stepped_drop h
  | query n =>
    obtain ⟨conn, -, hconn, h⟩ := hbind h
    exact stepped_query hconn h
  | outputs n =>
    obtain ⟨conn, -, hconn, h⟩ := hbind h
    exact stepped_outputs hconn h
  | fails n fault =>
    obtain ⟨conn, -, hconn, h⟩ := hbind h
    exact stepped_fails hconn h
  | take k cue outputs =>
    obtain ⟨x, hx, -, h⟩ := hbind h
    exact stepped_takes hx (by rw [State.about, hx]; rfl) h
  | act k =>
    obtain ⟨x, hx, -, h⟩ := hbind h
    exact stepped_carries hx (by rw [State.about, hx]; rfl) h
  | finish k =>
    obtain ⟨x, hx, -, h⟩ := hbind h
    exact stepped_finish hx (by rw [State.about, hx]; rfl) h
  | dies k =>
    obtain ⟨x, hx, rfl⟩ := Option.map_eq_some_iff.mp h
    exact ⟨proceeds_handle s.store, .died k x hx (by rw [State.about, hx]; rfl) rfl rfl⟩
  | stop k => exact stepped_stop h
  | restart reason =>
    cases h
    exact stepped_restart reason

end

end RemoteCodex.Service
