import RemoteCodex.Interact.Runs

/-!
# What is to be continued

`Intent` remembers the turn an outage has interrupted. Two tasks and the user's
calls change it, each under its lock: the native events, the connection's
states, cancellations and messages. An outage is an episode; the continuation
takes the episode and the turn with it.
-/

namespace RemoteCodex.Local

open Interact

inductive TurnOutcome
  | completed
  | interrupted
  | failed
  deriving DecidableEq, Repr

def TurnOutcome.status : TurnOutcome → String
  | .completed => "completed"
  | .interrupted => "interrupted"
  | .failed => "failed"

structure TurnState where
  id : String
  status : String
  deriving DecidableEq, Repr

/-- `pendingMessage` is whether the message that waits was cancelled. -/
structure Intent where
  active : Option String := none
  currentTurn : Option TurnState := none
  completed : Option String := none
  resumeGoal : Option String := none
  interrupted : Option String := none
  episode : Option String := none
  pendingMessage : Option Bool := none
  resendAfterRecovery : Bool := false
  cancelled : Option String := none
  deriving DecidableEq, Repr

namespace Intent

/-- `observe`, for the start of a turn. -/
def turnStarted (s : Intent) (id : String) : Intent :=
  { s with active := some id, currentTurn := some ⟨id, "inProgress"⟩ }

/-- `observe`, for the end of one. -/
def turnCompleted (s : Intent) (id : String) (outcome : TurnOutcome) : Intent :=
  let s := { s with
    completed := some id
    active := if s.active = some id then none else s.active
    interrupted := if outcome = .completed then none else s.interrupted }
  if s.currentTurn.any fun current => current.id ≠ id then s
  else { s with currentTurn := some ⟨id, outcome.status⟩ }

/-- `uuid` is the identity that is drawn for a new episode. -/
def disconnect (s : Intent) (uuid : String) : Intent :=
  if s.episode.isNone then
    { s with
      episode := some uuid
      interrupted := s.active.filter fun turn => s.cancelled ≠ some turn }
  else s

def cancel (s : Intent) (turn : String) : Intent :=
  { s with
    resumeGoal := none
    pendingMessage := s.pendingMessage.map fun _ => true
    cancelled := some turn
    interrupted := if s.interrupted = some turn then none else s.interrupted }

def continuation (s : Intent) (rebuilt : Bool) : Option (String × String) × Intent :=
  if s.pendingMessage.isSome then (none, s)
  else if !rebuilt && s.active.isSome then (none, s)
  else
    (match s.episode, s.interrupted with
      | some episode, some turn => some (episode, turn)
      | _, _ => none,
    { s with
      episode := none
      interrupted := none
      active := if rebuilt then none else s.active })

/-- `retry_for_message`: the message is to be sent again. -/
def retryForMessage (s : Intent) : Intent :=
  { s with interrupted := none, episode := none, resumeGoal := none, resendAfterRecovery := true }

/-- `recover_for_message`: the message waits for the connection. -/
def recoverForMessage (s : Intent) : Option Intent :=
  match s.pendingMessage with
  | some _ => none
  | none => some { s with pendingMessage := some false, interrupted := none, episode := none, resumeGoal := none }

/-- The end of `PendingMessage`. -/
def messageDropped (s : Intent) : Intent := { s with pendingMessage := none }

/-- What `continue_interrupted` notes of the turn it has submitted. -/
def submitted (s : Intent) (id : String) : Intent :=
  if s.completed = some id then s else { s with active := some id }

/-- `finish_disconnected_turn`, with an error or without. -/
def finishDisconnectedTurn (s : Intent) (error : Bool) : Intent :=
  match s.currentTurn with
  | some turn =>
    if turn.status = "inProgress" then s.turnCompleted turn.id (if error then .failed else .interrupted) else s
  | none => s

end Intent

inductive IntentEvent
  | started (id : String)
  | completed (id : String) (outcome : TurnOutcome)
  | disconnect (uuid : String)
  /-- The disconnect a rebuild begins with. -/
  | rebuild (uuid : String)
  | cancel (turn : String)
  | retry
  | message
  | messageDropped
  | submitted (id : String)
  | finish (error : Bool)
  | continuation (rebuilt : Bool)
  deriving DecidableEq, Repr

/-- The intent, and what happened to it: the identities that were drawn, the
turns that were cancelled and the continuations, the latest first. -/
structure Recovering where
  intent : Intent := {}
  rebuilding : Bool := false
  drawn : List String := []
  cancels : List String := []
  produced : List (String × String) := []
  deriving DecidableEq, Repr

namespace Recovering

def next (s : Recovering) : IntentEvent → Option Recovering
  | .started id => some { s with intent := s.intent.turnStarted id }
  | .completed id outcome => some { s with intent := s.intent.turnCompleted id outcome }
  | .disconnect uuid =>
    if uuid ∈ s.drawn then none
    else some { s with intent := s.intent.disconnect uuid, drawn := uuid :: s.drawn }
  | .rebuild uuid =>
    if uuid ∈ s.drawn then none
    else some { s with intent := s.intent.disconnect uuid, drawn := uuid :: s.drawn, rebuilding := true }
  | .cancel turn => some { s with intent := s.intent.cancel turn, cancels := turn :: s.cancels }
  | .retry => some { s with intent := s.intent.retryForMessage }
  | .message => s.intent.recoverForMessage.map fun intent => { s with intent }
  | .messageDropped => some { s with intent := s.intent.messageDropped }
  | .submitted id => some { s with intent := s.intent.submitted id }
  | .finish error => some { s with intent := s.intent.finishDisconnectedTurn error }
  | .continuation rebuilt =>
    some { s with
      intent := (s.intent.continuation rebuilt).2
      rebuilding := s.rebuilding && !rebuilt
      produced := (s.intent.continuation rebuilt).1.toList ++ s.produced }

/-- What may happen during a rebuild: the native events wait for its end. -/
def Beside : IntentEvent → Prop
  | .started _ => False
  | .completed _ _ => False
  | .rebuild _ => False
  | .continuation rebuilt => rebuilt = false
  | _ => True

/-- A message of the user takes the place of the continuation. -/
def Supersedes : IntentEvent → Prop
  | .retry => True
  | .message => True
  | _ => False

/-- An outage that opens an episode finds no turn that was cancelled before the
last one; a rebuild finds no episode of another outage; and during a rebuild
nobody else takes the continuation. -/
def Recalled (s : Recovering) : IntentEvent → Prop
  | .disconnect _ => s.intent.episode = none → ∀ t ∈ s.intent.active, t ∈ s.cancels → s.intent.cancelled = some t
  | .rebuild _ =>
    (s.intent.episode = none → ∀ t ∈ s.intent.active, t ∈ s.cancels → s.intent.cancelled = some t) ∧
      ∀ t ∈ s.intent.active, t ∉ s.cancels → s.intent.episode = none ∨ s.intent.interrupted = some t
  | .continuation false => s.rebuilding = true → s.intent.pendingMessage.isSome ∨ s.intent.active.isSome
  | _ => True

end Recovering

-- ---------------------------------------------------------------------------
-- What the events leave of an outage
-- ---------------------------------------------------------------------------

namespace Intent

/-- `t` knows of no other outage than `s`, and may have forgotten its turn. -/
structure Forgets (s t : Intent) : Prop where
  episode : t.episode = s.episode
  interrupted : t.interrupted = s.interrupted ∨ t.interrupted = none
  cancelled : t.cancelled = s.cancelled
  pending : t.pendingMessage = s.pendingMessage

theorem forgets_turnCompleted (s : Intent) (id : String) (outcome : TurnOutcome) :
    s.Forgets (s.turnCompleted id outcome) := by
  have h : ∀ u : Option TurnState, s.Forgets { s with
      completed := some id
      active := if s.active = some id then none else s.active
      interrupted := if outcome = .completed then none else s.interrupted
      currentTurn := u } := by
    intro u
    refine ⟨rfl, ?_, rfl, rfl⟩
    dsimp only
    split
    · exact .inr rfl
    · exact .inl rfl
  unfold turnCompleted
  dsimp only
  split
  · exact h s.currentTurn
  · exact h _

/-- A turn that does not complete leaves the interrupted one as it is. -/
theorem interrupted_turnCompleted (s : Intent) (id : String) {outcome : TurnOutcome} (h : outcome ≠ .completed) :
    (s.turnCompleted id outcome).interrupted = s.interrupted := by
  unfold turnCompleted
  simp only [if_neg h]
  split <;> rfl

theorem forgets_finish (s : Intent) (error : Bool) :
    s.Forgets (s.finishDisconnectedTurn error) ∧ (s.finishDisconnectedTurn error).interrupted = s.interrupted := by
  unfold finishDisconnectedTurn
  have houtcome : (if error then TurnOutcome.failed else .interrupted) ≠ .completed := by
    cases error <;> nofun
  split
  · next turn _ =>
    split
    · exact ⟨forgets_turnCompleted s turn.id _, interrupted_turnCompleted s turn.id houtcome⟩
    · exact ⟨⟨rfl, .inl rfl, rfl, rfl⟩, rfl⟩
  · exact ⟨⟨rfl, .inl rfl, rfl, rfl⟩, rfl⟩

theorem forgets_submitted (s : Intent) (id : String) :
    s.Forgets (s.submitted id) ∧ (s.submitted id).interrupted = s.interrupted := by
  unfold submitted
  split
  · exact ⟨⟨rfl, .inl rfl, rfl, rfl⟩, rfl⟩
  · exact ⟨⟨rfl, .inl rfl, rfl, rfl⟩, rfl⟩

theorem disconnect_cases (s : Intent) (uuid : String) :
    (s.episode ≠ none ∧ s.disconnect uuid = s) ∨
      (s.episode = none ∧ (s.disconnect uuid).episode = some uuid ∧ (s.disconnect uuid).cancelled = s.cancelled ∧
        (s.disconnect uuid).pendingMessage = s.pendingMessage ∧
        ∀ t, (s.disconnect uuid).interrupted = some t ↔ s.active = some t ∧ s.cancelled ≠ some t) := by
  unfold disconnect
  cases hepisode : s.episode with
  | some e => exact .inl ⟨nofun, by simp⟩
  | none =>
    refine .inr ⟨rfl, rfl, rfl, rfl, fun t => ?_⟩
    simp [Option.filter_eq_some_iff]

/-- A call produces what was remembered, or leaves the intent as it is. -/
theorem continuation_cases (s : Intent) (rebuilt : Bool) :
    ((s.continuation rebuilt).1 = none ∧ (s.continuation rebuilt).2 = s) ∨
      (s.pendingMessage = none ∧ (s.continuation rebuilt).2.episode = none ∧
        (s.continuation rebuilt).2.interrupted = none ∧ (s.continuation rebuilt).2.cancelled = s.cancelled ∧
        (s.continuation rebuilt).2.pendingMessage = none ∧
        ∀ e t, (s.continuation rebuilt).1 = some (e, t) ↔ s.episode = some e ∧ s.interrupted = some t) := by
  unfold continuation
  cases hpending : s.pendingMessage with
  | some b => exact .inl ⟨rfl, rfl⟩
  | none =>
    by_cases hactive : (!rebuilt && s.active.isSome) = true
    · exact .inl (by simp [hactive])
    · refine .inr ?_
      simp only [Option.isSome_none, Bool.false_eq_true, if_false, if_neg hactive, true_and]
      intro e t
      cases hepisode : s.episode with
      | none => simp
      | some episode => cases hinterrupted : s.interrupted <;> simp

end Intent

namespace Recovering

variable {s t : Recovering} {e : IntentEvent}

-- ---------------------------------------------------------------------------
-- At most one continuation of an episode
-- ---------------------------------------------------------------------------

structure Once (s : Recovering) : Prop where
  drawn : ∀ p ∈ s.produced, p.1 ∈ s.drawn
  episode : ∀ e, s.intent.episode = some e → e ∈ s.drawn ∧ e ∉ s.produced.map Prod.fst
  nodup : (s.produced.map Prod.fst).Nodup

/-- An event that opens no episode and produces nothing. -/
theorem Once.keep (h : s.Once) (hdrawn : t.drawn = s.drawn) (hproduced : t.produced = s.produced)
    (hepisode : t.intent.episode = s.intent.episode ∨ t.intent.episode = none) : t.Once where
  drawn := by
    rw [hdrawn, hproduced]
    exact h.drawn
  episode e he := by
    rw [hdrawn, hproduced]
    rcases hepisode with heq | hnone
    · exact h.episode e (heq ▸ he)
    · rw [hnone] at he
      cases he
  nodup := by
    rw [hproduced]
    exact h.nodup

theorem Once.disconnect (h : s.Once) {uuid : String} (hnew : uuid ∉ s.drawn) (rebuilding : Bool) :
    Once { s with intent := s.intent.disconnect uuid, drawn := uuid :: s.drawn, rebuilding } where
  drawn p hp := List.mem_cons_of_mem _ (h.drawn p hp)
  episode e he := by
    rcases s.intent.disconnect_cases uuid with ⟨-, heq⟩ | ⟨-, heq, -⟩
    · dsimp only at he
      rw [heq] at he
      exact ⟨List.mem_cons_of_mem _ (h.episode e he).1, (h.episode e he).2⟩
    · obtain rfl := Option.some.inj (heq.symm.trans he)
      refine ⟨List.mem_cons_self, fun hin => ?_⟩
      obtain ⟨p, hp, rfl⟩ := List.mem_map.mp hin
      exact hnew (h.drawn p hp)
  nodup := h.nodup

theorem Once.continuation (h : s.Once) (rebuilt rebuilding : Bool) :
    Once { s with
      intent := (s.intent.continuation rebuilt).2
      rebuilding
      produced := (s.intent.continuation rebuilt).1.toList ++ s.produced } := by
  rcases s.intent.continuation_cases rebuilt with ⟨hnone, hsame⟩ | ⟨-, hepisode, -, -, -, hproduces⟩
  · rw [hnone, hsame]
    exact h.keep rfl rfl (.inl rfl)
  · cases hp : (s.intent.continuation rebuilt).1 with
    | none => exact h.keep rfl rfl (.inr hepisode)
    | some p =>
      obtain ⟨he, -⟩ := (hproduces p.1 p.2).mp hp
      obtain ⟨hdrawn, hnew⟩ := h.episode p.1 he
      refine ⟨fun q hq => ?_, fun e he => ?_, ?_⟩
      · rcases List.mem_cons.mp hq with rfl | hq
        · exact hdrawn
        · exact h.drawn q hq
      · rw [hepisode] at he
        cases he
      · exact List.nodup_cons.mpr ⟨hnew, h.nodup⟩

theorem Once.step (h : s.Once) (hnext : next s e = some t) : t.Once := by
  cases e with
  | started id =>
    cases hnext
    exact h.keep rfl rfl (.inl rfl)
  | completed id outcome =>
    cases hnext
    exact h.keep rfl rfl (.inl (s.intent.forgets_turnCompleted id outcome).episode)
  | disconnect uuid =>
    simp only [next] at hnext
    split at hnext <;> cases hnext
    next hnew => exact h.disconnect hnew s.rebuilding
  | rebuild uuid =>
    simp only [next] at hnext
    split at hnext <;> cases hnext
    next hnew => exact h.disconnect hnew true
  | cancel turn =>
    cases hnext
    exact h.keep rfl rfl (.inl rfl)
  | retry =>
    cases hnext
    exact h.keep rfl rfl (.inr rfl)
  | message =>
    obtain ⟨intent, hintent, rfl⟩ := Option.map_eq_some_iff.mp hnext
    unfold Intent.recoverForMessage at hintent
    split at hintent <;> cases hintent
    exact h.keep rfl rfl (.inr rfl)
  | messageDropped =>
    cases hnext
    exact h.keep rfl rfl (.inl rfl)
  | submitted id =>
    cases hnext
    exact h.keep rfl rfl (.inl (s.intent.forgets_submitted id).1.episode)
  | finish error =>
    cases hnext
    exact h.keep rfl rfl (.inl (s.intent.forgets_finish error).1.episode)
  | continuation rebuilt =>
    cases hnext
    exact h.continuation rebuilt _

-- ---------------------------------------------------------------------------
-- No continuation of a cancelled turn
-- ---------------------------------------------------------------------------

structure Honoured (s : Recovering) : Prop where
  cancelled : ∀ t, s.intent.cancelled = some t → t ∈ s.cancels
  interrupted : ∀ t, s.intent.interrupted = some t → t ∉ s.cancels

theorem Honoured.keep (h : s.Honoured) (hcancels : t.cancels = s.cancels)
    (hcancelled : t.intent.cancelled = s.intent.cancelled)
    (hinterrupted : t.intent.interrupted = s.intent.interrupted ∨ t.intent.interrupted = none) : t.Honoured where
  cancelled := by
    rw [hcancels, hcancelled]
    exact h.cancelled
  interrupted turn hturn := by
    rw [hcancels]
    rcases hinterrupted with heq | hnone
    · exact h.interrupted turn (heq ▸ hturn)
    · rw [hnone] at hturn
      cases hturn

theorem Honoured.disconnect (h : s.Honoured) {uuid : String} {drawn : List String} (rebuilding : Bool)
    (hrecalled : s.intent.episode = none → ∀ t ∈ s.intent.active, t ∈ s.cancels → s.intent.cancelled = some t) :
    Honoured { s with intent := s.intent.disconnect uuid, drawn, rebuilding } := by
  rcases s.intent.disconnect_cases uuid with ⟨-, heq⟩ | ⟨hnone, -, hcancelled, -, hinterrupted⟩
  · rw [heq]
    exact h.keep rfl rfl (.inl rfl)
  · refine ⟨fun turn hturn => h.cancelled turn (hcancelled ▸ hturn), fun turn hturn hin => ?_⟩
    obtain ⟨hactive, hne⟩ := (hinterrupted turn).mp hturn
    exact hne (hrecalled hnone turn hactive hin)

theorem Honoured.step (h : s.Honoured) (hrecalled : Recalled s e) (hnext : next s e = some t) : t.Honoured := by
  cases e with
  | started id =>
    cases hnext
    exact h.keep rfl rfl (.inl rfl)
  | completed id outcome =>
    cases hnext
    have hf := s.intent.forgets_turnCompleted id outcome
    exact h.keep rfl hf.cancelled hf.interrupted
  | disconnect uuid =>
    simp only [next] at hnext
    split at hnext <;> cases hnext
    exact h.disconnect s.rebuilding hrecalled
  | rebuild uuid =>
    simp only [next] at hnext
    split at hnext <;> cases hnext
    exact h.disconnect true hrecalled.1
  | cancel turn =>
    cases hnext
    refine ⟨fun u hu => ?_, fun u hu => ?_⟩
    · obtain rfl := Option.some.inj hu
      exact List.mem_cons_self
    · simp only [Intent.cancel] at hu
      split at hu
      · cases hu
      · next hne =>
        intro hin
        rcases List.mem_cons.mp hin with rfl | hin
        · exact hne hu
        · exact h.interrupted u hu hin
  | retry =>
    cases hnext
    exact h.keep rfl rfl (.inr rfl)
  | message =>
    obtain ⟨intent, hintent, rfl⟩ := Option.map_eq_some_iff.mp hnext
    unfold Intent.recoverForMessage at hintent
    split at hintent <;> cases hintent
    exact h.keep rfl rfl (.inr rfl)
  | messageDropped =>
    cases hnext
    exact h.keep rfl rfl (.inl rfl)
  | submitted id =>
    cases hnext
    obtain ⟨hf, hsame⟩ := s.intent.forgets_submitted id
    exact h.keep rfl hf.cancelled (.inl hsame)
  | finish error =>
    cases hnext
    obtain ⟨hf, hsame⟩ := s.intent.forgets_finish error
    exact h.keep rfl hf.cancelled (.inl hsame)
  | continuation rebuilt =>
    cases hnext
    rcases s.intent.continuation_cases rebuilt with ⟨-, hsame⟩ | ⟨-, -, hinterrupted, hcancelled, -⟩
    · refine h.keep rfl ?_ (.inl ?_)
      · exact congrArg Intent.cancelled hsame
      · exact congrArg Intent.interrupted hsame
    · exact h.keep rfl hcancelled (.inr hinterrupted)

-- ---------------------------------------------------------------------------
-- The continuation after a rebuild
-- ---------------------------------------------------------------------------

/-- `turn` will be continued when the rebuild is done. -/
structure Held (turn : String) (s : Recovering) : Prop where
  rebuilding : s.rebuilding = true
  pending : s.intent.pendingMessage = none
  episode : s.intent.episode ≠ none
  interrupted : s.intent.interrupted = some turn

theorem Held.keep {turn : String} (h : Held turn s) (hrebuilding : t.rebuilding = s.rebuilding)
    (hforgets : s.intent.Forgets t.intent) (hsame : t.intent.interrupted = s.intent.interrupted) : Held turn t where
  rebuilding := hrebuilding.trans h.rebuilding
  pending := hforgets.pending.trans h.pending
  episode := by
    rw [hforgets.episode]
    exact h.episode
  interrupted := hsame.trans h.interrupted

theorem held_rebuild {turn uuid : String} {drawn : List String} (h : s.Honoured)
    (hrecalled : Recalled s (.rebuild uuid)) (hactive : s.intent.active = some turn) (hcancels : turn ∉ s.cancels)
    (hpending : s.intent.pendingMessage = none) :
    Held turn { s with intent := s.intent.disconnect uuid, drawn, rebuilding := true } := by
  rcases s.intent.disconnect_cases uuid with ⟨hsome, heq⟩ | ⟨-, hepisode, -, hsame, hinterrupted⟩
  · rw [heq]
    exact ⟨rfl, hpending, hsome, (hrecalled.2 turn hactive hcancels).resolve_left hsome⟩
  · refine ⟨rfl, hsame.trans hpending, ?_, (hinterrupted turn).mpr ⟨hactive, fun h' => hcancels (h.cancelled turn h')⟩⟩
    rw [hepisode]
    nofun

theorem Held.step {turn : String} (h : Held turn s) (hrecalled : Recalled s e) (hnext : next s e = some t)
    (hbeside : Beside e) (hmessage : ¬ Supersedes e) (hcancel : turn ∉ t.cancels) : Held turn t := by
  cases e with
  | started id => exact hbeside.elim
  | completed id outcome => exact hbeside.elim
  | rebuild uuid => exact hbeside.elim
  | disconnect uuid =>
    simp only [next] at hnext
    split at hnext <;> cases hnext
    rcases s.intent.disconnect_cases uuid with ⟨-, heq⟩ | ⟨hnone, -⟩
    · exact h.keep rfl (heq.symm ▸ ⟨rfl, .inl rfl, rfl, rfl⟩) (congrArg Intent.interrupted heq)
    · exact absurd hnone h.episode
  | cancel u =>
    cases hnext
    have hne : turn ≠ u := by
      rintro rfl
      exact hcancel List.mem_cons_self
    refine ⟨h.rebuilding, ?_, h.episode, ?_⟩
    · simp [Intent.cancel, h.pending]
    · simp [Intent.cancel, h.interrupted, hne]
  | retry => exact absurd trivial hmessage
  | message => exact absurd trivial hmessage
  | messageDropped =>
    cases hnext
    exact ⟨h.rebuilding, rfl, h.episode, h.interrupted⟩
  | submitted id =>
    cases hnext
    obtain ⟨hf, hsame⟩ := s.intent.forgets_submitted id
    exact h.keep rfl hf hsame
  | finish error =>
    cases hnext
    obtain ⟨hf, hsame⟩ := s.intent.forgets_finish error
    exact h.keep rfl hf hsame
  | continuation rebuilt =>
    obtain rfl : rebuilt = false := hbeside
    cases hnext
    have hactive : s.intent.active.isSome = true := by
      rcases hrecalled h.rebuilding with hpending | hactive
      · rw [h.pending] at hpending
        cases hpending
      · exact hactive
    have hsame : (s.intent.continuation false).2 = s.intent := by
      unfold Intent.continuation
      rw [h.pending, hactive]
      rfl
    refine h.keep ?_ (hsame.symm ▸ ⟨rfl, .inl rfl, rfl, rfl⟩) (congrArg Intent.interrupted hsame)
    simp

theorem cancels_mono {turn : String} (hnext : next s e = some t) (h : turn ∈ s.cancels) : turn ∈ t.cancels := by
  cases e with
  | disconnect uuid =>
    simp only [next] at hnext
    split at hnext <;> cases hnext
    exact h
  | rebuild uuid =>
    simp only [next] at hnext
    split at hnext <;> cases hnext
    exact h
  | cancel u =>
    cases hnext
    exact List.mem_cons_of_mem _ h
  | message =>
    obtain ⟨intent, -, rfl⟩ := Option.map_eq_some_iff.mp hnext
    exact h
  | _ =>
    cases hnext
    exact h

theorem Held.run {turn : String} {l : List IntentEvent} (h : Held turn s) (hrun : Run next Recalled s l t)
    (hbeside : ∀ e ∈ l, Beside e) (hmessage : ∀ e ∈ l, ¬ Supersedes e) (hcancel : turn ∉ t.cancels) : Held turn t := by
  induction hrun with
  | start => exact h
  | step _ hrecalled hnext ih =>
    have hbefore := ih (fun e he => hbeside e (List.mem_cons_of_mem _ he))
      (fun e he => hmessage e (List.mem_cons_of_mem _ he)) fun hin => hcancel (cancels_mono hnext hin)
    exact hbefore.step hrecalled hnext (hbeside _ List.mem_cons_self) (hmessage _ List.mem_cons_self) hcancel

theorem honoured_of_run {h : List IntentEvent} (hrun : Run next Recalled {} h s) : s.Honoured :=
  hrun.invariant ⟨nofun, nofun⟩ fun _ _ _ hs hrecalled hnext => hs.step hrecalled hnext

theorem once_of_run {h : List IntentEvent} (hrun : Run next Free {} h s) : s.Once :=
  hrun.invariant ⟨nofun, nofun, List.nodup_nil⟩ fun _ _ _ hs _ hnext => hs.step hnext

/-- In every run an episode is continued once at most. In a run whose outages
are told apart no cancelled turn is continued and none while a message waits,
and what a rebuild has interrupted is continued after it. -/
theorem continuation_intent {h : List IntentEvent} {s : Recovering} (hfree : Run next Free {} h s) :
    (s.produced.map Prod.fst).Nodup ∧
    (Run next Recalled {} h s →
      (∀ rebuilt episode turn, (s.intent.continuation rebuilt).1 = some (episode, turn) →
        turn ∉ s.cancels ∧ s.intent.pendingMessage = none) ∧
      ∀ uuid s₁ l s₂ turn, Recalled s (.rebuild uuid) → next s (.rebuild uuid) = some s₁ →
        Run next Recalled s₁ l s₂ → (∀ e ∈ l, Beside e) → s.intent.active = some turn → turn ∉ s₂.cancels →
        s.intent.pendingMessage = none → (∀ e ∈ l, ¬ Supersedes e) →
          ∃ episode, (s₂.intent.continuation true).1 = some (episode, turn)) := by
  refine ⟨(once_of_run hfree).nodup, fun hrun => ⟨?_, ?_⟩⟩
  · intro rebuilt episode turn hproduced
    rcases s.intent.continuation_cases rebuilt with ⟨hnone, -⟩ | ⟨hpending, -, -, -, -, hproduces⟩
    · rw [hnone] at hproduced
      cases hproduced
    · exact ⟨(honoured_of_run hrun).interrupted turn ((hproduces episode turn).mp hproduced).2, hpending⟩
  · intro uuid s₁ l s₂ turn hrecalled hnext hl hbeside hactive hcancel hpending hmessage
    have hcancels : turn ∉ s.cancels := by
      intro hin
      have hmono : ∀ {u v : Recovering} {l}, Run next Recalled u l v → turn ∈ u.cancels → turn ∈ v.cancels := by
        intro u v l hr hu
        exact hr.invariant hu fun _ _ _ h _ hn => cancels_mono hn h
      exact hcancel (hmono hl (cancels_mono hnext hin))
    have hheld : Held turn s₁ := by
      simp only [next] at hnext
      split at hnext <;> cases hnext
      exact held_rebuild (honoured_of_run hrun) hrecalled hactive hcancels hpending
    have hdone := hheld.run hl hbeside hmessage hcancel
    obtain ⟨episode, hepisode⟩ := Option.ne_none_iff_exists'.mp hdone.episode
    refine ⟨episode, ?_⟩
    unfold Intent.continuation
    rw [hdone.pending, hepisode, hdone.interrupted]
    rfl

instance (s : Recovering) : ∀ e, Decidable (Recalled s e)
  | .disconnect _ => inferInstanceAs (Decidable (_ → _))
  | .rebuild _ => inferInstanceAs (Decidable (_ ∧ _))
  | .continuation false => inferInstanceAs (Decidable (_ → _))
  | .continuation true | .started _ | .completed _ _ | .cancel _ | .retry | .message | .messageDropped | .submitted _
  | .finish _ => .isTrue trivial

/-- The first turn was cancelled, and the second is active. -/
def secondTurn : Recovering where
  intent := { active := some "second", currentTurn := some ⟨"second", "inProgress"⟩, completed := some "first"
              cancelled := some "first" }
  cancels := ["first"]

theorem secondTurn_reached : Run next Recalled {}
    [.started "second", .completed "first" .interrupted, .cancel "first", .started "first"] secondTurn :=
  run_of_play (by decide)

def secondLost : Recovering where
  intent := { secondTurn.intent with episode := some "outage", interrupted := some "second" }
  rebuilding := true
  drawn := ["outage"]
  cancels := ["first"]

/-- A rebuild interrupts it. -/
theorem continuation_intent_second : next secondTurn (.rebuild "outage") = some secondLost ∧
    ∃ episode, (secondLost.intent.continuation true).1 = some (episode, "second") := by
  have hrebuild : next secondTurn (.rebuild "outage") = some secondLost := by decide
  exact ⟨hrebuild, ((continuation_intent secondTurn_reached.free).2 secondTurn_reached).2 "outage" _ _ _ "second"
    (by decide) hrebuild .start (by simp) rfl (by decide) rfl (by simp)⟩

/-- Two turns were cancelled, and the native process tells of the first one again. -/
def lateStart : List IntentEvent :=
  [.started "first", .cancel "first", .completed "first" .interrupted, .started "second", .cancel "second",
    .completed "second" .interrupted, .started "first", .rebuild "outage"]

/-- The connection was back before the first turn had ended. -/
def laterOutage : List IntentEvent :=
  [.started "first", .disconnect "one", .continuation false, .completed "first" .failed, .started "second"]

/-- A turn that was cancelled is continued, and one that a rebuild has interrupted is not. -/
theorem continuation_unintended :
    (∃ s, Run next Free {} lateStart.reverse s ∧ "first" ∈ s.cancels ∧
      (s.intent.continuation true).1 = some ("outage", "first")) ∧
    ∃ s t, Run next Free {} laterOutage.reverse s ∧ s.intent.active = some "second" ∧ s.cancels = [] ∧
      s.intent.pendingMessage = none ∧ next s (.rebuild "two") = some t ∧
      (t.intent.continuation true).1 = some ("one", "first") := by
  refine ⟨?_, ?_⟩
  · have hplay : ((play next Free {} lateStart).map fun s => (decide ("first" ∈ s.cancels),
        (s.intent.continuation true).1)) = some (true, some ("outage", "first")) := by decide
    obtain ⟨s, hs, heq⟩ := Option.map_eq_some_iff.mp hplay
    simp only [Prod.mk.injEq, decide_eq_true_eq] at heq
    exact ⟨s, run_of_play_list hs, heq.1, heq.2⟩
  · have hplay : ((play next Free {} laterOutage).map fun s => (s.intent.active, s.cancels, s.intent.pendingMessage,
        (next s (.rebuild "two")).bind fun t => (t.intent.continuation true).1)) =
          some (some "second", [], none, some ("one", "first")) := by decide
    obtain ⟨s, hs, heq⟩ := Option.map_eq_some_iff.mp hplay
    simp only [Prod.mk.injEq] at heq
    obtain ⟨t, ht, hcontinued⟩ := Option.bind_eq_some_iff.mp heq.2.2.2
    exact ⟨s, t, run_of_play_list hs, heq.1, heq.2.1, heq.2.2.1, ht, hcontinued⟩

end Recovering

end RemoteCodex.Local
