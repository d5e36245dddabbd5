import RemoteCodex.Interact.Steps
import RemoteCodex.Local.Permissions
import RemoteCodex.Native.Request

/-!
# Native requests on their way to the native process

A request is prepared, waits for its turn and is checked again before it is
sent; requests, actions of other frontends and a continuation after a reconnect
all take this way. Any number of them are under way at a time, and while one
waits, the permissions of the session may change.
-/

namespace RemoteCodex.Local.Route

open Interact Protocol Native
open Transfer (fault)

/-- One connected environment with its native thread; `index` tells it from the
others of the session. -/
structure Generation where
  index : Nat
  channel : String
  thread : Thread
  skills : String → Option String

/-- What is asked of the rest of the program, and may fail. -/
inductive Duty
  | retryForMessage
  | recoverForMessage
  | forgetGoal
  | pauseGoal
  | cancelContinuation (turn : String)
  | recoveryReady
  | checkBridge (g : Generation)
  | saveSession (g : Generation)
  | rememberMessage (id : String)
  | confirmed (g : Generation) (ticket : String)

inductive Flag
  | revoked
  | closed
  | hasHistory
  | recovering
  | supported

/-- What is done without an answer; a lock is held from here to the end. -/
inductive Signal
  | lockGoal
  | lockTurn
  | queueInterrupt (turn : String)
  | markHistory

inductive Doubt
  | isCancelled (turn : String)
  | messageCancelled

inductive Op
  | perform (duty : Duty)
  | flag (flag : Flag)
  | signal (signal : Signal)
  | doubt (doubt : Doubt)
  | current
  | fullAccess (g : Generation)
  | begin (g : Generation) (full : Option Bool) (supported : Bool)
  | acknowledge (g : Generation) (ticket : String) (success : Bool)
  | execute (g : Generation) (method : String) (params : Value)

abbrev Ans : Op → Type
  | .perform _ => Except Fault Unit
  | .flag _ => Bool
  | .signal _ => Unit
  | .doubt _ => Except Fault Bool
  | .current => Except Fault Generation
  | .fullAccess _ => Bool
  | .begin .. => Except Fault (Option String)
  | .acknowledge .. => Except Fault Unit
  | .execute .. => Except Fault Value

abbrev M := Act Op Ans Fault

def perform (duty : Duty) : M Unit := do
  let r ← request (Op.perform duty)
  ofExcept r

def read (flag : Flag) : M Bool := request (Op.flag flag)

def signal (signal : Signal) : M Unit := request (Op.signal signal)

def doubt (doubt : Doubt) : M Bool := do
  let r ← request (Op.doubt doubt)
  ofExcept r

def current : M Generation := do
  let r ← request Op.current
  ofExcept r

def whenever (b : Bool) (x : M Unit) : M Unit := if b then x else pure ()

def sessionClosed (message : String) : Fault := fault "SESSION_CLOSED" message

def gone : M Bool := do
  let revoked ← read .revoked
  if revoked then pure true else read .closed

-- ---------------------------------------------------------------------------
-- Dispatch
-- ---------------------------------------------------------------------------

def startsTurn : OperationKind → Bool
  | .turn | .steer | .goalStart | .goalDefine => true
  | _ => false

/-- Control has not changed while the operation waited for its turn. -/
def controlled (g : Generation) : M Unit := do
  let ended ← gone
  ensure (!ended) (sessionClosed "session control changed before dispatch")
  let now ← current
  ensure (now.channel = g.channel) (sessionClosed "session control changed before dispatch")

def notRecovered (recoveryTurn : Option String) : M Unit :=
  match recoveryTurn with
  | some turn => do
    let cancelled ← doubt (.isCancelled turn)
    ensure (!cancelled) (fault "RECOVERY_CANCELLED" "automatic continuation was cancelled")
  | none => pure ()

/-- The environment is ready, or recovering for this very turn. -/
def ready (recoveryTurn : Option String) : M Unit := do
  let recovering ← if recoveryTurn.isSome then read .recovering else pure false
  whenever (!recovering) (perform .recoveryReady)

def saveSession (g : Generation) : M Unit := do
  perform (.saveSession g)
  signal .markHistory

/-- The last check of a turn before anything of it is kept or sent. -/
def admitTurn (g : Generation) (operation : Operation) (recoveryTurn : Option String) : M Unit := do
  whenever (operation.kind ≠ .goalDefine) (do ready recoveryTurn; perform (.checkBridge g))
  let full ← request (Op.fullAccess g)
  ofExcept (validateExecution g.thread operation full)
  let history ← read .hasHistory
  whenever (!history) (saveSession g)

/-- The ticket of a change of permissions. -/
def begin (g : Generation) (full : Option Bool) : M (Option String) := do
  perform .recoveryReady
  let supported ← read .supported
  let ticket ← request (Op.begin g full supported)
  ofExcept ticket

def ticketFor (g : Generation) (operation : Operation) (recoveryTurn : Option String) : M (Option String) :=
  match operation.kind with
  | .settings full => begin g full
  | .read | .goalControl => pure none
  | .turn | .steer | .goalStart | .goalDefine => do
    admitTurn g operation recoveryTurn
    pure none

def remember (operation : Operation) : M Unit :=
  match clientMessageId operation with
  | some id => perform (.rememberMessage id)
  | none => pure ()

def notCancelled : M Unit := do
  let cancelled ← doubt .messageCancelled
  ensure (!cancelled) (fault "MESSAGE_CANCELLED" "Message cancelled before submission.")

def acknowledge (g : Generation) (ticket : String) (success : Bool) : M Unit := do
  let r ← request (Op.acknowledge g ticket success)
  ofExcept r
  whenever success (perform (.confirmed g ticket))

def settle (g : Generation) (ticket : Option String) (success : Bool) : M Unit :=
  match ticket with
  | some ticket => acknowledge g ticket success
  | none => pure ()

def submit (g : Generation) (operation : Operation) (ticket : Option String) : M Value := do
  let result ← request (Op.execute g operation.method operation.params)
  settle g ticket (Except.isOk result)
  ofExcept result

def dispatchOperation (g : Generation) (operation : Operation) (recoveryTurn : Option String) : M Value := do
  whenever (startsTurn operation.kind) (signal .lockTurn)
  controlled g
  notRecovered recoveryTurn
  let ticket ← ticketFor g operation recoveryTurn
  remember operation
  whenever (operation.kind = .turn) notCancelled
  submit g operation ticket

def dispatch (g : Generation) (prepared : Prepared) (recoveryTurn : Option String) : M Value := do
  let ended ← gone
  ensure (!ended) (sessionClosed "session control is no longer available")
  let now ← current
  ensure (now.channel = g.channel)
    (fault "STALE_GENERATION" "request belongs to a previous execution environment")
  match prepared with
  | .immediate value => pure value
  | .operation operation => dispatchOperation g operation recoveryTurn

-- ---------------------------------------------------------------------------
-- Where requests come from
-- ---------------------------------------------------------------------------

def isGoalControl : Prepared → Bool
  | .operation operation => operation.kind = .goalControl
  | .immediate _ => false

def changesGoal (method : String) : Bool := method = "thread/goal/set" || method = "thread/goal/clear"

def plans (method : String) (params : Value) : Bool :=
  method = "thread/settings/update" && ((params.index "collaborationMode").index "mode").asStr = some "plan"

/-- A turn that cannot be interrupted now is answered at once. -/
def interrupted (turn : String) : M (Option Value) := do
  perform (.cancelContinuation turn)
  let ready ← attempt (perform .recoveryReady)
  match ready with
  | .error _ => do
    signal (.queueInterrupt turn)
    pure (some (.object []))
  | .ok _ => do
    perform .pauseGoal
    pure none

/-- What a request does before it is dispatched. -/
def prelude (method : String) (params : Value) (prepared : Prepared) : M (Option Value) := do
  whenever (changesGoal method) (signal .lockGoal)
  whenever (method = "turn/start") (perform .retryForMessage)
  whenever (changesGoal method && isGoalControl prepared) (perform .forgetGoal)
  whenever (plans method params) (perform .pauseGoal)
  match if method = "turn/interrupt" then (params.index "turnId").asStr else none with
  | some turn => interrupted turn
  | none => pure none

/-- A request of the native frontend. -/
def handle (host : Host) (method : String) (params : Value) : M Value := do
  let closed ← read .closed
  ensure (!closed) (sessionClosed "session control is no longer available")
  let revoked ← read .revoked
  ensure (!revoked) (fault "LEASE_REVOKED" "session control moved to another frontend")
  let g ← current
  let persisted ← read .hasHistory
  let prepared ← ofExcept (prepare host g.thread method params persisted g.skills)
  let answer ← prelude method params prepared
  match answer with
  | some answer => pure answer
  | none => do
    let result ← attempt (dispatch g prepared none)
    whenever (changesGoal method && Except.isOk result) (perform .forgetGoal)
    ofExcept result

/-- A message that is to start a turn reconnects first. -/
def reconnects : Action → Bool
  | .message _ _ none => true
  | _ => false

/-- An action of another frontend; `recoveryTurn` is the turn a continuation resumes. -/
def act (host : Host) (action : Action) (recoveryTurn : Option String) : M Value := do
  whenever (reconnects action) (perform .recoverForMessage)
  let g ← current
  let persisted ← read .hasHistory
  let prepared ← ofExcept (prepareAction host g.thread action persisted g.skills)
  dispatch g prepared recoveryTurn

-- ---------------------------------------------------------------------------
-- All requests of a session
-- ---------------------------------------------------------------------------

/-- What the rest of the program answers to an operation, whichever it is. -/
structure Around where
  flag : Bool
  outcome : Except Fault Unit
  cancelled : Except Fault Bool
  current : Except Fault Generation
  response : Except Fault Value
  uuid : String

/-- What the request `n` has read of Full Access, and what it has sent to the
native process. -/
inductive Entry
  | read (n : Nat) (g : Generation) (full : Bool)
  | sent (n : Nat) (g : Generation) (method : String) (params : Value)

/-- The permissions of each environment, and what has happened, the latest first. -/
structure Shared where
  around : Around
  permissions : Table Nat Permissions := ∅
  trace : List Entry := []

namespace Shared

def permissionsOf (s : Shared) (g : Generation) : Permissions := (s.permissions.lookup g.index).getD {}

/-- `Permissions::full_access`. -/
def full (s : Shared) (g : Generation) : Bool := (s.permissionsOf g).grant.isSome

def setPermissions (s : Shared) (index : Nat) (p : Permissions) : Shared :=
  { s with permissions := s.permissions.insert index p }

end Shared

def exec (n : Nat) (op : Op) (s : Shared) : Ans op × Shared :=
  match op with
  | .perform _ => (s.around.outcome, s)
  | .flag _ => (s.around.flag, s)
  | .signal _ => ((), s)
  | .doubt _ => (s.around.cancelled, s)
  | .current => (s.around.current, s)
  | .fullAccess g => (s.full g, { s with trace := .read n g (s.full g) :: s.trace })
  | .begin g full supported =>
    let (ticket, p) := (s.permissionsOf g).begin full supported s.around.uuid
    (ticket, s.setPermissions g.index p)
  | .acknowledge g ticket success =>
    (.ok (), s.setPermissions g.index ((s.permissionsOf g).acknowledge ticket success s.around.uuid))
  | .execute g method params => (s.around.response, { s with trace := .sent n g method params :: s.trace })

/-- The request `n` beside all the others. -/
def machine (n : Nat) : Machine Op Ans Shared where
  exec := exec n
  torn _ _ _ := False
  rely s t := s.trace <:+ t.trace

abbrev Rest := Prog Op Ans (Except Fault Value)

structure Session where
  shared : Shared
  tasks : Table Nat Rest := ∅

inductive Event
  | request (n : Nat) (method : String) (params : Value)
  | action (n : Nat) (action : Action) (recoveryTurn : Option String)
  /-- The request `n` takes its next step. -/
  | step (n : Nat) (around : Around)
  | permission (index : Nat) (call : PermissionCall)

namespace Session

def start (s : Session) (n : Nat) (rest : Rest) : Option Session :=
  match s.tasks.lookup n with
  | none => some { s with tasks := s.tasks.insert n rest }
  | some _ => none

def next (host : Host) (s : Session) : Event → Option Session
  | .request n method params => s.start n (handle host method params).run
  | .action n action recoveryTurn => s.start n (act host action recoveryTurn).run
  | .step n around =>
    match s.tasks.lookup n with
    | some (.call op rest) =>
      let (answer, shared) := exec n op { s.shared with around }
      some { shared, tasks := s.tasks.insert n (rest answer) }
    | _ => none
  | .permission index call =>
    (((s.shared.permissions.lookup index).getD {}).next call).map fun p =>
      { s with shared := s.shared.setPermissions index p }

abbrev Reaches (host : Host) (start : Session) (h : List Event) (s : Session) : Prop :=
  Run (next host) Free start h s

end Session

-- ---------------------------------------------------------------------------
-- Every step of a request
-- ---------------------------------------------------------------------------

section

variable {n : Nat} {s t : Shared} {host : Host} {g : Generation} {operation : Operation} {params : Value}

/-- The request `n` has read a state of Full Access under which `params` are valid. -/
def Checked (n : Nat) (g : Generation) (params : Value) (trace : List Entry) : Prop :=
  ∃ full, .read n g full ∈ trace ∧ validate params g.thread.binding full = .ok ()

theorem Checked.later {trace later : List Entry} (h : Checked n g params trace) (hl : trace <:+ later) :
    Checked n g params later := by
  obtain ⟨full, hread, hvalid⟩ := h
  exact ⟨full, hl.subset hread, hvalid⟩

/-- A turn is started only when it has been checked. -/
def Dutiful (n : Nat) (op : Op) (s _ : Shared) : Prop :=
  ∀ g params, op = .execute g "turn/start" params → Checked n g params s.trace

theorem trace_exec (n : Nat) (op : Op) (s : Shared) : s.trace <:+ (exec n op s).2.trace := by
  cases op with
  | fullAccess g => exact List.suffix_cons _ _
  | execute g method params => exact List.suffix_cons _ _
  | _ => exact List.suffix_rfl

/-- `x` sends no turn, whatever it is answered. -/
def Quiet {α : Type} (n : Nat) (x : M α) : Prop :=
  ∀ s, Act.Sat (machine n) (Dutiful n) x s (fun _ t => s.trace <:+ t.trace) fun _ t => s.trace <:+ t.trace

theorem quiet_request {op : Op} (hop : ∀ g params, op ≠ .execute g "turn/start" params) :
    Quiet n (request op : M _) := by
  refine fun s => .request fun a ha => ⟨fun _ hb => hb.elim, ?_, ha.trans (trace_exec n op a)⟩
  exact fun g params heq => absurd heq (hop g params)

theorem Quiet.bind {α β : Type} {x : M α} {f : α → M β} (hx : Quiet n x) (hf : ∀ a, Quiet n (f a)) :
    Quiet n (x >>= f) := by
  refine fun s => .bind ((hx s).mono (fun _ _ h => h) fun _ _ h => h) fun a t ht => ?_
  exact (hf a t).mono (fun _ _ h => ht.trans h) fun _ _ h => ht.trans h

theorem quiet_pure {α : Type} (a : α) : Quiet n (pure a : M α) := fun _ => .pure List.suffix_rfl

theorem quiet_ofExcept {α : Type} (r : Except Fault α) : Quiet n (ofExcept r : M α) :=
  fun _ => .ofExcept (fun _ _ => List.suffix_rfl) fun _ _ => List.suffix_rfl

theorem quiet_ensure (b : Bool) (e : Fault) : Quiet n (ensure b e : M Unit) :=
  fun _ => .ensure (fun _ => List.suffix_rfl) fun _ => List.suffix_rfl

theorem quiet_attempt {α : Type} {x : M α} (hx : Quiet n x) : Quiet n (attempt x : M (Except Fault α)) :=
  fun s => .attempt (hx s)

theorem quiet_whenever {b : Bool} {x : M Unit} (hx : Quiet n x) : Quiet n (whenever b x) := by
  unfold whenever
  split
  · exact hx
  · exact quiet_pure _

theorem quiet_perform (duty : Duty) : Quiet n (perform duty) :=
  (quiet_request (by simp)).bind fun _ => quiet_ofExcept _

theorem quiet_read (flag : Flag) : Quiet n (read flag) := quiet_request (by simp)

theorem quiet_signal (sig : Signal) : Quiet n (signal sig) := quiet_request (by simp)

theorem quiet_doubt (d : Doubt) : Quiet n (doubt d) := (quiet_request (by simp)).bind fun _ => quiet_ofExcept _

theorem quiet_current : Quiet n current := (quiet_request (by simp)).bind fun _ => quiet_ofExcept _

theorem quiet_gone : Quiet n gone := by
  unfold gone
  refine (quiet_read _).bind fun revoked => ?_
  split
  · exact quiet_pure _
  · exact quiet_read _

theorem quiet_controlled (g : Generation) : Quiet n (controlled g) :=
  quiet_gone.bind fun _ => (quiet_ensure _ _).bind fun _ => quiet_current.bind fun _ => quiet_ensure _ _

theorem quiet_notRecovered (recoveryTurn : Option String) : Quiet n (notRecovered recoveryTurn) := by
  unfold notRecovered
  split
  · exact (quiet_doubt _).bind fun _ => quiet_ensure _ _
  · exact quiet_pure _

theorem quiet_ready (recoveryTurn : Option String) : Quiet n (ready recoveryTurn) := by
  unfold ready
  split
  · exact (quiet_read _).bind fun _ => quiet_whenever (quiet_perform _)
  · exact (quiet_pure _).bind fun _ => quiet_whenever (quiet_perform _)

theorem quiet_saveSession (g : Generation) : Quiet n (saveSession g) :=
  (quiet_perform _).bind fun _ => quiet_signal _

theorem quiet_begin (g : Generation) (full : Option Bool) : Quiet n (begin g full) :=
  (quiet_perform _).bind fun _ => (quiet_read _).bind fun _ => (quiet_request (by simp)).bind fun _ => quiet_ofExcept _

theorem quiet_remember (operation : Operation) : Quiet n (remember operation) := by
  unfold remember
  split
  · exact quiet_perform _
  · exact quiet_pure _

theorem quiet_notCancelled : Quiet n notCancelled := (quiet_doubt _).bind fun _ => quiet_ensure _ _

theorem quiet_acknowledge (g : Generation) (ticket : String) (success : Bool) :
    Quiet n (acknowledge g ticket success) :=
  (quiet_request (by simp)).bind fun _ => (quiet_ofExcept _).bind fun _ => quiet_whenever (quiet_perform _)

theorem quiet_settle (g : Generation) (ticket : Option String) (success : Bool) :
    Quiet n (settle g ticket success) := by
  unfold settle
  split
  · exact quiet_acknowledge _ _ _
  · exact quiet_pure _

theorem quiet_admitTurn (g : Generation) (operation : Operation) (recoveryTurn : Option String) :
    Quiet n (admitTurn g operation recoveryTurn) := by
  refine (quiet_whenever ((quiet_ready _).bind fun _ => quiet_perform _)).bind fun _ => ?_
  refine (quiet_request (by simp)).bind fun _ => (quiet_ofExcept _).bind fun _ => ?_
  exact (quiet_read _).bind fun _ => quiet_whenever (quiet_saveSession g)

theorem quiet_ticketFor (g : Generation) (operation : Operation) (recoveryTurn : Option String) :
    Quiet n (ticketFor g operation recoveryTurn) := by
  have hturn : Quiet n (admitTurn g operation recoveryTurn >>= fun _ => pure (none : Option String)) :=
    (quiet_admitTurn g operation recoveryTurn).bind fun _ => quiet_pure _
  unfold ticketFor
  split
  · exact quiet_begin _ _
  · exact quiet_pure _
  · exact quiet_pure _
  all_goals exact hturn

theorem quiet_interrupted (turn : String) : Quiet n (interrupted turn) := by
  refine (quiet_perform _).bind fun _ => (quiet_attempt (quiet_perform _)).bind fun ready => ?_
  cases ready with
  | error e => exact (quiet_signal _).bind fun _ => quiet_pure _
  | ok u => exact (quiet_perform _).bind fun _ => quiet_pure _

theorem quiet_prelude (method : String) (params : Value) (prepared : Prepared) :
    Quiet n (prelude method params prepared) := by
  refine (quiet_whenever (quiet_signal _)).bind fun _ => (quiet_whenever (quiet_perform _)).bind fun _ => ?_
  refine (quiet_whenever (quiet_perform _)).bind fun _ => (quiet_whenever (quiet_perform _)).bind fun _ => ?_
  split
  · exact quiet_interrupted _
  · exact quiet_pure _

-- ---------------------------------------------------------------------------
-- A turn is checked before it is sent
-- ---------------------------------------------------------------------------

/-- A quiet step in front. -/
theorem Quiet.before {α β : Type} {x : M α} {f : α → M β} {Q : β → Shared → Prop} {E : Fault → Shared → Prop}
    (hx : Quiet n x) (hE : ∀ e t, s.trace <:+ t.trace → E e t)
    (hf : ∀ a t, s.trace <:+ t.trace → Act.Sat (machine n) (Dutiful n) (f a) t Q E) :
    Act.Sat (machine n) (Dutiful n) (x >>= f) s Q E :=
  .bind ((hx s).mono (fun _ _ h => h) hE) hf

/-- A turn is checked against what is read of Full Access. -/
theorem admitTurn_sat (hkind : operation.kind = .turn) (recoveryTurn : Option String) :
    Act.Sat (machine n) (Dutiful n) (admitTurn g operation recoveryTurn) s
      (fun _ t => Checked n g operation.params t.trace) fun _ _ => True := by
  refine (quiet_whenever ((quiet_ready _).bind fun _ => quiet_perform _)).before (fun _ _ _ => trivial) ?_
  intro _ t _
  refine .bind (R := fun full u => .read n g full ∈ u.trace) (.whole (fun _ _ => id) fun a _ => ⟨?_, ?_⟩) ?_
  · intro _ _ heq
    cases heq
  · exact List.mem_cons_self ..
  intro full u hread
  unfold validateExecution
  rw [if_pos hkind]
  refine .bind (R := fun _ v => Checked n g operation.params v.trace) (.ofExcept ?_ fun _ _ => trivial) ?_
  · exact fun _ hvalid => ⟨full, hread, hvalid⟩
  intro _ v hchecked
  refine (quiet_read _).before (fun _ _ _ => trivial) fun history w hw => ?_
  exact (quiet_whenever (quiet_saveSession g) w).mono (fun _ _ h => hchecked.later (hw.trans h)) fun _ _ _ => trivial

/-- An operation that starts a turn has been checked. -/
def Admitted (n : Nat) (g : Generation) (operation : Operation) (s : Shared) : Prop :=
  operation.method = "turn/start" → Checked n g operation.params s.trace

theorem Admitted.later (h : Admitted n g operation s) (ht : s.trace <:+ t.trace) : Admitted n g operation t :=
  fun hstart => (h hstart).later ht

theorem ticketFor_sat (hkind : operation.method = "turn/start" → operation.kind = .turn) (recoveryTurn : Option String) :
    Act.Sat (machine n) (Dutiful n) (ticketFor g operation recoveryTurn) s (fun _ t => Admitted n g operation t)
      fun _ _ => True := by
  by_cases hstart : operation.method = "turn/start"
  · have hturn := hkind hstart
    unfold ticketFor
    simp only [hturn]
    refine .bind ((admitTurn_sat hturn recoveryTurn).mono (fun _ _ h => h) fun _ _ _ => trivial) ?_
    exact fun _ _ h => .pure fun _ => h
  · exact (quiet_ticketFor g operation recoveryTurn s).mono (fun _ _ _ h => absurd h hstart) fun _ _ _ => trivial

theorem submit_sat (h : Admitted n g operation s) (ticket : Option String) :
    Act.Sat (machine n) (Dutiful n) (submit g operation ticket) s (fun _ _ => True) fun _ _ => True := by
  refine .bind (R := fun _ _ => True) (.whole (fun _ _ => id) fun a ha => ⟨?_, trivial⟩) ?_
  · intro g' params heq
    obtain ⟨rfl, hmethod, rfl⟩ := Op.execute.inj heq
    exact (h hmethod).later ha
  intro result t _
  refine (quiet_settle g ticket _).before (fun _ _ _ => trivial) fun _ u _ => ?_
  exact .ofExcept (fun _ _ => trivial) fun _ _ => trivial

theorem dispatchOperation_sat (hkind : operation.method = "turn/start" → operation.kind = .turn)
    (recoveryTurn : Option String) :
    Act.Sat (machine n) (Dutiful n) (dispatchOperation g operation recoveryTurn) s (fun _ _ => True)
      fun _ _ => True := by
  refine (quiet_whenever (quiet_signal _)).before (fun _ _ _ => trivial) fun _ s₁ _ => ?_
  refine (quiet_controlled g).before (fun _ _ _ => trivial) fun _ s₂ _ => ?_
  refine (quiet_notRecovered recoveryTurn).before (fun _ _ _ => trivial) fun _ s₃ _ => ?_
  refine .bind ((ticketFor_sat hkind recoveryTurn).mono (fun _ _ h => h) fun _ _ _ => trivial) fun ticket s₄ hadmitted => ?_
  refine (quiet_remember operation).before (fun _ _ _ => trivial) fun _ s₅ h₅ => ?_
  refine (quiet_whenever quiet_notCancelled).before (fun _ _ _ => trivial) fun _ s₆ h₆ => ?_
  exact submit_sat (hadmitted.later (h₅.trans h₆)) ticket

/-- `x` sends no turn that has not been checked. -/
def Safe {α : Type} (n : Nat) (x : M α) : Prop :=
  ∀ s, Act.Sat (machine n) (Dutiful n) x s (fun _ _ => True) fun _ _ => True

theorem Quiet.safe {α : Type} {x : M α} (hx : Quiet n x) : Safe n x :=
  fun s => (hx s).mono (fun _ _ _ => trivial) fun _ _ _ => trivial

theorem Safe.bind {α β : Type} {x : M α} {f : α → M β} (hx : Safe n x) (hf : ∀ a, Safe n (f a)) : Safe n (x >>= f) :=
  fun s => .bind (hx s) fun a t _ => hf a t

theorem Safe.attempt {α : Type} {x : M α} (hx : Safe n x) : Safe n (attempt x : M (Except Fault α)) :=
  fun s => .attempt (hx s)

theorem safe_ofExcept {α β : Type} {r : Except Fault α} {f : α → M β} (hf : ∀ a, r = .ok a → Safe n (f a)) :
    Safe n ((ofExcept r : M α) >>= f) := by
  cases r with
  | ok a => exact hf a rfl
  | error e => exact fun _ => .bind (R := fun _ _ => False) (.throw trivial) fun _ _ h => h.elim

/-- What has been prepared starts a turn only as one. -/
def Genuine (prepared : Prepared) : Prop :=
  ∀ operation, prepared = .operation operation → operation.method = "turn/start" → operation.kind = .turn

theorem safe_dispatch {prepared : Prepared} (h : Genuine prepared) (recoveryTurn : Option String) :
    Safe n (dispatch g prepared recoveryTurn) := by
  refine quiet_gone.safe.bind fun _ => (quiet_ensure _ _).safe.bind fun _ => ?_
  refine quiet_current.safe.bind fun _ => (quiet_ensure _ _).safe.bind fun _ => ?_
  cases prepared with
  | immediate value => exact (quiet_pure _).safe
  | operation operation => exact fun _ => dispatchOperation_sat (h operation rfl) recoveryTurn

theorem genuine_of_prepare {thread : Thread} {method : String} {persisted : Bool} {skills : String → Option String}
    {prepared : Prepared} (h : prepare host thread method params persisted skills = .ok prepared) :
    Genuine prepared := by
  rintro operation rfl
  exact kind_of_prepare h

theorem genuine_of_prepareAction {thread : Thread} {action : Action} {persisted : Bool}
    {skills : String → Option String} {prepared : Prepared}
    (h : prepareAction host thread action persisted skills = .ok prepared) : Genuine prepared := by
  unfold prepareAction at h
  dsimp only at h
  split at h
  · exact genuine_of_prepare h
  · split at h
    · cases h
    · split at h <;> exact genuine_of_prepare h
  · split at h
    · cases h
    · exact genuine_of_prepare h
  · exact genuine_of_prepare h

theorem safe_handle (host : Host) (method : String) (params : Value) : Safe n (handle host method params) := by
  refine (quiet_read _).safe.bind fun _ => (quiet_ensure _ _).safe.bind fun _ => ?_
  refine (quiet_read _).safe.bind fun _ => (quiet_ensure _ _).safe.bind fun _ => ?_
  refine quiet_current.safe.bind fun g => (quiet_read _).safe.bind fun persisted => ?_
  refine safe_ofExcept fun prepared hprepared => (quiet_prelude _ _ _).safe.bind fun answer => ?_
  cases answer with
  | some answer => exact (quiet_pure _).safe
  | none =>
    refine (safe_dispatch (genuine_of_prepare hprepared) none).attempt.bind fun result => ?_
    exact (quiet_whenever (quiet_perform _)).safe.bind fun _ => (quiet_ofExcept _).safe

theorem safe_act (host : Host) (action : Action) (recoveryTurn : Option String) :
    Safe n (act host action recoveryTurn) := by
  refine (quiet_whenever (quiet_perform _)).safe.bind fun _ => quiet_current.safe.bind fun g => ?_
  refine (quiet_read _).safe.bind fun persisted => safe_ofExcept fun prepared hprepared => ?_
  exact safe_dispatch (genuine_of_prepareAction hprepared) recoveryTurn

end

-- ---------------------------------------------------------------------------
-- All of them together
-- ---------------------------------------------------------------------------

namespace Session

variable {host : Host} {around : Around} {h : List Event} {s t : Session} {e : Event}

/-- Every turn in the trace was checked before it was sent. -/
def Ordered (trace : List Entry) : Prop :=
  ∀ later earlier n g params, trace = later ++ .sent n g "turn/start" params :: earlier → Checked n g params earlier

structure Sound (s : Session) : Prop where
  tasks : ∀ n rest, s.tasks.lookup n = some rest →
    Prog.Sat (machine n) (Dutiful n) (fun _ _ => True) rest s.shared
  ordered : Ordered s.shared.trace

theorem sat_of_safe {n : Nat} {x : M Value} (hx : Safe n x) (s : Shared) :
    Prog.Sat (machine n) (Dutiful n) (fun _ _ => True) x.run s :=
  Prog.Sat.mono (fun _ _ _ h => h) (fun _ _ _ => trivial) (hx s)

theorem sat_later {n : Nat} {rest : Rest} {a b : Shared} (h : Prog.Sat (machine n) (Dutiful n) (fun _ _ => True) rest a)
    (hab : a.trace <:+ b.trace) : Prog.Sat (machine n) (Dutiful n) (fun _ _ => True) rest b :=
  Prog.Sat.stable (fun _ _ _ => List.IsSuffix.trans) (fun _ _ _ _ h => h) h hab

theorem ordered_exec {n : Nat} {op : Op} {a : Shared} (ha : Ordered a.trace) (hop : Dutiful n op a (exec n op a).2) :
    Ordered (exec n op a).2.trace := by
  intro later earlier m g params heq
  cases op with
  | execute g' method params' =>
    cases later with
    | nil =>
      obtain ⟨hentry, rfl⟩ := List.cons.inj heq
      obtain ⟨rfl, rfl, rfl, rfl⟩ := Entry.sent.inj hentry
      exact hop _ _ rfl
    | cons entry later => exact ha later earlier m g params (List.cons.inj heq).2
  | fullAccess g' =>
    cases later with
    | nil => cases (List.cons.inj heq).1
    | cons entry later => exact ha later earlier m g params (List.cons.inj heq).2
  | _ => exact ha later earlier m g params heq

theorem Sound.start (hs : Sound s) {n : Nat} {x : M Value} (hx : Safe n x) (hn : s.start n x.run = some t) :
    Sound t := by
  unfold Session.start at hn
  split at hn
  · obtain rfl := Option.some.inj hn
    refine ⟨?_, hs.ordered⟩
    intro m rest hm
    simp only [Table.lookup_insert_if] at hm
    split at hm
    · next heq =>
      obtain rfl := Option.some.inj hm
      subst heq
      exact sat_of_safe hx _
    · exact hs.tasks m rest hm
  · cases hn

theorem Sound.step (hs : Sound s) (hn : s.next host e = some t) : Sound t := by
  cases e with
  | request n method params => exact hs.start (safe_handle host method params) hn
  | action n action recoveryTurn => exact hs.start (safe_act host action recoveryTurn) hn
  | step n around =>
    simp only [next] at hn
    split at hn
    · next op rest htask =>
      obtain rfl := Option.some.inj hn
      have hsat := sat_later (hs.tasks n _ htask) (b := { s.shared with around }) List.suffix_rfl
      obtain ⟨hduty, hrest⟩ := Prog.Sat.step (fun _ => List.suffix_rfl) hsat
      refine ⟨?_, ordered_exec hs.ordered hduty⟩
      intro m rest' hm
      simp only [Table.lookup_insert_if] at hm
      split at hm
      · next heq =>
        obtain rfl := Option.some.inj hm
        subst heq
        exact hrest
      · exact sat_later (hs.tasks m rest' hm) (trace_exec n op { s.shared with around })
    · cases hn
  | permission index call =>
    obtain ⟨p, -, rfl⟩ := Option.map_eq_some_iff.mp hn
    exact ⟨fun n rest hn => sat_later (hs.tasks n rest hn) List.suffix_rfl, hs.ordered⟩

def fresh (around : Around) : Session where
  shared := { around }

theorem sound_of_reaches (hrun : Reaches host (fresh around) h s) : Sound s :=
  hrun.invariant ⟨fun _ _ hn => (by cases hn), fun later _ _ _ _ heq => (by cases later <;> cases heq)⟩
    fun _ _ _ hs _ hn => hs.step hn

theorem read_of_step {n : Nat} {g : Generation} {full : Bool} (hn : s.next host e = some t)
    (hread : .read n g full ∈ t.shared.trace) (hold : .read n g full ∉ s.shared.trace) :
    ∃ now rest, e = .step n now ∧ s.tasks.lookup n = some (.call (.fullAccess g) rest) ∧ s.shared.full g = full := by
  cases e with
  | request m method params =>
    simp only [next, Session.start] at hn
    split at hn <;> cases hn
    exact absurd hread hold
  | action m action recoveryTurn =>
    simp only [next, Session.start] at hn
    split at hn <;> cases hn
    exact absurd hread hold
  | permission index call =>
    obtain ⟨p, -, rfl⟩ := Option.map_eq_some_iff.mp hn
    exact absurd hread hold
  | step m now =>
    simp only [next] at hn
    split at hn
    · next op rest htask =>
      obtain rfl := Option.some.inj hn
      cases op with
      | fullAccess g' =>
        rcases List.mem_cons.mp hread with heq | hread
        · obtain ⟨rfl, rfl, rfl⟩ := Entry.read.inj heq
          exact ⟨now, rest, rfl, htask, rfl⟩
        · exact absurd hread hold
      | execute g' method params =>
        rcases List.mem_cons.mp hread with heq | hread
        · cases heq
        · exact absurd hread hold
      | _ => exact absurd hread hold
    · cases hn

/-- What a request knows of Full Access it has read from the session. -/
theorem read_of_reaches (hrun : Reaches host (fresh around) h s) {n : Nat} {g : Generation} {full : Bool}
    (hread : .read n g full ∈ s.shared.trace) :
    ∃ later now earlier s' rest, h = later ++ .step n now :: earlier ∧ Reaches host (fresh around) earlier s' ∧
      s'.tasks.lookup n = some (.call (.fullAccess g) rest) ∧ s'.shared.full g = full := by
  induction hrun with
  | start => cases hread
  | @step h s e t hprev _ hn ih =>
    by_cases hold : .read n g full ∈ s.shared.trace
    · obtain ⟨later, now, earlier, s', rest, rfl, h⟩ := ih hold
      exact ⟨e :: later, now, earlier, s', rest, rfl, h⟩
    · obtain ⟨now, rest, rfl, htask, hfull⟩ := read_of_step hn hread hold
      exact ⟨[], now, h, s, rest, rfl, hprev, htask, hfull⟩

section

def workspace : SessionBinding where
  sessionId := "thread"
  cwd := "/work"
  environmentId := "rc"
  codexHome := "/home"
  executionMode := "sandboxed"

def connected : Generation where
  index := 0
  channel := "channel"
  thread := { binding := workspace, initialized := .null, bootstrap := .null }
  skills := fun _ => none

def calm : Around where
  flag := false
  outcome := .ok ()
  cancelled := .ok false
  current := .ok connected
  response := .ok .null
  uuid := "id"

def noFiles : Host where
  canonicalize _ := none
  attachments _ _ := .error exceedsLimit

def oneTurn : Value :=
  .object [("sandboxPolicy", .object [("type", .string "workspaceWrite"),
    ("writableRoots", .array [.string "/work/a"])]), ("threadId", .string "thread")]

end

end Session

end RemoteCodex.Local.Route
