import RemoteCodex.Interact.Table
import RemoteCodex.Protocol.Value

/-!
# The state of a chat

The projection of a native session that the desktop shows, the events and
snapshots it follows, and the message being edited. What is only displayed
(status, settings, goal, environment) is left out.

A property of an object may be absent, or there and undefined; a spread copies
the second and not the first.
-/

namespace RemoteCodex.Chat

open Interact Protocol

/-- A property: absent, undefined, or a value. -/
abbrev Field (α : Type) := Option (Option α)

def Field.value (f : Field α) : Option α := Option.join f

/-- The units of a string whose length or end the source asks for. -/
abbrev Text := List UInt16

def truthy (t : Option String) : Option String := t.filter (· ≠ "")

structure Timing where
  startedAt : Option Int
  completedAt : Option Int
  durationMs : Option Int

def Timing.empty : Timing := ⟨none, none, none⟩

structure TurnState where
  id : String
  status : String
  timing : Timing

structure ToolItem where
  id : String
  kind : String
  title : String
  output : Text
  outputSource : Option Value
  status : String
  changes : List (String × String)
  input : Option String
  links : Option (List Value)

inductive Role where
  | user | assistant
  deriving DecidableEq

structure Message where
  id : String
  role : Role
  text : Text
  clientId : Field String := none
  delivery : Field String := none
  questions : Field (List Value) := none
  turn : Field String := none
  sentAt : Field Int := none
  phase : Field String := none
  tool : Field ToolItem := none
  plan : Field Bool := none
  complete : Field Bool := none
  canEdit : Field Bool := none

/-- `{ ...a, ...b }`. -/
def Message.spread (a b : Message) : Message where
  id := b.id
  role := b.role
  text := b.text
  clientId := b.clientId.or a.clientId
  delivery := b.delivery.or a.delivery
  questions := b.questions.or a.questions
  turn := b.turn.or a.turn
  sentAt := b.sentAt.or a.sentAt
  phase := b.phase.or a.phase
  tool := b.tool.or a.tool
  plan := b.plan.or a.plan
  complete := b.complete.or a.complete
  canEdit := b.canEdit.or a.canEdit

structure Plan where
  turn : String
  explanation : Option String
  steps : List (String × String)

structure Question where
  id : String
  description : Option String
  interaction : Option Value

structure MessageEdit where
  id : String
  clientId : String
  turn : String
  text : Text
  removedTurns : List String
  reverted : Bool
  uncertain : Bool

structure ChatState where
  plan : Option Plan
  messages : List Message
  questions : List Question
  turn : Option String
  turns : Table String TurnState
  edit : Option MessageEdit
  nextCursor : Option String
  historyReady : Bool
  historyLoading : Bool
  historyError : Option (String × Option String)
  discardedTurns : List String

def initialChat : ChatState where
  plan := none
  messages := []
  questions := []
  turn := none
  turns := ∅
  edit := none
  nextCursor := none
  historyReady := true
  historyLoading := false
  historyError := none
  discardedTurns := []

/-- The events of a session; `other` stands for those that change only what is left out. -/
inductive SessionEvent where
  | userMessage (itemId : String) (clientId : Option String) (turnId : String) (text : Text)
  | planChanged (plan : Plan)
  | planMessage (itemId turnId : String) (text : Text) (complete : Bool)
  | message (itemId turnId : String) (phase : Option String) (text : Text) (complete : Bool)
      (delivery : Option String) (questions : Option (List Value))
  | toolOutput (itemId turnId : String) (text : Text)
  | toolChanged (item : ToolItem) (turnId : String)
  | approvalRequested (requestId description : String)
  | interactionRequested (requestId : String) (interaction : Value)
  | interactionResolved (requestId : String)
  | turnStarted (id : String) (timing : Timing)
  | turnCompleted (id : String) (timing : Timing) (status : String)
  | closed
  | other

/-- The turn an event is filtered by. -/
def SessionEvent.turnId : SessionEvent → Option String
  | .userMessage _ _ turnId _ | .planMessage _ turnId _ _ | .message _ turnId _ _ _ _ _ | .toolOutput _ turnId _
  | .toolChanged _ turnId => some turnId
  | .planChanged plan => some plan.turn
  | .turnStarted id _ | .turnCompleted id _ _ => some id
  | _ => none

structure SessionSnapshot where
  currentTurn : Option TurnState
  plan : Option Plan
  turn : Option String
  pending : List SessionEvent

-- ---------------------------------------------------------------------------
-- Tools
-- ---------------------------------------------------------------------------

def ended (status : String) : Bool :=
  ["completed", "failed", "declined", "cancelled", "canceled", "interrupted"].contains status

/-- A history response may predate live output; a final aggregate is authoritative. -/
def mergeTool (previous : Option ToolItem) (incoming : ToolItem) : ToolItem :=
  match previous with
  | none => incoming
  | some previous =>
    let older := ended previous.status && !ended incoming.status
    let current := if older then previous else incoming
    let other := if older then incoming else previous
    let output :=
      if ended current.status then (if current.output.isEmpty then other.output else current.output)
      else if incoming.output.length ≥ previous.output.length then incoming.output
      else previous.output
    { current with
      status := if current.status = "" then other.status else current.status
      output
      outputSource := current.outputSource.or (if output.isEmpty then other.outputSource else none)
      input := current.input.or other.input
      links := if current.links.all List.isEmpty then other.links else current.links
      changes := if current.changes.isEmpty then other.changes else current.changes }

/-- What an output without an item belongs to. -/
def commandTool (itemId : String) : ToolItem where
  id := itemId
  kind := "commandExecution"
  title := "Command"
  output := []
  outputSource := none
  status := "inProgress"
  changes := []
  input := none
  links := none

-- ---------------------------------------------------------------------------
-- Events
-- ---------------------------------------------------------------------------

def Message.Matches (message m : Message) : Prop :=
  m.id = message.id ∨ ∃ client, truthy message.clientId.value = some client ∧ m.clientId.value = some client

instance (message m : Message) : Decidable (message.Matches m) :=
  inferInstanceAs (Decidable (_ ∨ _))

def upsert (messages : List Message) (message : Message) : List Message :=
  if messages.any fun m => message.Matches m then
    messages.map fun m => if message.Matches m then m.spread message else m
  else messages ++ [message]

def uniqueQuestion (questions : List Question) (question : Question) : List Question :=
  (questions.filter fun q => q.id ≠ question.id) ++ [question]

namespace ChatState

def discards (state : ChatState) (turn : Option String) : Bool :=
  match truthy turn with
  | some turn => state.discardedTurns.contains turn
  | none => false

/-- `event.turn_id || previous?.turn || state.turn || undefined`. -/
def turnOf (state : ChatState) (turnId : String) (previous : Option Message) : Option String :=
  (truthy (some turnId)).or ((truthy (previous.bind fun m => m.turn.value)).or (truthy state.turn))

def userMessage (state : ChatState) (itemId : String) (clientId : Option String) (turnId : String) (text : Text) :
    ChatState :=
  let previous := state.messages.find? fun m =>
    m.id = itemId || ((truthy clientId).isSome && m.clientId.value = clientId)
  let started :=
    if state.messages.any fun m => m.turn.value = some turnId && m.role = .user then none
    else (state.turns.lookup turnId).bind fun turn => turn.timing.startedAt
  let base : Message := previous.getD { id := itemId, role := .user, text }
  { state with
    messages := upsert state.messages
      { base with
        id := itemId
        clientId := some clientId
        turn := some (some turnId)
        role := .user
        text
        sentAt := some ((previous.bind fun m => m.sentAt.value).or started) } }

/-- A message of the assistant or a plan; the parts an event does not carry stay as they were. -/
def assistantMessage (state : ChatState) (itemId turnId : String) (text : Text) (complete isPlan : Bool)
    (phase delivery : Option Message → Option String) (questions : Option Message → Option (List Value)) : ChatState :=
  let previous := state.messages.find? fun m => m.id = itemId
  let base : Message := previous.getD { id := itemId, role := .assistant, text }
  { state with
    messages := upsert state.messages
      { base with
        id := itemId
        role := .assistant
        turn := some (state.turnOf turnId previous)
        phase := some (phase previous)
        plan := some (some isPlan)
        delivery := some (delivery previous)
        questions := some (questions previous)
        complete := some (some complete)
        text := if complete then text else (previous.elim [] Message.text) ++ text } }

def toolChanged (state : ChatState) (item : ToolItem) (turnId : String) : ChatState :=
  let previous := state.messages.find? fun m => m.id = item.id
  { state with
    messages := upsert state.messages
      { id := item.id
        role := .assistant
        text := []
        tool := some (some (mergeTool (previous.bind fun m => m.tool.value) item))
        turn := some (state.turnOf turnId none) } }

def toolOutput (state : ChatState) (itemId turnId : String) (text : Text) : ChatState :=
  let previous := state.messages.find? fun m => m.id = itemId
  let tool := (previous.bind fun m => m.tool.value).getD (commandTool itemId)
  let output := tool.output ++ text
  let base : Message := previous.getD { id := itemId, role := .assistant, text := [] }
  { state with
    messages := upsert state.messages
      { base with
        id := itemId
        role := .assistant
        text := []
        turn := some (state.turnOf turnId none)
        tool := some (some { tool with output := output.drop (output.length - 262144) }) } }

def turnCompleted (state : ChatState) (id : String) (timing : Timing) (status : String) : ChatState :=
  let previous := ((state.turns.lookup id).map TurnState.timing).getD .empty
  { state with
    turn := if state.turn = some id then none else state.turn
    turns := state.turns.insert id
      ⟨id, status, { timing with startedAt := timing.startedAt.or previous.startedAt }⟩ }

def applyEvent (state : ChatState) : SessionEvent → ChatState
  | .userMessage itemId clientId turnId text => state.userMessage itemId clientId turnId text
  | .planChanged plan => { state with plan := some plan }
  | .planMessage itemId turnId text complete =>
    state.assistantMessage itemId turnId text complete true (fun _ => none) (fun _ => none)
      (fun previous => previous.bind fun m => m.questions.value)
  | .message itemId turnId phase text complete delivery questions =>
    state.assistantMessage itemId turnId text complete false
      (fun previous => phase.or (previous.bind fun m => m.phase.value))
      (fun previous => delivery.or (previous.bind fun m => m.delivery.value))
      (fun previous => if complete then questions else previous.bind fun m => m.questions.value)
  | .toolOutput itemId turnId text => state.toolOutput itemId turnId text
  | .toolChanged item turnId => state.toolChanged item turnId
  | .approvalRequested requestId description =>
    { state with questions := uniqueQuestion state.questions ⟨requestId, some description, none⟩ }
  | .interactionRequested requestId interaction =>
    { state with questions := uniqueQuestion state.questions ⟨requestId, none, some interaction⟩ }
  | .interactionResolved requestId => { state with questions := state.questions.filter fun q => q.id ≠ requestId }
  | .turnStarted id timing =>
    { state with turn := some id, plan := none, turns := state.turns.insert id ⟨id, "inProgress", timing⟩ }
  | .turnCompleted id timing status => state.turnCompleted id timing status
  | .closed => { state with turn := none, questions := [] }
  | .other => state

/-- Events of a discarded turn are dropped. -/
def reduceEvent (state : ChatState) (event : SessionEvent) : ChatState :=
  if state.discards event.turnId then state else state.applyEvent event

def applySnapshot (chat : ChatState) (snapshot : SessionSnapshot) : ChatState :=
  let current := snapshot.currentTurn.filter fun turn => !chat.discardedTurns.contains turn.id
  snapshot.pending.foldl reduceEvent
    { chat with
      plan := snapshot.plan.filter fun plan => !chat.discardedTurns.contains plan.turn
      turn := (truthy snapshot.turn).filter fun turn => !chat.discardedTurns.contains turn
      turns := match current with
        | some turn => chat.turns.insert turn.id turn
        | none => chat.turns
      questions := [] }

/-- The distinct turns of the messages, in their order. -/
def messageTurns (chat : ChatState) : List String :=
  (chat.messages.filterMap fun m => truthy m.turn.value).eraseDups

def startEdit (chat : ChatState) (id clientId : String) : ChatState :=
  match chat.messages.find? fun m => m.id = id with
  | none => chat
  | some message =>
    match truthy message.turn.value with
    | none => chat
    | some turn =>
      { chat with
        edit := some
          { id, clientId, turn, text := message.text, reverted := false, uncertain := false
            removedTurns := chat.messageTurns.dropWhile (· ≠ turn) } }

end ChatState

end RemoteCodex.Chat
