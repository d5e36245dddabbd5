import Mathlib.Data.List.Sort
import RemoteCodex.Chat.State

/-!
# History pages

How a page of the native history is taken into a chat: merged into what is
there, or in its place after a revert.

`before` is the order of the identities, `a.localeCompare(b) <= 0`.
-/

namespace RemoteCodex.Chat

open Interact Protocol

structure HistoryItem where
  id : String
  kind : String
  text : Text
  tool : Option ToolItem
  clientId : Option String
  phase : Option String
  sentAt : Option Int
  delivery : Option String
  questions : Option (List Value)

structure HistoryTurn where
  id : String
  status : String
  timing : Timing
  itemsBefore : Bool
  items : List HistoryItem

structure HistoryPage where
  turns : List HistoryTurn
  nextCursor : Option String

variable (before : String → String → Bool)

/-- The messages of a turn; `firstUser` holds until the first message of the user. -/
def turnMessages (turn : HistoryTurn) : Bool → List HistoryItem → List Message
  | _, [] => []
  | firstUser, item :: items =>
    let user := item.kind = "userMessage"
    let opening := firstUser && !turn.itemsBefore
    { id := item.id
      clientId := some item.clientId
      turn := some (some turn.id)
      role := if user then .user else .assistant
      sentAt := some (item.sentAt.or (if user && opening then turn.timing.startedAt else none))
      phase := some item.phase
      text := item.text
      delivery := some item.delivery
      questions := some item.questions
      tool := some item.tool
      plan := some (some (item.kind = "plan"))
      complete := some (some (turn.status ≠ "inProgress"))
      canEdit := some (if user then some opening else none) } ::
    turnMessages turn (firstUser && !user) items

def Message.shown (m : Message) : Bool :=
  !m.text.isEmpty || m.tool.value.isSome || m.questions.value.any fun questions => !questions.isEmpty

def historyMessages (page : HistoryPage) : List Message :=
  ((page.turns.insertionSort fun a b => before a.id b.id).flatMap fun turn =>
    turnMessages turn true turn.items).filter Message.shown

/-- What a map of messages under their identities and client identities holds under `key`. -/
def named (messages : List Message) (key : String) : Option Message :=
  messages.reverse.find? fun m => m.id = key || truthy m.clientId.value = some key

/-- `map.get(m.id) ?? (m.clientId ? map.get(m.clientId) : undefined)`. -/
def counterpart (messages : List Message) (m : Message) : Option Message :=
  (named messages m.id).or ((truthy m.clientId.value).bind (named messages))

def refresh (current item : Message) : Message :=
  let source :=
    if item.complete.value = some true || item.text.length > current.text.length then current.spread item
    else item.spread current
  { source with
    id := item.id
    sentAt := some (current.sentAt.value.or item.sentAt.value)
    tool := match item.tool.value with
      | some tool => some (some (mergeTool current.tool.value tool))
      | none => some source.tool.value }

/-- Where an item that is not there yet goes. -/
def placeOf (older : Bool) (messages : List Message) (previous : Option Message) (item : Message)
    (rest : List Message) : Nat :=
  let next := rest.find? fun c => c.turn.value = item.turn.value && messages.any fun m => m.id = c.id
  match next with
  | some next => messages.findIdx fun m => m.id = next.id
  | none =>
    match previous.filter fun p => p.turn.value = item.turn.value with
    | some previous => (messages.findIdx? fun m => m.id = previous.id).elim 0 (· + 1)
    | none => if older then 0 else messages.length

/-- Keep existing order and use overlaps as anchors. -/
def insertMissing (older : Bool) : List Message → Option Message → List Message → List Message
  | messages, _, [] => messages
  | messages, previous, item :: rest =>
    if messages.any fun m => m.id = item.id then insertMissing older messages (some item) rest
    else
      let place := placeOf older messages previous item rest
      insertMissing older (messages.take place ++ item :: messages.drop place) (some item) rest

/-- The order of the messages: by turn, those without one last. -/
def Message.Before (a b : Message) : Prop :=
  match truthy a.turn.value, truthy b.turn.value with
  | some t, some u => before t u
  | none, some _ => False
  | _, none => True

instance (a b : Message) : Decidable (Message.Before before a b) := by
  unfold Message.Before
  split <;> infer_instance

/-- What a turn of a page is known as; a running one does not undo what is known to have ended. -/
def turnState (turns : Table String TurnState) (turn : HistoryTurn) : TurnState :=
  match turns.lookup turn.id with
  | some known =>
    if turn.status = "inProgress" ∧ known.status ≠ "inProgress" then known else ⟨turn.id, turn.status, turn.timing⟩
  | none => ⟨turn.id, turn.status, turn.timing⟩

def mergeTurns (turns : Table String TurnState) (page : List HistoryTurn) : Table String TurnState :=
  page.foldl (fun merged turn => merged.insert turn.id (turnState turns turn)) turns

def mergeMessages (messages : List Message) (page : HistoryPage) (older : Bool) : List Message :=
  let history := (historyMessages before page).map fun item =>
    match counterpart messages item with
    | some current => refresh current item
    | none => item
  let replaced := messages.map fun m => (counterpart history m).getD m
  (insertMissing older replaced none history).insertionSort (Message.Before before)

def mergeHistory (chat : ChatState) (page : HistoryPage) (older : Bool) : ChatState :=
  { chat with
    nextCursor := page.nextCursor
    turns := mergeTurns chat.turns page.turns
    messages := mergeMessages before chat.messages page older }

/-- A revert replaces history; normal pagination only merges it. -/
def replaceHistory (chat : ChatState) (page : HistoryPage) (removed : List String) : ChatState :=
  mergeHistory before
    { chat with
      messages := []
      turns := ∅
      turn := none
      plan := none
      questions := []
      nextCursor := none
      historyReady := true
      historyError := none
      historyLoading := false
      discardedTurns := (chat.discardedTurns ++ removed).eraseDups }
    page false

end RemoteCodex.Chat
