import RemoteCodex.Adapter.Driver
import RemoteCodex.Adapter.Tools
import RemoteCodex.Interact.Guarantee

/-!
# Pages of a native history

A native engine is started for each page and asked for turns and items, newest
first. A page ends within a turn where more of its items are left, and the next
one goes on from the position in its cursor. `print` and `parse` are the crate
that writes and reads JSON.
-/

namespace RemoteCodex.Adapter.History

open Interact Protocol Tools
open Transfer (fault)

structure Session where
  id : String
  title : String
  cwd : String
  createdAt : Int
  updatedAt : Int
  archived : Bool
  state : String
  deriving DecidableEq, Repr

/-- What a history is read for. -/
structure SessionBinding where
  codexHome : String
  session : Session
  deriving DecidableEq, Repr

structure TurnTiming where
  startedAt : Option Int
  completedAt : Option Int
  durationMs : Option Nat
  deriving DecidableEq, Repr

structure AsyncQuestion where
  title : String
  options : List String
  deriving DecidableEq, Repr

/-- `sent_at` is not known to a native history. -/
structure HistoryItem where
  id : String
  clientId : Option String
  phase : Option String
  kind : String
  text : String
  delivery : Option String
  questions : List AsyncQuestion
  tool : Option ToolItem
  deriving DecidableEq, Repr

structure HistoryTurn where
  id : String
  status : String
  timing : TurnTiming
  items : List HistoryItem
  itemsBefore : Bool
  deriving DecidableEq, Repr

structure HistoryPage where
  session : Session
  turns : List HistoryTurn
  nextCursor : Option String
  deriving DecidableEq, Repr

-- ---------------------------------------------------------------------------
-- Projections
-- ---------------------------------------------------------------------------

def preview (text : String) : String :=
  let words := (text.toList.splitOnP Config.isWhitespace).filter (· ≠ [])
  let text := [' '].intercalate words
  if text.isEmpty then "New session"
  else if text.length > 80 then String.ofList (text.take 79 ++ ['…'])
  else String.ofList text

/-- `binding::session`. -/
def session (thread : Value) (cwd : String) : Except Fault Session :=
  match (thread.index "id").asStr with
  | none => .error (fault "INVALID_NATIVE_THREAD" "native thread identity is missing")
  | some id =>
    .ok {
      id
      title := ((thread.index "name").asStr.filter fun s => !blank s).getD (preview (text thread "preview"))
      cwd
      createdAt := (thread.index "createdAt").asI64.getD 0
      updatedAt := (thread.index "updatedAt").asI64.getD 0
      archived := match thread.index "archived" with
        | .bool b => b
        | _ => false
      state := ((thread.pointer ["status", "type"]).bind Value.asStr).getD "idle" }

def timing (turn : Value) : TurnTiming where
  startedAt := (turn.index "startedAt").asI64
  completedAt := (turn.index "completedAt").asI64
  durationMs := asU64 (turn.index "durationMs")

def itemText (value : Value) : String :=
  match (value.index "text").asStr with
  | some text => text
  | none =>
    match (value.index "content").asArray.or (value.index "summary").asArray with
    | some parts => "\n".intercalate (parts.filterMap fun part => part.asStr.or (part.index "text").asStr)
    | none => ""

def questions (item : Value) : List AsyncQuestion :=
  (array (item.index "questions")).filterMap fun question =>
    (question.index "title").asStr.map fun title =>
      { title, options := (array (question.index "options")).filterMap Value.asStr }

variable (pretty : Value → String) (parseUrl : String → Option Url)

/-- An item of a turn in this state. -/
def historyItem (status : Option String) (item : Value) : HistoryItem :=
  let tool := (project pretty parseUrl item).map fun tool =>
    if tool.status = "" ∧ status = some "completed" then { tool with status := "completed" } else tool
  {
    id := text item "id"
    clientId := (item.index "clientId").asStr
    phase := (item.index "phase").asStr
    kind := text item "type"
    text := if tool.isSome then "" else itemText item
    delivery := (item.index "delivery").asStr
    questions := questions item
    tool }

def turn (value : Value) : HistoryTurn where
  id := text value "id"
  status := text value "status"
  timing := timing value
  itemsBefore := false
  items := (array (value.index "items")).map (historyItem pretty parseUrl (value.index "status").asStr)

-- ---------------------------------------------------------------------------
-- The native engine
-- ---------------------------------------------------------------------------

/-- The engine of a home is started, called, and shut down. -/
inductive Op
  | start (home : String)
  | call (method : String) (params : Value)
  | shutdown

abbrev Ans : Op → Type
  | .start _ => Except Fault Unit
  | .call .. => Except Fault Value
  | .shutdown => Unit

abbrev Native := Act Op Ans Fault

def call (method : String) (params : Value) : Native Value := do
  let answer : Except Fault Value ← request (Op.call method params)
  ofExcept answer

def readParams (thread : String) : Value := .object [("includeTurns", .bool false), ("threadId", .string thread)]

def turnsParams (thread : String) (cursor : Value) : Value :=
  .object [("cursor", cursor), ("itemsView", .string "notLoaded"), ("limit", .int 1), ("sortDirection", .string "desc"),
    ("threadId", .string thread)]

def asValue : Option String → Value
  | some text => .string text
  | none => .null

def itemsParams (thread turn : String) (cursor : Option String) (limit : Nat) : Value :=
  .object [("cursor", asValue cursor), ("limit", .int limit), ("sortDirection", .string "desc"),
    ("threadId", .string thread), ("turnId", .string turn)]

def invalid : Fault :=
  fault "INVALID_NATIVE_HISTORY" "History pagination is invalid or stale. Reload the conversation."

/-- A value that is there, or the page is refused. -/
def required {α : Type} : Option α → Native α
  | some a => pure a
  | none => throw invalid

def ITEM_LIMIT : Nat := 16

def TURN_LIMIT : Nat := 20

-- ---------------------------------------------------------------------------
-- One page
-- ---------------------------------------------------------------------------

def isObject : Value → Bool
  | .object _ => true
  | _ => false

def isString (v : Value) : Bool := v.asStr.isSome

/-- The first page of a thread. -/
def firstPosition (thread : String) : Value :=
  .object [("items", .null), ("thread", .string thread), ("turns", .null), ("version", .int 1)]

variable (print : Value → String) (parse : String → Option Value)

def isOne : Value → Bool
  | .int n => n = 1
  | _ => false

/-- The position in a cursor. -/
def position (thread : String) : Option String → Except Fault Value
  | none => .ok (firstPosition thread)
  | some cursor =>
    match parse cursor with
    | none => .error invalid
    | some value =>
      if !isOne (value.index "version") || (value.index "thread").asStr ≠ some thread then .error invalid
      else if ["turns", "items"].any fun key => !(value.index key).isNull && !isString (value.index key) then .error invalid
      else if isString (value.index "items") && !isObject (value.index "turn") then .error invalid
      else .ok value

/-- The turn at a position and the cursor behind it, unless there are no turns left. -/
def turnAt (thread : String) (position : Value) : Native (Option (Value × Value)) :=
  if isObject (position.index "turn") then pure (some (position.index "turn", position.index "turns"))
  else do
    let turns ← call "thread/turns/list" (turnsParams thread (position.index "turns"))
    let data ← required (turns.index "data").asArray
    pure (data.head?.map fun metadata => (metadata, turns.index "nextCursor"))

/-- The output of a tool is fetched when it is asked for. -/
def deferred (session turn : String) (cursor : Option String) (item : HistoryItem) : HistoryItem :=
  { item with tool := item.tool.map fun tool =>
      if tool.output ≠ "" ∧ tool.status ≠ "inProgress" then
        { tool with output := "", outputSource := some { session, turn, cursor, item := item.id } }
      else tool }

/-- The part of a turn that a page shows, the items in their order. -/
def fragment (session turnId : String) (metadata : Value) (cursor : Option String) (items : List Value) (more : Bool) :
    HistoryTurn :=
  let projected := turn pretty parseUrl (metadata.set "items" (.array items))
  { projected with itemsBefore := more, items := projected.items.map (deferred session turnId cursor) }

/-- The items of the entries, the oldest first, all of this turn. -/
def itemsOf (turnId : String) (entries : List Value) : Option (List Value) :=
  entries.reverse.mapM fun entry =>
    if (entry.index "turnId").asStr = some turnId ∧ isObject (entry.index "item") then some (entry.index "item") else none

/-- Where a turn is gone on with, or the turn behind it. -/
def advance (position metadata nextTurns items : Value) : Option Value :=
  if isString items then some (((position.set "turn" metadata).set "turns" nextTurns).set "items" items)
  else if isString nextTurns then some (((position.set "turns" nextTurns).set "items" .null).set "turn" .null)
  else none

/-- What a page shows of a turn, how many items it has got, and the position behind them. -/
structure Shown where
  turn : HistoryTurn
  returned : Nat
  position : Option Value
  stop : Bool

def showTurn (thread : String) (count : Nat) (position metadata nextTurns : Value) : Native Shown := do
  let turnId ← required (metadata.index "id").asStr
  let cursor := (position.index "items").asStr
  let items ← call "thread/items/list" (itemsParams thread turnId cursor (ITEM_LIMIT - count))
  let entries ← required (items.index "data").asArray
  let values ← required (itemsOf turnId entries)
  let next := items.index "nextCursor"
  if isString next && cursor = next.asStr then throw invalid
  else
    pure {
      turn := fragment pretty parseUrl thread turnId metadata cursor values (isString next)
      returned := entries.length
      position := advance position metadata nextTurns next
      stop := isString next }

/-- The turns from a position on, with room for some more of them and `count` items
before them, and the position behind them. A page ends with the part of a long turn. -/
def turnsFrom (thread : String) : Nat → Nat → Value → Native (List HistoryTurn × Option Value)
  | 0, _, position => pure ([], some position)
  | room + 1, count, position =>
    if count < ITEM_LIMIT then do
      match ← turnAt thread position with
      | none => pure ([], none)
      | some (metadata, nextTurns) =>
        let shown ← showTurn pretty parseUrl thread count position metadata nextTurns
        match shown.position with
        | none => pure ([shown.turn], none)
        | some position =>
          if shown.stop then pure ([shown.turn], some position)
          else do
            let (turns, last) ← turnsFrom thread room (count + shown.returned) position
            pure (shown.turn :: turns, last)
    else pure ([], some position)

def page (bound : SessionBinding) (cursor : Option String) : Native HistoryPage := do
  let position ← ofExcept (position parse bound.session.id cursor)
  let summary ← call "thread/read" (readParams bound.session.id)
  let session ← ofExcept (session (summary.index "thread") bound.session.cwd)
  let (turns, last) ← turnsFrom pretty parseUrl bound.session.id TURN_LIMIT 0 position
  pure { session, turns, nextCursor := last.map print }

/-- With an engine of its own, which is shut down at the end. -/
def withEngine {α : Type} (home : String) (action : Native α) : Native α := do
  let started : Except Fault Unit ← request (Op.start home)
  ofExcept started
  let result ← attempt action
  request Op.shutdown
  ofExcept result

def read (bound : SessionBinding) (cursor : Option String) : Native HistoryPage :=
  withEngine bound.codexHome (page pretty parseUrl print parse bound cursor)

-- ---------------------------------------------------------------------------
-- One output
-- ---------------------------------------------------------------------------

def unavailable : Fault :=
  fault "HISTORY_ITEM_UNAVAILABLE" "This tool result is no longer available. Reload the conversation."

/-- The tool of the item in a page of items. -/
def toolIn (source : ToolOutputSource) (data : List Value) : Option ToolItem :=
  (data.find? fun entry =>
    (entry.index "turnId").asStr = some source.turn && ((entry.index "item").index "id").asStr = some source.item).bind
    fun entry => project pretty parseUrl (entry.index "item")

/-- The output, if it is found within `fuel` pages. -/
def lookFor (thread : String) (source : ToolOutputSource) : Nat → Option String → Native (Option String)
  | 0, _ => pure none
  | fuel + 1, cursor => do
    let response ← call "thread/items/list" (itemsParams thread source.turn cursor ITEM_LIMIT)
    let data ← required (response.index "data").asArray
    match toolIn pretty parseUrl source data with
    | some tool => pure (some tool.output)
    | none =>
      match (response.index "nextCursor").asStr with
      | none => throw unavailable
      | some next => if cursor = some next then throw invalid else lookFor thread source fuel (some next)

def readOutput (fuel : Nat) (bound : SessionBinding) (source : ToolOutputSource) : Native (Option String) :=
  if source.session ≠ bound.session.id then throw invalid
  else withEngine bound.codexHome (lookFor pretty parseUrl bound.session.id source fuel source.cursor)

end RemoteCodex.Adapter.History
