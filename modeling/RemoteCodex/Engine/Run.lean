import RemoteCodex.Engine.Task

/-!
# The transfer engine

`transfers::engine::run` with what it calls. A run takes the task from the
store, scans the sources if that was not done, and goes through the items; what
it changes it saves before it goes on, so that another run can take over
wherever this one stops.
-/

namespace RemoteCodex.Engine

open Interact Transfer
open Remote (ClientError)

def MAX_ENTRIES : Nat := 100000

def provided (b : Bool) (x : Act EngineOp EngineAns ε Unit) : Act EngineOp EngineAns ε Unit := if b then x else pure ()

-- ---------------------------------------------------------------------------
-- Scanning
-- ---------------------------------------------------------------------------

/-- The names in a directory, page after page; `pages` bounds how many there are. -/
def listing (root : Nat) (path : String) (waiting : Nat) : Nat → Option String → List String → E (List String)
  | 0, _, _ => throw .timeout
  | pages + 1, after, children => do
    match (← call true root (.list path after)).1 with
    | .list page => do
      let children := children ++ page.entries.map fun e => join path e.name
      match page.after with
      | none => pure children
      | some after =>
        if waiting + children.length > MAX_ENTRIES then
          throw (argument "Directory is too large. Select smaller folders.")
        else listing root path waiting pages (some after) children
    | _ => throw .remoteResponse

def sourceStamp (root : Nat) (path : String) : E Stamp := do
  match ← stat true root path with
  | some stamp => pure stamp
  | none => throw (argument "Source no longer exists.")

def addLength (total length : Nat) : E Nat :=
  match checkedAdd total length with
  | some total => pure total
  | none => throw (argument "Transfer size exceeds the supported range.")

def counted (task : Task) (stamp : Stamp) : E Nat :=
  if stamp.kind = .file then addLength task.view.total stamp.length else pure task.view.total

def children (pages root : Nat) (path : String) (waiting : Nat) (stamp : Stamp) : E (List String) :=
  if stamp.kind = .directory then listing root path waiting pages none [] else pure []

/-- The last of `pending` in the source is the first here. `left` entries may still come. -/
def entries (pages : Nat) : Nat → Task → Nat → List (Nat × String × Option Nat) → E Task
  | _, task, _, [] => pure task
  | 0, _, _, _ :: _ => throw (argument "Transfer exceeds 100,000 entries. Select smaller folders.")
  | left + 1, task, index, (root, path, parent) :: pending => do
    let stamp ← sourceStamp root path
    let token ← newToken
    saveItem { index, parent, root, source := path, stamp, token }
    let total ← counted task stamp
    let task := { task with view := { task.view with total, files := task.view.files + 1 } }
    let names ← children pages root path pending.length stamp
    provided ((index + 1) % 100 = 0) (publish task)
    entries pages left task (index + 1) (names.map (fun path => (root, path, some index)) ++ pending)

def scan (pages : Nat) (task : Task) : E Task := do
  resetScan
  let task := { task with view := { task.view with status := .preparing, total := 0, files := 0 } }
  publish task
  let task ← entries pages MAX_ENTRIES task 0 (task.sources.map fun s => (s.root, s.path, none))
  let task := { task with scanned := true }
  publish task
  pure task

-- ---------------------------------------------------------------------------
-- Conflicts
-- ---------------------------------------------------------------------------

def askUser (task : Task) (item : Item) (stamp : Stamp) : Task :=
  { task with
    view := { task.view with
      status := .conflict
      conflict := some
        { path := item.target, source := item.stamp.kind, destination := stamp.kind, expected := stamp } } }

/-- Where the choice is possible at all. -/
def Choice.applies (choice : Choice) (item : Item) (stamp : Stamp) : Bool :=
  match choice with
  | .replace => stamp.kind = .file && item.stamp.kind = .file
  | .merge => stamp.kind = .directory && item.stamp.kind = .directory
  | _ => true

def unusedName (item : Item) (original : String) : List Nat → E Item
  | [] => throw (argument "Could not find an unused destination name.")
  | suffix :: rest => do
    let item := { item with target := alternate original suffix (item.stamp.kind = .directory) }
    match ← stat false item.root item.target with
    | none => pure { item with expected := none }
    | some _ => unusedName item original rest

/-- What becomes of the item where something stands at its target; `false` leaves it to the user. -/
def destination (task : Task) (item : Item) : E (Task × Item × Bool) :=
  if item.prepared then pure (task, item, true)
  else do
    match ← stat false item.root item.target with
    | none => pure (task, { item with expected := none }, true)
    | some stamp =>
      if item.choice.isSome && task.view.conflict.any (fun c => c.expected ≠ stamp) then
        pure (askUser task item stamp, { item with choice := none }, false)
      else
        match (item.choice.or task.policy).filter fun choice => choice.applies item stamp with
        | some .skip => pure (task, { item with skipped := true }, true)
        | some .replace | some .merge => pure (task, { item with expected := some stamp }, true)
        | some .keepBoth => do
          let item ← unusedName item item.target (List.range' 2 9998)
          pure (task, item, true)
        | none => pure (askUser task item stamp, item, false)

-- ---------------------------------------------------------------------------
-- Copying a file
-- ---------------------------------------------------------------------------

/-- A copy that fails leaves the task and the item as it has changed them. -/
abbrev CopyE := Act EngineOp EngineAns (ClientError × Task × Item)

def leaving (task : Task) (item : Item) (x : E α) : CopyE α := ExceptT.adapt (fun e => (e, task, item)) x

section

variable (digest : Files.Bytes → String)

/-- The blocks from `offset` on; each one has at least a byte. -/
def blocks : Nat → Task → Item → Nat → CopyE (Task × Item)
  | 0, task, item, _ => pure (task, item)
  | left + 1, task, item, offset =>
    if offset < item.stamp.length then do
      let (reply, bytes) ← leaving task item (call true item.root (.read item.source item.stamp offset))
      match reply with
      | .data d => do
        ensure (!(bytes.isEmpty || digest bytes ≠ d)) (integrity, task, item)
        let (reply, _) ← leaving task item (call false item.root (.write item.target item.token offset d) bytes)
        match reply with
        | .ready confirmed false => do
          ensure (!(confirmed ≠ offset + bytes.length || confirmed > item.stamp.length)) (.remoteResponse, task, item)
          let item := { item with bytes := confirmed }
          let task := { task with view := { task.view with bytes := task.view.bytes + bytes.length } }
          leaving task item (saveItem item)
          let late ← leaving task item elapsed
          provided late (leaving task item (progress task.view))
          blocks left task item confirmed
        | _ => throw (.remoteResponse, task, item)
      | _ => throw (.remoteResponse, task, item)
    else pure (task, item)

/-- The copy is published if the source is still what was copied. -/
def verify (task : Task) (item : Item) : CopyE (Task × Item) := do
  let task := { task with view := { task.view with message := some ("Verifying " ++ item.target) } }
  leaving task item (progress task.view)
  let (reply, _) ← leaving task item (call true item.root (.hash item.source item.stamp))
  match reply with
  | .hash d => do
    let _ ← leaving task item (call false item.root (.commit item.target item.token d))
    pure ({ task with view := { task.view with message := none } }, item)
  | _ => throw (.remoteResponse, task, item)

/-- `copy::file`. -/
def file (task : Task) (item : Item) : CopyE (Task × Item) := do
  let item := { item with prepared := true }
  leaving task item (saveItem item)
  let (reply, _) ← leaving task item
    (call false item.root (.prepare item.target item.token item.stamp item.expected))
  match reply with
  | .ready offset complete => do
    ensure (!(offset > item.stamp.length)) (.remoteResponse, task, item)
    let task := { task with
      view := { task.view with bytes := saturatingAdd (task.view.bytes - item.bytes) offset } }
    let item := { item with bytes := offset, prepared := true }
    leaving task item (saveItem item)
    if complete then pure (task, item)
    else do
      let (task, item) ← blocks digest (item.stamp.length - offset) task item offset
      verify task item
  | _ => throw (.remoteResponse, task, item)

-- ---------------------------------------------------------------------------
-- Removing stages
-- ---------------------------------------------------------------------------

def Item.cancelCommand (item : Item) : Command := .cancel item.target item.token

/-- An interrupted initial journal is completed, so that its stage can be removed. -/
def completeStage (item : Item) : E Unit := do
  match ← attempt (call false item.root (.prepare item.target item.token item.stamp item.expected)) with
  | .error e => ensure (e.code = "TRANSFER_CONFLICT") e
  | .ok _ => pure ()

def unstage (item : Item) : E Unit := do
  let _ ← call false item.root item.cancelCommand
  pure ()

def cleanupItem (item : Item) : E Unit := do
  match ← attempt (call false item.root item.cancelCommand) with
  | .ok _ => pure ()
  | .error e => do
    ensure (e.code = "TRANSFER_MISSING") e
    completeStage item
    unstage item

def Item.staged (item : Item) : Bool := item.prepared && item.stamp.kind = .file

def cleanup : List Item → E Unit
  | [] => pure ()
  | item :: items => do
    provided item.staged (cleanupItem item)
    cleanup items

-- ---------------------------------------------------------------------------
-- An item
-- ---------------------------------------------------------------------------

/-- The target of an item that has none yet, and whether it is skipped. -/
def place (task : Task) (items : List Item) (item : Item) : Item :=
  if item.target.isEmpty then
    let parent := item.parent.bind fun index => items[index]?
    let base := (parent.map Item.target).getD (if task.view.direction = .upload then task.view.destination else "")
    { item with
      target := join base (lastName item.source)
      skipped := parent.any Item.skipped || item.stamp.kind = .unsupported }
  else item

/-- The source as it is now. -/
def restamp (task : Task) (item : Item) : E (Task × Item) := do
  let stamp ← sourceStamp item.root item.source
  ensure (stamp.kind = .file) (argument "Source is no longer a regular file. Start a new transfer.")
  let total ← addLength (task.view.total - item.stamp.length) stamp.length
  pure ({ task with view := { task.view with total } }, { item with stamp, choice := none })

def refresh (task : Task) (item : Item) : E (Task × Item) :=
  if item.restart then restamp task item else pure (task, item)

def restage (task : Task) (item : Item) : E (Task × Item) := do
  let token ← newToken
  pure ({ task with view := { task.view with bytes := task.view.bytes - item.bytes } },
    { item with token, bytes := 0, prepared := false, restart := false, restage := false })

/-- What a restart or another staging begins with. -/
def again (task : Task) (item : Item) : E (Task × Item) :=
  if item.restart || item.restage then do
    provided item.prepared (unstage item)
    let (task, item) ← refresh task item
    restage task item
  else pure (task, item)

def createDirectory (item : Item) : E Item := do
  let _ ← call false item.root (.directory item.target)
  pure item

def makeDirectory (item : Item) : E Item :=
  if !item.prepared && item.expected.isNone then do
    let item := { item with prepared := true }
    saveItem item
    createDirectory item
  else if item.prepared then do
    match ← stat false item.root item.target with
    | none => createDirectory item
    | some _ => pure item
  else pure item

/-- A copy, and what is left to the user if the destination has changed. -/
def copyFile (task : Task) (item : Item) : E (Option (Task × Item)) := do
  saveItem item
  let r : Except (ClientError × Task × Item) (Task × Item) ← ExceptT.lift (file digest task item).run
  match r with
  | .ok (task, item) => pure (some (task, item))
  | .error (e, task, item) =>
    if e.code = "TRANSFER_CONFLICT" then do
      match ← stat false item.root item.target with
      | some stamp => do
        saveItem { item with choice := none }
        publish (askUser task item stamp)
        pure none
      | none => throw e
    else throw e

def meet (task : Task) (item : Item) : E (Task × Item × Bool) :=
  if item.skipped then pure (task, item, true) else destination task item

/-- The item with its target, directory or file; `none` if the run ends with a question to the user. -/
def carry (task : Task) (item : Item) : E (Option (Task × Item)) :=
  if item.skipped then pure (some (task, item))
  else if item.stamp.kind = .directory then do
    let item ← makeDirectory item
    pure (some (task, item))
  else copyFile digest task item

/-- The task with one more item that is done. -/
def Task.concluded (task : Task) (skipped : Bool) : Task :=
  { task with
    view :=
      if skipped then { task.view with skipped := task.view.skipped + 1 }
      else { task.view with completed := task.view.completed + 1 } }

def conclude (task : Task) (item : Item) : E (Task × Item) := do
  let item := { item with done := true }
  saveItem item
  publish (task.concluded item.skipped)
  pure (task.concluded item.skipped, item)

/-- An item up to its end; `none` as for `carry`. -/
def transferItem (task : Task) (items : List Item) (item : Item) : E (Option (Task × Item)) := do
  let (task, item) ← again { task with current := some item.index } (place task items item)
  saveItem item
  publish task
  let (task, item, going) ← meet task item
  if !going then do
    saveItem item
    publish task
    pure none
  else do
    match ← carry digest { task with view := { task.view with conflict := none } } item with
    | none => pure none
    | some (task, item) => do
      let r ← conclude task item
      pure (some r)

/-- The items from the `n`-th on. -/
def transferItems : Nat → Task → List Item → Nat → E (Option (Task × List Item))
  | 0, task, items, _ => pure (some (task, items))
  | left + 1, task, items, n =>
    match items[n]? with
    | none => pure (some (task, items))
    | some item =>
      if item.done then transferItems left task items (n + 1)
      else do
        match ← transferItem digest task items item with
        | none => pure none
        | some (task, item) => transferItems left task (items.set n item) (n + 1)

def metadataItem (item : Item) : E Unit := do
  let _ ← call false item.root (.metadata item.target item.stamp)
  pure ()

def metadata : List Item → E Unit
  | [] => pure ()
  | item :: items => do
    provided (item.stamp.kind = .directory && !item.skipped && item.expected.isNone) (metadataItem item)
    metadata items

/-- The counters as the items have them. -/
def Task.count (task : Task) (items : List Item) : Task :=
  { task with
    view := { task.view with
      bytes := (items.map Item.bytes).sum
      completed := items.countP fun i => i.done && !i.skipped
      skipped := items.countP Item.skipped
      status := .running
      message := none } }

def Task.completed (task : Task) : Task :=
  { task with
    view := { task.view with
      status := .completed
      message :=
        if task.view.skipped > 0 then
          some (toString task.view.skipped ++ " entries skipped. Open details to review.")
        else none }
    current := none }

def Task.cancelled (task : Task) : Task :=
  { task with view := { task.view with status := .cancelled, message := none } }

def finish (task : Task) (items : List Item) : E Unit := do
  cleanup items
  metadata items.reverse
  publish task.completed

/-- The server as it answered the connection. -/
structure ServerIdentity where
  identity : String
  transfers : Bool
  deriving DecidableEq, Repr

def openTask (remote : ServerIdentity) : E Task := do
  let task ← loadTask
  ensure (!task.remoteIdentity.any fun old => old ≠ remote.identity)
    (argument "Server identity changed. Verify the server before restarting this transfer.")
  ensure remote.transfers
    (argument "Finish active remote work and reconnect to install file transfer support.")
  let root ← openPeers task.view.workspace task.remoteRoot
  pure { task with
    remoteIdentity := some remote.identity
    remoteRoot := some root
    view := { task.view with active := true, owned := true } }

/-- The items of a task that has been scanned, or is cancelled. -/
def runItems (task : Task) (items : List Item) : E Unit := do
  publish (task.count items)
  if task.cancel then do
    cleanup items
    publish (task.count items).cancelled
  else
    match ← transferItems digest items.length (task.count items) items 0 with
    | none => pure ()
    | some (task, items) => finish task items

def scanned (pages : Nat) (task : Task) : E Task :=
  if !task.scanned && !task.cancel then scan pages task else pure task

/-- `engine::run`. -/
def run (pages : Nat) (remote : ServerIdentity) : E Unit := do
  let task ← openTask remote
  let task ← scanned pages task
  let items ← loadItems
  runItems digest task items

end

end RemoteCodex.Engine
