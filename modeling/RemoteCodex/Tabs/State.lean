import RemoteCodex.Interact.Table
import RemoteCodex.Tabs.Paths

/-!
# File tabs

The tabs of the desktop, the reads that fill them, and what a move of a file or
a directory does to them. A read is current while its token stands for the key
of its tab; what closes or moves the tab takes the token away.

The view state of a tab is left out. A key is a server and a path, which the
source prints as one text.
-/

namespace RemoteCodex.Tabs

open Interact

abbrev Key := String × Path

def fileKey (server : String) (root path : Path) : Key := (server, remotePath root path)

structure TextFile where
  path : Path
  text : String
  revision : String
  deriving DecidableEq

structure Buffer where
  text : String
  revision : String
  original : String
  saving : Bool
  conflict : Option TextFile
  deriving DecidableEq

/-- A preview is its format and data; nothing looks into it. -/
inductive Status where
  | loading
  | failed (error : String)
  | text (buffer : Buffer) (transferring : Option String)
  | preview (content : String) (transferring : Option String)
  deriving DecidableEq

/-- What a read asks for. -/
structure File where
  key : Key
  context : String
  server : String
  root : Path
  path : Path
  deriving DecidableEq

structure FileTab extends File where
  locationError : Option String
  pendingMove : Option Path
  status : Status
  deriving DecidableEq

namespace FileTab

def of (file : File) (status : Status) : FileTab :=
  { file with locationError := none, pendingMove := none, status }

def isText (tab : FileTab) : Bool :=
  match tab.status with
  | .text .. => true
  | _ => false

def text? (tab : FileTab) : Option String :=
  match tab.status with
  | .text buffer _ => some buffer.text
  | _ => none

/-- An empty path is no pending move to the source's tests. -/
def waiting (tab : FileTab) : Bool := tab.pendingMove.any (· ≠ [])

def transferring (tab : FileTab) : Option String :=
  match tab.status with
  | .text _ transferring | .preview _ transferring => transferring
  | _ => none

def isTransferring (tab : FileTab) : Bool := tab.transferring.any (· ≠ "")

def saving (tab : FileTab) : Bool :=
  match tab.status with
  | .text buffer _ => buffer.saving
  | _ => false

def unsaved (tab : FileTab) : Bool :=
  match tab.status with
  | .text buffer _ => buffer.text ≠ buffer.original
  | _ => false

/-- `protectedTab`. -/
def guarded (tab : FileTab) : Bool := tab.waiting || tab.isTransferring || tab.saving || tab.unsaved

/-- Where a tab is, or waits to go. -/
def absolute (tab : FileTab) : Path := tab.pendingMove.getD (remotePath tab.root tab.path)

/-- The move concerns the tab. -/
def Moving (tab : FileTab) (server : String) (source destination : Path) : Prop :=
  tab.server = server ∧ within source tab.absolute = true ∧
    (tab.waiting = true ∨ movedPath tab.absolute source destination ≠ tab.absolute)

instance (tab : FileTab) (server : String) (source destination : Path) :
    Decidable (tab.Moving server source destination) :=
  inferInstanceAs (Decidable (_ ∧ _))

def nextPath (tab : FileTab) (source destination : Path) : Path := movedPath tab.absolute source destination

/-- The root and the path of a moved tab, and whether it keeps its context. -/
def landing (tab : FileTab) (source destination : Path) : Path × Path × Bool :=
  match relativePath tab.root (tab.nextPath source destination) with
  | some path => (tab.root, path, true)
  | none => (['/'], (tab.nextPath source destination).drop 1, false)

def landingKey (tab : FileTab) (server : String) (source destination : Path) : Key :=
  fileKey server (tab.landing source destination).1 (tab.landing source destination).2.1

/-- What becomes of the content of a tab that is moved. -/
def movedStatus : Status → Status
  | .text buffer transferring => .text { buffer with saving := false } transferring
  | .preview content transferring => .preview content transferring
  | _ => .failed "Opening the moved file…"

def conflictAt (path : Path) : Status → Status
  | .text buffer transferring =>
    .text { buffer with conflict := buffer.conflict.map fun file => { file with path } } transferring
  | status => status

def moveError (next : Path) : String :=
  "This file moved to " ++ String.ofList next ++ ". Close the conflicting destination tab, then retry."

/-- The tab that stays under its key until its destination is free. -/
def waits (tab : FileTab) (source destination : Path) : FileTab :=
  { tab with
    status := movedStatus tab.status
    pendingMove := some (tab.nextPath source destination)
    locationError := some (moveError (tab.nextPath source destination)) }

def moves (tab : FileTab) (server : String) (source destination : Path) : FileTab :=
  let (root, path, inside) := tab.landing source destination
  { tab with
    status := conflictAt path (movedStatus tab.status)
    root
    path
    context := if inside then tab.context else ""
    key := tab.landingKey server source destination
    pendingMove := none
    locationError := none }

end FileTab

/-- A read that has not settled. -/
structure Request where
  token : Nat
  file : File
  deriving DecidableEq

structure State where
  tabs : List FileTab
  generations : Table Key Nat
  requests : List Request
  next : Nat
  deriving DecidableEq

def State.fresh : State where
  tabs := []
  generations := ∅
  requests := []
  next := 0

/-- What a read comes back with. -/
inductive Content where
  | text (file : TextFile)
  | preview (content : String)
  | error (message : String)
  deriving DecidableEq

def Content.status : Content → Status
  | .text file => .text ⟨file.text, file.revision, file.text, false, none⟩ none
  | .preview content => .preview content none
  | .error message => .failed message

/-- The parts of a buffer that callers change. -/
structure Values where
  text : Option String := none
  revision : Option String := none
  original : Option String := none
  saving : Option Bool := none
  conflict : Option (Option TextFile) := none
  deriving DecidableEq

def Values.apply (values : Values) (buffer : Buffer) : Buffer where
  text := values.text.getD buffer.text
  revision := values.revision.getD buffer.revision
  original := values.original.getD buffer.original
  saving := values.saving.getD buffer.saving
  conflict := values.conflict.getD buffer.conflict

structure FileDocument where
  server : String
  root : Path
  path : Path
  text : String
  original : String
  revision : String
  deriving DecidableEq

inductive Event where
  | open (context server : String) (root path : Path)
  | retry (key : Key)
  | settle (request : Nat) (content : Content)
  | close (key : Key)
  | update (key : Key) (values : Values)
  | adopt (context : String) (file : FileDocument)
  | setTransfer (key : Key) (transferring : Option String)
  | bind (key : Key) (context : String)
  | locationFailed (key : Key) (error : String)
  | relocate (server : String) (source destination : Path)
  deriving DecidableEq

/-- A move under way: the tabs with their places in the list it started from,
and the keys that changed. -/
structure Loop where
  slots : List (Nat × FileTab)
  generations : Table Key Nat
  keys : List (Key × Key)

namespace Loop

/-- The tab another tab has to give way to. -/
def target (loop : Loop) (i : Nat) (key : Key) : Option (Nat × FileTab) :=
  loop.slots.find? fun slot => slot.1 ≠ i && slot.2.key = key

def put (loop : Loop) (i : Nat) (tab : FileTab) : Loop :=
  { loop with slots := loop.slots.map fun slot => if slot.1 = i then (i, tab) else slot }

def drop (loop : Loop) (slot : Nat × FileTab) : Loop :=
  { loop with
    slots := loop.slots.filter fun other => other.1 ≠ slot.1
    generations := AList.erase slot.2.key loop.generations }

/-- One turn of the loop over the tabs. -/
def step (server : String) (source destination : Path) (loop : Loop) (slot : Nat × FileTab) : Loop :=
  let (i, tab) := slot
  if tab.Moving server source destination ∧ ∃ other ∈ loop.slots, other.1 = i then
    let loop := { loop with generations := AList.erase tab.key loop.generations }
    let key := tab.landingKey server source destination
    match loop.target i key with
    | none =>
      { loop with keys := (tab.key, key) :: loop.keys }.put i (tab.moves server source destination)
    | some target =>
      if target.2.guarded then loop.put i (tab.waits source destination)
      else { loop.drop target with keys := (tab.key, key) :: loop.keys }.put i (tab.moves server source destination)
  else loop

end Loop

namespace State

def get (s : State) (key : Key) : Option FileTab := s.tabs.find? fun tab => tab.key = key

/-- The tab under a key, changed. -/
def mapKey (s : State) (key : Key) (f : FileTab → FileTab) : State :=
  { s with tabs := s.tabs.map fun tab => if tab.key = key then f tab else tab }

def load (s : State) (file : File) : State :=
  let loading := FileTab.of file .loading
  { (if (s.get file.key).isSome then s.mapKey file.key fun _ => loading
      else { s with tabs := s.tabs ++ [loading] }) with
    generations := s.generations.insert file.key s.next
    requests := s.requests ++ [⟨s.next, file⟩]
    next := s.next + 1 }

def «open» (s : State) (file : File) : State := if (s.get file.key).isSome then s else s.load file

def retry (s : State) (key : Key) : State :=
  match s.get key with
  | none => s
  | some tab =>
    match tab.status with
    | .failed _ | .preview .. => s.load tab.toFile
    | _ => s

def settle (s : State) (request : Nat) (content : Content) : Option State :=
  match s.requests[request]? with
  | none => none
  | some r =>
    let s := { s with requests := s.requests.eraseIdx request }
    if s.generations.lookup r.file.key = some r.token then
      some ({ s with generations := AList.erase r.file.key s.generations }.mapKey r.file.key fun _ =>
        FileTab.of r.file content.status)
    else some s

def close (s : State) (key : Key) : State :=
  { s with tabs := s.tabs.filter fun tab => tab.key ≠ key, generations := AList.erase key s.generations }

/-- A tab that is on its way to another window takes no text. -/
def updated (values : Values) (tab : FileTab) : FileTab :=
  match tab.status with
  | .text buffer transferring =>
    if tab.isTransferring && values.text.isSome then tab
    else { tab with status := .text (values.apply buffer) transferring }
  | _ => tab

def adopt (s : State) (context : String) (file : FileDocument) : State :=
  let key := fileKey file.server file.root file.path
  { s with
    tabs := (s.tabs.filter fun tab => tab.key ≠ key) ++
      [FileTab.of ⟨key, context, file.server, file.root, file.path⟩
        (.text ⟨file.text, file.revision, file.original, false, none⟩ none)] }

def withTransfer (transferring : Option String) (tab : FileTab) : FileTab :=
  match tab.status with
  | .text buffer _ => { tab with status := .text buffer transferring }
  | .preview content _ => { tab with status := .preview content transferring }
  | _ => tab

/-- The tabs in the order a move goes through them: actual file bindings first,
then the drafts waiting for those bindings. -/
def moveOrder (tabs : List FileTab) : List (Nat × FileTab) :=
  let slots := tabs.zipIdx.map Prod.swap
  slots.filter (fun slot => !slot.2.waiting) ++ slots.filter fun slot => slot.2.waiting

def moveLoop (s : State) (server : String) (source destination : Path) : Loop :=
  (moveOrder s.tabs).foldl (Loop.step server source destination)
    ⟨s.tabs.zipIdx.map Prod.swap, s.generations, []⟩

def relocate (s : State) (server : String) (source destination : Path) : State :=
  let loop := s.moveLoop server source destination
  { s with tabs := loop.slots.map Prod.snd, generations := loop.generations }

def step (s : State) : Event → Option State
  | .open context server root path => some (s.open ⟨fileKey server root path, context, server, root, path⟩)
  | .retry key => some (s.retry key)
  | .settle request content => s.settle request content
  | .close key => some (s.close key)
  | .update key values => some (s.mapKey key (updated values))
  | .adopt context file => some (s.adopt context file)
  | .setTransfer key transferring => some (s.mapKey key (withTransfer transferring))
  | .bind key context =>
    some (s.mapKey key fun tab => if tab.waiting then tab else { tab with context, locationError := none })
  | .locationFailed key error => some (s.mapKey key fun tab => { tab with locationError := some error })
  | .relocate server source destination => some (s.relocate server source destination)

end State

end RemoteCodex.Tabs
