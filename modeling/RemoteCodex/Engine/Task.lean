import Mathlib.Algebra.Order.Ring.Int
import RemoteCodex.Remote.Recovery

/-!
# Transfer tasks

A task and its items as the client stores them, and what the engine asks of
the store and of the two ends of a transfer. Counters are 64-bit in the source;
they are numbers here, with the operations that saturate or are checked.
-/

namespace RemoteCodex.Engine

open Interact Transfer
open Remote (ClientError)

def U64_MAX : Nat := 2 ^ 64 - 1

def saturatingAdd (a b : Nat) : Nat := min (a + b) U64_MAX

def checkedAdd (a b : Nat) : Option Nat := if a + b ≤ U64_MAX then some (a + b) else none

def argument (text : String) : ClientError := .other "INVALID_ARGUMENT" text

def integrity : ClientError := .other "INTEGRITY_MISMATCH" "runtime package verification failed"

inductive Direction
  | upload | download
  deriving DecidableEq, Repr

inductive Status
  | queued | paused | preparing | running | reconnecting | conflict | completed | cancelled
  deriving DecidableEq, Repr

inductive Choice
  | replace | keepBoth | skip | merge
  deriving DecidableEq, Repr

structure Conflict where
  path : String
  source : Kind
  destination : Kind
  expected : Stamp
  deriving DecidableEq, Repr

structure RootIdentity where
  device : Nat
  inode : Nat
  deriving DecidableEq, Repr

/-- `Transfer`, what the user sees of a task. -/
structure View where
  workspace : String
  direction : Direction
  destination : String
  status : Status := .paused
  bytes : Nat := 0
  total : Nat := 0
  files : Nat := 0
  completed : Nat := 0
  skipped : Nat := 0
  message : Option String := none
  errorCode : Option String := none
  conflict : Option Conflict := none
  active : Bool := false
  owned : Bool := false
  deriving DecidableEq, Repr

structure Source where
  root : Nat
  path : String
  deriving DecidableEq, Repr

structure Task where
  view : View
  sources : List Source
  remoteIdentity : Option String := none
  remoteRoot : Option RootIdentity := none
  scanned : Bool := false
  cancel : Bool := false
  current : Option Nat := none
  policy : Option Choice := none
  deriving DecidableEq, Repr

structure Item where
  index : Nat
  parent : Option Nat
  root : Nat
  source : String
  target : String := ""
  stamp : Stamp
  token : String
  expected : Option Stamp := none
  prepared : Bool := false
  bytes : Nat := 0
  done : Bool := false
  skipped : Bool := false
  choice : Option Choice := none
  restart : Bool := false
  restage : Bool := false
  deriving DecidableEq, Repr

-- ---------------------------------------------------------------------------
-- Names
-- ---------------------------------------------------------------------------

def join (parent name : String) : String :=
  if parent.isEmpty then name
  else String.ofList ((parent.toList.reverse.dropWhile (· = '/')).reverse ++ '/' :: name.toList)

/-- `rsplit('/').next()`. -/
def lastName (path : String) : String := String.ofList ((path.toList.splitOn '/').getLastD [])

def rsplitOnce (c : Char) (s : String) : Option (String × String) :=
  let parts := s.toList.splitOn c
  if parts.length ≤ 1 then none
  else some (String.ofList ([c].intercalate parts.dropLast), String.ofList (parts.getLastD []))

def alternate (path : String) (number : Nat) (directory : Bool) : String :=
  let (parent, name) := (rsplitOnce '/' path).getD ("", path)
  let (stem, extension) :=
    if directory then (name, "")
    else
      match rsplitOnce '.' name with
      | some (s, e) => if s.isEmpty then (name, "") else (s, "." ++ e)
      | none => (name, "")
  join parent (stem ++ " (" ++ toString number ++ ")" ++ extension)

-- ---------------------------------------------------------------------------
-- Operations
-- ---------------------------------------------------------------------------

/-- What a transfer asks for: the store's transactions, the opening of both ends and
their commands, a token, the callback `progress`, and whether 100 ms have gone by. -/
inductive EngineOp
  | loadTask
  | loadItems
  | saveTask (task : Task)
  | saveItem (item : Item)
  | resetScan
  | loadProgress
  | openPeers (workspace : String) (expected : Option RootIdentity)
  | call (source : Bool) (root : Nat) (command : Command) (bytes : Files.Bytes)
  | token
  | progress (view : View)
  | elapsed
  deriving DecidableEq, Repr

def EngineAns : EngineOp → Type
  | .loadTask => Except ClientError Task
  | .loadItems => Except ClientError (List Item)
  | .saveTask _ | .saveItem _ | .resetScan => Except ClientError Unit
  | .loadProgress => Except ClientError (Nat × Nat × Nat)
  | .openPeers _ _ => Except ClientError RootIdentity
  | .call _ _ _ _ => Except ClientError (Reply × Files.Bytes)
  | .token => String
  | .progress _ => Unit
  | .elapsed => Bool

abbrev E := Act EngineOp EngineAns ClientError

def ask (op : EngineOp) : E (EngineAns op) := request op

def loadTask : E Task := do
  let r : Except ClientError Task ← ask .loadTask
  ofExcept r

def loadItems : E (List Item) := do
  let r : Except ClientError (List Item) ← ask .loadItems
  ofExcept r

def saveTask (task : Task) : E Unit := do
  let r : Except ClientError Unit ← ask (.saveTask task)
  ofExcept r

def saveItem (item : Item) : E Unit := do
  let r : Except ClientError Unit ← ask (.saveItem item)
  ofExcept r

def resetScan : E Unit := do
  let r : Except ClientError Unit ← ask .resetScan
  ofExcept r

/-- `transfer_progress`. -/
def loadProgress : E (Nat × Nat × Nat) := do
  let r : Except ClientError (Nat × Nat × Nat) ← ask .loadProgress
  ofExcept r

def openPeers (workspace : String) (expected : Option RootIdentity) : E RootIdentity := do
  let r : Except ClientError RootIdentity ← ask (.openPeers workspace expected)
  ofExcept r

/-- `Peers::call`: of the source or of the destination. -/
def call (source : Bool) (root : Nat) (command : Command) (bytes : Files.Bytes := []) : E (Reply × Files.Bytes) := do
  let r : Except ClientError (Reply × Files.Bytes) ← ask (.call source root command bytes)
  ofExcept r

def newToken : E String := ask .token

def progress (view : View) : E Unit := ask (.progress view)

def elapsed : E Bool := ask .elapsed

def publish (task : Task) : E Unit := do
  saveTask task
  progress task.view

def stat (source : Bool) (root : Nat) (path : String) : E (Option Stamp) := do
  match (← call source root (.stat path)).1 with
  | .stat stamp => pure stamp
  | _ => throw .remoteResponse

end RemoteCodex.Engine
