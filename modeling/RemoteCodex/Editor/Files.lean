import RemoteCodex.Editor.Staged
import RemoteCodex.Interact.Runs

/-!
# The file service

`Files::dispatch` under the lock of the service: one request after another,
and between two of them anybody may edit the workspace.
-/

namespace RemoteCodex.Editor

open Interact Transfer
open Files (Bytes)

inductive FileRequest
  | list (path : String)
  | read (path : String) (offset : Nat) (revision : Option String)
  | beginWrite (path : String) (revision : Option String) (length : Nat)
  | writeChunk (token : String) (offset : Nat) (bytes : Bytes)
  | commitWrite (token : String)
  | cancelWrite (token : String)
  | createDirectory (path : String)
  | rename (path destination : String)
  | remove (path : String)
  deriving DecidableEq, Repr

/-- The names of a directory are not kept. -/
inductive Reply
  | page
  | chunk (bytes : Bytes) (revision : String) (length : Nat)
  | token (token : String)
  | revision (revision : String)
  | empty
  deriving DecidableEq, Repr

structure FileService where
  stages : Table String Staged := ∅
  deriving DecidableEq

def missing : Fault :=
  fault "FILE_UPLOAD_EXPIRED" "File upload expired or belongs to another workspace."

/-- Drops the uploads of a list. -/
def dropAll (c : Chance) (v : Volume) : List (Sigma fun _ : String => Staged) → Volume
  | [] => v
  | e :: rest => dropAll c (e.2.drop c v e.1) rest

namespace FileService

/-- The uploads whose time is over are dropped before every request. -/
def retain (c : Chance) (f : FileService) (v : Volume) : FileService × Volume :=
  ({ f with stages := f.stages.retain fun s => c.now < s.expires },
    dropAll c v (f.stages.entries.filter fun e => !decide (c.now < e.2.expires)))

def stage (f : FileService) (owner workspace token : String) : Except Fault Staged :=
  match f.stages.lookup token with
  | some s => if s.owner = owner && s.workspace = workspace then .ok s else .error missing
  | none => .error missing

end FileService

/-- `FileRequest::Read`. -/
def readChunk (p : Platform) (c : Chance) (v : Volume) (dir : Nat) (path : String) (offset : Nat)
    (revision : Option String) : Except Fault Reply := do
  let path ← relative path false
  let (parent, name) ← orFault (p.locate v dir path) "FILE_READ" "Cannot open this workspace file."
  let (bytes, actual) ← p.read c v parent name
  demand (revision.all fun old => old = actual) conflict
  demand (offset ≤ bytes.length) (fault "FILE_OFFSET" "Invalid read offset.")
  pure (.chunk ((bytes.drop offset).take FILE_CHUNK) actual bytes.length)

def listDirectory (p : Platform) (c : Chance) (v : Volume) (dir : Nat) (path : String) : Except Fault Reply := do
  let path ← relative path true
  let _ ← orFault (if c.fails .openTarget then none else p.openDir v dir path) "DIRECTORY_READ"
    "Cannot list this directory."
  pure .page

def createDirectory (p : Platform) (c : Chance) (v : Volume) (dir : Nat) (path : String) : Except Fault Volume := do
  let path ← relative path false
  let (parent, name) ← orFault (if c.fails .createDirectory then none else p.locate v dir path) "FILE_CREATE"
    "Cannot create the directory."
  demand (v.entry parent name).isNone (fault "FILE_CREATE" "Cannot create the directory.")
  pure (v.setEntry parent name (.directory c.number))

def removeEntry (p : Platform) (c : Chance) (v : Volume) (dir : Nat) (path : String) : Except Fault Volume := do
  let path ← relative path false
  let (parent, name) ← orFault (if c.fails (.symlinkMetadata "") then none else p.locate v dir path) "FILE_REMOVE"
    "Cannot inspect this entry."
  let entry ← orFault (v.entry parent name) "FILE_REMOVE" "Cannot inspect this entry."
  let empty := match entry with
    | .directory id => decide (∀ k ∈ v.entries.keys, k.1 ≠ id)
    | _ => true
  demand (!c.fails .remove && empty)
    (fault "FILE_REMOVE" "Cannot remove this entry. Directories must be empty.")
  pure (v.removeEntry parent name)

def renameEntry (p : Platform) (c : Chance) (v : Volume) (dir : Nat) (path destination : String) :
    Except Fault Volume := do
  let path ← relative path false
  let destination ← relative destination false
  demand (c.fails (.symlinkMetadata "") || (p.inspect v dir destination).isNone) conflict
  let source ← orFault (if c.fails .openDirectory then none else p.openDir v dir path.dropLast) "FILE_RENAME"
    "Cannot open the source directory."
  let target ← orFault (if c.fails .openTarget then none else p.openDir v dir destination.dropLast) "FILE_RENAME"
    "Cannot open the destination directory."
  let name ← (match path.getLast? with | some name => .ok name | none => .error missing : Except Fault String)
  let name' ← (match destination.getLast? with | some name => .ok name | none => .error missing : Except Fault String)
  let entry ← orFault (if c.fails .rename || (v.entry target name').isSome then none else v.entry source name)
    "FILE_RENAME" "Cannot rename this entry without replacing another file."
  pure ((v.removeEntry source name).setEntry target name' entry)

/-- A request that changes the volume as a whole or not at all. -/
def wholly (f : FileService) (v : Volume) : Except Fault Volume → Except Fault Reply × FileService × Volume
  | .ok v' => (.ok .empty, f, v')
  | .error e => (.error e, f, v)

namespace FileService

def beginWrite (p : Platform) (c : Chance) (f : FileService) (v : Volume) (dir : Nat)
    (owner workspace path : String) (revision : Option String) (length : Nat) :
    Except Fault Reply × FileService × Volume :=
  if f.stages.entries.length ≥ 32 then
    (.error (fault "FILE_BUSY" "Too many file uploads. Retry shortly."), f, v)
  else
    match Staged.new p c v dir owner workspace path revision length with
    | (.error e, v') => (.error e, f, v')
    | (.ok s, v') => (.ok (.token c.token), { f with stages := f.stages.insert c.token s }, v')

def writeChunk (c : Chance) (f : FileService) (v : Volume) (owner workspace token : String) (offset : Nat)
    (bytes : Bytes) : Except Fault Reply × FileService × Volume :=
  match f.stage owner workspace token with
  | .error e => (.error e, f, v)
  | .ok s =>
    match s.write c v offset bytes with
    | (result, s', v') => (result.map fun _ => .empty, { f with stages := f.stages.insert token s' }, v')

def commitWrite (p : Platform) (c : Chance) (f : FileService) (v : Volume) (owner workspace token : String) :
    Except Fault Reply × FileService × Volume :=
  match f.stage owner workspace token with
  | .error e => (.error e, f, v)
  | .ok s =>
    match s.commit p c v with
    | (result, v') => (result.map .revision, { f with stages := f.stages.erase token }, s.drop c v' token)

def cancelWrite (c : Chance) (f : FileService) (v : Volume) (owner workspace token : String) :
    Except Fault Reply × FileService × Volume :=
  match f.stage owner workspace token with
  | .error e => (.error e, f, v)
  | .ok s => (.ok .empty, { f with stages := f.stages.erase token }, s.drop c v token)

/-- The request itself, in the workspace that was opened. -/
def perform (p : Platform) (c : Chance) (f : FileService) (v : Volume) (dir : Nat) (owner workspace : String) :
    FileRequest → Except Fault Reply × FileService × Volume
  | .list path => (listDirectory p c v dir path, f, v)
  | .read path offset revision => (readChunk p c v dir path offset revision, f, v)
  | .beginWrite path revision length => f.beginWrite p c v dir owner workspace path revision length
  | .writeChunk token offset bytes => f.writeChunk c v owner workspace token offset bytes
  | .commitWrite token => f.commitWrite p c v owner workspace token
  | .cancelWrite token => f.cancelWrite c v owner workspace token
  | .createDirectory path => wholly f v (createDirectory p c v dir path)
  | .remove path => wholly f v (removeEntry p c v dir path)
  | .rename path destination => wholly f v (renameEntry p c v dir path destination)

def dispatch (p : Platform) (c : Chance) (f : FileService) (v : Volume) (owner workspace : String)
    (request : FileRequest) : Except Fault Reply × FileService × Volume :=
  match f.retain c v with
  | (f, v) =>
    if (pathComponents workspace).head? ≠ some .rootDir then
      (.error (fault "FILE_PATH" "Workspace must be an absolute remote directory."), f, v)
    else
      match if c.fails .openWorkspace then none else p.ambient v workspace with
      | none => (.error (fault "FILE_PATH" "Cannot open this workspace."), f, v)
      | some dir => f.perform p c v dir owner workspace request

end FileService

-- ---------------------------------------------------------------------------
-- Runs
-- ---------------------------------------------------------------------------

/-- A request with what was answered. -/
structure Exchange where
  owner : String
  workspace : String
  request : FileRequest
  answer : Except Fault Reply

/-- The service, the volume, and every request there was, the latest first. -/
structure Saving where
  service : FileService := {}
  volume : Volume := {}
  log : List Exchange := []

inductive FileEvent
  | request (owner workspace : String) (request : FileRequest) (c : Chance)
  /-- Somebody else leaves the volume like this. -/
  | others (volume : Volume)

namespace Saving

/-- The chunks of an upload that were accepted, in their order. -/
def accepted (log : List Exchange) (token : String) : Bytes :=
  (log.reverse.filterMap fun x => match x.request, x.answer with
    | .writeChunk t _ bytes, .ok _ => if t = token then some bytes else none
    | _, _ => none).flatten

/-- The uploads that were begun. -/
def begun (log : List Exchange) : List String :=
  log.filterMap fun x => match x.answer with
    | .ok (.token token) => some token
    | _ => none

/-- The identities that are drawn are new, and so is a number. -/
def Drawn (s : Saving) (c : Chance) : Prop :=
  c.token ∉ begun s.log ∧ s.volume.Unused c.number

/-- What a request makes of the state. -/
def serve (p : Platform) (s : Saving) (owner workspace : String) (request : FileRequest) (c : Chance) : Saving :=
  match s.service.dispatch p c s.volume owner workspace request with
  | (answer, service, volume) => { service, volume, log := ⟨owner, workspace, request, answer⟩ :: s.log }

instance (s : Saving) (c : Chance) : Decidable (s.Drawn c) := inferInstanceAs (Decidable (_ ∧ _))

def next (p : Platform) (s : Saving) : FileEvent → Option Saving
  | .request owner workspace request c => if s.Drawn c then some (s.serve p owner workspace request c) else none
  | .others volume => some { s with volume }

/-- The last name of a request's path. -/
def lastName (path : String) : Option String := (relative path false).toOption.bind List.getLast?

/-- No request is about a file of the service's own. -/
def Public (p : Platform) (s : Saving) (workspace : String) (c : Chance) : FileRequest → Prop
  | .beginWrite path revision length => ∀ dir parent destination,
      destinationOf p c (s.service.retain c s.volume).2 dir path revision length = .ok (parent, destination) →
        p.ambient (s.service.retain c s.volume).2 workspace = some dir → hidden destination = false
  | .remove path => ∀ name ∈ lastName path, hidden name = false
  | .rename path _ => ∀ name ∈ lastName path, hidden name = false
  | _ => True

/-- The temporary file of an upload, and its only name, are left as they are. -/
structure Undisturbed (s : Staged) (v v' : Volume) : Prop where
  entry : v'.entry s.parent s.temporary = v.entry s.parent s.temporary
  sole : ∀ dir name, v'.entry dir name = some (.file s.number) → v.entry dir name = some (.file s.number)
  bytes : v'.files.lookup s.number = v.files.lookup s.number

/-- Nobody touches the files of the service, and a write that fails has written nothing. -/
def Aside (p : Platform) (s : Saving) : FileEvent → Prop
  | .request _ workspace request c => s.Public p workspace c request ∧ (c.fails .write = true → c.written = 0)
  | .others volume => ∀ upload ∈ s.service.stages.values, Undisturbed upload s.volume volume

end Saving

end RemoteCodex.Editor
