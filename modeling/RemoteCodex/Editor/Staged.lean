import RemoteCodex.Editor.Workspace

/-!
# A file that is being saved

`Staged` is the upload of one file: its chunks go to a temporary file beside
the destination, which takes the destination's place when the upload is
committed.
-/

namespace RemoteCodex.Editor

open Interact Transfer
open Files (Bytes splice)

/-- `position` is where the open file stands, `number` which file it is. -/
structure Staged where
  owner : String
  workspace : String
  expires : Nat
  parent : Nat
  destination : String
  temporary : String
  number : Nat
  position : Nat
  expected : Option String
  length : Nat
  written : Nat
  deriving DecidableEq, Repr

/-- 120 s, in milliseconds. -/
def UPLOAD_TIMEOUT : Nat := 120000

def conflict : Fault :=
  fault "FILE_CONFLICT" "This file changed remotely. Compare it with your edits before saving."

def temporaryName (uuid : String) : String := ".remote-codex-" ++ uuid ++ ".tmp"

/-- The names the service gives to its own files. -/
def hidden (name : String) : Bool := ".remote-codex-".toList.isPrefixOf name.toList

theorem hidden_temporaryName (uuid : String) : hidden (temporaryName uuid) = true := by
  simp [hidden, temporaryName, String.toList_append]

/-- The directory and the name a path stands for, if what is there has the expected revision. -/
def destinationOf (p : Platform) (c : Chance) (v : Volume) (dir : Nat) (path : String) (expected : Option String)
    (length : Nat) : Except Fault (Nat × String) := do
  demand (length ≤ MAX_TEXT_FILE) (fault "FILE_TOO_LARGE" "File exceeds 4 MiB.")
  let path ← relative path false
  let path ←
    if !c.fails (.symlinkMetadata "") && (p.inspect v dir path).isSome then
      orFault (if c.fails .canonicalize then none else p.canonicalize v dir path) "FILE_PATH"
        "File must stay inside the workspace."
    else pure path
  let parent ← orFault (if c.fails .openDirectory then none else p.openDir v dir path.dropLast) "FILE_PATH"
    "Cannot open the destination directory."
  let destination ← orFault path.getLast? "FILE_PATH" "Invalid filename."
  if (← p.revision c v parent destination) ≠ expected then throw conflict
  pure (parent, destination)

namespace Staged

/-- A file whose permissions cannot be set is left behind. -/
def new (p : Platform) (c : Chance) (v : Volume) (dir : Nat) (owner workspace path : String)
    (expected : Option String) (length : Nat) : Except Fault Staged × Volume :=
  match destinationOf p c v dir path expected length with
  | .error f => (.error f, v)
  | .ok (parent, destination) =>
    let temporary := temporaryName c.uuid
    if c.fails .create || (v.entry parent temporary).isSome then
      (.error (fault "FILE_WRITE" "Cannot stage this file."), v)
    else
      let made := (v.setEntry parent temporary (.file c.number)).setBytes c.number []
      if !c.fails .metadata && (p.resolve v parent destination).isSome && c.fails .setPermissions then
        (.error (fault "FILE_WRITE" "Cannot preserve file permissions."), made)
      else
        (.ok { owner, workspace, expires := c.now + UPLOAD_TIMEOUT, parent, destination, temporary
               number := c.number, position := 0, expected, length, written := 0 }, made)

/-- A write that fails leaves its first bytes in the file. -/
def write (c : Chance) (v : Volume) (s : Staged) (offset : Nat) (bytes : Bytes) :
    Except Fault Unit × Staged × Volume :=
  if offset ≠ s.written || bytes.length > FILE_CHUNK || s.written + bytes.length > s.length then
    (.error (fault "FILE_WRITE_SEQUENCE" "Upload chunk is out of sequence."), s, v)
  else if c.fails .write && c.written < bytes.length then
    (.error (fault "FILE_WRITE" "Cannot write file contents."), { s with position := s.position + c.written },
      v.setBytes s.number (splice (v.bytes s.number) s.position (bytes.take c.written)))
  else
    (.ok (), { s with position := s.position + bytes.length, written := s.written + bytes.length
                      expires := c.now + UPLOAD_TIMEOUT },
      v.setBytes s.number (splice (v.bytes s.number) s.position bytes))

/-- What `commit` looks at before it changes anything. -/
def check (p : Platform) (c : Chance) (v : Volume) (s : Staged) : Except Fault String := do
  demand (s.written = s.length) (fault "FILE_WRITE_INCOMPLETE" "File upload is incomplete.")
  demand (!c.fails .syncFile) (fault "FILE_WRITE" "Cannot flush file contents.")
  let (bytes, revision) ← p.read c v s.parent s.temporary
  demand (Wire.Json.ofUtf8 bytes).isSome (fault "FILE_ENCODING" "The editor supports UTF-8 text files.")
  if (← p.revision c v s.parent s.destination) ≠ s.expected then throw conflict
  pure revision

/-- Nothing is replaced by a file that is new. -/
def publish (c : Chance) (v : Volume) (s : Staged) : Except Fault Volume :=
  if s.expected.isNone then
    orFault (if c.fails .hardLink then none else v.hardLink s.parent s.temporary s.destination) "FILE_CONFLICT"
      "The destination was created by another writer."
  else
    orFault (if c.fails .rename then none else v.rename s.parent s.temporary s.destination) "FILE_WRITE"
      "Cannot replace this file."

def unconfirmed : Fault where
  code := "OPERATION_OUTCOME_UNKNOWN"
  message := "File was replaced but directory durability could not be confirmed. Reload before saving again."
  outcomeUnknown := true

def commit (p : Platform) (c : Chance) (v : Volume) (s : Staged) : Except Fault String × Volume :=
  match s.check p c v with
  | .error f => (.error f, v)
  | .ok revision =>
    match s.publish c v with
    | .error f => (.error f, v)
    | .ok published => (if c.fails .reopen || c.fails .syncDirectory then .error unconfirmed else .ok revision, published)

/-- The end of a `Staged`, whatever became of it. -/
def drop (c : Chance) (v : Volume) (token : String) (s : Staged) : Volume :=
  if c.fails (.drop token) then v else v.removeFile s.parent s.temporary

end Staged

end RemoteCodex.Editor
