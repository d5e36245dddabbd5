import RemoteCodex.Transfer.Inspect

/-!
# Staged uploads

`prepare`, `write`, `commit` and `cancel`, and the dispatch over all commands.
-/

namespace RemoteCodex.Transfer

open Files Interact

def isAbsent : Except Errno Metadata → Bool
  | .error _ => true
  | .ok _ => false

/-- The rename is known to have happened only from the digest that was
recorded before it and the data that is gone. -/
def reconcile (c : Crates) (e : Endpoint) (stage : Stage) : M Stage := do
  match ← stat stage.journal.path with
  | none => throw (fault "TRANSFER_CONFLICT" "Committed destination is missing.")
  | some stamp => do
    ensure (stamp.kind == .file && stamp.length == stage.journal.source.length)
      (fault "TRANSFER_CONFLICT" "Destination changed after transfer commit.")
    let digest ← hash c e stage.journal.path stamp
    ensure (some digest == stage.journal.digest)
      (fault "TRANSFER_CONFLICT" "Destination changed after transfer commit.")
    let stage := { stage with journal := { stage.journal with committed := true } }
    stage.save c
    pure stage

/-- Whether the rename of a commit may already have taken the data. -/
def renamed (stage : Stage) : M Bool := do
  if stage.journal.digest.isSome then
    pure (isAbsent (← sys (.symlinkMetadata (stage.dir ++ ["data"]))))
  else pure false

/-- Back to the durable checkpoint: an unconfirmed tail is cut off. -/
def checkpoint (stage : Stage) : M Unit := do
  let data := stage.dir ++ ["data"]
  file data {}
  let m ← orIo (← sys (.symlinkMetadata data))
  ensure (decide (stage.journal.offset ≤ m.length))
    (fault "TRANSFER_CHECKPOINT" "Staged file is shorter than its durable checkpoint.")
  if m.length > stage.journal.offset then do
    stage.data
    orIo (← sys (.setLength data stage.journal.offset))
  else pure ()

def settle (c : Crates) (e : Endpoint) (stage : Stage) : M Stage := do
  if ← renamed stage then reconcile c e stage else pure stage

/-- An upload that is not committed goes on only if the destination is as expected. -/
def resume (path : String) (expected : Option Stamp) (stage : Stage) : M Unit :=
  if stage.journal.committed then pure () else do
    let found ← stat path
    ensure (found == expected)
      (fault "TRANSFER_CONFLICT" "Destination changed. Review the conflict before continuing.")
    checkpoint stage

def prepare (c : Crates) (e : Endpoint) (path token : String) (source : Stamp)
    (expected : Option Stamp) : M Reply := do
  ensure (source.kind == .file) (fault "TRANSFER_TYPE" "Only regular files can be staged.")
  let initial : Journal :=
    { owner := e.owner, path, source, expected, offset := 0, digest := none, committed := false }
  let stage ← openStage c e path token (some initial)
  ensure (stage.journal.source == source && stage.journal.expected == expected)
    (fault "TRANSFER_SOURCE_CHANGED"
      "Transfer checkpoint describes a different source or destination.")
  let stage ← settle c e stage
  resume path expected stage
  pure (.ready stage.journal.offset stage.journal.committed)

def write (c : Crates) (e : Endpoint) (path token : String) (offset : Nat) (digest : String)
    (bytes : Bytes) : M Reply := do
  let stage ← openStage c e path token none
  ensure (!stage.journal.committed && !bytes.isEmpty && decide (bytes.length ≤ CHUNK)
      && offset == stage.journal.offset
      && decide (offset + bytes.length ≤ stage.journal.source.length)
      && c.digest bytes == digest)
    (fault "TRANSFER_CHECKPOINT" "Invalid transfer block or checkpoint.")
  stage.data
  orIo (← sys (.write (stage.dir ++ ["data"]) offset bytes))
  orIo (← sys (.sync (stage.dir ++ ["data"])))
  let stage := { stage with
    journal := { stage.journal with offset := stage.journal.offset + bytes.length } }
  stage.save c
  pure (.ready stage.journal.offset false)

/-- Verification, and the one rename that publishes the data. -/
def publish (c : Crates) (e : Endpoint) (path digest : String) (stage : Stage) : M Reply := do
  let data := stage.dir ++ ["data"]
  file data {}
  let actual ← hashFile c e data
  ensure (actual == digest)
    (fault "TRANSFER_CHECKSUM" "File verification failed. Restart this file.")
  setMetadata data stage.journal.source
  let stage := { stage with journal := { stage.journal with digest := some digest } }
  stage.save c
  let (_, target) ← parent path
  -- Recheck immediately before publishing. No-replace makes new-name publication race safe.
  let found ← stat path
  ensure (found == stage.journal.expected)
    (fault "TRANSFER_CONFLICT" "Destination changed before commit.")
  orIo (← sys (.rename data (stage.parent ++ [target]) stage.journal.expected.isSome))
  orIo (← sys (.sync stage.parent))
  let stage := { stage with journal := { stage.journal with committed := true } }
  stage.save c
  pure .done

def commit (c : Crates) (e : Endpoint) (path token digest : String) : M Reply := do
  let stage ← openStage c e path token none
  if ← renamed stage then do
    let _ ← reconcile c e stage
    pure .done
  else do
    ensure (stage.journal.offset == stage.journal.source.length)
      (fault "TRANSFER_CONFLICT" "Incomplete transfer or destination changed.")
    let found ← stat path
    ensure (found == stage.journal.expected)
      (fault "TRANSFER_CONFLICT" "Incomplete transfer or destination changed.")
    publish c e path digest stage

/-- Names that are already gone are passed over. -/
def removeFiles (dir : Path) : List String → M Unit
  | [] => pure ()
  | name :: names => do
    match ← sys (.removeFile (dir ++ [name])) with
    | .ok () => removeFiles dir names
    | .error .notFound => removeFiles dir names
    | .error e => throw (io e.text)

def cancel (c : Crates) (e : Endpoint) (path token : String) : M Reply := do
  let (parent, _) ← parent path
  let name ← name c token
  let found ← sys (.symlinkMetadata (parent ++ [name]))
  if isMissing found then pure .done
  else do
    let stage ← openStage c e path token none
    removeFiles stage.dir ["data", "next.json", "state.json", "lock"]
    orIo (← sys (.removeDirectory (stage.parent ++ [stage.name])))
    orIo (← sys (.sync stage.parent))
    pure .done

def createDirectory (path : String) : M Reply := do
  let (dir, name) ← parent path
  orIo (← sys (.createDirectory (dir ++ [name])))
  orIo (← sys (.sync dir))
  pure .done

def Command.isWrite : Command → Bool
  | .write .. => true
  | _ => false

/-- `Endpoint::dispatch`. -/
def dispatch (c : Crates) (e : Endpoint) (command : Command) (bytes : Bytes) :
    M (Reply × Bytes) := do
  checkCancelled e
  ensure (command.isWrite || bytes.isEmpty)
    (fault "TRANSFER_PACKET" "Unexpected transfer payload.")
  match command with
  | .stat path => return (.stat (← stat path), [])
  | .list path after => return (.list (← list c e path after), [])
  | .read path stamp offset => read c path stamp offset
  | .hash path stamp => return (.hash (← hash c e path stamp), [])
  | .prepare path token source expected => return (← prepare c e path token source expected, [])
  | .write path token offset digest => return (← write c e path token offset digest bytes, [])
  | .commit path token digest => return (← commit c e path token digest, [])
  | .cancel path token => return (← cancel c e path token, [])
  | .directory path => return (← createDirectory path, [])
  | .metadata path stamp => do
    metadata path stamp
    return (.done, [])

end RemoteCodex.Transfer
