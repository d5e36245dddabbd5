import RemoteCodex.Transfer.Paths

/-!
# The staging directory and its journal

A staged upload keeps `data`, the bytes so far, and `state.json`, the journal,
in a directory of its own beside the destination. The journal is replaced by a
rename of `next.json`, so it is whole at every moment.
-/

namespace RemoteCodex.Transfer

open Files Interact

/-- The lock is held for as long as the command runs and is not represented. -/
structure Stage where
  parent : Path
  name : String
  dir : Path
  journal : Journal

def Stage.save (c : Crates) (stage : Stage) : M Unit := do
  let next := stage.dir ++ ["next.json"]
  file next { write := true, create := true, truncate := true }
  orIo (← sys (.write next 0 (c.toJson stage.journal)))
  orIo (← sys (.sync next))
  orIo (← sys (.rename next (stage.dir ++ ["state.json"]) true))
  orIo (← sys (.sync stage.dir))

/-- `Stage::data`. -/
def Stage.data (stage : Stage) : M Unit :=
  file (stage.dir ++ ["data"]) { write := true }

def stageName (id : String) : String := ".remote-codex-transfer-" ++ id

def name (c : Crates) (token : String) : M String :=
  match c.uuid token with
  | some id => pure (stageName id)
  | none => throw (fault "TRANSFER_TOKEN" "Invalid transfer token.")

/-- The staging directory is made by the first command that may begin a journal. -/
def createStage (dir : Path) (initial : Option Journal) : M Bool :=
  match initial with
  | none => pure false
  | some _ => do
    match ← sys (.createDirectory dir) with
    | .ok () => pure true
    | .error .alreadyExists => pure false
    | .error e => throw (io e.text)

def readJournal (c : Crates) (dir : Path) (initial : Option Journal) (missing : Bool) :
    M Journal := do
  match ← attempt (file (dir ++ ["state.json"]) {}) with
  | .ok () => do
    let bytes ← orIo (← sys (.read (dir ++ ["state.json"])))
    match c.fromJson (bytes.take 16384) with
    | .ok journal => pure journal
    | .error e => throw (io e)
  | .error e =>
    match initial, missing with
    | some journal, true => pure journal
    | none, true => throw (fault "TRANSFER_MISSING" "Transfer initialization was interrupted.")
    | _, false => throw e

def isMissing : Except Errno Metadata → Bool
  | .error .notFound => true
  | _ => false

/-- There is no durable checkpoint yet; an interrupted first block may be discarded. -/
def initializeStage (c : Crates) (stage : Stage) (fresh : Bool) : M Unit :=
  if fresh then do
    file (stage.dir ++ ["data"]) { write := true, create := true, truncate := true }
    orIo (← sys (.sync (stage.dir ++ ["data"])))
    stage.save c
    orIo (← sys (.sync stage.parent))
  else pure ()

def restrict (dir : Path) (created : Bool) : M Unit :=
  if created then do orIo (← sys (.setPermissions dir 0o700)) else pure ()

/-- Makes the directory if it may, opens it and takes its lock. -/
def enterStage (parent : Path) (name : String) (initial : Option Journal) : M Path := do
  let created ← createStage (parent ++ [name]) initial
  let dir ← directory parent name
  restrict dir created
  file (dir ++ ["lock"]) { write := true, create := true }
  let free ← sys (.lock (dir ++ ["lock"]))
  ensure free (fault "TRANSFER_BUSY" "Another transfer owns this staging file.")
  pure dir

/-- `Endpoint::stage`. -/
def openStage (c : Crates) (e : Endpoint) (path token : String) (initial : Option Journal) :
    M Stage := do
  let (parent, _) ← parent path
  let name ← name c token
  let dir ← enterStage parent name initial
  let missing := isMissing (← sys (.symlinkMetadata (dir ++ ["state.json"])))
  let journal ← readJournal c dir initial missing
  ensure (journal.owner == e.owner && journal.path == path)
    (fault "TRANSFER_OWNER" "Transfer belongs to another destination or owner.")
  let stage : Stage := { parent, name, dir, journal }
  initializeStage c stage (missing && initial.isSome)
  pure stage

end RemoteCodex.Transfer
