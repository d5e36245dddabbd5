import RemoteCodex.Config.Value
import RemoteCodex.Files.Moves
import RemoteCodex.Protocol.Identity
import RemoteCodex.Skills.Manifest
import RemoteCodex.Transfer.Parts

/-!
# Staging and publishing a skill

`prepare` takes a manifest in and makes the directories for its files, and
`commit` publishes what has been put there under the digest of the manifest.
Both check the manifest, each on its own.
-/

namespace RemoteCodex.Skills

open Files.Links
open Protocol (hexDigit parseUuid)
open Transfer (Fault Component fault pathComponents rawParts)
open Wire (Json.utf8)

abbrev Disk := Volume String

abbrev M := ExceptT Fault (StateM Disk)

/-- The service's directory, and what it is told by the system. -/
structure Host where
  root : List String
  links : Nat
  sha256 : List UInt8 → String
  fromSlice : List UInt8 → Option (List SkillFile)
  /-- It belongs to the user the service runs as. -/
  owned : List String → Bool
  /-- It was modified more than 3600 seconds ago. -/
  old : List String → Bool
  /-- The mode of a new file. -/
  fileMode : Nat

def MAX_BYTES : Nat := 16 * 1024 * 1024

-- ---------------------------------------------------------------------------
-- The checks
-- ---------------------------------------------------------------------------

def invalid : Fault := fault "SKILL_MANIFEST" "invalid or oversized skill manifest"

def isNormal : Component → Bool
  | .normal _ => true
  | _ => false

def isAsciiHexdigit (b : UInt8) : Bool := (48 ≤ b && b ≤ 57) || (65 ≤ b && b ≤ 70) || (97 ≤ b && b ≤ 102)

def refused (paths : List String) (file : SkillFile) : Bool :=
  file.path.isEmpty || file.path.utf8ByteSize > 1024 || file.path.toList.any Config.isControl ||
    (pathComponents file.path).any (fun part => !isNormal part) || paths.contains file.path || file.size > MAX_BYTES ||
    file.sha256.utf8ByteSize != 64 || !(Json.utf8 file.sha256).all isAsciiHexdigit

/-- The loop of `validate`. -/
def validateFiles (paths : List String) (total : Nat) : List SkillFile → Except Fault Unit
  | [] => .ok ()
  | file :: files =>
    if refused paths file then .error invalid
    else if total + file.size > MAX_BYTES then .error invalid
    else validateFiles (file.path :: paths) (total + file.size) files

def validate (sha256 : List UInt8 → String) (digest : String) (files : List SkillFile) : Except Fault Unit :=
  if files.isEmpty || files.length > 500 || !files.any (fun f => f.path = "SKILL.md") then .error invalid
  else if digest ≠ sha256 (toVec files) then .error invalid
  else validateFiles [] 0 files

/-- One file below `root`, as it should be. -/
def verifyFile (host : Host) (v : Disk) (root : List (PathPart String)) (file : SkillFile) : Except Fault Unit :=
  let path := root ++ rawParts file.path
  match lstat v host.links host.root path with
  | none => .error (fault "SKILL_INTEGRITY" "skill file missing")
  | some (.file bytes _) =>
    if bytes.length ≠ file.size then .error (fault "SKILL_INTEGRITY" "skill file changed")
    else match resolve v host.links host.root path, resolve v host.links host.root root with
      | none, _ => .error (fault "SKILL_INTEGRITY" "invalid skill file")
      | _, none => .error (fault "SKILL_INTEGRITY" "invalid skill root")
      | some canonical, some root =>
        if ¬ root <+: canonical then .error (fault "SKILL_INTEGRITY" "skill path escapes its directory")
        else match get v canonical with
          | some (.file bytes _) =>
            if host.sha256 (bytes.take (MAX_BYTES + 1)) ≠ file.sha256 then
              .error (fault "SKILL_INTEGRITY" "skill checksum mismatch")
            else .ok ()
          | _ => .error (fault "SKILL_IO" "cannot read skill resource")
  | some _ => .error (fault "SKILL_INTEGRITY" "skill file changed")

def verify (host : Host) (v : Disk) (root : List (PathPart String)) (files : List SkillFile) : Except Fault Unit :=
  files.forM (verifyFile host v root)

-- ---------------------------------------------------------------------------
-- Directories of the service
-- ---------------------------------------------------------------------------

/-- `paths::private`. -/
def makePrivate (host : Host) (path : List String) : M Unit := do
  let (made, v) := makeAll (← MonadState.get) host.links 0o700 host.root path
  set v
  unless made do throw (fault "IO_ERROR" "cannot create private service directory")
  match (locate v host.links host.root (names path)).bind fun p => (get v p).map fun node => (p, node) with
  | none => throw (fault "IO_ERROR" "cannot inspect service directory")
  | some (p, .directory mode) =>
    unless host.owned p && mode &&& 0o077 = 0 do
      throw (fault "INSECURE_PATH" "service directory must be private and owned by the SSH user")
  | some _ => throw (fault "INSECURE_PATH" "service directory must be private and owned by the SSH user")

/-- An upload that was abandoned. -/
def expired (host : Host) (v : Disk) (p : List String) : Bool := host.old p && isDirectory v p

/-- The names in the staging directory, of which the expired ones are removed. The others are counted. -/
def sweep (host : Host) (staging : List String) (v : Disk) : List String → Nat × Disk
  | [] => (0, v)
  | n :: ns =>
    if expired host v (staging ++ [n]) then sweep host staging (prune v (staging ++ [n])) ns
    else
      let (active, w) := sweep host staging v ns
      (active + 1, w)

/-- The components that are names. -/
def normalNames (path : String) : List String :=
  (pathComponents path).filterMap fun
    | .normal name => some name
    | _ => none

inductive Prepared
  | ready (path : List (PathPart String))
  | pending (stage : String) (path : List (PathPart String))
  deriving DecidableEq, Repr

/-- `stage` is the new identity. -/
def prepare (host : Host) (stage digest : String) (files : List SkillFile) : M Prepared := do
  validate host.sha256 digest files
  makePrivate host ["skills"]
  let target := names ["skills"] ++ rawParts digest
  if (stat (← MonadState.get) host.links host.root target).isSome then
    verify host (← MonadState.get) target files
    return .ready target
  makePrivate host ["skill-staging"]
  match resolve (← MonadState.get) host.links host.root (names ["skill-staging"]) with
  | none => throw (fault "SKILL_IO" "cannot inspect skill staging")
  | some staging =>
    let v ← MonadState.get
    let (active, v) := sweep host staging v (children v staging)
    set v
    if active ≥ 32 then throw (fault "SKILL_CAPACITY" "too many pending skill uploads")
  let directory := ["skill-staging", stage]
  makePrivate host directory
  let assets := directory ++ ["assets"]
  makePrivate host assets
  files.forM fun file => makePrivate host (assets ++ (normalNames file.path).dropLast)
  match write (← MonadState.get) host.links host.root (names directory) "manifest.json" (toVec files) host.fileMode with
  | none => throw (fault "SKILL_IO" "cannot persist skill manifest")
  | some v => set v
  return .pending stage (names assets)

def setPermissions (host : Host) (assets : List (PathPart String)) (file : SkillFile) : M Unit := do
  match setMode (← MonadState.get) host.links host.root (assets ++ rawParts file.path)
    (if file.executable then 0o700 else 0o600) with
  | none => throw (fault "SKILL_IO" "cannot set skill permissions")
  | some v => set v

/-- What a file holds. Links are followed. -/
def readFile (v : Disk) (links : Nat) (place : List String) (path : List (PathPart String)) : Option (List UInt8) :=
  match stat v links place path with
  | some (.file bytes _) => some bytes
  | _ => none

/-- Up to the point where the files are made public. -/
def checkStage (host : Host) (directory : List (PathPart String)) (digest : String) : M (List SkillFile) := do
  match readFile (← MonadState.get) host.links host.root (directory ++ names ["manifest.json"]) with
  | none => throw (fault "SKILL_IO" "skill stage unavailable")
  | some bytes =>
    if bytes.length > 256 * 1024 then throw (fault "SKILL_MANIFEST" "skill manifest too large")
    match host.fromSlice bytes with
    | none => throw (fault "SKILL_MANIFEST" "invalid skill manifest")
    | some files =>
      validate host.sha256 digest files
      verify host (← MonadState.get) (directory ++ names ["assets"]) files
      return files

def commit (host : Host) (stage digest : String) : M (List (PathPart String)) := do
  unless parseUuid stage do throw (fault "SKILL_MANIFEST" "invalid skill stage")
  let directory := names ["skill-staging"] ++ rawParts stage
  let files ← checkStage host directory digest
  let assets := directory ++ names ["assets"]
  files.forM (setPermissions host assets)
  let target := names ["skills"] ++ rawParts digest
  match rename (← MonadState.get) host.links host.root assets target with
  | some v => set v
  | none =>
    if (stat (← MonadState.get) host.links host.root target).isSome then verify host (← MonadState.get) target files
    else throw (fault "SKILL_IO" "cannot publish skill resources")
  modify fun v => removeAll v host.links host.root directory
  return target

-- ---------------------------------------------------------------------------
-- Running
-- ---------------------------------------------------------------------------

variable {α β : Type} {x : M α} {f : α → M β} {v w : Disk}

theorem run_bind (x : M α) (f : α → M β) (v : Disk) :
    (x >>= f) v = match x v with | (.ok a, w) => f a w | (.error e, w) => (.error e, w) := by
  show ExceptT.bindCont f (x v).1 (x v).2 = _
  cases x v with
  | mk r w => cases r <;> rfl

theorem bind_ok {a : α} (h : x v = (.ok a, w)) : (x >>= f) v = f a w := by rw [run_bind, h]

theorem bind_error {e : Fault} (h : x v = (.error e, w)) : (x >>= f) v = (.error e, w) := by rw [run_bind, h]

@[simp] theorem run_get (v : Disk) : (MonadState.get : M Disk) v = (.ok v, v) := rfl

@[simp] theorem run_set (v w : Disk) : (set w : M PUnit) v = (.ok ⟨⟩, w) := rfl

@[simp] theorem run_modify (g : Disk → Disk) (v : Disk) : (modify g : M PUnit) v = (.ok ⟨⟩, g v) := rfl

@[simp] theorem run_throw (e : Fault) (v : Disk) : (throw e : M α) v = (.error e, v) := rfl

@[simp] theorem run_pure (a : α) (v : Disk) : (pure a : M α) v = (.ok a, v) := rfl

@[simp] theorem run_lift (r : Except Fault α) (v : Disk) : (liftM r : M α) v = (r, v) := by cases r <;> rfl

end RemoteCodex.Skills
