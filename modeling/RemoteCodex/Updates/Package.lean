import RemoteCodex.Transfer.Parts

/-!
# Update packages

`package::extract`: the entries of an archive are checked and unpacked one
after the other into a staging directory, and at the end each link of the
archive has to resolve inside the component. `tar`'s `Entry::unpack_in` is a
parameter. Places are below the staging directory's own.
-/

namespace RemoteCodex.Updates

open Files.Links
open Transfer (Component Fault fault pathComponents rawParts)

/-- `UpdateComponent`. -/
inductive UpdateComponent
  | cli | app
  deriving DecidableEq, Repr

def UpdateComponent.expected : UpdateComponent → String
  | .cli => "remote-codex"
  | .app => "Remote Codex.app"

/-- `tar::EntryType`. -/
inductive EntryType
  | regular | directory | symlink | link
  | other (byte : UInt8)
  deriving DecidableEq, Repr

def EntryType.supported : EntryType → Bool
  | .regular | .directory | .symlink => true
  | _ => false

/-- What the source and `unpack_in` read of an entry. -/
structure Entry where
  path : String
  kind : EntryType
  linkName : Option String := none
  size : Nat := 0
  mode : Nat := 0o755
  content : List UInt8 := []

abbrev Disk := Volume String

/-- `Entry::unpack_in`. -/
abbrev UnpackIn := Disk → List String → Entry → Except Fault Bool × Disk

def unsafePath : Fault := fault "UPDATE_ARCHIVE" "An update package contains an unsafe path."

def unsupported : Fault := fault "UPDATE_ARCHIVE" "An update package contains an unsupported entry."

def unsafeLink : Fault := fault "UPDATE_ARCHIVE" "An update package contains an unsafe link."

def refused : Fault := fault "UPDATE_ARCHIVE" "The update package cannot be safely extracted."

def rootLink : Fault := fault "UPDATE_ARCHIVE" "The update root must not be a link."

def linkOutside : Fault := fault "UPDATE_ARCHIVE" "An update link resolves outside its component."

def ioError (text : String) : Fault := fault "IO_ERROR" text

def linkTarget (link : String) : Target String := ⟨link.toList.head? == some '/', rawParts link⟩

/-- A path's components without `CurDir`. -/
def Entry.parts (e : Entry) : List Component := (pathComponents e.path).filter (· ≠ .curDir)

def Component.isNormal : Component → Bool
  | .normal _ => true
  | _ => false

/-- The loop over a link's components. -/
def linkDepth : Nat → List Component → Option Nat
  | depth, [] => some depth
  | depth, .normal _ :: rest => linkDepth (depth + 1) rest
  | depth, .curDir :: rest => linkDepth depth rest
  | depth, .parentDir :: rest => if 1 < depth then linkDepth (depth - 1) rest else none
  | _, .rootDir :: _ => none

/-- What an entry is refused for before anything of it is written. -/
def check (expected : String) (e : Entry) : Except Fault Unit :=
  if e.parts.head? ≠ some (.normal expected) || e.parts.any (!Component.isNormal ·) then .error unsafePath
  else if !e.kind.supported then .error unsupported
  else if e.linkName.any fun link => (linkDepth (e.parts.length - 1) (pathComponents link)).isNone then
    .error unsafeLink
  else .ok ()

def maxSize : Nat := 2 * 1024 * 1024 * 1024

def u64Max : Nat := 2 ^ 64 - 1

/-- The loop of `extract`, which collects the paths of the entries with a link. -/
def extractEntries (unpackIn : UnpackIn) (directory : List String) (expected : String) :
    Disk → List String → Nat → List (Except Fault Entry) → Except Fault (List String) × Disk
  | v, links, _, [] => (.ok links, v)
  | v, _, _, .error error :: _ => (.error error, v)
  | v, links, size, .ok e :: rest =>
    match check expected e with
    | .error error => (.error error, v)
    | .ok () =>
      if maxSize < min (size + e.size) u64Max then (.error refused, v)
      else
        match unpackIn v directory e with
        | (.error error, w) => (.error error, w)
        | (.ok false, w) => (.error refused, w)
        | (.ok true, w) =>
          extractEntries unpackIn directory expected w (if e.linkName.isSome then links ++ [e.path] else links)
            (min (size + e.size) u64Max) rest

/-- `canonicalize` of a path joined to the directory. -/
def canonicalize (linkLimit : Nat) (v : Disk) (directory : List String) (path : String) : Except Fault (List String) :=
  match resolve v linkLimit directory (rawParts path) with
  | some p => .ok p
  | none => .error (ioError "The path does not resolve.")

def checkLinks (linkLimit : Nat) (v : Disk) (directory canonical : List String) : List String → Except Fault Unit
  | [] => .ok ()
  | link :: rest => do
    let p ← canonicalize linkLimit v directory link
    if canonical.isPrefixOf p then checkLinks linkLimit v directory canonical rest else throw linkOutside

/-- What `extract` looks at when everything is unpacked. -/
def finish (linkLimit : Nat) (v : Disk) (directory : List String) (expected : String) (links : List String) :
    Except Fault (List String) :=
  match get v (directory ++ [expected]) with
  | none => .error (ioError "No such file or directory.")
  | some (.symlink _) => .error rootLink
  | some _ => do
    let canonical ← canonicalize linkLimit v directory expected
    checkLinks linkLimit v directory canonical links
    pure (directory ++ [expected])

def extract (unpackIn : UnpackIn) (linkLimit : Nat) (v : Disk) (directory : List String) (kind : UpdateComponent)
    (archive : List (Except Fault Entry)) : Except Fault (List String) × Disk :=
  match extractEntries unpackIn directory kind.expected v [] 0 archive with
  | (.error error, w) => (.error error, w)
  | (.ok links, w) => (finish linkLimit w directory kind.expected links, w)

end RemoteCodex.Updates
