import RemoteCodex.Interact.Table
import RemoteCodex.Transfer.Paths
import RemoteCodex.Wire.Json

/-!
# The workspace an editor sees

A directory is a table of names, and a regular file a number with its bytes,
so that two names may stand for one file. An open directory is known by its
number wherever it is moved to. How a path of several names is walked and
where a link leads are the platform's: the endpoint opens everything through a
capability that stays inside the workspace.
-/

namespace RemoteCodex.Editor

open Interact Transfer
open Files (Bytes)

inductive Entry
  | file (inode : Nat)
  | directory (id : Nat)
  | symlink (target : String)
  | special
  deriving DecidableEq, Repr

structure Volume where
  entries : Table (Nat × String) Entry := ∅
  files : Table Nat Bytes := ∅
  deriving DecidableEq

namespace Volume

def entry (v : Volume) (dir : Nat) (name : String) : Option Entry := v.entries.lookup (dir, name)

def bytes (v : Volume) (inode : Nat) : Bytes := (v.files.lookup inode).getD []

def setEntry (v : Volume) (dir : Nat) (name : String) (e : Entry) : Volume :=
  { v with entries := v.entries.insert (dir, name) e }

def removeEntry (v : Volume) (dir : Nat) (name : String) : Volume :=
  { v with entries := v.entries.erase (dir, name) }

def setBytes (v : Volume) (inode : Nat) (bytes : Bytes) : Volume := { v with files := v.files.insert inode bytes }

/-- The bytes of a regular file. -/
def content (v : Volume) : Entry → Bytes
  | .file inode => v.bytes inode
  | _ => []

/-- What stands under a name, with its bytes. -/
def look (v : Volume) (dir : Nat) (name : String) : Option (Entry × Bytes) :=
  (v.entry dir name).map fun e => (e, v.content e)

/-- `unlink`; it leaves a directory alone. -/
def removeFile (v : Volume) (dir : Nat) (name : String) : Volume :=
  match v.entry dir name with
  | some (.directory _) => v
  | _ => v.removeEntry dir name

/-- `rename` of what is no directory. Two names of one file stay as they are. -/
def rename (v : Volume) (dir : Nat) (source target : String) : Option Volume :=
  match v.entry dir source, v.entry dir target with
  | none, _ => none
  | _, some (.directory _) => none
  | some (.file i), some (.file j) =>
    some (if i = j then v else (v.removeEntry dir source).setEntry dir target (.file i))
  | some e, _ => some ((v.removeEntry dir source).setEntry dir target e)

/-- `link`. -/
def hardLink (v : Volume) (dir : Nat) (source target : String) : Option Volume :=
  match v.entry dir source, v.entry dir target with
  | some (.directory _), _ => none
  | some e, none => some (v.setEntry dir target e)
  | _, _ => none

/-- The number of a file or a directory that is made now. -/
def Unused (v : Volume) (number : Nat) : Prop :=
  v.files.lookup number = none ∧ Entry.file number ∉ v.entries.values ∧ Entry.directory number ∉ v.entries.values ∧
    ∀ k ∈ v.entries.keys, k.1 ≠ number

instance (v : Volume) (number : Nat) : Decidable (v.Unused number) := inferInstanceAs (Decidable (_ ∧ _))

end Volume

/-- `cap_std` and the system below it: the directory a path from an open one
leads to, the path without its links, and what stands at the end of a link; and
`sha2`, with the digest in hexadecimal. -/
structure Platform where
  ambient : Volume → String → Option Nat
  directory : Volume → Nat → List String → Option Nat
  canonicalize : Volume → Nat → List String → Option (List String)
  follow : Volume → Nat → String → Option Entry
  digest : Bytes → String

/-- The calls of one request, any of which may fail. -/
inductive Call
  | openWorkspace
  | symlinkMetadata (name : String)
  | canonicalize
  | openDirectory
  | openTarget
  | open (name : String)
  | stat (name : String)
  | read (name : String)
  | create
  | metadata
  | setPermissions
  | write
  | syncFile
  | hardLink
  | rename
  | reopen
  | syncDirectory
  | remove
  | createDirectory
  | drop (token : String)
  deriving DecidableEq, Repr

/-- What the surroundings decide while a request is carried out: the calls that
fail although the volume allows them, what a write that fails has written, the
identities and the number that are drawn, and the time. -/
structure Chance where
  fails : Call → Bool := fun _ => false
  written : Nat := 0
  token : String := ""
  uuid : String := ""
  number : Nat := 0
  now : Nat := 0

def MAX_TEXT_FILE : Nat := 4 * 1024 * 1024

def FILE_CHUNK : Nat := 128 * 1024

/-- `char::is_control`. -/
def isControl (c : Char) : Bool := c.toNat < 32 || (127 ≤ c.toNat && c.toNat < 160)

def orFault (o : Option α) (code message : String) : Except Fault α :=
  match o with
  | some a => .ok a
  | none => .error (fault code message)

def demand (b : Bool) (f : Fault) : Except Fault Unit := if b then .ok () else .error f

/-- The names of a path inside the workspace; a `.` it starts with is skipped. -/
def relative (path : String) (allowRoot : Bool) : Except Fault (List String) := do
  let parts := pathComponents path
  demand (!(parts.head? = some .rootDir || parts.contains .parentDir || path.toList.any isControl ||
    (!allowRoot && (parts = [] || parts = [.curDir]))))
    (fault "INVALID_FILE_PATH" "Choose a path inside this workspace.")
  pure (parts.filterMap fun | .normal name => some name | _ => none)

namespace Platform

variable (p : Platform) (c : Chance) (v : Volume)

/-- `Dir::open_dir`; a directory's own path is `.`. -/
def openDir (dir : Nat) (path : List String) : Option Nat := if path = [] then some dir else p.directory v dir path

/-- The directory of a name at the end of a path. -/
def locate (dir : Nat) (path : List String) : Option (Nat × String) :=
  (p.openDir v dir path.dropLast).bind fun parent => path.getLast?.map fun name => (parent, name)

/-- `symlink_metadata`. -/
def inspect (dir : Nat) (path : List String) : Option Entry :=
  if path = [] then some (.directory dir) else (p.locate v dir path).bind fun (parent, name) => v.entry parent name

/-- What opening a name leads to. -/
def resolve (dir : Nat) (name : String) : Option Entry :=
  match v.entry dir name with
  | some (.symlink target) => p.follow v dir target
  | e => e

/-- `io::read`, in an open directory. -/
def read (dir : Nat) (name : String) : Except Fault (Bytes × String) := do
  demand (!c.fails (.open name)) (fault "FILE_READ" "Cannot open this workspace file.")
  let opened ← orFault (p.resolve v dir name) "FILE_READ" "Cannot open this workspace file."
  demand (!c.fails (.stat name)) (fault "FILE_READ" "Cannot inspect this file.")
  match opened with
  | .file inode =>
    demand ((v.bytes inode).length ≤ MAX_TEXT_FILE)
      (fault "FILE_TOO_LARGE" "The editor supports regular UTF-8 files up to 4 MiB.")
    demand (!c.fails (.read name)) (fault "FILE_READ" "Cannot read this file.")
    pure (v.bytes inode, p.digest (v.bytes inode))
  | _ => throw (fault "FILE_TOO_LARGE" "The editor supports regular UTF-8 files up to 4 MiB.")

/-- `io::revision`. -/
def revision (dir : Nat) (name : String) : Except Fault (Option String) := do
  demand (!c.fails (.symlinkMetadata name)) (fault "FILE_READ" "Cannot inspect the destination file.")
  match v.entry dir name with
  | none => pure none
  | some _ => do
    let (_, revision) ← p.read c v dir name
    pure (some revision)

end Platform

end RemoteCodex.Editor
