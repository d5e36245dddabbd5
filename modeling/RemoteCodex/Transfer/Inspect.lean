import Mathlib.Data.List.Sort
import RemoteCodex.Transfer.Journal

/-!
# Looking at files

`stat`, `list`, `read`, `hash` and `metadata` of the endpoint. Nothing here
but `metadata` changes the tree.
-/

namespace RemoteCodex.Transfer

open Files Interact

def stampKind (m : Metadata) : Kind :=
  if m.isFile then .file else if m.isDirectory then .directory else .unsupported

/-- `m.mtime() as u64` wraps, the arithmetic after it saturates. -/
def modifiedNs (seconds : Int) (nanos : Nat) : Nat :=
  min (min ((seconds % UInt64.size).toNat * 1000000000) (UInt64.size - 1) + nanos) (UInt64.size - 1)

def stampOf (m : Metadata) : Stamp where
  kind := stampKind m
  length := m.length
  modifiedNs := modifiedNs m.attr.seconds m.attr.nanos
  device := m.attr.device
  inode := m.attr.inode
  mode := m.attr.mode &&& 0o777

def stat (path : String) : M (Option Stamp) := do
  let target ← if path.isEmpty then pure [] else do
    let (dir, name) ← parent path
    pure (dir ++ [name])
  match ← sys (.symlinkMetadata target) with
  | .ok m => pure (some (stampOf m))
  | .error .notFound => pure none
  | .error e => throw (io e.text)

/-- One of the endpoint's own staging directories. -/
def isInternal (c : Crates) (dir : Path) (name : String) : M Bool := do
  match (name.toList.dropPrefix? (stageName "").toList).bind fun id => c.uuid (String.ofList id) with
  | none => pure false
  | some _ => do
    match ← attempt (directory dir name) with
    | .error _ => pure false
    | .ok stage => do
      match ← sys (.symlinkMetadata (stage ++ ["state.json"])) with
      | .ok m => pure m.isFile
      | .error _ => pure false

/-- A `BTreeSet` of at most 101 names. -/
def insertName (name : String) (names : List String) : List String :=
  let names := if names.contains name then names else names.orderedInsert (· ≤ ·) name
  if names.length > 101 then names.dropLast else names

def listNames (c : Crates) (e : Endpoint) (dir : Path) (after : Option String) :
    List String → List String → M (List String)
  | names, [] => pure names
  | names, name :: rest => do
    checkCancelled e
    let internal ← isInternal c dir name
    if internal || after.any (fun a => decide (name ≤ a)) then listNames c e dir after names rest
    else listNames c e dir after (insertName name names) rest

def stampNames (dir : Path) : List String → M (List Entry)
  | [] => pure []
  | name :: names => do
    let m ← orIo (← sys (.symlinkMetadata (dir ++ [name])))
    let entries ← stampNames dir names
    pure ({ name, stamp := stampOf m } :: entries)

/-- Bounded lexicographic page, independent of directory size and platform enumeration order. -/
def list (c : Crates) (e : Endpoint) (path : String) (after : Option String) : M Page := do
  let dir ← openDirectory path
  let entries ← orIo (← sys (.entries dir))
  let names ← listNames c e dir after [] entries
  let more := names.length > 100
  let names := if more then names.dropLast else names
  let entries ← stampNames dir names
  pure { entries, after := if more then names.getLast? else none }

/-- The opened source file, if it is still the one `expected` describes. -/
def source (path : String) (expected : Stamp) : M Path := do
  let (dir, name) ← parent path
  let p := dir ++ [name]
  file p {}
  let m ← orIo (← sys (.symlinkMetadata p))
  ensure (m.length == expected.length && m.attr.inode == expected.inode
      && m.attr.device == expected.device
      && modifiedNs m.attr.seconds m.attr.nanos == expected.modifiedNs)
    (fault "TRANSFER_SOURCE_CHANGED"
      "Source changed. Restart this file to transfer its new contents.")
  pure p

def read (c : Crates) (path : String) (expected : Stamp) (offset : Nat) : M (Reply × Bytes) := do
  ensure (decide (offset ≤ expected.length)) (fault "TRANSFER_OFFSET" "Invalid source offset.")
  let file ← source path expected
  let all ← orIo (← sys (.read file))
  let count := min CHUNK (expected.length - offset)
  let bytes := (all.drop offset).take count
  ensure (bytes.length == count) (io "failed to fill whole buffer")
  let _ ← source path expected
  pure (.data (c.digest bytes), bytes)

def hashFile (c : Crates) (e : Endpoint) (file : Path) : M String := do
  checkCancelled e
  let bytes ← orIo (← sys (.read file))
  pure (c.digest bytes)

def hash (c : Crates) (e : Endpoint) (path : String) (expected : Stamp) : M String := do
  let file ← source path expected
  let result ← hashFile c e file
  let _ ← source path expected
  pure result

/-- Permissions and modification time of an open file or directory. -/
def setMetadata (file : Path) (stamp : Stamp) : M Unit := do
  orIo (← sys (.setPermissions file (stamp.mode &&& 0o777)))
  orIo (← sys (.setModified file (stamp.modifiedNs / 1000000000)
    (stamp.modifiedNs % 1000000000)))
  orIo (← sys (.sync file))

def metadata (path : String) (stamp : Stamp) : M Unit := do
  if stamp.kind = .directory then
    setMetadata (← openDirectory path) stamp
  else do
    let (dir, name) ← parent path
    file (dir ++ [name]) {}
    setMetadata (dir ++ [name]) stamp

end RemoteCodex.Transfer
