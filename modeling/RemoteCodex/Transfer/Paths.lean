import RemoteCodex.Transfer.Protocol

/-!
# Paths inside the transfer root

`components` accepts plain relative names only; `openDirectory` (the source's
`Endpoint::directory`) and `parent` open every directory on the way, so a link
or a missing name ends the walk.
-/

namespace RemoteCodex.Transfer

open Files Interact

/-- `std::path::Component`. -/
inductive Component
  | rootDir | curDir | parentDir
  | normal (name : String)
  deriving DecidableEq, Repr

/-- `Path::components`: empty parts and `.` are skipped, but for a `.` a
relative path starts with. -/
def pathComponents (path : String) : List Component :=
  match path.toList.splitOn '/' with
  | [] => []
  | first :: rest =>
    let head := match first with
      | [] => if rest.isEmpty then [] else [.rootDir]
      | ['.'] => [.curDir]
      | ['.', '.'] => [.parentDir]
      | cs => [.normal (String.ofList cs)]
    head ++ rest.filterMap fun
      | [] | ['.'] => none
      | ['.', '.'] => some .parentDir
      | cs => some (.normal (String.ofList cs))

def Component.name : Component → Except Fault String
  | .normal name => .ok name
  | _ => .error (fault "TRANSFER_PATH" "Transfer path escapes the selected directory.")

def components (path : String) : Except Fault (List String) :=
  if path.toList.contains '\x00' || path.utf8ByteSize > 4096 then
    .error (fault "TRANSFER_PATH" "Invalid transfer path.")
  else (pathComponents path).mapM Component.name

def directory (dir : Path) (name : String) : M Path := do
  orIo (← sys (.openDirectory (dir ++ [name])))
  pure (dir ++ [name])

def file (path : Path) (flags : Flags) : M Unit := do
  let regular ← orIo (← sys (.openFile path flags))
  ensure regular (fault "TRANSFER_TYPE" "Only regular files can be transferred.")

/-- Opens one directory after the other. -/
def walk : Path → List String → M Path
  | dir, [] => pure dir
  | dir, name :: names => do walk (← directory dir name) names

def openDirectory (path : String) : M Path := do
  walk [] (← ofExcept (components path))

/-- `Endpoint::parent`: the opened directory and the last name. -/
def parent (path : String) : M (Path × String) := do
  let parts ← ofExcept (components path)
  match parts.getLast? with
  | none => throw (fault "TRANSFER_PATH" "A file name is required.")
  | some name => do
    let dir ← walk [] parts.dropLast
    pure (dir, name)

end RemoteCodex.Transfer
