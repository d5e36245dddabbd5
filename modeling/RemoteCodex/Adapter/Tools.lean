import RemoteCodex.Protocol.Value
import RemoteCodex.Config.Value

/-!
# Tool items

What is shown of a native item that used a tool, in live notifications and in
histories. `pretty` is the crate's printer with indentation, and `parseUrl` the
crate that reads addresses.
-/

namespace RemoteCodex.Adapter.Tools

open Protocol
open Config (isWhitespace)

structure ToolLink where
  title : String
  url : String
  description : Option String
  deriving DecidableEq, Repr

structure FileChange where
  path : String
  diff : String
  deriving DecidableEq, Repr

/-- Locates a persisted item within a page of the native history. -/
structure ToolOutputSource where
  session : String
  turn : String
  cursor : Option String
  item : String
  deriving DecidableEq, Repr

structure ToolItem where
  id : String
  kind : String
  title : String := ""
  output : String := ""
  outputSource : Option ToolOutputSource := none
  status : String
  changes : List FileChange := []
  input : Option String := none
  links : List ToolLink := []
  deriving DecidableEq, Repr

def text (v : Value) (key : String) : String := (v.index key).asStr.getD ""

def array (v : Value) : List Value := v.asArray.getD []

/-- `s.trim().is_empty()`. -/
def blank (s : String) : Bool := s.toList.all isWhitespace

def joined (parts : List String) (separator : String) : String :=
  separator.intercalate (parts.filter fun s => !blank s)

variable (pretty : Value → String)

def formatted (v : Value) : String := if v.isNull then "" else v.asStr.getD (pretty v)

def content (v : Value) : String :=
  joined ((array v).map fun part =>
    match part.asStr.or (part.index "text").asStr with
    | some text => text
    | none =>
      let type := text part "type"
      if type = "image" ∨ type = "inputImage" then "Image result (preview unavailable)."
      else if type = "audio" ∨ type = "inputAudio" then "Audio result (preview unavailable)."
      else if type = "resource" then
        ((part.index "resource").index "text").asStr.getD "Resource result (preview unavailable)."
      else formatted pretty part) "\n\n"

/-- What is asked of an address. -/
structure Url where
  scheme : String
  username : String
  password : Option String
  deriving DecidableEq, Repr

variable (parseUrl : String → Option Url)

def link (url title : String) (description : Option String) : Option ToolLink := do
  let parsed ← parseUrl url
  if !(["http", "https"].contains parsed.scheme) || parsed.username ≠ "" || parsed.password.isSome then none
  else some { title, url, description := description.filter (· ≠ "") }

/-- The queries of a search, the only one where there is no list of them. -/
def queries (value action : Value) : List String :=
  let listed := ((array (action.index "queries")).filterMap Value.asStr).filter fun q => !blank q
  if listed.isEmpty then
    let query := ((action.index "query").asStr.filter fun q => !blank q).getD (text value "query")
    if blank query then [] else [query]
  else listed

/-- The item and its input. -/
def webSearch (value : Value) (item : ToolItem) : ToolItem × String :=
  let action := value.index "action"
  let queries := queries value action
  let (label, target, input) :=
    if text action "type" = "openPage" then ("Open webpage", text action "url", "")
    else if text action "type" = "findInPage" then ("Find in page", text action "pattern", text action "pattern")
    else ("Search the web", queries.headD "", "\n".intercalate queries)
  let results := (array (value.index "results")).map fun result =>
    let url := text result "url"
    let title := ((result.index "title").asStr.filter (· ≠ "")).getD url
    let description := (result.index "snippet").asStr.or (result.index "description").asStr
    (link parseUrl url title description, formatted pretty result)
  let links := (link parseUrl (text action "url") (text action "url") none).toList ++ results.filterMap Prod.fst
  let other := results.filterMap fun (link, result) => if link.isSome then none else some result
  ({ item with title := joined [label, target] " · ", links, output := joined other "\n\n" },
    if input = "" && links.isEmpty then "\n".intercalate queries else input)

def command (value : Value) (item : ToolItem) : ToolItem × String :=
  let title := text value "command"
  let directory := match (value.index "cwd").asStr.filter (· ≠ "") with
    | some cwd => "\n\nDirectory: " ++ cwd
    | none => ""
  let exit := match (value.index "exitCode").asI64 with
    | some code => "\nExit code: " ++ toString code
    | none => ""
  ({ item with title, output := text value "aggregatedOutput" }, title ++ directory ++ exit)

def fileChange (value : Value) (item : ToolItem) : ToolItem × String :=
  let changes := (array (value.index "changes")).map fun c => FileChange.mk (text c "path") (text c "diff")
  let title := match changes.length with
    | 0 => "File changes"
    | 1 => "File changes · 1 file"
    | count => "File changes · " ++ toString count ++ " files"
  ({ item with changes, title }, "")

/-- A call of an MCP server's tool, or of one of a namespace. -/
def call (value : Value) (item : ToolItem) : ToolItem × String :=
  let mcp := item.kind = "mcpToolCall"
  let result := value.index "result"
  let output :=
    if mcp then joined [content pretty (result.index "content"), formatted pretty (result.index "structuredContent")] "\n\n"
    else content pretty (value.index "contentItems")
  let error := value.index "error"
  let output :=
    if error.isNull then output
    else joined [output, "Error: " ++ (error.index "message").asStr.getD (formatted pretty error)] "\n\n"
  ({ item with title := joined [text value (if mcp then "server" else "namespace"), text value "tool"] " · ", output },
    formatted pretty (value.index "arguments"))

def project (value : Value) : Option ToolItem :=
  (value.index "type").asStr.bind fun kind =>
    let item : ToolItem := { id := text value "id", kind, status := text value "status" }
    let projected :=
      if kind = "commandExecution" then some (command value item)
      else if kind = "fileChange" then some (fileChange value item)
      else if kind = "reasoning" then
        some ({ item with title := "Reasoning summary", output := content pretty (value.index "summary") }, "")
      else if kind = "mcpToolCall" ∨ kind = "dynamicToolCall" then some (call pretty value item)
      else if kind = "webSearch" then some (webSearch pretty parseUrl value item)
      else none
    projected.map fun (item, input) => { item with input := if blank input then none else some input }

end RemoteCodex.Adapter.Tools
