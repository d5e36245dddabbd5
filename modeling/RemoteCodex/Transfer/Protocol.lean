import RemoteCodex.Files.System

/-!
# The transfer protocol

Commands, replies and stamps as `protocol::transfer` declares them. Sizes,
times and inode numbers are 64-bit in the source; they are numbers here, and
`Inspect.stamp` says where the source wraps or saturates.
-/

namespace RemoteCodex.Transfer

open Files

def CHUNK : Nat := 256 * 1024

inductive Kind
  | file | directory | unsupported
  deriving DecidableEq, Repr

structure Stamp where
  kind : Kind
  length : Nat
  modifiedNs : Nat
  device : Nat
  inode : Nat
  mode : Nat
  deriving DecidableEq, Repr

structure Entry where
  name : String
  stamp : Stamp
  deriving DecidableEq, Repr

structure Page where
  entries : List Entry
  after : Option String
  deriving DecidableEq, Repr

inductive Command
  | stat (path : String)
  | list (path : String) (after : Option String)
  | read (path : String) (stamp : Stamp) (offset : Nat)
  | hash (path : String) (stamp : Stamp)
  | prepare (path token : String) (source : Stamp) (expected : Option Stamp)
  | write (path token : String) (offset : Nat) (digest : String)
  | commit (path token digest : String)
  | cancel (path token : String)
  | directory (path : String)
  | metadata (path : String) (stamp : Stamp)
  deriving DecidableEq, Repr

inductive Reply
  | stat (stamp : Option Stamp)
  | list (page : Page)
  | ready (offset : Nat) (complete : Bool)
  | data (digest : String)
  | hash (digest : String)
  | done
  deriving DecidableEq, Repr

structure Fault where
  code : String
  message : String
  outcomeUnknown : Bool := false
  deriving DecidableEq, Repr

def fault (code message : String) : Fault := { code, message }

def io (error : String) : Fault := fault "TRANSFER_IO" error

/-- What an endpoint command does: system calls, and a fault or a result. -/
abbrev M := Interact.Act Op Ans Fault

def sys (op : Op) : M (Ans op) := Interact.request op

def orIo : Except Errno α → M α
  | .ok a => pure a
  | .error e => throw (io e.text)

def ofExcept : Except Fault α → M α
  | .ok a => pure a
  | .error e => throw e

structure Journal where
  owner : String
  path : String
  source : Stamp
  expected : Option Stamp
  offset : Nat
  digest : Option String
  committed : Bool
  deriving DecidableEq, Repr

/-- What the endpoint takes from the crates it links: `sha2` with the digest in
hexadecimal, `uuid` as the canonical text of a parsed token, and `serde_json`
for the journal, with the text of its error. -/
structure Crates where
  digest : Bytes → String
  uuid : String → Option String
  toJson : Journal → Bytes
  fromJson : Bytes → Except String Journal

/-- What is documented of `serde_json` here: it reads back what it writes,
finds an object that is cut off unfinished, and writes `true` no longer than
`false`. -/
structure Crates.Lawful (c : Crates) : Prop where
  fromJson_toJson : ∀ j, c.fromJson (c.toJson j) = .ok j
  fromJson_cut : ∀ j n, n < (c.toJson j).length → ∃ e, c.fromJson ((c.toJson j).take n) = .error e
  toJson_committed : ∀ j, (c.toJson { j with committed := true }).length ≤ (c.toJson j).length

structure Endpoint where
  owner : String
  cancelled : Bool
  deriving DecidableEq, Repr

def checkCancelled (e : Endpoint) : M Unit :=
  Interact.ensure (!e.cancelled) (fault "TRANSFER_CANCELLED" "Transfer paused.")

end RemoteCodex.Transfer
