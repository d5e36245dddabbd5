import Mathlib.Data.List.AList

/-!
# A directory tree

Nodes are kept by their path from the root of the tree, which is a directory
itself. A node carries what `stat` reports of it and, for a regular file, its
bytes. `now`, `inode` and `held` are the surroundings: the time a change is
stamped with, the next inode number, and the lock files other processes hold.
-/

namespace RemoteCodex.Files

abbrev Path := List String

abbrev Bytes := List UInt8

/-- `size` is what the system reports for a node that is no regular file. -/
structure Attr where
  device : Nat
  inode : Nat
  mode : Nat
  seconds : Int
  nanos : Nat
  size : Nat
  deriving DecidableEq, Repr

inductive Body
  | file (bytes : Bytes)
  | directory
  | symlink
  | special
  deriving DecidableEq, Repr

structure Node where
  attr : Attr
  body : Body
  deriving DecidableEq, Repr

def Node.isFile (n : Node) : Bool := n.body matches .file _

def Node.isDirectory (n : Node) : Bool := n.body matches .directory

def Node.length (n : Node) : Nat :=
  match n.body with
  | .file bytes => bytes.length
  | _ => n.attr.size

structure Disk where
  nodes : AList (fun _ : Path => Node)
  device : Nat
  inode : Nat
  now : Int × Nat
  held : List Path
  deriving DecidableEq

namespace Disk

def get (d : Disk) (p : Path) : Option Node := d.nodes.lookup p

def put (d : Disk) (p : Path) (n : Node) : Disk := { d with nodes := d.nodes.insert p n }

def remove (d : Disk) (p : Path) : Disk := { d with nodes := d.nodes.erase p }

theorem get_put (d : Disk) (p q : Path) (n : Node) :
    (d.put p n).get q = if q = p then some n else d.get q := by
  unfold get put
  split
  · next h => rw [h, AList.lookup_insert]
  · next h => exact AList.lookup_insert_ne h

theorem get_remove (d : Disk) (p q : Path) :
    (d.remove p).get q = if q = p then none else d.get q := by
  unfold get remove
  split
  · next h => rw [h, AList.lookup_erase]
  · next h => exact AList.lookup_erase_ne h

@[simp] theorem held_put (d : Disk) (p : Path) (n : Node) : (d.put p n).held = d.held := rfl

@[simp] theorem held_remove (d : Disk) (p : Path) : (d.remove p).held = d.held := rfl

def isDirectory (d : Disk) (p : Path) : Bool := (d.get p).any (·.isDirectory)

/-- The bytes of the regular file at `p`. -/
def file? (d : Disk) (p : Path) : Option Bytes :=
  (d.get p).bind fun n => match n.body with | .file bytes => some bytes | _ => none

theorem file?_eq_some {d : Disk} {p : Path} {b : Bytes} :
    d.file? p = some b ↔ ∃ a, d.get p = some ⟨a, .file b⟩ := by
  unfold file?
  cases h : d.get p with
  | none => simp
  | some n =>
    obtain ⟨a, body⟩ := n
    cases body <;> simp

/-- The paths of the nodes below `p`. -/
def below (d : Disk) (p : Path) : List Path :=
  d.nodes.keys.filter fun q => decide (p <+: q ∧ q ≠ p)

theorem mem_below {d : Disk} {p q : Path} :
    q ∈ d.below p ↔ p <+: q ∧ q ≠ p ∧ (d.get q).isSome := by
  have hk : q ∈ d.nodes.keys ↔ (d.get q).isSome := by
    rw [get, AList.lookup_isSome, AList.mem_keys]
  simp only [below, List.mem_filter, hk, decide_eq_true_eq]
  tauto

/-- What a node made now is stamped with. -/
def fresh (d : Disk) (mode : Nat) : Attr :=
  ⟨d.device, d.inode, mode, d.now.1, d.now.2, 0⟩

/-- A new node at `p`. -/
def create (d : Disk) (p : Path) (mode : Nat) (body : Body) : Disk :=
  { d.put p ⟨d.fresh mode, body⟩ with inode := d.inode + 1 }

theorem get_create (d : Disk) (p q : Path) (mode : Nat) (body : Body) :
    (d.create p mode body).get q = if q = p then some ⟨d.fresh mode, body⟩ else d.get q :=
  d.get_put p q _

@[simp] theorem held_create (d : Disk) (p : Path) (mode : Nat) (body : Body) :
    (d.create p mode body).held = d.held := rfl

/-- New bytes for the file at `p`, which is modified now. -/
def store (d : Disk) (p : Path) (n : Node) (bytes : Bytes) : Disk :=
  d.put p ⟨{ n.attr with seconds := d.now.1, nanos := d.now.2 }, .file bytes⟩

end Disk

/-- `bytes` written over `old` from `offset` on; a gap is filled with zeros. -/
def splice (old : Bytes) (offset : Nat) (bytes : Bytes) : Bytes :=
  old.take offset ++ List.replicate (offset - old.length) 0 ++ bytes ++
    old.drop (offset + bytes.length)

/-- `old` cut, or filled up with zeros, to `length`. -/
def resize (old : Bytes) (length : Nat) : Bytes :=
  old.take length ++ List.replicate (length - old.length) 0

theorem splice_of_le {old bytes : Bytes} (h : offset ≤ old.length) :
    splice old offset bytes = old.take offset ++ bytes ++ old.drop (offset + bytes.length) := by
  simp [splice, Nat.sub_eq_zero_of_le h]

theorem splice_nil (bytes : Bytes) : splice [] 0 bytes = bytes := by simp [splice]

theorem length_splice {old bytes : Bytes} (h : offset ≤ old.length) :
    (splice old offset bytes).length = max old.length (offset + bytes.length) := by
  simp [splice_of_le h]
  omega

theorem take_splice {old bytes : Bytes} (h : offset ≤ old.length) :
    (splice old offset bytes).take offset = old.take offset := by
  simp [splice_of_le h, Nat.min_eq_left h]

theorem resize_of_le {old : Bytes} (h : length ≤ old.length) :
    resize old length = old.take length := by
  simp [resize, Nat.sub_eq_zero_of_le h]

end RemoteCodex.Files
