import RemoteCodex.Files.Disk
import RemoteCodex.Interact.Guarantee

/-!
# The file system as a machine

The operations are the system calls a program makes on a tree it reaches
through directory handles, so no path below passes through a link: a name is
resolved in a directory that was itself opened, and a link found there is
reported or refused, never followed. A handle is the path it was opened at. A
write that is cut short leaves any prefix of its bytes behind. Calls fail only
for what the tree holds; syncing changes nothing a later call can see.
-/

namespace RemoteCodex.Files

open Interact

inductive Errno
  | notFound | alreadyExists | notDirectory | isDirectory | notEmpty | loop | invalid
  deriving DecidableEq, Repr

/-- The system's own texts. -/
def Errno.text : Errno → String
  | .notFound => "No such file or directory (os error 2)"
  | .alreadyExists => "File exists (os error 17)"
  | .notDirectory => "Not a directory (os error 20)"
  | .isDirectory => "Is a directory (os error 21)"
  | .notEmpty => "Directory not empty (os error 39)"
  | .loop => "Too many levels of symbolic links (os error 40)"
  | .invalid => "Invalid argument (os error 22)"

structure Flags where
  write : Bool := false
  create : Bool := false
  truncate : Bool := false

structure Metadata where
  attr : Attr
  isFile : Bool
  isDirectory : Bool
  length : Nat
  deriving DecidableEq, Repr

def Node.metadata (n : Node) : Metadata := ⟨n.attr, n.isFile, n.isDirectory, n.length⟩

inductive Op
  | openDirectory (path : Path)
  | openFile (path : Path) (flags : Flags)
  | symlinkMetadata (path : Path)
  | entries (path : Path)
  | createDirectory (path : Path)
  | setPermissions (path : Path) (mode : Nat)
  | setModified (path : Path) (seconds : Int) (nanos : Nat)
  | read (path : Path)
  | write (path : Path) (offset : Nat) (bytes : Bytes)
  | setLength (path : Path) (length : Nat)
  | rename (source target : Path) (replace : Bool)
  | removeFile (path : Path)
  | removeDirectory (path : Path)
  | lock (path : Path)
  | sync (path : Path)

/-- Opening a file tells whether it is a regular one; `lock` whether it was free. -/
def Ans : Op → Type
  | .openFile .. => Except Errno Bool
  | .symlinkMetadata _ => Except Errno Metadata
  | .entries _ => Except Errno (List String)
  | .read _ => Except Errno Bytes
  | .lock _ => Bool
  | _ => Except Errno Unit

namespace Disk

def openFile (d : Disk) (p : Path) (flags : Flags) : Except Errno Bool × Disk :=
  match d.get p with
  | none =>
    if flags.create && d.isDirectory p.dropLast then (.ok true, d.create p 0o600 (.file []))
    else (.error .notFound, d)
  | some n =>
    match n.body with
    | .file _ => (.ok true, if flags.truncate then d.store p n [] else d)
    | .directory => if flags.write then (.error .isDirectory, d) else (.ok false, d)
    | .symlink => (.error .loop, d)
    | .special => (.ok false, d)

def setAttr (d : Disk) (p : Path) (f : Attr → Attr) : Except Errno Unit × Disk :=
  match d.get p with
  | none => (.error .notFound, d)
  | some n => (.ok (), d.put p { n with attr := f n.attr })

/-- A change of the bytes of a file that is open. -/
def modify (d : Disk) (p : Path) (f : Bytes → Bytes) : Except Errno Unit × Disk :=
  match d.get p with
  | some ⟨attr, .file bytes⟩ => (.ok (), d.store p ⟨attr, .file bytes⟩ (f bytes))
  | _ => (.error .invalid, d)

/-- Only what is no directory is ever renamed here. -/
def rename (d : Disk) (source target : Path) (replace : Bool) : Except Errno Unit × Disk :=
  match d.get source with
  | none => (.error .notFound, d)
  | some n =>
    if n.isDirectory then (.error .invalid, d)
    else if !d.isDirectory target.dropLast then (.error .notFound, d)
    else if (d.get target).isSome && !replace then (.error .alreadyExists, d)
    else if d.isDirectory target then (.error .isDirectory, d)
    else (.ok (), (d.remove source).put target n)

end Disk

def exec : (op : Op) → Disk → Ans op × Disk
  | .openDirectory p, d =>
    (match d.get p with
      | none => .error .notFound
      | some n => if n.isDirectory then .ok () else .error .notDirectory, d)
  | .openFile p flags, d => d.openFile p flags
  | .symlinkMetadata p, d =>
    (match d.get p with | none => .error .notFound | some n => .ok n.metadata, d)
  | .entries p, d =>
    (.ok ((d.below p).filterMap fun q => if q.dropLast = p then q.getLast? else none), d)
  | .createDirectory p, d =>
    if (d.get p).isSome then (.error .alreadyExists, d)
    else if d.isDirectory p.dropLast then (.ok (), d.create p 0o755 .directory)
    else (.error .notFound, d)
  | .setPermissions p mode, d => d.setAttr p fun a => { a with mode := mode }
  | .setModified p seconds nanos, d =>
    d.setAttr p fun a => { a with seconds := seconds, nanos := nanos }
  | .read p, d =>
    (match d.file? p with | some bytes => .ok bytes | none => .error .invalid, d)
  | .write p offset bytes, d => d.modify p (splice · offset bytes)
  | .setLength p length, d => d.modify p (resize · length)
  | .rename source target replace, d => d.rename source target replace
  | .removeFile p, d =>
    match d.get p with
    | none => (.error .notFound, d)
    | some n => if n.isDirectory then (.error .isDirectory, d) else (.ok (), d.remove p)
  | .removeDirectory p, d =>
    match d.get p with
    | none => (.error .notFound, d)
    | some n =>
      if !n.isDirectory then (.error .notDirectory, d)
      else if (d.below p).isEmpty then (.ok (), d.remove p)
      else (.error .notEmpty, d)
  | .lock p, d => (!d.held.contains p, d)
  | .sync _, d => (.ok (), d)

inductive Torn : Op → Disk → Disk → Prop
  | write (k : Nat) : Torn (.write p offset bytes) d (d.modify p (splice · offset (bytes.take k))).2

/-- One program at a time has the tree to itself. -/
def machine : Machine Op Ans Disk := ⟨exec, Torn, Eq⟩

theorem machine_alone : machine.Alone := fun _ _ => Iff.rfl

theorem machine_rely (d : Disk) : machine.rely d d := rfl

@[simp] theorem machine_exec (op : Op) (d : Disk) : machine.exec op d = exec op d := rfl

/-- The calls that leave the tree as it is. -/
def Op.reads : Op → Bool
  | .openDirectory _ | .symlinkMetadata _ | .entries _ | .read _ | .lock _ | .sync _ => true
  | .openFile _ flags => !flags.create && !flags.truncate
  | _ => false

theorem exec_reads {op : Op} (h : op.reads = true) (d : Disk) : (exec op d).2 = d := by
  cases op with
  | openFile p flags =>
    simp only [Op.reads, Bool.and_eq_true, Bool.not_eq_true'] at h
    simp only [exec, Disk.openFile, h.1, h.2, Bool.false_and, Bool.false_eq_true, ↓reduceIte]
    split
    · rfl
    · split <;> (try split) <;> rfl
  | _ => first | rfl | cases h

theorem torn_reads {op : Op} (h : op.reads = true) : ¬ Torn op d e := by
  rintro ⟨⟩
  cases h

/-- The calls that happen as a whole. -/
def Op.whole : Op → Bool
  | .write .. => false
  | _ => true

theorem torn_whole {op : Op} (h : op.whole = true) : ¬ Torn op d e := by
  rintro ⟨⟩
  cases h

variable {G : Op → Disk → Disk → Prop} {ε : Type} {d : Disk}

/-- A call that only reads needs no more than a guarantee that allows standing still. -/
theorem sat_reads {op : Op} {Q : Ans op → Disk → Prop} (hr : op.reads = true)
    (hg : ∀ op d, G op d d) (hq : Q (exec op d).1 d) :
    Act.Sat machine G (request op : Act Op Ans ε _) d Q E := by
  refine .request_alone machine_alone (fun b hb => absurd hb (torn_reads hr)) ?_ ?_
  · rw [machine_exec, exec_reads hr]
    exact hg op d
  · rw [machine_exec, exec_reads hr]
    exact hq

/-- A call that is never cut short. -/
theorem sat_whole {op : Op} {Q : Ans op → Disk → Prop} (hw : op.whole = true)
    (hg : G op d (exec op d).2) (hq : Q (exec op d).1 (exec op d).2) :
    Act.Sat machine G (request op : Act Op Ans ε _) d Q E :=
  .request_alone machine_alone (fun _ he => absurd he (torn_whole hw)) hg hq

end RemoteCodex.Files
