import RemoteCodex.Transfer.Names

/-!
# The calls of an endpoint on a tree others change

Here a handle is an inode, and the tree is one anyone may change at any moment:
a name may lead to a directory at one call and to a link at the next. A call by
a name acts in a directory that was opened before; opening refuses links. What
the calls leave in the tree is among what others may do to it.
-/

namespace RemoteCodex.Transfer.Handles

open Files Interact

/-- One component of a path that neither leads up nor nowhere. -/
def plain (name : String) : Bool :=
  !name.toList.contains '/' && name ≠ "" && name ≠ "." && name ≠ ".."

/-- No directory has an entry by another name. -/
abbrev EntryName := { name : String // plain name = true }

inductive Body
  | directory (entries : List (EntryName × Nat))
  | file (bytes : Bytes)
  | symlink (target : String)
  | special

structure Inode where
  attr : Attr
  body : Body

def Inode.metadata (n : Inode) : Metadata :=
  match n.body with
  | .directory _ => ⟨n.attr, false, true, 0⟩
  | .file bytes => ⟨n.attr, true, false, bytes.length⟩
  | .symlink target => ⟨n.attr, false, false, target.utf8ByteSize⟩
  | .special => ⟨n.attr, false, false, 0⟩

/-- What a call does: `opened` and `openedFile` tell in which directory, by
which name and what was found, `named` is any other use of a name, `within` a
use of an open directory and `data` of an open file. -/
inductive Deed
  | opened (dir : Nat) (name : String) (found : Nat)
  | openedFile (dir : Nat) (name : String) (found : Nat)
  | named (dir : Nat) (name : String)
  | within (dir : Nat)
  | data (file : Nat)
  /-- Of something that is not open, or by more than one name. -/
  | astray

/-- `which` handle of several at one path is meant, the inode of a `new` file,
and what a call comes to that the tree does not tell. -/
structure Around where
  which : Nat
  new : Nat
  outcome : Except Errno Unit
  free : Bool

/-- `dirs` and `files` are what the command has opened at each path, the latest first. -/
structure World where
  tree : Nat → Option Inode
  around : Around
  dirs : Path → List Nat
  files : Path → List Nat
  deeds : List Deed

namespace World

def pick (w : World) (handles : List Nat) : Option Nat := (handles[w.around.which]?).or handles.head?

/-- The directory and the name a call by path goes to. -/
def place (w : World) (p : Path) : Option (Nat × String) :=
  match p.getLast? with
  | none => none
  | some name => if plain name then (w.pick (w.dirs p.dropLast)).map fun dir => (dir, name) else none

def entries (w : World) (dir : Nat) : List (EntryName × Nat) :=
  match w.tree dir with
  | some ⟨_, .directory entries⟩ => entries
  | _ => []

def entry (w : World) (dir : Nat) (name : String) : Option Nat :=
  ((w.entries dir).find? fun e => e.1.val = name).map Prod.snd

def isDirectory (w : World) (i : Nat) : Bool :=
  match w.tree i with
  | some ⟨_, .directory _⟩ => true
  | _ => false

def isFile (w : World) (i : Nat) : Bool :=
  match w.tree i with
  | some ⟨_, .file _⟩ => true
  | _ => false

def log (w : World) (deed : Deed) : World := { w with deeds := deed :: w.deeds }

/-- A call by a name. -/
def byName (w : World) (p : Path) : World :=
  match w.place p with
  | some (dir, name) => w.log (.named dir name)
  | none => w.log .astray

/-- A call on an open directory. -/
def onDirectory (w : World) (p : Path) : World :=
  match w.pick (w.dirs p) with
  | some dir => w.log (.within dir)
  | none => w.log .astray

def onFile (w : World) (p : Path) : World :=
  match w.pick (w.files p) with
  | some i => w.log (.data i)
  | none => w.log .astray

/-- A call on what is open at a path, be it a file or a directory. -/
def onHandle (w : World) (p : Path) : World := if (w.files p).isEmpty then w.onDirectory p else w.onFile p

def addDirectory (w : World) (p : Path) (i : Nat) : World :=
  { w with dirs := fun q => if q = p then i :: w.dirs q else w.dirs q }

def addFile (w : World) (p : Path) (i : Nat) : World :=
  { w with files := fun q => if q = p then i :: w.files q else w.files q }

/-- `O_DIRECTORY | O_NOFOLLOW`. -/
def openDirectory (w : World) (p : Path) : Except Errno Unit × World :=
  match w.place p with
  | none => (.error .invalid, w.log .astray)
  | some (dir, name) =>
    match w.entry dir name with
    | none => (.error .notFound, w.log (.named dir name))
    | some i =>
      if w.isDirectory i then (.ok (), (w.log (.opened dir name i)).addDirectory p i)
      else (.error .notDirectory, w.log (.named dir name))

/-- `O_NOFOLLOW`, and whether it is a regular file. -/
def openFile (w : World) (p : Path) (flags : Flags) : Except Errno Bool × World :=
  match w.place p with
  | none => (.error .invalid, w.log .astray)
  | some (dir, name) =>
    match w.entry dir name with
    | none =>
      if flags.create then (.ok true, (w.log (.openedFile dir name w.around.new)).addFile p w.around.new)
      else (.error .notFound, w.log (.named dir name))
    | some i =>
      if w.isFile i then (.ok true, (w.log (.openedFile dir name i)).addFile p i)
      else
        match w.tree i with
        | some ⟨_, .symlink _⟩ => (.error .loop, w.log (.named dir name))
        | _ => (.ok false, w.log (.named dir name))

/-- What is found by a name, not following it. -/
def metadata (w : World) (p : Path) : Except Errno Metadata :=
  let found := if p = [] then w.pick (w.dirs []) else (w.place p).bind fun (dir, name) => w.entry dir name
  match found.bind w.tree with
  | some n => .ok n.metadata
  | none => .error .notFound

def read (w : World) (p : Path) : Except Errno Bytes :=
  match (w.pick (w.files p)).bind w.tree with
  | some ⟨_, .file bytes⟩ => .ok bytes
  | _ => .error .invalid

def names (w : World) (p : Path) : List String :=
  match w.pick (w.dirs p) with
  | some dir => (w.entries dir).map fun e => e.1.val
  | none => []

end World

def exec : (op : Op) → World → Ans op × World
  | .openDirectory p, w => w.openDirectory p
  | .openFile p flags, w => w.openFile p flags
  | .symlinkMetadata p, w => (w.metadata p, if p = [] then w.onDirectory p else w.byName p)
  | .entries p, w => (.ok (w.names p), w.onDirectory p)
  | .createDirectory p, w => (w.around.outcome, w.byName p)
  | .setPermissions p _, w => (w.around.outcome, w.onHandle p)
  | .setModified p _ _, w => (w.around.outcome, w.onHandle p)
  | .read p, w => (w.read p, w.onFile p)
  | .write p _ _, w => (w.around.outcome, w.onFile p)
  | .setLength p _, w => (w.around.outcome, w.onFile p)
  | .rename source target _, w => (w.around.outcome, (w.byName source).byName target)
  | .removeFile p, w => (w.around.outcome, w.byName p)
  | .removeDirectory p, w => (w.around.outcome, w.byName p)
  | .lock p, w => (w.around.free, w.onFile p)
  | .sync p, w => (w.around.outcome, w.onHandle p)

/-- What the command has open stays open; all else may change at any moment. -/
structure Others (w u : World) : Prop where
  dirs : u.dirs = w.dirs
  files : u.files = w.files
  deeds : u.deeds = w.deeds

/-- A call that is cut short has done what it does. -/
def machine : Machine Op Ans World where
  exec := exec
  torn _ _ _ := False
  rely := Others

-- ---------------------------------------------------------------------------
-- Deeds beneath the root
-- ---------------------------------------------------------------------------

/-- A directory was opened by plain names, each in the directory before it. -/
inductive Reached (root : Nat) (deeds : List Deed) : Nat → Prop
  | root : Reached root deeds root
  | opened {dir found : Nat} {name : String} : Reached root deeds dir → .opened dir name found ∈ deeds →
      plain name = true → Reached root deeds found

/-- A deed, done in `w`, stays beneath the root; what it opens is a real
directory, a regular file, or a file it creates. -/
def Confined (root : Nat) (w : World) : Deed → Prop
  | .opened dir name found =>
    Reached root w.deeds dir ∧ plain name = true ∧ w.entry dir name = some found ∧ w.isDirectory found = true
  | .openedFile dir name found =>
    Reached root w.deeds dir ∧ plain name = true ∧
      (w.entry dir name = some found ∧ w.isFile found = true ∨ w.entry dir name = none)
  | .named dir name => Reached root w.deeds dir ∧ plain name = true
  | .within dir => Reached root w.deeds dir
  | .data i => ∃ dir name, .openedFile dir name i ∈ w.deeds
  | .astray => False

section

variable {root : Nat} {w u v : World} {p q : Path} {name : String}

theorem Reached.more {deeds more : List Deed} {i : Nat} (h : Reached root deeds i) (hsub : deeds ⊆ more) :
    Reached root more i := by
  induction h with
  | root => exact .root
  | opened _ hmem hplain ih => exact .opened ih (hsub hmem) hplain

/-- Every handle has been opened on the way down from the root. -/
structure Honest (root : Nat) (w : World) : Prop where
  dirs : ∀ p, ∀ i ∈ w.dirs p, Reached root w.deeds i
  files : ∀ p, ∀ i ∈ w.files p, ∃ dir name, .openedFile dir name i ∈ w.deeds

def Opened (p : Path) (w : World) : Prop := w.dirs p ≠ []

def Ready (p : Path) (w : World) : Prop := w.files p ≠ []

/-- `p` is a plain name in an open directory. -/
def At (p : Path) (w : World) : Prop := ∃ dir name, p = dir ++ [name] ∧ plain name = true ∧ Opened dir w

theorem pick_mem {handles : List Nat} (h : handles ≠ []) : ∃ i ∈ handles, w.pick handles = some i := by
  obtain ⟨first, rest, rfl⟩ := List.exists_cons_of_ne_nil h
  unfold World.pick
  cases hi : (first :: rest)[w.around.which]? with
  | none => exact ⟨first, List.mem_cons_self .., rfl⟩
  | some i => exact ⟨i, List.mem_of_getElem? hi, rfl⟩

/-- Calls that stay beneath the root in what they are given. -/
def Allowed (op : Op) (w : World) : Prop :=
  match op with
  | .openDirectory p | .openFile p _ | .createDirectory p | .removeFile p | .removeDirectory p => At p w
  | .symlinkMetadata p => p = [] ∧ Opened [] w ∨ At p w
  | .entries p => Opened p w
  | .rename source target _ => At source w ∧ At target w
  | .setPermissions p _ | .setModified p _ _ | .sync p => Opened p w ∨ Ready p w
  | .read p | .write p _ _ | .setLength p _ | .lock p => Ready p w

theorem place_at (hw : Honest root w) (h : At p w) :
    ∃ dir name, w.place p = some (dir, name) ∧ Reached root w.deeds dir ∧ plain name = true := by
  obtain ⟨dir, name, rfl, hplain, hopen⟩ := h
  obtain ⟨i, hi, hpick⟩ := pick_mem (w := w) hopen
  refine ⟨i, name, ?_, hw.dirs dir i hi, hplain⟩
  simp [World.place, hplain, hpick]

/-- `u` is `w` with one more deed, beneath the root. -/
def Logs (root : Nat) (w u : World) : Prop := ∃ deed, u = w.log deed ∧ Confined root w deed

theorem logs_byName (hw : Honest root w) (h : At p w) : Logs root w (w.byName p) := by
  obtain ⟨dir, name, hplace, hreached, hplain⟩ := place_at hw h
  exact ⟨.named dir name, by simp [World.byName, hplace], hreached, hplain⟩

theorem logs_onDirectory (hw : Honest root w) (h : Opened p w) : Logs root w (w.onDirectory p) := by
  obtain ⟨i, hi, hpick⟩ := pick_mem (w := w) h
  exact ⟨.within i, by simp [World.onDirectory, hpick], hw.dirs p i hi⟩

theorem logs_onFile (hw : Honest root w) (h : Ready p w) : Logs root w (w.onFile p) := by
  obtain ⟨i, hi, hpick⟩ := pick_mem (w := w) h
  exact ⟨.data i, by simp [World.onFile, hpick], hw.files p i hi⟩

theorem logs_onHandle (hw : Honest root w) (h : Opened p w ∨ Ready p w) : Logs root w (w.onHandle p) := by
  unfold World.onHandle
  split
  · next hempty =>
    refine logs_onDirectory hw (h.resolve_right fun hready => hready ?_)
    simpa using hempty
  · next hsome => exact logs_onFile hw fun hempty => hsome (by simp [hempty])

theorem Honest.log (hw : Honest root w) (deed : Deed) : Honest root (w.log deed) where
  dirs p i hi := (hw.dirs p i hi).more (List.subset_cons_self _ _)
  files p i hi := by
    obtain ⟨dir, name, hmem⟩ := hw.files p i hi
    exact ⟨dir, name, List.mem_cons_of_mem _ hmem⟩

/-- What an endpoint has done once it has `u` where it had `w`. -/
structure Further (root : Nat) (w u : World) : Prop where
  honest : Honest root u
  deeds : ∃ new, u.deeds = new ++ w.deeds ∧ ∀ deed ∈ new, Confined root w deed

theorem Logs.further (hw : Honest root w) (h : Logs root w u) : Further root w u := by
  obtain ⟨deed, rfl, hdeed⟩ := h
  exact ⟨hw.log deed, [deed], rfl, by simpa using hdeed⟩

theorem further_rename (hw : Honest root w) (hp : At p w) (hq : At q w) :
    Further root w ((w.byName p).byName q) := by
  obtain ⟨deed, heq, hdeed⟩ := logs_byName hw hp
  obtain ⟨dir, name, hplace, hreached, hplain⟩ := place_at hw hq
  have htarget : (w.log deed).byName q = (w.log deed).log (.named dir name) := by
    have : (w.log deed).place q = w.place q := rfl
    simp [World.byName, this, hplace]
  rw [heq, htarget]
  refine ⟨(hw.log deed).log _, [.named dir name, deed], rfl, ?_⟩
  simpa using ⟨⟨hreached, hplain⟩, hdeed⟩

theorem further_openDirectory (hw : Honest root w) (h : At p w) : Further root w (w.openDirectory p).2 := by
  obtain ⟨dir, name, hplace, hreached, hplain⟩ := place_at hw h
  unfold World.openDirectory
  rw [hplace]
  dsimp only
  split
  · exact Logs.further hw ⟨_, rfl, hreached, hplain⟩
  · next i hentry =>
    split
    · next hdir =>
      have hlog := hw.log (.opened dir name i)
      refine ⟨⟨?_, hlog.files⟩, [.opened dir name i], rfl, ?_⟩
      · intro q j hj
        simp only [World.addDirectory] at hj
        split at hj
        · rcases List.mem_cons.mp hj with rfl | hj
          · exact .opened (hreached.more (List.subset_cons_self _ _)) (List.mem_cons_self ..) hplain
          · exact hlog.dirs q j hj
        · exact hlog.dirs q j hj
      · simpa using ⟨hreached, hplain, hentry, hdir⟩
    · exact Logs.further hw ⟨_, rfl, hreached, hplain⟩

theorem honest_addFile (hw : Honest root w) {dir i : Nat} : Honest root ((w.log (.openedFile dir name i)).addFile p i) := by
  have hlog := hw.log (.openedFile dir name i)
  refine ⟨hlog.dirs, ?_⟩
  intro q j hj
  simp only [World.addFile] at hj
  split at hj
  · rcases List.mem_cons.mp hj with rfl | hj
    · exact ⟨dir, name, List.mem_cons_self ..⟩
    · exact hlog.files q j hj
  · exact hlog.files q j hj

theorem further_openFile (hw : Honest root w) (h : At p w) (flags : Flags) :
    Further root w (w.openFile p flags).2 := by
  obtain ⟨dir, name, hplace, hreached, hplain⟩ := place_at hw h
  have hnamed : Further root w (w.log (.named dir name)) := Logs.further hw ⟨_, rfl, hreached, hplain⟩
  unfold World.openFile
  rw [hplace]
  dsimp only
  split
  · next hnone =>
    split
    · refine ⟨honest_addFile hw, [.openedFile dir name w.around.new], rfl, ?_⟩
      simpa using ⟨hreached, hplain, .inr hnone⟩
    · exact hnamed
  · next i hentry =>
    split
    · next hfile =>
      refine ⟨honest_addFile hw, [.openedFile dir name i], rfl, ?_⟩
      simpa using ⟨hreached, hplain, .inl ⟨hentry, hfile⟩⟩
    · split <;> exact hnamed

theorem further_exec {op : Op} (hw : Honest root w) (h : Allowed op w) : Further root w (exec op w).2 := by
  cases op with
  | openDirectory p => exact further_openDirectory hw h
  | openFile p flags => exact further_openFile hw h flags
  | symlinkMetadata p =>
    simp only [exec]
    split
    · next hp =>
      subst hp
      refine (logs_onDirectory hw ?_).further hw
      rcases h with ⟨-, hopen⟩ | ⟨dir, name, heq, -⟩
      · exact hopen
      · exact absurd heq.symm (by simp)
    · next hp => exact (logs_byName hw (h.resolve_left fun h => hp h.1)).further hw
  | entries p => exact (logs_onDirectory hw h).further hw
  | rename source target replace => exact further_rename hw h.1 h.2
  | createDirectory p => exact (logs_byName hw h).further hw
  | removeFile p => exact (logs_byName hw h).further hw
  | removeDirectory p => exact (logs_byName hw h).further hw
  | setPermissions p mode => exact (logs_onHandle hw h).further hw
  | setModified p seconds nanos => exact (logs_onHandle hw h).further hw
  | sync p => exact (logs_onHandle hw h).further hw
  | read p => exact (logs_onFile hw h).further hw
  | write p offset bytes => exact (logs_onFile hw h).further hw
  | setLength p length => exact (logs_onFile hw h).further hw
  | lock p => exact (logs_onFile hw h).further hw

-- ---------------------------------------------------------------------------
-- What stays open
-- ---------------------------------------------------------------------------

structure Grown (w u : World) : Prop where
  opened : ∀ {p}, Opened p w → Opened p u
  ready : ∀ {p}, Ready p w → Ready p u

theorem Grown.refl (w : World) : Grown w w := ⟨id, id⟩

theorem Grown.trans (h : Grown w u) (h' : Grown u v) : Grown w v :=
  ⟨fun ho => h'.opened (h.opened ho), fun hr => h'.ready (h.ready hr)⟩

theorem At.grown (h : At p w) (hg : Grown w u) : At p u := by
  obtain ⟨dir, name, rfl, hplain, hopen⟩ := h
  exact ⟨dir, name, rfl, hplain, hg.opened hopen⟩

theorem Others.grown (h : Others w u) : Grown w u :=
  ⟨fun {p} ho => by rwa [Opened, h.dirs], fun {p} hr => by rwa [Ready, h.files]⟩

theorem Allowed.grown {op : Op} (h : Allowed op w) (hg : Grown w u) : Allowed op u := by
  cases op with
  | symlinkMetadata p => exact h.imp (fun h => ⟨h.1, hg.opened h.2⟩) fun h => h.grown hg
  | entries p => exact hg.opened h
  | rename source target replace => exact ⟨h.1.grown hg, h.2.grown hg⟩
  | setPermissions p mode => exact h.imp hg.opened hg.ready
  | setModified p seconds nanos => exact h.imp hg.opened hg.ready
  | sync p => exact h.imp hg.opened hg.ready
  | read p => exact hg.ready h
  | write p offset bytes => exact hg.ready h
  | setLength p length => exact hg.ready h
  | lock p => exact hg.ready h
  | _ => exact At.grown h hg

theorem grown_byName (w : World) (p : Path) : Grown w (w.byName p) := by
  unfold World.byName
  split <;> exact ⟨id, id⟩

theorem grown_onDirectory (w : World) (p : Path) : Grown w (w.onDirectory p) := by
  unfold World.onDirectory
  split <;> exact ⟨id, id⟩

theorem grown_onFile (w : World) (p : Path) : Grown w (w.onFile p) := by
  unfold World.onFile
  split <;> exact ⟨id, id⟩

theorem grown_onHandle (w : World) (p : Path) : Grown w (w.onHandle p) := by
  unfold World.onHandle
  split
  · exact grown_onDirectory w p
  · exact grown_onFile w p

theorem grown_addDirectory (w : World) (p : Path) (i : Nat) : Grown w (w.addDirectory p i) := by
  refine ⟨fun {q} ho => ?_, id⟩
  simp only [Opened, World.addDirectory]
  split
  · simp
  · exact ho

theorem grown_addFile (w : World) (p : Path) (i : Nat) : Grown w (w.addFile p i) := by
  refine ⟨id, fun {q} hr => ?_⟩
  simp only [Ready, World.addFile]
  split
  · simp
  · exact hr

theorem grown_log (w : World) (deed : Deed) : Grown w (w.log deed) := ⟨id, id⟩

theorem grown_openDirectory (w : World) (p : Path) :
    Grown w (w.openDirectory p).2 ∧ ((w.openDirectory p).1 = .ok () → Opened p (w.openDirectory p).2) := by
  unfold World.openDirectory
  split
  · exact ⟨grown_log _ _, by simp⟩
  · split
    · exact ⟨grown_log _ _, by simp⟩
    · split
      · exact ⟨(grown_log _ _).trans (grown_addDirectory _ _ _), fun _ => by simp [Opened, World.addDirectory]⟩
      · exact ⟨grown_log _ _, by simp⟩

theorem grown_openFile (w : World) (p : Path) (flags : Flags) :
    Grown w (w.openFile p flags).2 ∧ ((w.openFile p flags).1 = .ok true → Ready p (w.openFile p flags).2) := by
  unfold World.openFile
  split
  · exact ⟨grown_log _ _, by simp⟩
  · split
    · split
      · exact ⟨(grown_log _ _).trans (grown_addFile _ _ _), fun _ => by simp [Ready, World.addFile]⟩
      · exact ⟨grown_log _ _, by simp⟩
    · split
      · exact ⟨(grown_log _ _).trans (grown_addFile _ _ _), fun _ => by simp [Ready, World.addFile]⟩
      · split <;> exact ⟨grown_log _ _, by simp⟩

theorem grown_exec (op : Op) (w : World) : Grown w (exec op w).2 := by
  cases op with
  | openDirectory p => exact (grown_openDirectory w p).1
  | openFile p flags => exact (grown_openFile w p flags).1
  | symlinkMetadata p =>
    simp only [exec]
    split
    · exact grown_onDirectory w p
    · exact grown_byName w p
  | entries p => exact grown_onDirectory w p
  | rename source target replace => exact (grown_byName w source).trans (grown_byName _ target)
  | createDirectory p => exact grown_byName w p
  | removeFile p => exact grown_byName w p
  | removeDirectory p => exact grown_byName w p
  | setPermissions p mode => exact grown_onHandle w p
  | setModified p seconds nanos => exact grown_onHandle w p
  | sync p => exact grown_onHandle w p
  | read p => exact grown_onFile w p
  | write p offset bytes => exact grown_onFile w p
  | setLength p length => exact grown_onFile w p
  | lock p => exact grown_onFile w p

end

end RemoteCodex.Transfer.Handles
