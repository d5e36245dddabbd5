import RemoteCodex.Protocol.Encode

/-!
# The manifest of a skill

`manifest` walks a directory with a stack of the directories that are still to
be read. Whatever the order they are read in, the files it lists are those of
the directory, but for the names it leaves out.
-/

namespace RemoteCodex.Skills

open Protocol (Value)
open Wire (Json.utf8)

/-- A file of a manifest, as it is sent and stored. -/
structure SkillFile where
  path : String
  size : Nat
  sha256 : String
  executable : Bool
  deriving DecidableEq, Repr

def SkillFile.value (f : SkillFile) : Value :=
  .object [("path", .string f.path), ("size", .int f.size), ("sha256", .string f.sha256), ("executable", .bool f.executable)]

/-- `serde_json::to_vec`. -/
def toVec (files : List SkillFile) : List UInt8 := (Value.array (files.map SkillFile.value)).encode

/-- A name on the client: text, or bytes that are none with what `to_string_lossy` makes of them. -/
inductive OsString
  | text (s : String)
  | other (lossy : String)
  deriving DecidableEq, Repr

def OsString.toStringLossy : OsString → String
  | .text s => s
  | .other lossy => lossy

def OsString.toStr : OsString → Option String
  | .text s => some s
  | .other _ => none

/-- What `read_dir` gives for a directory, in its order, with what is there. -/
inductive Entry
  | file (bytes : List UInt8) (mode : Nat)
  | directory (entries : List (OsString × Entry))
  | symlink
  | special

inductive ClientError
  | argument (text : String)
  deriving DecidableEq, Repr

def excluded (name : String) : Bool :=
  [".git", "node_modules", "target", "__pycache__", "auth.json", "credentials.json", ".DS_Store"].contains name ||
    ".env".toList.isPrefixOf name.toList || ".pem".toList.isSuffixOf name.toList || ".key".toList.isSuffixOf name.toList ||
    "id_rsa".toList.isPrefixOf name.toList || "id_ed25519".toList.isPrefixOf name.toList

/-- What the walk has left to read, and what it has found. -/
structure Found where
  stack : List (List OsString × List (OsString × Entry))
  files : List SkillFile
  total : Nat

/-- A path relative to the root. -/
def joined (names : List String) : String := "/".intercalate names

def skillFile (sha256 : List UInt8 → String) (names : List String) (bytes : List UInt8) (mode : Nat) : SkillFile :=
  ⟨joined names, bytes.length, sha256 bytes, mode &&& 0o111 != 0⟩

/-- One entry of `directory`. -/
def visit (sha256 : List UInt8 → String) (directory : List OsString) (found : Found) (entry : OsString × Entry) :
    Except ClientError Found :=
  if excluded entry.1.toStringLossy then .ok found
  else match entry.2 with
    | .symlink => .error (.argument
        "enabled Skill contains a symbolic link; replace it with a regular resource before remote execution")
    | .directory entries =>
      if found.stack.length + 1 > 500 then .error (.argument "Skill directory is too large")
      else .ok { found with stack := (directory ++ [entry.1], entries) :: found.stack }
    | .special => .error (.argument "Skill contains a non-regular resource")
    | .file bytes mode =>
      if found.total + bytes.length > 16 * 1024 * 1024 || found.files.length ≥ 500 then
        .error (.argument "Skill exceeds 16 MiB or 500 files")
      else match (directory ++ [entry.1]).mapM OsString.toStr with
        | none => .error (.argument "Skill path must be UTF-8")
        | some names => .ok { found with
            total := found.total + bytes.length
            files := found.files ++ [skillFile sha256 names bytes mode] }

/-- The entries of one directory. -/
def read (sha256 : List UInt8 → String) (directory : List OsString) (found : Found) (entries : List (OsString × Entry)) :
    Except ClientError Found :=
  entries.foldlM (visit sha256 directory) found

/-- How much there is to read. -/
noncomputable def weight (stack : List (List OsString × List (OsString × Entry))) : Nat := (stack.map fun d => sizeOf d.2).sum

variable {sha256 : List UInt8 → String} {directory : List OsString} {found found' : Found}
variable {entry : OsString × Entry} {entries : List (OsString × Entry)}

theorem visit_weight (h : visit sha256 directory found entry = .ok found') :
    weight found'.stack < weight found.stack + sizeOf entry := by
  obtain ⟨name, entry⟩ := entry
  unfold visit at h
  split at h
  · obtain rfl := Except.ok.inj h
    simp only [Prod.mk.sizeOf_spec]
    omega
  cases entry with
  | symlink => cases h
  | special => cases h
  | directory entries =>
    dsimp only at h
    split at h
    · cases h
    · obtain rfl := Except.ok.inj h
      simp [weight]
      omega
  | file bytes mode =>
    dsimp only at h
    split at h
    · cases h
    split at h
    · cases h
    · obtain rfl := Except.ok.inj h
      simp only [Prod.mk.sizeOf_spec]
      omega

theorem read_weight (h : read sha256 directory found entries = .ok found') :
    weight found'.stack < weight found.stack + sizeOf entries := by
  induction entries generalizing found with
  | nil =>
    obtain rfl : found = found' := Except.ok.inj h
    simp
  | cons entry entries ih =>
    rw [read, List.foldlM_cons] at h
    cases hvisit : visit sha256 directory found entry with
    | error e =>
      rw [hvisit] at h
      cases h
    | ok next =>
      rw [hvisit] at h
      have hrest := ih h
      have hnext := visit_weight hvisit
      simp only [List.cons.sizeOf_spec]
      omega

/-- The walk, until the stack is empty. -/
def walk (sha256 : List UInt8 → String) (found : Found) : Except ClientError Found :=
  match _hstack : found.stack with
  | [] => .ok found
  | (directory, entries) :: stack =>
    match _hread : read sha256 directory { found with stack } entries with
    | .error e => .error e
    | .ok next => walk sha256 next
termination_by weight found.stack
decreasing_by
  have hless : weight next.stack < weight stack + sizeOf entries := read_weight _hread
  have hsum : weight ((directory, entries) :: stack) = sizeOf entries + weight stack := List.sum_cons
  rw [_hstack, hsum]
  omega

def manifest (sha256 : List UInt8 → String) (root : List (OsString × Entry)) : Except ClientError (List SkillFile) :=
  match walk sha256 ⟨[([], root)], [], 0⟩ with
  | .error e => .error e
  | .ok found => .ok (found.files.mergeSort fun a b => decide (a.path ≤ b.path))

/-- A file that is to be listed. -/
structure Asset where
  names : List String
  bytes : List UInt8
  mode : Nat
  deriving DecidableEq, Repr

def Asset.skillFile (sha256 : List UInt8 → String) (a : Asset) : SkillFile := Skills.skillFile sha256 a.names a.bytes a.mode

mutual
/-- The files at and below an entry, but for the names that are left out. -/
def Entry.assets (names : List String) : Entry → List Asset
  | .file bytes mode => [⟨names, bytes, mode⟩]
  | .directory entries => assets names entries
  | .symlink => []
  | .special => []

def assets (names : List String) : List (OsString × Entry) → List Asset
  | [] => []
  | (name, entry) :: entries =>
    (if excluded name.toStringLossy then [] else
      match name with
      | .text s => entry.assets (names ++ [s])
      | .other _ => []) ++ assets names entries
end

/-- The files that are listed for the entries of a directory. -/
def below (directory : List OsString) (entries : List (OsString × Entry)) : List Asset :=
  match directory.mapM OsString.toStr with
  | some names => assets names entries
  | none => []

def pending (stack : List (List OsString × List (OsString × Entry))) : List Asset := stack.flatMap fun d => below d.1 d.2

theorem below_cons (directory : List OsString) (entry : OsString × Entry) (entries : List (OsString × Entry)) :
    below directory (entry :: entries) = below directory [entry] ++ below directory entries := by
  obtain ⟨name, entry⟩ := entry
  unfold below
  cases directory.mapM OsString.toStr with
  | none => rfl
  | some names => simp [assets]

theorem below_excluded (h : excluded entry.1.toStringLossy = true) : below directory [entry] = [] := by
  obtain ⟨name, entry⟩ := entry
  unfold below
  cases directory.mapM OsString.toStr with
  | none => rfl
  | some names => simp [assets, h]

theorem mapM_snoc (directory : List OsString) (name : OsString) : (directory ++ [name]).mapM OsString.toStr =
    (directory.mapM OsString.toStr).bind fun names => name.toStr.map fun s => names ++ [s] := by
  rw [List.mapM_append]
  cases directory.mapM OsString.toStr with
  | none => rfl
  | some names => cases name <;> rfl

theorem below_directory {name : OsString} (h : excluded name.toStringLossy = false) :
    below directory [(name, .directory entries)] = below (directory ++ [name]) entries := by
  unfold below
  rw [mapM_snoc]
  cases directory.mapM OsString.toStr with
  | none => rfl
  | some names => cases name <;> simp [assets, Entry.assets, h, OsString.toStr]

theorem below_file {name : OsString} {bytes : List UInt8} {mode : Nat} {names : List String}
    (h : excluded name.toStringLossy = false) (hnames : (directory ++ [name]).mapM OsString.toStr = some names) :
    below directory [(name, .file bytes mode)] = [⟨names, bytes, mode⟩] := by
  rw [mapM_snoc] at hnames
  unfold below
  cases hdirectory : directory.mapM OsString.toStr with
  | none =>
    rw [hdirectory] at hnames
    cases hnames
  | some front =>
    rw [hdirectory] at hnames
    cases name with
    | other lossy => cases hnames
    | text s =>
      obtain rfl : front ++ [s] = names := Option.some.inj hnames
      simp [assets, Entry.assets, h]

/-- The files found are those of `listed`. -/
structure Lists (sha256 : List UInt8 → String) (found : Found) (listed : List Asset) : Prop where
  files : found.files = listed.map (Asset.skillFile sha256)
  total : found.total = (listed.map fun a => a.bytes.length).sum
  size : found.total ≤ 16 * 1024 * 1024
  count : listed.length ≤ 500

variable {listed : List Asset}

theorem visit_lists (hfound : Lists sha256 found listed) (h : visit sha256 directory found entry = .ok found') :
    ∃ listed', Lists sha256 found' listed' ∧
      (listed' ++ pending found'.stack).Perm (listed ++ (below directory [entry] ++ pending found.stack)) := by
  obtain ⟨name, entry⟩ := entry
  unfold visit at h
  split at h
  · next hexcluded =>
    obtain rfl := Except.ok.inj h
    refine ⟨listed, hfound, ?_⟩
    rw [below_excluded hexcluded, List.nil_append]
  next hexcluded =>
  have hname : excluded name.toStringLossy = false := Bool.not_eq_true _ ▸ hexcluded
  cases entry with
  | symlink => cases h
  | special => cases h
  | directory entries =>
    dsimp only at h
    split at h
    · cases h
    · obtain rfl := Except.ok.inj h
      refine ⟨listed, ⟨hfound.files, hfound.total, hfound.size, hfound.count⟩, ?_⟩
      rw [below_directory hname]
      rfl
  | file bytes mode =>
    dsimp only at h
    split at h
    · cases h
    next hfits =>
    split at h
    · cases h
    next names hnames =>
    obtain rfl := Except.ok.inj h
    simp only [gt_iff_lt, ge_iff_le, Bool.or_eq_true, decide_eq_true_eq, not_or, not_lt, not_le] at hfits
    refine ⟨listed ++ [⟨names, bytes, mode⟩], ⟨?_, ?_, hfits.1, ?_⟩, ?_⟩
    · rw [hfound.files, List.map_append]
      rfl
    · simp [hfound.total]
    · have hcount := hfits.2
      rw [hfound.files, List.length_map] at hcount
      rw [List.length_append, List.length_singleton]
      exact hcount
    · rw [below_file hname hnames, List.append_assoc]

theorem read_lists (hfound : Lists sha256 found listed) (h : read sha256 directory found entries = .ok found') :
    ∃ listed', Lists sha256 found' listed' ∧
      (listed' ++ pending found'.stack).Perm (listed ++ (below directory entries ++ pending found.stack)) := by
  induction entries generalizing found listed with
  | nil =>
    obtain rfl : found = found' := Except.ok.inj h
    refine ⟨listed, hfound, ?_⟩
    have hnil : below directory [] = [] := by
      unfold below
      cases directory.mapM OsString.toStr with
      | none => rfl
      | some names => rfl
    rw [hnil, List.nil_append]
  | cons entry entries ih =>
    rw [read, List.foldlM_cons] at h
    cases hvisit : visit sha256 directory found entry with
    | error e =>
      rw [hvisit] at h
      cases h
    | ok next =>
      rw [hvisit] at h
      obtain ⟨between, hbetween, hstep⟩ := visit_lists hfound hvisit
      obtain ⟨listed', hlisted', hrest⟩ := ih hbetween h
      refine ⟨listed', hlisted', ?_⟩
      have hlater : (between ++ (below directory entries ++ pending next.stack)).Perm
          (below directory entries ++ (listed ++ (below directory [entry] ++ pending found.stack))) :=
        (List.perm_append_comm_assoc _ _ _).trans (hstep.append_left _)
      refine hrest.trans (hlater.trans ((List.perm_append_comm_assoc _ _ _).trans (.append_left _ ?_)))
      rw [below_cons directory entry entries, ← List.append_assoc]
      exact List.perm_append_comm.append_right _

theorem walk_lists (hfound : Lists sha256 found listed) (h : walk sha256 found = .ok found') :
    ∃ listed', Lists sha256 found' listed' ∧ listed'.Perm (listed ++ pending found.stack) := by
  fun_induction walk sha256 found generalizing listed with
  | case1 found hstack =>
    obtain rfl := Except.ok.inj h
    exact ⟨listed, hfound, by rw [hstack]; simp [pending]⟩
  | case2 => cases h
  | case3 found directory entries stack hstack next hread ih =>
    have hstart : Lists sha256 { found with stack } listed := ⟨hfound.files, hfound.total, hfound.size, hfound.count⟩
    obtain ⟨between, hbetween, hstep⟩ := read_lists hstart hread
    obtain ⟨listed', hlisted', hrest⟩ := ih hbetween h
    refine ⟨listed', hlisted', hrest.trans (hstep.trans ?_)⟩
    rw [hstack]
    rfl

/-- A manifest lists the files of the directory. -/
theorem manifest_lists {root : List (OsString × Entry)} {files : List SkillFile} (h : manifest sha256 root = .ok files) :
    ∃ listed : List Asset, files = listed.map (Asset.skillFile sha256) ∧ listed.Perm (assets [] root) ∧ listed.length ≤ 500 ∧
      (listed.map fun a => a.bytes.length).sum ≤ 16 * 1024 * 1024 := by
  unfold manifest at h
  split at h
  · cases h
  next found hwalk =>
  obtain rfl := Except.ok.inj h
  have hstart : Lists sha256 ⟨[([], root)], [], 0⟩ [] := ⟨rfl, rfl, Nat.zero_le _, Nat.zero_le _⟩
  obtain ⟨listed, hlisted, hperm⟩ := walk_lists hstart hwalk
  have hall : ([] ++ pending [([], root)] : List Asset) = assets [] root := by simp [pending, below]
  have hsorted : (listed.mergeSort fun a b => decide (joined a.names ≤ joined b.names)).Perm listed := List.mergeSort_perm _ _
  refine ⟨listed.mergeSort fun a b => decide (joined a.names ≤ joined b.names), ?_, hsorted.trans (hall ▸ hperm), ?_, ?_⟩
  · rw [hlisted.files]
    exact (List.map_mergeSort (f := Asset.skillFile sha256) fun a _ b _ => rfl).symm
  · rw [hsorted.length_eq]
    exact hlisted.count
  · rw [(hsorted.map fun a => a.bytes.length).sum_nat, ← hlisted.total]
    exact hlisted.size

end RemoteCodex.Skills
