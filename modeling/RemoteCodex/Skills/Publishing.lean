import RemoteCodex.Skills.Staging

/-!
# What `commit` publishes

A commit that fails has at most changed modes. One that has the files of its
manifest moves them to where their digest says, and they are the same there.
-/

namespace RemoteCodex.Skills

open Files.Links
open Protocol (parseUuid)
open Transfer (Fault PlainName fault rawParts)

variable {host : Host} {v w u : Disk} {stage digest : String} {file : SkillFile} {files : List SkillFile}
variable {a : Asset} {listed : List Asset}

-- ---------------------------------------------------------------------------
-- Commits that fail
-- ---------------------------------------------------------------------------

/-- Nothing but modes is different. -/
def SameButModes (v w : Disk) : Prop := ∀ q, (get w q).map (Node.withMode 0) = (get v q).map (Node.withMode 0)

theorem SameButModes.refl (v : Disk) : SameButModes v v := fun _ => rfl

theorem SameButModes.trans (h : SameButModes v w) (h' : SameButModes w u) : SameButModes v u := fun q => (h' q).trans (h q)

theorem sameButModes_setMode {links mode : Nat} {place : List String} {parts : List (PathPart String)}
    (h : setMode v links place parts mode = some w) : SameButModes v w := by
  obtain ⟨p, -, rfl⟩ := Option.map_eq_some_iff.mp h
  intro q
  rw [get_change, Option.map_map]
  refine congrArg (Option.map · (get v q)) (funext fun node => ?_)
  by_cases hq : q = p <;> simp [hq]

theorem sameButModes_setPermissions (host : Host) (assets : List (PathPart String)) (file : SkillFile) (v : Disk) :
    SameButModes v (setPermissions host assets file v).2 := by
  unfold setPermissions
  rw [bind_ok (run_get v)]
  cases hset : setMode v host.links host.root (assets ++ rawParts file.path) (if file.executable then 0o700 else 0o600) with
  | none => exact .refl v
  | some w => exact sameButModes_setMode hset

theorem sameButModes_forM {assets : List (PathPart String)} :
    SameButModes v (files.forM (setPermissions host assets) v).2 := by
  induction files generalizing v with
  | nil => exact .refl v
  | cons file files ih =>
    have hfirst := sameButModes_setPermissions host assets file v
    rw [List.forM, run_bind]
    cases hrun : setPermissions host assets file v with
    | mk r w =>
      rw [hrun] at hfirst
      cases r with
      | error e => exact hfirst
      | ok => exact hfirst.trans ih

/-- Files that are fit to be published. -/
structure Checked (host : Host) (v : Disk) (directory : List (PathPart String)) (digest : String) (files : List SkillFile)
    (bytes : List UInt8) : Prop where
  stored : readFile v host.links host.root (directory ++ names ["manifest.json"]) = some bytes
  short : bytes.length ≤ 256 * 1024
  slice : host.fromSlice bytes = some files
  valid : validate host.sha256 digest files = .ok ()
  verified : verify host v (directory ++ names ["assets"]) files = .ok ()

theorem Checked.run {directory : List (PathPart String)} {bytes : List UInt8} (h : Checked host v directory digest files bytes) :
    checkStage host directory digest v = (.ok files, v) := by
  unfold checkStage
  rw [bind_ok (run_get v), h.stored]
  dsimp only
  rw [if_neg (Nat.not_lt.mpr h.short), h.slice]
  dsimp only
  rw [h.valid, bind_ok (run_lift _ _), bind_ok (run_get v), h.verified]
  rfl

theorem checkStage_cases (host : Host) (directory : List (PathPart String)) (digest : String) (v : Disk) :
    (∃ e, checkStage host directory digest v = (.error e, v)) ∨
      ∃ files bytes, checkStage host directory digest v = (.ok files, v) ∧ Checked host v directory digest files bytes := by
  by_cases hchecked : ∃ files bytes, Checked host v directory digest files bytes
  · obtain ⟨files, bytes, hchecked⟩ := hchecked
    exact .inr ⟨files, bytes, hchecked.run, hchecked⟩
  refine .inl ?_
  unfold checkStage
  rw [bind_ok (run_get v)]
  cases hread : readFile v host.links host.root (directory ++ names ["manifest.json"]) with
  | none => exact ⟨_, rfl⟩
  | some bytes =>
    dsimp only
    split
    · exact ⟨_, rfl⟩
    next hshort =>
    cases hslice : host.fromSlice bytes with
    | none => exact ⟨_, rfl⟩
    | some files =>
      dsimp only
      cases hvalid : validate host.sha256 digest files with
      | error e => exact ⟨e, bind_error (run_lift _ _)⟩
      | ok =>
        rw [bind_ok (run_lift _ _), bind_ok (run_get v)]
        cases hverified : verify host v (directory ++ names ["assets"]) files with
        | error e => exact ⟨e, bind_error (run_lift _ _)⟩
        | ok => exact absurd ⟨files, bytes, hread, Nat.not_lt.mp hshort, hslice, hvalid, hverified⟩ hchecked

/-- A commit that fails publishes nothing. -/
theorem commit_error {e : Fault} (h : commit host stage digest v = (.error e, w)) : SameButModes v w := by
  unfold commit at h
  split at h
  · dsimp only at h
    rcases checkStage_cases host (names ["skill-staging"] ++ rawParts stage) digest v with ⟨e', hcheck⟩ | ⟨files, -, hcheck, -⟩
    · rw [bind_error hcheck] at h
      obtain ⟨-, rfl⟩ := Prod.mk.inj h
      exact .refl v
    rw [bind_ok hcheck, run_bind] at h
    have hmodes : SameButModes v (files.forM
        (setPermissions host (names ["skill-staging"] ++ rawParts stage ++ names ["assets"])) v).2 := sameButModes_forM
    cases hrun : files.forM (setPermissions host (names ["skill-staging"] ++ rawParts stage ++ names ["assets"])) v with
    | mk r u =>
    rw [hrun] at h hmodes
    cases r with
    | error e' =>
      obtain ⟨-, rfl⟩ := Prod.mk.inj h
      exact hmodes
    | ok =>
      dsimp only at h
      rw [bind_ok (run_get u)] at h
      cases hrename : rename u host.links host.root (names ["skill-staging"] ++ rawParts stage ++ names ["assets"])
          (names ["skills"] ++ rawParts digest) with
      | some moved =>
        rw [hrename] at h
        cases h
      | none =>
        rw [hrename] at h
        dsimp only at h
        rw [bind_ok (run_get u)] at h
        split at h
        · rw [bind_ok (run_get u)] at h
          cases hverify : verify host u (names ["skills"] ++ rawParts digest) files with
          | error e' =>
            rw [hverify, bind_error (run_lift _ _)] at h
            obtain ⟨-, rfl⟩ := Prod.mk.inj h
            exact hmodes
          | ok =>
            rw [hverify] at h
            cases h
        · obtain ⟨-, rfl⟩ := Prod.mk.inj h
          exact hmodes
  · obtain ⟨-, rfl⟩ := Prod.mk.inj h
    exact .refl v

-- ---------------------------------------------------------------------------
-- Files that are where they should be
-- ---------------------------------------------------------------------------

theorem verifyFile_ok {rs ns : List String} {bytes : List UInt8} {mode : Nat} (hpath : rawParts file.path = names ns)
    (hne : ns ≠ []) (hget : get v (host.root ++ rs ++ ns) = some (.file bytes mode)) (hsize : bytes.length = file.size)
    (hlarge : bytes.length ≤ MAX_BYTES) (hsha : host.sha256 bytes = file.sha256) :
    verifyFile host v (names rs) file = .ok () := by
  have hroot : isDirectory v (host.root ++ rs) = true := isDirectory_above (by rw [hget]; rfl) hne
  obtain ⟨mode', hmode⟩ := isDirectory_iff.mp hroot
  obtain ⟨front, n, rfl⟩ : ∃ front n, ns = front ++ [n] := ⟨ns.dropLast, ns.getLast hne, (List.dropLast_append_getLast hne).symm⟩
  have hparent : isDirectory v (host.root ++ (rs ++ front)) = true :=
    isDirectory_parent (n := n) (by rw [List.append_assoc, List.append_assoc, ← List.append_assoc host.root, hget]; rfl)
  have hthere : get v (host.root ++ (rs ++ (front ++ [n]))) = some (.file bytes mode) := by rwa [← List.append_assoc]
  have hwhole : names rs ++ rawParts file.path = names (rs ++ front ++ [n]) := by
    rw [hpath, ← names_append, List.append_assoc]
  unfold verifyFile
  dsimp only
  rw [hwhole, lstat_names hparent, ← List.append_assoc host.root, List.append_assoc, hget]
  dsimp only
  rw [if_neg (not_not.mpr hsize), List.append_assoc, resolve_names hthere (by simp), resolve_names hmode (by simp)]
  dsimp only
  rw [if_neg (not_not.mpr (by rw [← List.append_assoc]; exact List.prefix_append _ _)), hthere]
  dsimp only
  rw [List.take_of_length_le (by omega), if_neg (not_not.mpr hsha)]

theorem forM_ok {g : SkillFile → Except Fault Unit} (h : ∀ f ∈ files, g f = .ok ()) : files.forM g = .ok () := by
  induction files with
  | nil => rfl
  | cons f files ih =>
    rw [List.forM, h f List.mem_cons_self]
    exact ih fun f hf => h f (List.mem_cons_of_mem _ hf)

/-- The files are below `rs`, with whatever modes. -/
def Stored (host : Host) (v : Disk) (rs : List String) (listed : List Asset) : Prop :=
  ∀ a ∈ listed, ∃ mode, get v (host.root ++ rs ++ a.names) = some (.file a.bytes mode)

theorem verify_stored {rs : List String} (hstored : Stored host v rs listed) (hplaced : ∀ a ∈ listed, a.Placed)
    (hsize : ∀ a ∈ listed, a.bytes.length ≤ MAX_BYTES) :
    verify host v (names rs) (listed.map (Asset.skillFile host.sha256)) = .ok () := by
  refine forM_ok fun f hf => ?_
  obtain ⟨a, ha, rfl⟩ := List.mem_map.mp hf
  obtain ⟨mode, hmode⟩ := hstored a ha
  exact verifyFile_ok (rawParts_joined (hplaced a ha).nonempty (hplaced a ha).plain) (hplaced a ha).nonempty hmode rfl
    (hsize a ha) rfl

/-- What is published for a file. -/
def Asset.node (a : Asset) : Node String := .file a.bytes (if a.mode &&& 0o111 != 0 then 0o700 else 0o600)

theorem setPermissions_ok {rs : List String} (hplaced : a.Placed)
    (hstored : ∃ mode, get v (host.root ++ rs ++ a.names) = some (.file a.bytes mode)) :
    ∃ w, setPermissions host (names rs) (a.skillFile host.sha256) v = (.ok (), w) ∧
      ∀ q, get w q = if q = host.root ++ rs ++ a.names then some a.node else get v q := by
  obtain ⟨mode, hmode⟩ := hstored
  have hthere : get v (host.root ++ (rs ++ a.names)) = some (.file a.bytes mode) := by rwa [← List.append_assoc]
  have hpath : names rs ++ rawParts (a.skillFile host.sha256).path = names (rs ++ a.names) := by
    rw [names_append]
    exact congrArg _ (rawParts_joined hplaced.nonempty hplaced.plain)
  unfold setPermissions
  rw [bind_ok (run_get v), hpath, setMode, resolve_names hthere (by simp), Option.map_some]
  refine ⟨_, rfl, fun q => ?_⟩
  rw [get_change, List.append_assoc]
  split
  · next hq =>
    rw [hq, hthere]
    rfl
  · exact Option.map_id'

theorem setPermissions_listed {rs : List String} (hplaced : ∀ a ∈ listed, a.Placed) (hapart : listed.Pairwise Apart)
    (hstored : Stored host v rs listed) :
    ∃ w, (listed.map (Asset.skillFile host.sha256)).forM (setPermissions host (names rs)) v = (.ok ⟨⟩, w) ∧
      (∀ a ∈ listed, get w (host.root ++ rs ++ a.names) = some a.node) ∧
      ∀ q, (∀ a ∈ listed, q ≠ host.root ++ rs ++ a.names) → get w q = get v q := by
  induction listed generalizing v with
  | nil => exact ⟨v, rfl, by simp, fun _ _ => rfl⟩
  | cons a listed ih =>
    obtain ⟨hfirst, hrest⟩ := List.pairwise_cons.mp hapart
    have hother : ∀ b ∈ listed, host.root ++ rs ++ b.names ≠ host.root ++ rs ++ a.names := fun b hb heq =>
      (hfirst b hb).1 (List.append_cancel_left heq ▸ List.prefix_refl _)
    obtain ⟨u, hset, hu⟩ := setPermissions_ok (hplaced a List.mem_cons_self) (hstored a List.mem_cons_self)
    obtain ⟨w, hrun, hw, hsame⟩ := ih (v := u) (fun b hb => hplaced b (List.mem_cons_of_mem _ hb)) hrest fun b hb => by
      rw [hu, if_neg (hother b hb)]
      exact hstored b (List.mem_cons_of_mem _ hb)
    refine ⟨w, ?_, fun b hb => ?_, fun q hq => ?_⟩
    · rw [List.map_cons, List.forM, bind_ok hset]
      exact hrun
    · rcases List.mem_cons.mp hb with rfl | hb
      · rw [hsame _ fun c hc => (hother c hc).symm, hu, if_pos rfl]
      · exact hw b hb
    · rw [hsame q fun b hb => hq b (List.mem_cons_of_mem _ hb), hu, if_neg (hq a List.mem_cons_self)]

-- ---------------------------------------------------------------------------
-- `commit`
-- ---------------------------------------------------------------------------

/-- The files of the stage become those of the digest, and the rest of the stage goes. -/
theorem assets_moved (hassets : isDirectory v (host.root ++ ["skill-staging", stage, "assets"]) = true)
    (hskills : isDirectory v (host.root ++ ["skills"]) = true) (htarget : get v (host.root ++ ["skills", digest]) = none) :
    ∃ w, rename v host.links host.root (names ["skill-staging", stage, "assets"]) (names ["skills", digest]) = some w ∧
      ∀ r, get (removeAll w host.links host.root (names ["skill-staging", stage])) (host.root ++ ["skills", digest] ++ r) =
        get v (host.root ++ ["skill-staging", stage, "assets"] ++ r) := by
  have hsnoc : ∀ (ns : List String) (n : String), host.root ++ (ns ++ [n]) = host.root ++ ns ++ [n] := fun ns n =>
    (List.append_assoc _ _ _).symm
  obtain ⟨mode, hmode⟩ := isDirectory_iff.mp hassets
  obtain ⟨mode', hmode'⟩ := isDirectory_iff.mp hskills
  have hstage : isDirectory v (host.root ++ ["skill-staging", stage]) = true :=
    isDirectory_parent (n := "assets") (by rw [← hsnoc]; exact Option.isSome_of_eq_some hmode)
  obtain ⟨mode'', hmode''⟩ := isDirectory_iff.mp hstage
  have hfrom : locate v host.links host.root (names ["skill-staging", stage, "assets"]) =
      some (host.root ++ ["skill-staging", stage, "assets"]) :=
    (locate_names hstage).trans (congrArg some (hsnoc ["skill-staging", stage] "assets").symm)
  have hto : resolve v host.links host.root (names ["skills", digest]).dropLast = some (host.root ++ ["skills"]) :=
    resolve_names hmode' (by simp)
  have hlast : (names ["skills", digest]).getLast? = some (.name digest) := rfl
  have hout : ¬ host.root ++ ["skill-staging", stage, "assets"] <+: host.root ++ ["skills"] := by
    rw [List.prefix_append_right_inj]
    simp
  have hfits : isDirectory v (host.root ++ ["skills"]) = true ∧
      ¬ host.root ++ ["skill-staging", stage, "assets"] <+: host.root ++ ["skills"] ∧
      (get v (host.root ++ ["skill-staging", stage, "assets"])).isSome = true ∧
      Replaces v (host.root ++ ["skill-staging", stage, "assets"]) (host.root ++ ["skills"] ++ [digest]) := by
    refine ⟨hskills, hout, Option.isSome_of_eq_some hmode, ?_⟩
    rw [Replaces, ← hsnoc, List.singleton_append, htarget]
    trivial
  refine ⟨graft v (host.root ++ ["skill-staging", stage, "assets"]) (host.root ++ ["skills"]) digest hskills hout, ?_,
    fun r => ?_⟩
  · rw [rename, hfrom, hto, hlast]
    exact dif_pos hfits
  · have hstaging : isDirectory (graft v (host.root ++ ["skill-staging", stage, "assets"]) (host.root ++ ["skills"]) digest
        hskills hout) (host.root ++ ["skill-staging"]) = true := by
      rw [isDirectory, get_graft, if_neg, if_neg]
      · exact isDirectory_parent (n := stage) (by rw [← hsnoc]; exact Option.isSome_of_eq_some hmode'')
      · rw [List.prefix_append_right_inj]
        simp
      · rw [← hsnoc, List.prefix_append_right_inj]
        simp
    have hgone : locate (graft v (host.root ++ ["skill-staging", stage, "assets"]) (host.root ++ ["skills"]) digest hskills hout)
        host.links host.root (names ["skill-staging", stage]) = some (host.root ++ ["skill-staging"] ++ [stage]) :=
      locate_names hstaging
    have hapart : ¬ host.root ++ ["skill-staging"] ++ [stage] <+: host.root ++ ["skills", digest] ++ r := by
      rw [← hsnoc, List.append_assoc, List.prefix_append_right_inj]
      simp
    rw [removeAll, hgone]
    dsimp only
    rw [get_prune, if_neg hapart, get_graft, ← hsnoc, List.singleton_append, if_pos (List.prefix_append _ _), shifted_append]

/-- Every file is where the manifest has it, as it was read. Nothing else is different in the stage, or on the way to the
skill. -/
structure Uploaded (host : Host) (stage digest : String) (listed : List Asset) (w u : Disk) : Prop where
  files : Stored host u ["skill-staging", stage, "assets"] listed
  others : ∀ q, host.stagePlace stage <+: q ∨ q <+: host.root ++ ["skills", digest] →
    (∀ a ∈ listed, q ≠ host.root ++ ["skill-staging", stage, "assets"] ++ a.names) → get u q = get w q

/-- The files of the digest are those that are listed, with what they hold and whether they can be executed. -/
structure Published (host : Host) (v : Disk) (digest : String) (listed : List Asset) : Prop where
  directory : isDirectory v (host.root ++ ["skills", digest]) = true
  files : ∀ a ∈ listed, get v (host.root ++ ["skills", digest] ++ a.names) = some a.node
  only : ∀ r node, get v (host.root ++ ["skills", digest] ++ r) = some node →
    node.isDirectory = true ∨ ∃ a ∈ listed, r = a.names

/-- What a manifest has to be for the stage to hold its files. -/
structure Listed (host : Host) (digest : String) (listed : List Asset) : Prop where
  placed : ∀ a ∈ listed, a.Placed
  apart : listed.Pairwise Apart
  size : ∀ a ∈ listed, a.bytes.length ≤ MAX_BYTES
  valid : validate host.sha256 digest (listed.map (Asset.skillFile host.sha256)) = .ok ()
  digest : PlainName digest.toList
  slice : host.fromSlice (toVec (listed.map (Asset.skillFile host.sha256))) = some (listed.map (Asset.skillFile host.sha256))

/-- The manifest of a stage is still there after the files have come. -/
theorem Laid.manifest (hlaid : Laid host w stage digest (listed.map (Asset.skillFile host.sha256)))
    (huploaded : Uploaded host stage digest listed w u) :
    readFile u host.links host.root (names ["skill-staging", stage, "manifest.json"]) =
      some (toVec (listed.map (Asset.skillFile host.sha256))) := by
  have hthere : get u (host.root ++ ["skill-staging", stage, "manifest.json"]) =
      some (.file (toVec (listed.map (Asset.skillFile host.sha256))) host.fileMode) := by
    have hwhole : host.root ++ ["skill-staging", stage, "manifest.json"] = host.stagePlace stage ++ ["manifest.json"] :=
      (List.append_assoc host.root ["skill-staging", stage] ["manifest.json"]).symm
    rw [hwhole, huploaded.others _ (.inl (List.prefix_append _ _)) fun a _ heq => by
      rw [← stage_assets] at heq
      simp at heq]
    exact (hlaid.inside _ _).mpr (.inl ⟨rfl, rfl⟩)
  rw [readFile, stat, resolve_names hthere (by simp), Option.bind_some, hthere]

/-- No more than 256 KiB is published. -/
theorem commit_short {path : List (PathPart String)} (h : commit host stage digest v = (.ok path, w)) :
    ∃ bytes, readFile v host.links host.root (names ["skill-staging"] ++ rawParts stage ++ names ["manifest.json"]) = some bytes ∧
      bytes.length ≤ 256 * 1024 := by
  unfold commit at h
  split at h
  · dsimp only at h
    rcases checkStage_cases host (names ["skill-staging"] ++ rawParts stage) digest v with
      ⟨e, hcheck⟩ | ⟨files, bytes, -, hchecked⟩
    · rw [bind_error hcheck] at h
      cases h
    · exact ⟨bytes, hchecked.stored, hchecked.short⟩
  · cases h

theorem commit_ok (hlisted : Listed host digest listed) (huuid : parseUuid stage = true)
    (hlaid : Laid host w stage digest (listed.map (Asset.skillFile host.sha256)))
    (huploaded : Uploaded host stage digest listed w u)
    (hshort : (toVec (listed.map (Asset.skillFile host.sha256))).length ≤ 256 * 1024) :
    ∃ x, commit host stage digest u = (.ok (names ["skills", digest]), x) ∧ Published host x digest listed := by
  have hchecked : Checked host u (names ["skill-staging", stage]) digest (listed.map (Asset.skillFile host.sha256))
      (toVec (listed.map (Asset.skillFile host.sha256))) :=
    ⟨hlaid.manifest huploaded, hshort, hlisted.slice, hlisted.valid, verify_stored huploaded.files hlisted.placed hlisted.size⟩
  obtain ⟨y, hmodes, hfiles, hsame⟩ := setPermissions_listed hlisted.placed hlisted.apart huploaded.files
  have hkept : ∀ q, host.stagePlace stage <+: q ∨ q <+: host.root ++ ["skills", digest] →
      (∀ a ∈ listed, q ≠ host.root ++ ["skill-staging", stage, "assets"] ++ a.names) → get y q = get w q := fun q hq hapart =>
    (hsame q hapart).trans (huploaded.others q hq hapart)
  have hservice : ∀ r, r <+: ["skills", digest] → get y (host.root ++ r) = get w (host.root ++ r) := by
    refine fun r hr => hkept _ (.inr ((List.prefix_append_right_inj _).mpr hr)) fun a _ heq => ?_
    rw [List.append_assoc] at heq
    rw [List.append_cancel_left heq] at hr
    exact absurd (List.cons_prefix_cons.mp hr).1 (by decide)
  have hassets : isDirectory y (host.root ++ ["skill-staging", stage, "assets"]) = true := by
    have hbefore := (hlaid.inside ["assets"] _).mpr (.inr ⟨.inl (List.prefix_refl _), rfl⟩)
    rw [stage_assets, List.append_nil] at hbefore
    rw [isDirectory, hkept _ (.inl ⟨["assets"], by simp [Host.stagePlace]⟩) fun a ha heq => ?_, hbefore]
    · rfl
    · exact (hlisted.placed a ha).nonempty (List.append_right_eq_self.mp heq.symm)
  have hskills : isDirectory y (host.root ++ ["skills"]) = true := by
    rw [isDirectory, hservice _ (by simp)]
    exact hlaid.skills
  obtain ⟨moved, hrename, hmoved⟩ := assets_moved hassets hskills ((hservice _ (List.prefix_refl _)).trans hlaid.target)
  refine ⟨removeAll moved host.links host.root (names ["skill-staging", stage]), ?_, ?_, fun a ha => ?_, fun r node hnode => ?_⟩
  · have hdirectory : names ["skill-staging"] ++ rawParts stage = names ["skill-staging", stage] := by
      rw [rawParts_plain (plainName_of_parseUuid huuid)]
      rfl
    have htarget : names ["skills"] ++ rawParts digest = names ["skills", digest] := by
      rw [rawParts_plain hlisted.digest]
      rfl
    have hpath : names ["skill-staging", stage] ++ names ["assets"] = names ["skill-staging", stage, "assets"] := rfl
    unfold commit
    rw [if_pos huuid]
    dsimp only
    rw [hdirectory, htarget, hpath, bind_ok hchecked.run, bind_ok hmodes, bind_ok (run_get y), hrename]
    rfl
  · have hhere := hmoved []
    rw [List.append_nil, List.append_nil] at hhere
    rw [isDirectory, hhere]
    exact hassets
  · rw [hmoved]
    exact hfiles a ha
  · rw [hmoved] at hnode
    by_cases hr : ∃ a ∈ listed, r = a.names
    · exact .inr hr
    rw [← stage_assets, hkept _ (.inl (List.prefix_append _ _)) fun a ha heq => by
      rw [stage_assets] at heq
      exact hr ⟨a, ha, List.append_cancel_left heq⟩] at hnode
    rcases (hlaid.inside _ _).mp hnode with ⟨heq, -⟩ | ⟨-, rfl⟩
    · exact absurd (List.cons.inj heq).1 (by decide)
    · exact .inl rfl

end RemoteCodex.Skills
