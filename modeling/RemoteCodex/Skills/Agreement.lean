import RemoteCodex.Skills.Publishing

/-!
# What the client lists and the server takes

The client bounds how many files a skill has and how large they are, the server
also how long their paths are, what is in them, and how long the manifest is.
Where these bounds hold a manifest goes all the way to being published.
-/

namespace RemoteCodex.Skills

open Files.Links
open Interact (Table)
open Transfer (Fault PlainName fault rawParts)

variable {host : Host} {v w u : Disk} {stage digest : String} {files : List SkillFile}
variable {a : Asset} {listed other : List Asset} {root : List (OsString × Entry)}

-- ---------------------------------------------------------------------------
-- An upload
-- ---------------------------------------------------------------------------

/-- Files are put where there are directories for them. -/
theorem exists_stored {place : List String} (hplaced : ∀ a ∈ listed, a.Placed) (hapart : listed.Pairwise Apart)
    (hparents : ∀ a ∈ listed, isDirectory v (place ++ a.names.dropLast) = true)
    (hfree : ∀ a ∈ listed, isDirectory v (place ++ a.names) = false) :
    ∃ u, (∀ a ∈ listed, get u (place ++ a.names) = some (.file a.bytes 0o600)) ∧
      ∀ q, (∀ a ∈ listed, q ≠ place ++ a.names) → get u q = get v q := by
  induction listed generalizing v with
  | nil => exact ⟨v, by simp, fun _ _ => rfl⟩
  | cons a listed ih =>
    obtain ⟨hfirst, hrest⟩ := List.pairwise_cons.mp hapart
    have hname : a.names.dropLast ++ [a.names.getLast (hplaced a List.mem_cons_self).nonempty] = a.names :=
      List.dropLast_append_getLast _
    have hwhole : place ++ a.names.dropLast ++ [a.names.getLast (hplaced a List.mem_cons_self).nonempty] = place ++ a.names := by
      rw [List.append_assoc, hname]
    have hput : ∀ q, get (put v (place ++ a.names.dropLast) (a.names.getLast (hplaced a List.mem_cons_self).nonempty)
        (.file a.bytes 0o600) (hparents a List.mem_cons_self) fun hdirectory => by
          rw [hwhole, hfree a List.mem_cons_self] at hdirectory
          cases hdirectory) q = if q = place ++ a.names then some (.file a.bytes 0o600) else get v q := by
      intro q
      rw [get_put]
      simp only [hwhole]
    generalize put v _ _ _ _ _ = next at hput
    have hapart : ∀ b ∈ listed, ∀ r, r <+: b.names → place ++ r ≠ place ++ a.names := fun b hb r hr heq =>
      (hfirst b hb).1 (List.append_cancel_left heq ▸ hr)
    obtain ⟨u, hfiles, hsame⟩ := ih (v := next) (fun b hb => hplaced b (List.mem_cons_of_mem _ hb)) hrest
      (fun b hb => by
        rw [isDirectory, hput, if_neg (hapart b hb _ (List.dropLast_prefix _))]
        exact hparents b (List.mem_cons_of_mem _ hb))
      fun b hb => by
        rw [isDirectory, hput, if_neg (hapart b hb _ (List.prefix_refl _))]
        exact hfree b (List.mem_cons_of_mem _ hb)
    refine ⟨u, fun b hb => ?_, fun q hq => ?_⟩
    · rcases List.mem_cons.mp hb with rfl | hb
      · rw [hsame _ fun c hc => (hapart c hc _ (List.prefix_refl _)).symm, hput, if_pos rfl]
      · exact hfiles b hb
    · rw [hsame q fun b hb => hq b (List.mem_cons_of_mem _ hb), hput, if_neg (hq a List.mem_cons_self)]

/-- No file is where another one has a directory. -/
theorem not_above (hplaced : ∀ a ∈ listed, a.Placed) (hapart : listed.Pairwise Apart) {b : Asset} (ha : a ∈ listed)
    (hb : b ∈ listed) : ¬ a.names <+: b.names.dropLast := by
  intro h
  by_cases hab : a = b
  · have hlength := h.length_le
    have hpos := List.length_pos_iff.mpr (hplaced b hb).nonempty
    rw [hab, List.length_dropLast] at hlength
    omega
  · exact (hapart.forall ha hb hab).1 (h.trans (List.dropLast_prefix _))

/-- The files of a stage can be uploaded. -/
theorem exists_uploaded (hlisted : Listed host digest listed)
    (hlaid : Laid host w stage digest (listed.map (Asset.skillFile host.sha256))) :
    ∃ u, Uploaded host stage digest listed w u := by
  have hnames : ∀ a ∈ listed, normalNames (a.skillFile host.sha256).path = a.names := fun a ha => (hlisted.placed a ha).normalNames
  have hparents : ∀ a ∈ listed, isDirectory w (host.root ++ ["skill-staging", stage, "assets"] ++ a.names.dropLast) = true := by
    intro a ha
    have hholds : Holds (listed.map (Asset.skillFile host.sha256)) ("assets" :: a.names.dropLast) :=
      .inr ⟨a.skillFile host.sha256, List.mem_map_of_mem ha, by simp only [hnames a ha]; exact List.prefix_refl _⟩
    rw [← stage_assets]
    exact isDirectory_iff.mpr ⟨_, (hlaid.inside _ _).mpr (.inr ⟨hholds, rfl⟩)⟩
  have hfree : ∀ a ∈ listed, isDirectory w (host.root ++ ["skill-staging", stage, "assets"] ++ a.names) = false := by
    intro a ha
    rw [Bool.eq_false_iff]
    intro hdirectory
    obtain ⟨mode, hmode⟩ := isDirectory_iff.mp hdirectory
    rw [← stage_assets] at hmode
    rcases (hlaid.inside _ _).mp hmode with ⟨-, hnode⟩ | ⟨hholds | ⟨f, hf, hholds⟩, -⟩
    · cases hnode
    · exact (hlisted.placed a ha).nonempty (List.prefix_nil.mp (List.cons_prefix_cons.mp hholds).2)
    · obtain ⟨b, hb, rfl⟩ := List.mem_map.mp hf
      rw [hnames b hb] at hholds
      exact not_above hlisted.placed hlisted.apart ha hb (List.cons_prefix_cons.mp hholds).2
  obtain ⟨u, hfiles, hsame⟩ := exists_stored hlisted.placed hlisted.apart hparents hfree
  exact ⟨u, fun a ha => ⟨_, hfiles a ha⟩, fun q _ hq => hsame q hq⟩

-- ---------------------------------------------------------------------------
-- Agreement
-- ---------------------------------------------------------------------------

/-- The server takes the manifest in, and publishes the files once they have come. -/
def Accepts (host : Host) (v : Disk) (stage digest : String) (files : List SkillFile) (listed : List Asset) : Prop :=
  ∃ w, prepare host stage digest files v = (.ok (.pending stage (names ["skill-staging", stage, "assets"])), w) ∧
    ∀ u, Uploaded host stage digest listed w u →
      ∃ x, commit host stage digest u = (.ok (names ["skills", digest]), x) ∧ Published host x digest listed

theorem Uploaded.of_mem (hmem : ∀ a, a ∈ listed ↔ a ∈ other) (h : Uploaded host stage digest listed w u) :
    Uploaded host stage digest other w u where
  files a ha := h.files a ((hmem a).mpr ha)
  others q hq hout := h.others q hq fun a ha => hout a ((hmem a).mp ha)

theorem Published.of_mem (hmem : ∀ a, a ∈ listed ↔ a ∈ other) (h : Published host v digest listed) :
    Published host v digest other where
  directory := h.directory
  files a ha := h.files a ((hmem a).mpr ha)
  only r node hnode := (h.only r node hnode).imp_right fun ⟨a, ha, hr⟩ => ⟨a, (hmem a).mp ha, hr⟩

theorem Accepts.of_mem (hmem : ∀ a, a ∈ listed ↔ a ∈ other) (h : Accepts host v stage digest files listed) :
    Accepts host v stage digest files other := by
  obtain ⟨w, hprepare, hcommit⟩ := h
  refine ⟨w, hprepare, fun u hu => ?_⟩
  obtain ⟨x, hrun, hpublished⟩ := hcommit u (hu.of_mem fun a => (hmem a).symm)
  exact ⟨x, hrun, hpublished.of_mem hmem⟩

theorem validate_of_prepare {ready : Prepared} (h : prepare host stage digest files v = (.ok ready, w)) :
    validate host.sha256 digest files = .ok () := by
  cases hvalid : validate host.sha256 digest files with
  | ok => rfl
  | error e =>
    unfold prepare at h
    rw [hvalid, bind_error (run_lift _ _)] at h
    cases h

/-- What of a manifest the client sees to. -/
structure Sent (host : Host) (listed : List Asset) : Prop where
  placed : ∀ a ∈ listed, a.Placed
  apart : listed.Pairwise Apart
  count : listed.length ≤ 500
  size : (listed.map fun a => a.bytes.length).sum ≤ MAX_BYTES
  skill : ∃ f ∈ listed.map (Asset.skillFile host.sha256), f.path = "SKILL.md"
  slice : host.fromSlice (toVec (listed.map (Asset.skillFile host.sha256))) = some (listed.map (Asset.skillFile host.sha256))

theorem Sent.fits (hsha : ∀ bytes, Hex (host.sha256 bytes)) (hsent : Sent host listed)
    (hvalid : validate host.sha256 (host.sha256 (toVec (listed.map (Asset.skillFile host.sha256))))
      (listed.map (Asset.skillFile host.sha256)) = .ok ()) :
    Listed host (host.sha256 (toVec (listed.map (Asset.skillFile host.sha256)))) listed where
  placed := hsent.placed
  apart := hsent.apart
  size _ ha := (List.single_le_sum (fun _ _ => Nat.zero_le _) _ (List.mem_map_of_mem ha)).trans hsent.size
  valid := hvalid
  digest := (hsha _).plain
  slice := hsent.slice

theorem accepts_iff (hsha : ∀ bytes, Hex (host.sha256 bytes)) (hsent : Sent host listed)
    (hready : Ready host v stage (host.sha256 (toVec (listed.map (Asset.skillFile host.sha256))))) :
    Accepts host v stage (host.sha256 (toVec (listed.map (Asset.skillFile host.sha256))))
      (listed.map (Asset.skillFile host.sha256)) listed ↔ Within listed := by
  have hpaths := validate_listed hsha hsent.placed hsent.apart hsent.count hsent.size hsent.skill
  have hne : listed ≠ [] := by
    rintro rfl
    obtain ⟨f, hf, -⟩ := hsent.skill
    cases hf
  have hlength := length_toVec hsha hne
  constructor
  · rintro ⟨w, hprepare, hcommit⟩
    have hvalid := validate_of_prepare hprepare
    have hlisted := hsent.fits hsha hvalid
    obtain ⟨w', hrun, hlaid⟩ := prepare_ok hvalid hlisted.digest hready
    obtain rfl : w = w' := (Prod.mk.inj (hprepare.symm.trans hrun)).2
    obtain ⟨u, huploaded⟩ := exists_uploaded hlisted hlaid
    obtain ⟨x, hcommitted, -⟩ := hcommit u huploaded
    obtain ⟨bytes, hread, hshort⟩ := commit_short hcommitted
    rw [rawParts_plain (plainName_of_parseUuid hready.uuid)] at hread
    obtain rfl := Option.some.inj (hread.symm.trans (hlaid.manifest huploaded))
    exact ⟨hpaths.mp hvalid, hlength ▸ hshort⟩
  · intro hwithin
    have hvalid := hpaths.mpr hwithin.paths
    have hlisted := hsent.fits hsha hvalid
    obtain ⟨w, hrun, hlaid⟩ := prepare_ok hvalid hlisted.digest hready
    exact ⟨w, hrun, fun u hu => commit_ok hlisted hready.uuid hlaid hu (hlength ▸ hwithin.text)⟩

/-- A server that has the files of the digest already. -/
structure Stocked (host : Host) (v : Disk) (digest : String) (listed : List Asset) : Prop where
  root : isDirectory v host.root = true
  owned : ∀ p, host.root <+: p → host.owned p = true
  skills : Usable v (host.root ++ ["skills"])
  stored : Stored host v ["skills", digest] listed

theorem prepare_known (hsha : ∀ bytes, Hex (host.sha256 bytes)) (hsent : Sent host listed)
    (hstocked : Stocked host v (host.sha256 (toVec (listed.map (Asset.skillFile host.sha256)))) listed) :
    (∃ w, prepare host stage (host.sha256 (toVec (listed.map (Asset.skillFile host.sha256))))
      (listed.map (Asset.skillFile host.sha256)) v =
        (.ok (.ready (names ["skills", host.sha256 (toVec (listed.map (Asset.skillFile host.sha256)))])), w)) ↔
      ∀ a ∈ listed, Takes (joined a.names) := by
  rw [← validate_listed hsha hsent.placed hsent.apart hsent.count hsent.size hsent.skill]
  refine ⟨fun ⟨w, hrun⟩ => validate_of_prepare hrun, fun hvalid => ?_⟩
  have hlisted := hsent.fits hsha hvalid
  generalize host.sha256 (toVec (listed.map (Asset.skillFile host.sha256))) = digest at hvalid hlisted hstocked
  obtain ⟨w, hmake, hskills, hsame⟩ := makePrivate_one hstocked.root hstocked.owned hstocked.skills
  have hstored : Stored host w ["skills", digest] listed := fun a ha => by
    rw [hsame _ (by simp)]
    exact hstocked.stored a ha
  have htarget : names ["skills"] ++ rawParts digest = names ["skills", digest] := by
    rw [rawParts_plain hlisted.digest]
    rfl
  have hstat : (stat w host.links host.root (names ["skills", digest])).isSome = true := by
    obtain ⟨f, hf, -⟩ := hsent.skill
    obtain ⟨a, ha, -⟩ := List.mem_map.mp hf
    obtain ⟨mode, hmode⟩ := hstored a ha
    have hdirectory := isDirectory_above (Option.isSome_of_eq_some hmode) (hsent.placed a ha).nonempty
    obtain ⟨mode', hmode'⟩ := isDirectory_iff.mp hdirectory
    rw [stat, resolve_names hmode' (by simp), Option.bind_some, hmode']
    rfl
  refine ⟨w, ?_⟩
  unfold prepare
  rw [hvalid, bind_ok (run_lift _ _), bind_ok hmake]
  dsimp only
  rw [bind_ok (run_get w), htarget, if_pos hstat, bind_ok (run_get w), verify_stored hstored hsent.placed hlisted.size]
  rfl

/-- What the client lists is taken in and published, if the server's bounds hold too. -/
theorem manifests_agree (hsha : ∀ bytes, Hex (host.sha256 bytes)) (hroot : (Entry.directory root).Proper)
    (hmanifest : manifest host.sha256 root = .ok files) (hslice : host.fromSlice (toVec files) = some files)
    (hskill : ∃ f ∈ files, f.path = "SKILL.md") :
    (∀ v stage, Ready host v stage (host.sha256 (toVec files)) →
      (Accepts host v stage (host.sha256 (toVec files)) files (assets [] root) ↔ Within (assets [] root))) ∧
    (∀ v stage, Stocked host v (host.sha256 (toVec files)) (assets [] root) →
      ((∃ w, prepare host stage (host.sha256 (toVec files)) files v =
        (.ok (.ready (names ["skills", host.sha256 (toVec files)])), w)) ↔ ∀ a ∈ assets [] root, Takes (joined a.names))) ∧
    ∀ v stage digest e w, commit host stage digest v = (.error e, w) → SameButModes v w := by
  obtain ⟨listed, rfl, hperm, hcount, hsize⟩ := manifest_lists hmanifest
  have hapart : (assets [] root).Pairwise Apart := hroot.apart
  have hsent : Sent host listed := ⟨fun a ha => placed_of_mem hroot (hperm.mem_iff.mp ha),
    (hperm.pairwise_iff fun h => Std.Symm.symm _ _ h).mpr hapart, hcount, hsize, hskill, hslice⟩
  have hmem : ∀ a, a ∈ listed ↔ a ∈ assets [] root := fun a => hperm.mem_iff
  refine ⟨fun v stage hready => ?_, fun v stage hstocked => ?_, fun v stage digest e w => commit_error⟩
  · constructor
    · exact fun haccepts => ((accepts_iff hsha hsent hready).mp (haccepts.of_mem fun a => (hmem a).symm)).perm hperm
    · exact fun hwithin => ((accepts_iff hsha hsent hready).mpr (hwithin.perm hperm.symm)).of_mem hmem
  · have hstored : Stocked host v (host.sha256 (toVec (listed.map (Asset.skillFile host.sha256)))) listed :=
      ⟨hstocked.root, hstocked.owned, hstocked.skills, fun a ha => hstocked.stored a ((hmem a).mp ha)⟩
    rw [prepare_known hsha hsent hstored]
    exact ⟨fun h a ha => h a ((hmem a).mpr ha), fun h a ha => h a ((hmem a).mp ha)⟩

-- ---------------------------------------------------------------------------
-- One skill that goes through, and one that does not
-- ---------------------------------------------------------------------------

def EMPTY : String := "e3b0c44298fc1c149afbf4c8996fb92427ae41e4649b934ca495991b7852b855"

def someSkill : List (OsString × Entry) := [(.text "SKILL.md", .file [] 0o644)]

def someFiles : List SkillFile := [⟨"SKILL.md", 0, EMPTY, false⟩]

/-- A service that knows the digests of what it is sent. -/
def someHost : Host where
  root := []
  links := 40
  sha256 bytes :=
    if bytes = [] then EMPTY
    else if bytes = toVec someFiles then "60937339186a1fd3d5b289997c3d6506381be936c26a2fa628be105cdd61721e"
    else "31159a59e73fbdf6b122755947728a6f644e00a4df38e485ccbf0fae58b54777"
  fromSlice bytes := if bytes = toVec someFiles then some someFiles else none
  owned _ := true
  old _ := false
  fileMode := 0o600

theorem hex_of_digits {text : String} (hlength : text.toList.length = 64)
    (hdigits : text.toList.all (fun c => hexDigits.contains c) = true) : Hex text :=
  ⟨text.toList, (String.ofList_toList).symm, hlength, fun c hc => List.contains_iff_mem.mp (List.all_eq_true.mp hdigits c hc)⟩

theorem someHost_hex (bytes : List UInt8) : Hex (someHost.sha256 bytes) := by
  show Hex (if bytes = [] then _ else if _ then _ else _)
  split
  · exact hex_of_digits (by decide) (by decide)
  split
  · exact hex_of_digits (by decide) (by decide)
  · exact hex_of_digits (by decide) (by decide)

def newDisk : Disk where
  nodes := (∅ : Table (List String) (Node String)).insert [] (.directory 0o700)
  rooted p n h := by
    rw [Table.lookup_insert_if, if_neg (by simp)] at h
    cases h

theorem get_newDisk {p : List String} (h : p ≠ []) : get newDisk p = none :=
  (Table.lookup_insert_if _ _ _ _).trans (if_neg h)

def someStage : String := "67e55044-10b1-426f-9247-bb680e5fe0c8"

theorem ready_newDisk (digest : String) : Ready someHost newDisk someStage digest where
  root := rfl
  owned _ _ := rfl
  uuid := by decide
  skills := .inl rfl
  staging := .inl rfl
  target := get_newDisk (by simp)
  fresh := rfl
  room := by decide

/-- A directory without directories is read at once. -/
theorem manifest_flat {sha256 : List UInt8 → String} {root : List (OsString × Entry)} {files : List SkillFile} (total : Nat)
    (h : read sha256 [] ⟨[], [], 0⟩ root = .ok ⟨[], files, total⟩)
    (hsorted : files.Pairwise fun a b => decide (a.path ≤ b.path) = true) : manifest sha256 root = .ok files := by
  have hdone : walk sha256 ⟨[], files, total⟩ = .ok ⟨[], files, total⟩ := by rw [walk]
  have hwalk : walk sha256 ⟨[([], root)], [], 0⟩ = .ok ⟨[], files, total⟩ := by
    rw [walk]
    dsimp only
    split
    · next e herror =>
      rw [h] at herror
      cases herror
    · next next hread =>
      rw [h] at hread
      obtain rfl := Except.ok.inj hread
      exact hdone
  rw [manifest, hwalk]
  dsimp only
  rw [List.mergeSort_of_pairwise hsorted]

theorem proper_flat {root : List (OsString × Entry)} (hfiles : ∀ e ∈ root, ∃ s bytes mode, e = (.text s, .file bytes mode) ∧
    PlainName s.toList) (hdistinct : (root.map Prod.fst).Nodup) : (Entry.directory root).Proper := by
  refine .directory (fun s hs => ?_) hdistinct fun e he => ?_
  · obtain ⟨e, he, heq⟩ := List.mem_map.mp hs
    obtain ⟨t, bytes, mode, rfl, hplain⟩ := hfiles e he
    obtain rfl := OsString.text.inj heq
    exact hplain
  · obtain ⟨t, bytes, mode, rfl, -⟩ := hfiles e he
    exact .file

theorem someHost_slice : someHost.fromSlice (toVec someFiles) = some someFiles := by
  show (if toVec someFiles = toVec someFiles then some someFiles else none) = _
  exact if_pos rfl

theorem manifest_someSkill : manifest someHost.sha256 someSkill = .ok someFiles :=
  manifest_flat 0 rfl (List.pairwise_singleton _ _)

/-- The manifest of one empty file goes through. -/
theorem manifests_agree_empty_file :
    Accepts someHost newDisk someStage (someHost.sha256 (toVec someFiles)) someFiles (assets [] someSkill) := by
  have hproper : (Entry.directory someSkill).Proper := by
    refine proper_flat (fun e he => ?_) (by decide)
    obtain rfl := List.mem_singleton.mp he
    exact ⟨"SKILL.md", [], 0o644, rfl, by decide, by decide, by decide, by decide⟩
  refine ((manifests_agree someHost_hex hproper manifest_someSkill someHost_slice ⟨_, List.mem_singleton_self _, rfl⟩).1 _ _
    (ready_newDisk _)).mpr ⟨?_, by decide⟩
  intro a ha
  obtain rfl : a = ⟨["SKILL.md"], [], 0o644⟩ := List.mem_singleton.mp ha
  exact ⟨by decide, by decide⟩

def newlineSkill : List (OsString × Entry) := [(.text "SKILL.md", .file [] 0o644), (.text "a\nb", .file [] 0o644)]

def newlineFiles : List SkillFile := [⟨"SKILL.md", 0, EMPTY, false⟩, ⟨"a\nb", 0, EMPTY, false⟩]

/-- The client lists a name with a newline in it, and the server does not take it. -/
theorem newline_refused : (Entry.directory newlineSkill).Proper ∧ manifest someHost.sha256 newlineSkill = .ok newlineFiles ∧
    (∃ f ∈ newlineFiles, f.path = "SKILL.md") ∧
    Ready someHost newDisk someStage (someHost.sha256 (toVec newlineFiles)) ∧
    prepare someHost someStage (someHost.sha256 (toVec newlineFiles)) newlineFiles newDisk = (.error invalid, newDisk) := by
  refine ⟨?_, manifest_flat 0 rfl ?_, ⟨_, List.mem_cons_self, rfl⟩, ready_newDisk _, ?_⟩
  · refine proper_flat (fun e he => ?_) (by decide)
    rcases List.mem_cons.mp he with rfl | he
    · exact ⟨"SKILL.md", [], 0o644, rfl, by decide, by decide, by decide, by decide⟩
    · obtain rfl := List.mem_singleton.mp he
      exact ⟨"a\nb", [], 0o644, rfl, by decide, by decide, by decide, by decide⟩
  · simp [newlineFiles]
  · have hvalid : validate someHost.sha256 (someHost.sha256 (toVec newlineFiles)) newlineFiles = .error invalid := by
      have hfiles : validateFiles [] 0 newlineFiles = .error invalid := by decide
      rw [validate, hfiles]
      simp [newlineFiles]
    unfold prepare
    rw [hvalid, bind_error (run_lift _ _)]

end RemoteCodex.Skills
