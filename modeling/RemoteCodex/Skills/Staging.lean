import RemoteCodex.Skills.Limits

/-!
# What `prepare` leaves

A server that is ready for a manifest it takes has the directories for its
files afterwards, and nothing else in the new stage but the manifest.
-/

namespace RemoteCodex.Skills

open Files.Links
open Protocol (hexDigit parseUuid simpleUuid hyphenatedUuid URN)
open Transfer (Fault PlainName fault rawParts)

variable {host : Host} {v w : Disk} {stage digest : String} {files : List SkillFile} {ns ms : List String}
variable {P : List String → Prop}

/-- A directory is made where there is none, and left alone where it is private. -/
theorem makePrivate_ok (hroot : isDirectory v host.root = true) (howned : ∀ p, host.root <+: p → host.owned p = true)
    (hclear : ∀ ms, ms <+: ns → get v (host.root ++ ms) = none ∨ isDirectory v (host.root ++ ms) = true) (hne : ns ≠ [])
    (hprivate : ∀ mode, get v (host.root ++ ns) = some (.directory mode) → mode &&& 0o077 = 0) :
    ∃ w, makePrivate host ns v = (.ok (), w) ∧ ∀ q, get w q =
      if get v q = none ∧ host.root <+: q ∧ q <+: host.root ++ ns then some (.directory 0o700) else get v q := by
  obtain ⟨w, hmake, hw⟩ : ∃ w, makeAll v host.links 0o700 host.root ns = (true, w) ∧ ∀ q, get w q =
      if get v q = none ∧ host.root <+: q ∧ q <+: host.root ++ ns then some (.directory 0o700) else get v q :=
    makeAll_clear hroot hclear
  refine ⟨w, ?_, hw⟩
  have hthere : ∀ ms, ms <+: ns → (get v (host.root ++ ms) = none ∧ get w (host.root ++ ms) = some (.directory 0o700)) ∨
      ∃ mode, get v (host.root ++ ms) = some (.directory mode) ∧ get w (host.root ++ ms) = some (.directory mode) := by
    intro ms hms
    rcases hclear ms hms with hnone | hdirectory
    · have hbelow : host.root ++ ms <+: host.root ++ ns := (List.prefix_append_right_inj _).mpr hms
      exact .inl ⟨hnone, by rw [hw, if_pos ⟨hnone, List.prefix_append _ _, hbelow⟩]⟩
    · obtain ⟨mode, hmode⟩ := isDirectory_iff.mp hdirectory
      exact .inr ⟨mode, hmode, by rw [hw, hmode, if_neg (by simp)]⟩
  obtain ⟨front, n, rfl⟩ : ∃ front n, ns = front ++ [n] := ⟨ns.dropLast, ns.getLast hne, (List.dropLast_append_getLast hne).symm⟩
  have hfront : isDirectory w (host.root ++ front) = true := by
    rcases hthere front (List.prefix_append _ _) with ⟨-, h⟩ | ⟨mode, -, h⟩
    · exact isDirectory_iff.mpr ⟨_, h⟩
    · exact isDirectory_iff.mpr ⟨_, h⟩
  obtain ⟨mode, hmode, hsafe⟩ : ∃ mode, get w (host.root ++ front ++ [n]) = some (.directory mode) ∧ mode &&& 0o077 = 0 := by
    rw [List.append_assoc]
    rcases hthere (front ++ [n]) (List.prefix_refl _) with ⟨-, h⟩ | ⟨mode, hv, h⟩
    · exact ⟨_, h, by decide⟩
    · exact ⟨mode, h, hprivate mode hv⟩
  have howned' : host.owned (host.root ++ front ++ [n]) = true :=
    howned _ (by rw [List.append_assoc]; exact List.prefix_append _ _)
  unfold makePrivate
  rw [bind_ok (run_get v), hmake]
  dsimp only
  rw [bind_ok (run_set v w), if_pos rfl, locate_names hfront, Option.bind_some, hmode, Option.map_some]
  dsimp only
  rw [howned', hsafe]
  rfl

/-- Below `place` there are the directories of `P`, all private, and nothing else. -/
def Only (v : Disk) (place : List String) (P : List String → Prop) : Prop :=
  ∀ r node, get v (place ++ r) = some node ↔ P r ∧ node = .directory 0o700

theorem Only.congr {place : List String} {Q : List String → Prop} (h : Only v place P) (hsame : ∀ r, P r ↔ Q r) : Only v place Q :=
  fun r node => (h r node).trans (and_congr_left' (hsame r))

/-- The directory of a stage. -/
def Host.stagePlace (host : Host) (stage : String) : List String := host.root ++ ["skill-staging", stage]

theorem stage_assets (r : List String) :
    host.stagePlace stage ++ "assets" :: r = host.root ++ ["skill-staging", stage, "assets"] ++ r := by simp [Host.stagePlace]

/-- The directories above the stages. -/
structure Above (host : Host) (v : Disk) : Prop where
  root : isDirectory v host.root = true
  staging : isDirectory v (host.root ++ ["skill-staging"]) = true

theorem Above.of_same (habove : Above host v) (hsame : ∀ q, ¬ host.stagePlace stage <+: q → get w q = get v q) : Above host w where
  root := by
    rw [isDirectory, hsame]
    · exact habove.root
    · intro h
      have hlength := h.length_le
      simp [Host.stagePlace] at hlength
  staging := by
    rw [isDirectory, hsame]
    · exact habove.staging
    · intro h
      have hlength := h.length_le
      simp [Host.stagePlace] at hlength

theorem above_stage {r : List String} (h : r <+: ["skill-staging", stage] ++ ms) :
    r = [] ∨ r = ["skill-staging"] ∨ ∃ s, r = ["skill-staging", stage] ++ s := by
  cases r with
  | nil => exact .inl rfl
  | cons n r =>
    obtain ⟨rfl, hrest⟩ := List.cons_prefix_cons.mp h
    cases r with
    | nil => exact .inr (.inl rfl)
    | cons m r =>
      obtain ⟨rfl, -⟩ := List.cons_prefix_cons.mp hrest
      exact .inr (.inr ⟨r, rfl⟩)

theorem makePrivate_below (ms : List String) (habove : Above host v) (howned : ∀ p, host.root <+: p → host.owned p = true)
    (honly : Only v (host.stagePlace stage) P) :
    ∃ w, makePrivate host (["skill-staging", stage] ++ ms) v = (.ok (), w) ∧
      Only w (host.stagePlace stage) (fun r => P r ∨ r <+: ms) ∧ ∀ q, ¬ host.stagePlace stage <+: q → get w q = get v q := by
  have hplace : ∀ r, host.root ++ (["skill-staging", stage] ++ r) = host.stagePlace stage ++ r := fun r =>
    (List.append_assoc _ _ _).symm
  have hclear : ∀ ms', ms' <+: ["skill-staging", stage] ++ ms →
      get v (host.root ++ ms') = none ∨ isDirectory v (host.root ++ ms') = true := by
    intro ms' hms'
    rcases above_stage hms' with rfl | rfl | ⟨r, rfl⟩
    · rw [List.append_nil]
      exact .inr habove.root
    · exact .inr habove.staging
    · rw [hplace]
      cases hnode : get v (host.stagePlace stage ++ r) with
      | none => exact .inl rfl
      | some node =>
        obtain ⟨-, rfl⟩ := (honly r node).mp hnode
        exact .inr (isDirectory_iff.mpr ⟨_, hnode⟩)
  have hprivate : ∀ mode, get v (host.root ++ (["skill-staging", stage] ++ ms)) = some (.directory mode) →
      mode &&& 0o077 = 0 := by
    intro mode hmode
    rw [hplace] at hmode
    obtain ⟨-, hnode⟩ := (honly ms _).mp hmode
    cases hnode
    decide
  obtain ⟨w, hmake, hw⟩ := makePrivate_ok habove.root howned hclear (by simp) hprivate
  refine ⟨w, hmake, fun r node => ?_, fun q hq => ?_⟩
  · have hnew : (get v (host.stagePlace stage ++ r) = none ∧ host.root <+: host.stagePlace stage ++ r ∧
        host.stagePlace stage ++ r <+: host.root ++ (["skill-staging", stage] ++ ms)) ↔
          get v (host.stagePlace stage ++ r) = none ∧ r <+: ms := by
      rw [hplace, List.prefix_append_right_inj, ← hplace]
      exact and_congr_right fun _ => and_iff_right (List.prefix_append _ _)
    rw [hw]
    simp only [hnew]
    split
    · next h => simp only [h.2, or_true, true_and, Option.some.injEq, eq_comm]
    · next h =>
      rw [honly r node]
      refine and_congr_left fun _ => ⟨.inl, fun hr => hr.elim id fun hr => ?_⟩
      cases hnode : get v (host.stagePlace stage ++ r) with
      | none => exact absurd ⟨hnode, hr⟩ h
      | some node => exact ((honly r node).mp hnode).1
  · rw [hw]
    split
    · next h =>
      obtain ⟨hnone, hroot, hpath⟩ := h
      obtain ⟨r, rfl⟩ := hroot
      have hnot : isDirectory v (host.root ++ r) ≠ true := by
        rw [isDirectory, hnone]
        exact Bool.false_ne_true
      rcases above_stage ((List.prefix_append_right_inj _).mp hpath) with rfl | rfl | ⟨s, rfl⟩
      · rw [List.append_nil] at hnot
        exact absurd habove.root hnot
      · exact absurd habove.staging hnot
      · rw [hplace] at hq
        exact absurd (List.prefix_append _ _) hq
    · rfl

/-- The directories for the files of a manifest. -/
theorem makePrivate_files (files : List SkillFile) (habove : Above host v) (howned : ∀ p, host.root <+: p → host.owned p = true)
    (honly : Only v (host.stagePlace stage) P) :
    ∃ w, (files.forM fun file => makePrivate host (["skill-staging", stage] ++ ["assets"] ++ (normalNames file.path).dropLast)) v =
        (.ok ⟨⟩, w) ∧
      Only w (host.stagePlace stage) (fun r => P r ∨ ∃ f ∈ files, r <+: "assets" :: (normalNames f.path).dropLast) ∧
      ∀ q, ¬ host.stagePlace stage <+: q → get w q = get v q := by
  induction files generalizing v P with
  | nil => exact ⟨v, rfl, by simpa using honly, fun _ _ => rfl⟩
  | cons file files ih =>
    obtain ⟨u, hmake, hu, hsame⟩ := makePrivate_below ("assets" :: (normalNames file.path).dropLast) habove howned honly
    obtain ⟨w, hrest, hw, hsame'⟩ := ih (habove.of_same hsame) hu
    refine ⟨w, ?_, fun r node => ?_, fun q hq => (hsame' q hq).trans (hsame q hq)⟩
    · rw [List.forM, List.append_assoc, List.singleton_append, bind_ok hmake]
      exact hrest
    · rw [hw r node]
      simp only [List.mem_cons, exists_eq_or_imp, or_assoc]

-- ---------------------------------------------------------------------------
-- Abandoned uploads
-- ---------------------------------------------------------------------------

variable {staging : List String}

/-- Nothing but what is below `staging` is removed, and nothing appears. -/
theorem get_sweep (q : List String) : get (sweep host staging v ns).2 q = get v q ∨
    get (sweep host staging v ns).2 q = none ∧ ∃ n ∈ ns, staging ++ [n] <+: q := by
  induction ns generalizing v with
  | nil => exact .inl rfl
  | cons n ns ih =>
    rw [sweep]
    split
    · rcases ih (v := prune v (staging ++ [n])) with h | ⟨h, m, hm, hbelow⟩
      · rw [get_prune] at h
        split at h
        · next hbelow => exact .inr ⟨h, n, List.mem_cons_self, hbelow⟩
        · exact .inl h
      · exact .inr ⟨h, m, List.mem_cons_of_mem _ hm, hbelow⟩
    · rcases ih (v := v) with h | ⟨h, m, hm, hbelow⟩
      · exact .inl h
      · exact .inr ⟨h, m, List.mem_cons_of_mem _ hm, hbelow⟩

theorem sweep_count (hnodup : ns.Nodup) :
    (sweep host staging v ns).1 = (ns.filter fun n => !expired host v (staging ++ [n])).length := by
  induction ns generalizing v with
  | nil => rfl
  | cons n ns ih =>
    obtain ⟨hn, hnodup⟩ := List.nodup_cons.mp hnodup
    rw [sweep]
    split
    · next h =>
      rw [ih hnodup, List.filter_cons_of_neg (by simp [h])]
      refine congrArg List.length (List.filter_congr fun m hm => ?_)
      have hapart : ¬ staging ++ [n] <+: staging ++ [m] := fun hbelow => by
        obtain ⟨heq, -⟩ := List.cons_prefix_cons.mp ((List.prefix_append_right_inj _).mp hbelow)
        exact hn (heq ▸ hm)
      rw [expired, expired, isDirectory, get_prune, if_neg hapart, isDirectory]
    · next h =>
      rw [List.filter_cons_of_pos (by simpa using h), List.length_cons]
      exact congrArg (· + 1) (ih hnodup)

-- ---------------------------------------------------------------------------
-- The names of stages and skills
-- ---------------------------------------------------------------------------

theorem hyphenated_plain {cs : List Char} (h : hyphenatedUuid cs = true) : '/' ∉ cs ∧ 32 ≤ cs.length := by
  rw [hyphenatedUuid, Bool.and_eq_true, decide_eq_true_eq, List.all_eq_true] at h
  obtain ⟨hlength, hall⟩ := h
  refine ⟨fun hmem => ?_, by omega⟩
  obtain ⟨i, hi, hget⟩ := List.mem_iff_getElem.mp hmem
  have hslash := hall ('/', i) (List.mem_zipIdx_iff_getElem?.mpr (by rw [List.getElem?_eq_getElem hi, hget]))
  dsimp only at hslash
  split at hslash
  · cases hslash
  · cases hslash

theorem plainName_of_parseUuid (h : parseUuid stage = true) : PlainName stage.toList := by
  obtain ⟨hslash, hlength⟩ : '/' ∉ stage.toList ∧ 32 ≤ stage.toList.length := by
    simp only [parseUuid, Bool.or_eq_true, Bool.and_eq_true, decide_eq_true_eq] at h
    generalize stage.toList = cs at h
    rcases h with ((h | h) | ⟨⟨hhead, hlast⟩, h⟩) | ⟨htake, h⟩
    · rw [simpleUuid, Bool.and_eq_true, decide_eq_true_eq, List.all_eq_true] at h
      exact ⟨fun hmem => Bool.noConfusion (h.2 _ hmem), h.1.ge⟩
    · exact hyphenated_plain h
    · obtain ⟨hslash, hlength⟩ := hyphenated_plain h
      cases cs with
      | nil => cases hhead
      | cons c rest =>
        obtain rfl := Option.some.inj hhead
        rw [List.tail_cons] at hslash hlength
        have hrest : rest ≠ [] := by
          rintro rfl
          simp at hlength
        rw [List.getLast?_cons, Option.some.injEq] at hlast
        refine ⟨fun hmem => ?_, by rw [List.length_dropLast] at hlength; rw [List.length_cons]; omega⟩
        rw [← List.dropLast_append_getLast hrest] at hmem
        simp only [List.mem_cons, List.mem_append, List.not_mem_nil, or_false, hslash, false_or] at hmem
        rcases hmem with hmem | hmem
        · cases hmem
        · rw [List.getLast?_eq_some_getLast hrest, Option.getD_some, ← hmem] at hlast
          cases hlast
    · obtain ⟨hslash, hlength⟩ := hyphenated_plain h
      refine ⟨fun hmem => ?_, by rw [List.length_drop] at hlength; omega⟩
      rw [← List.take_append_drop URN.length cs, htake, List.mem_append] at hmem
      exact hmem.elim (by decide) hslash
  refine ⟨hslash, ?_, ?_, ?_⟩ <;>
  · intro heq
    simp [heq] at hlength

theorem rawParts_plain {n : String} (h : PlainName n.toList) : rawParts n = names [n] := by
  have hjoined := rawParts_joined (List.cons_ne_nil n []) fun m hm => List.mem_singleton.mp hm ▸ h
  rwa [joined, String.intercalate_singleton] at hjoined

theorem Hex.plain (h : Hex digest) : PlainName digest.toList := by
  obtain ⟨cs, rfl, hlength, hdigits⟩ := h
  rw [String.toList_ofList]
  refine ⟨fun hmem => absurd (hdigits _ hmem) (by decide), ?_, ?_, ?_⟩ <;>
  · rintro rfl
    cases hlength

-- ---------------------------------------------------------------------------
-- `prepare`
-- ---------------------------------------------------------------------------

/-- Nothing, or a directory that only its owner can use. -/
def Usable (v : Disk) (p : List String) : Prop :=
  get v p = none ∨ ∃ mode, get v p = some (.directory mode) ∧ mode &&& 0o077 = 0

/-- A server that can take in a skill it does not have. -/
structure Ready (host : Host) (v : Disk) (stage digest : String) : Prop where
  root : isDirectory v host.root = true
  owned : ∀ p, host.root <+: p → host.owned p = true
  uuid : parseUuid stage = true
  skills : Usable v (host.root ++ ["skills"])
  staging : Usable v (host.root ++ ["skill-staging"])
  target : get v (host.root ++ ["skills", digest]) = none
  fresh : get v (host.stagePlace stage) = none
  room : ((children v (host.root ++ ["skill-staging"])).filter fun n =>
    !expired host v (host.root ++ ["skill-staging"] ++ [n])).length < 32

/-- The directories of a stage. -/
def Holds (files : List SkillFile) (r : List String) : Prop :=
  r <+: ["assets"] ∨ ∃ f ∈ files, r <+: "assets" :: (normalNames f.path).dropLast

/-- A stage that waits for the files of its manifest. -/
structure Laid (host : Host) (w : Disk) (stage digest : String) (files : List SkillFile) : Prop where
  skills : isDirectory w (host.root ++ ["skills"]) = true
  target : get w (host.root ++ ["skills", digest]) = none
  inside : ∀ r node, get w (host.stagePlace stage ++ r) = some node ↔
    r = ["manifest.json"] ∧ node = .file (toVec files) host.fileMode ∨ Holds files r ∧ node = .directory 0o700

theorem makePrivate_one {n : String} (hroot : isDirectory v host.root = true)
    (howned : ∀ p, host.root <+: p → host.owned p = true) (husable : Usable v (host.root ++ [n])) :
    ∃ w, makePrivate host [n] v = (.ok (), w) ∧ isDirectory w (host.root ++ [n]) = true ∧
      ∀ q, q ≠ host.root ++ [n] → get w q = get v q := by
  have hclear : ∀ ms, ms <+: [n] → get v (host.root ++ ms) = none ∨ isDirectory v (host.root ++ ms) = true := by
    intro ms hms
    cases ms with
    | nil => exact .inr (by rwa [List.append_nil])
    | cons m ms =>
      obtain ⟨rfl, hnil⟩ := List.cons_prefix_cons.mp hms
      obtain rfl := List.prefix_nil.mp hnil
      exact husable.imp_right fun ⟨mode, hmode, _⟩ => isDirectory_iff.mpr ⟨mode, hmode⟩
  have hprivate : ∀ mode, get v (host.root ++ [n]) = some (.directory mode) → mode &&& 0o077 = 0 := by
    intro mode hmode
    rcases husable with hnone | ⟨other, hother, hsafe⟩
    · rw [hnone] at hmode
      cases hmode
    · rw [hother] at hmode
      cases hmode
      exact hsafe
  obtain ⟨w, hmake, hw⟩ := makePrivate_ok hroot howned hclear (List.cons_ne_nil n []) hprivate
  refine ⟨w, hmake, ?_, fun q hq => ?_⟩
  · rw [isDirectory, hw]
    split
    · rfl
    · next h =>
      rcases husable with hnone | ⟨mode, hmode, -⟩
      · exact absurd ⟨hnone, List.prefix_append _ _, List.prefix_refl _⟩ h
      · rw [hmode]
        rfl
  · rw [hw, if_neg]
    rintro ⟨hnone, ⟨r, rfl⟩, habove⟩
    rcases hclear r ((List.prefix_append_right_inj _).mp habove) with - | hdirectory
    · cases r with
      | nil =>
        rw [List.append_nil] at hnone
        rw [isDirectory, hnone] at hroot
        cases hroot
      | cons m r =>
        obtain ⟨rfl, hnil⟩ := List.cons_prefix_cons.mp ((List.prefix_append_right_inj _).mp habove)
        obtain rfl := List.prefix_nil.mp hnil
        exact hq rfl
    · rw [isDirectory, hnone] at hdirectory
      cases hdirectory

/-- The abandoned uploads of a server that is ready. -/
theorem sweep_ready (hready : Ready host v stage digest)
    (hsame : ∀ q, q ≠ host.root ++ ["skills"] → q ≠ host.root ++ ["skill-staging"] → get w q = get v q)
    (hskills : isDirectory w (host.root ++ ["skills"]) = true)
    (hstaging : isDirectory w (host.root ++ ["skill-staging"]) = true) :
    ∃ active u, sweep host (host.root ++ ["skill-staging"]) w (children w (host.root ++ ["skill-staging"])) = (active, u) ∧
      active < 32 ∧ Above host u ∧ Only u (host.stagePlace stage) (fun _ => False) ∧
      isDirectory u (host.root ++ ["skills"]) = true ∧ get u (host.root ++ ["skills", digest]) = none := by
  refine ⟨_, _, rfl, ?_, ?_⟩
  · have hinside : ∀ n, get w (host.root ++ ["skill-staging"] ++ [n]) = get v (host.root ++ ["skill-staging"] ++ [n]) := fun n =>
      hsame _ (by simp) (by simp)
    have hperm : (children w (host.root ++ ["skill-staging"])).Perm (children v (host.root ++ ["skill-staging"])) :=
      (List.perm_ext_iff_of_nodup (nodup_children _ _) (nodup_children _ _)).mpr fun n => by
        rw [mem_children, mem_children, hinside]
    have hexpired : ∀ n, expired host w (host.root ++ ["skill-staging"] ++ [n]) =
        expired host v (host.root ++ ["skill-staging"] ++ [n]) := fun n => by
      rw [expired, expired, isDirectory, isDirectory, hinside]
    rw [sweep_count (nodup_children _ _)]
    simp only [hexpired]
    rw [(hperm.filter _).length_eq]
    exact hready.room
  generalize children w (host.root ++ ["skill-staging"]) = found
  have hkept : ∀ q, (∀ n, ¬ host.root ++ ["skill-staging"] ++ [n] <+: q) →
      get (sweep host (host.root ++ ["skill-staging"]) w found).2 q = get w q := fun q hq =>
    (get_sweep q).resolve_right fun h => h.2.elim fun n hn => hq n hn.2
  have hother : ∀ r, (∀ n, ¬ ["skill-staging", n] <+: r) →
      get (sweep host (host.root ++ ["skill-staging"]) w found).2 (host.root ++ r) = get w (host.root ++ r) := fun r hr =>
    hkept _ fun n hbelow => hr n ((List.prefix_append_right_inj host.root).mp (by rwa [List.append_assoc] at hbelow))
  have hroot : get w host.root = get v host.root := hsame _ (by simp) (by simp)
  refine ⟨⟨?_, ?_⟩, fun r node => iff_of_false ?_ (by simp), ?_, ?_⟩
  · have hhere := hother [] (by simp)
    rw [List.append_nil] at hhere
    rw [isDirectory, hhere, hroot]
    exact hready.root
  · rw [isDirectory, hother _ (by simp)]
    exact hstaging
  · have hfresh : get w (host.stagePlace stage ++ r) = none := by
      rw [hsame _ (by simp [Host.stagePlace]) (by simp [Host.stagePlace])]
      exact get_below hready.fresh r
    have hswept : get (sweep host (host.root ++ ["skill-staging"]) w found).2 (host.stagePlace stage ++ r) =
        get w (host.stagePlace stage ++ r) ∨ _ := get_sweep _
    rcases hswept with h | ⟨h, -⟩
    · rw [h, hfresh]
      simp
    · rw [h]
      simp
  · rw [isDirectory, hother _ (by simp)]
    exact hskills
  · rw [hother _ (by simp), hsame _ (by simp) (by simp)]
    exact hready.target

/-- The stage is made. -/
theorem stage_made (files : List SkillFile) (habove : Above host v) (howned : ∀ p, host.root <+: p → host.owned p = true)
    (honly : Only v (host.stagePlace stage) fun _ => False) (hskills : isDirectory v (host.root ++ ["skills"]) = true)
    (htarget : get v (host.root ++ ["skills", digest]) = none) :
    ∃ a b c d, makePrivate host ["skill-staging", stage] v = (.ok (), a) ∧
      makePrivate host (["skill-staging", stage] ++ ["assets"]) a = (.ok (), b) ∧
      (files.forM fun file => makePrivate host (["skill-staging", stage] ++ ["assets"] ++ (normalNames file.path).dropLast)) b =
        (.ok ⟨⟩, c) ∧
      write c host.links host.root (names ["skill-staging", stage]) "manifest.json" (toVec files) host.fileMode = some d ∧
      Laid host d stage digest files := by
  obtain ⟨a, hstage, ha, hsame₁⟩ := makePrivate_below [] habove howned honly
  obtain ⟨b, hassets, hb, hsame₂⟩ := makePrivate_below ["assets"] (habove.of_same hsame₁) howned ha
  have habove₂ := (habove.of_same hsame₁).of_same hsame₂
  obtain ⟨c, hfiles, hc, hsame₃⟩ := makePrivate_files files habove₂ howned hb
  replace hc : Only c (host.stagePlace stage) (Holds files) := hc.congr fun r => by
    rw [Holds, false_or, or_iff_right_of_imp fun h : r <+: [] => h.trans List.nil_prefix]
  have hplace : isDirectory c (host.root ++ ["skill-staging", stage]) = true :=
    isDirectory_iff.mpr ⟨0o700, by
      have hhere := (hc [] (.directory 0o700)).mpr ⟨.inl List.nil_prefix, rfl⟩
      rwa [List.append_nil] at hhere⟩
  have hnot : ¬ Holds files ["manifest.json"] := by
    rintro (h | ⟨f, -, h⟩)
    · exact absurd (List.cons_prefix_cons.mp h).1 (by decide)
    · exact absurd (List.cons_prefix_cons.mp h).1 (by decide)
  have hfree : get c (host.root ++ ["skill-staging", stage] ++ ["manifest.json"]) = none := by
    by_contra hsome
    obtain ⟨node, hnode⟩ := Option.ne_none_iff_exists'.mp hsome
    exact hnot ((hc _ node).mp hnode).1
  obtain ⟨d, hwrite, hd⟩ : ∃ d, write c host.links host.root (names ["skill-staging", stage]) "manifest.json" (toVec files)
      host.fileMode = some d ∧ ∀ q, get d q = if q = host.root ++ ["skill-staging", stage] ++ ["manifest.json"] then
        some (.file (toVec files) host.fileMode) else get c q := write_new hplace hfree
  have hother : ∀ r, (∀ s, r ≠ "skill-staging" :: s) → get d (host.root ++ r) = get v (host.root ++ r) := fun r hr => by
    have hout : ∀ p, host.root ++ r ≠ host.root ++ ["skill-staging", stage] ++ p := fun p heq => by
      rw [List.append_assoc] at heq
      exact hr _ (List.append_cancel_left heq)
    have hbelow : ¬ host.stagePlace stage <+: host.root ++ r := fun ⟨p, hp⟩ => hout p hp.symm
    rw [hd, if_neg (hout _), hsame₃ _ hbelow, hsame₂ _ hbelow, hsame₁ _ hbelow]
  refine ⟨a, b, c, d, hstage, hassets, hfiles, hwrite, ?_, ?_, fun r node => ?_⟩
  · rw [isDirectory, hother _ (by simp)]
    exact hskills
  · rw [hother _ (by simp)]
    exact htarget
  · rw [hd]
    show (if host.stagePlace stage ++ r = host.stagePlace stage ++ ["manifest.json"] then _ else _) = _ ↔ _
    split
    · next hr =>
      obtain rfl := List.append_cancel_left hr
      rw [Option.some.injEq, eq_comm, or_iff_left fun h => hnot h.1, and_iff_right rfl]
    · next hr => rw [hc, or_iff_right fun h => hr (congrArg _ h.1)]

theorem prepare_ok (hvalid : validate host.sha256 digest files = .ok ()) (hdigest : PlainName digest.toList)
    (hready : Ready host v stage digest) :
    ∃ w, prepare host stage digest files v = (.ok (.pending stage (names ["skill-staging", stage, "assets"])), w) ∧
      Laid host w stage digest files := by
  obtain ⟨v₁, hskills, hskills₁, hsame₁⟩ := makePrivate_one hready.root hready.owned hready.skills
  have hroot₁ : isDirectory v₁ host.root = true := by
    rw [isDirectory, hsame₁ _ (by simp)]
    exact hready.root
  have hstat : stat v₁ host.links host.root (names ["skills"] ++ rawParts digest) = none := by
    have htarget : get v₁ (host.root ++ ["skills"] ++ [digest]) = none := by
      rw [List.append_assoc, hsame₁ _ (by simp)]
      exact hready.target
    rw [rawParts_plain hdigest, ← names_append, stat, resolve_missing hskills₁ htarget]
    rfl
  have husable : Usable v₁ (host.root ++ ["skill-staging"]) := by
    rw [Usable, hsame₁ _ (by simp)]
    exact hready.staging
  obtain ⟨v₂, hstaging, hstaging₂, hsame₂⟩ := makePrivate_one hroot₁ hready.owned husable
  have hresolve : resolve v₂ host.links host.root (names ["skill-staging"]) = some (host.root ++ ["skill-staging"]) := by
    obtain ⟨mode, hmode⟩ := isDirectory_iff.mp hstaging₂
    exact resolve_names hmode (by simp)
  have hskills₂ : isDirectory v₂ (host.root ++ ["skills"]) = true := by
    rw [isDirectory, hsame₂ _ (by simp)]
    exact hskills₁
  obtain ⟨active, v₃, hsweep, hactive, habove, honly, hskills₃, htarget⟩ :=
    sweep_ready hready (fun q hq hq' => (hsame₂ q hq').trans (hsame₁ q hq)) hskills₂ hstaging₂
  obtain ⟨a, b, c, d, hstage, hassets, hfiles, hwrite, hlaid⟩ :=
    stage_made files habove hready.owned honly hskills₃ htarget
  refine ⟨d, ?_, hlaid⟩
  unfold prepare
  rw [hvalid, bind_ok (run_lift _ _), bind_ok hskills]
  dsimp only
  rw [bind_ok (run_get _), hstat]
  dsimp only [Option.isSome_none]
  rw [if_neg Bool.false_ne_true, bind_ok hstaging, bind_ok (run_get _), hresolve]
  dsimp only
  rw [bind_ok (run_get _), hsweep]
  dsimp only
  rw [bind_ok (run_set _ _), if_neg (Nat.not_le.mpr hactive), bind_ok hstage, bind_ok hassets, bind_ok hfiles,
    bind_ok (run_get _), hwrite]
  rfl

end RemoteCodex.Skills
