import RemoteCodex.Updates.Package

/-!
# Unpacking an archive

What `unpack_in` promises for one entry, and what follows for the loop over all
of them: which nodes differ afterwards, and by which way each of them and each
link was come to. A way stays one as long as no link is replaced.
-/

namespace RemoteCodex.Updates

open Files.Links
open Transfer (Component Fault fault pathComponents rawParts trim_rawParts)

/-- What an entry leaves in the place of `old`. -/
inductive Fits (e : Entry) (old : Option (Node String)) : Node String → Prop
  | directory {mode : Nat} : e.kind ≠ .symlink → (∀ node, old = some node → node.isDirectory = true) →
      Fits e old (.directory mode)
  | file {mode : Nat} : e.kind = .regular → (∀ node, old = some node → node.isDirectory = false) →
      Fits e old (.file e.content mode)
  | symlink {link : String} : e.kind = .symlink → e.linkName = some link →
      (∀ node, old = some node → node.isDirectory = false) → Fits e old (.symlink (linkTarget link))

/-- What differs after a call is below the directory that the first names of
the path lead to, along those that follow. -/
structure Writes (directory ns : List String) (v w : Disk) (ms place ds : List String) : Prop where
  path : ms ++ ds <+: ns
  walks : Walks v directory (names ms) place
  isDirectory : isDirectory v place = true
  inside : directory <+: place
  changed : ∀ q, get w q ≠ get v q → ∃ d, d ≠ [] ∧ d <+: ds ∧ q = place ++ d

/-- The last name is the entry's, the names before it are new directories. -/
structure Unpacks (e : Entry) (v w : Disk) (place ds : List String) : Prop where
  ne_nil : ds ≠ []
  made : ∀ d, d ≠ [] → d <+: ds → d ≠ ds → get v (place ++ d) = none ∧ isDirectory w (place ++ d) = true
  fits : ∃ node, get w (place ++ ds) = some node ∧ Fits e (get v (place ++ ds)) node

/-- An entry whose parent, with the links on disk followed, is outside the
directory is refused; any other comes below its parent. -/
def Contained (unpackIn : UnpackIn) : Prop :=
  ∀ v directory e ns, isDirectory v directory = true → e.parts = ns.map .normal →
    ∃ ms place ds, Writes directory ns v (unpackIn v directory e).2 ms place ds ∧
      ((unpackIn v directory e).1 = .ok true → ms ++ ds = ns ∧ Unpacks e v (unpackIn v directory e).2 place ds)

/-- There is no link where the entry comes. -/
def KeepsLinks (v : Disk) (directory : List String) (e : Entry) : Prop :=
  ∀ ms n place t, e.parts = (ms ++ [n]).map .normal → Walks v directory (names ms) place →
    get v (place ++ [n]) ≠ some (.symlink t)

/-- No entry of the run comes where a link is. -/
def NoLinkReplaced (unpackIn : UnpackIn) (directory : List String) : Disk → List (Except Fault Entry) → Prop
  | v, .ok e :: rest => KeepsLinks v directory e ∧ NoLinkReplaced unpackIn directory (unpackIn v directory e).2 rest
  | _, _ => True

variable {expected : String} {e : Entry} {v w : Disk} {directory ms ns place ds q : List String}

theorem all_normal {parts : List Component} (h : parts.any (!Component.isNormal ·) = false) :
    ∃ ns : List String, parts = ns.map .normal := by
  induction parts with
  | nil => exact ⟨[], rfl⟩
  | cons part parts ih =>
    rw [List.any_cons, Bool.or_eq_false_iff] at h
    obtain ⟨ns, rfl⟩ := ih h.2
    cases part with
    | normal n => exact ⟨n :: ns, rfl⟩
    | _ => cases h.1

/-- An entry that is not refused. -/
structure Checked (expected : String) (e : Entry) : Prop where
  parts : ∃ ns, e.parts = (expected :: ns).map .normal
  supported : e.kind.supported = true
  link : ∀ link, e.linkName = some link → (linkDepth (e.parts.length - 1) (pathComponents link)).isSome = true

theorem check_ok (h : check expected e = .ok ()) : Checked expected e := by
  unfold check at h
  split at h
  · cases h
  next hpath =>
  split at h
  · cases h
  next hkind =>
  split at h
  · cases h
  next hlink =>
  rw [Bool.or_eq_true, not_or, decide_eq_true_eq, Decidable.not_not, Bool.not_eq_true] at hpath
  obtain ⟨ns, hns⟩ := all_normal hpath.2
  refine ⟨?_, by simpa using hkind, fun link heq => ?_⟩
  · cases ns with
    | nil =>
      rw [hns] at hpath
      cases hpath.1
    | cons n ns =>
      rw [hns] at hpath
      obtain rfl : n = expected := by simpa using hpath.1
      exact ⟨ns, hns⟩
  · rw [heq] at hlink
    simpa [Option.isSome_iff_ne_none] using hlink

section Step

/-- The directory itself is as it was. -/
theorem Writes.directory_same (h : Writes directory ns v w ms place ds) : get w directory = get v directory := by
  by_contra hne
  obtain ⟨d, hd, -, heq⟩ := h.changed _ hne
  have hlength := h.inside.length_le
  rw [heq, List.length_append] at hlength
  exact hd (List.length_eq_zero_iff.mp (by omega))

theorem Writes.outside (h : Writes directory ns v w ms place ds) (hq : ¬ directory <+: q) : get w q = get v q := by
  by_contra hne
  obtain ⟨d, -, -, rfl⟩ := h.changed _ hne
  exact hq (h.inside.trans (List.prefix_append _ _))

theorem Unpacks.isDirectory (h : Unpacks e v w place ds) (hwrites : Writes directory ns v w ms place ds)
    (hq : isDirectory v q = true) : isDirectory w q = true := by
  by_cases hsame : get w q = get v q
  · rwa [Files.Links.isDirectory, hsame]
  obtain ⟨d, hd, hfront, rfl⟩ := hwrites.changed _ hsame
  by_cases hds : d = ds
  · subst hds
    obtain ⟨node, hnode, hfits⟩ := h.fits
    obtain ⟨mode, hmode⟩ := isDirectory_iff.mp hq
    cases hfits with
    | directory _ _ => exact isDirectory_iff.mpr ⟨_, hnode⟩
    | file _ hold => cases hold _ hmode
    | symlink _ _ hold => cases hold _ hmode
  · exact (h.made d hd hfront hds).2

theorem Unpacks.persists (h : Unpacks e v w place ds) (hwrites : Writes directory ns v w ms place ds)
    (hns : ms ++ ds = ns) (hparts : e.parts = ns.map .normal) (hkeeps : KeepsLinks v directory e) : Persists v w where
  directory q hq := h.isDirectory hwrites hq
  symlink q t ht := by
    by_contra hne
    have hchanged : get w q ≠ get v q := fun heq => hne (heq.trans ht)
    obtain ⟨d, hd, hfront, rfl⟩ := hwrites.changed _ hchanged
    by_cases hds : d = ds
    · subst hds
      obtain ⟨ds, n, rfl⟩ := List.eq_nil_or_concat' d |>.resolve_left hd
      cases ds with
      | nil => exact hkeeps ms n place t (hns ▸ hparts) hwrites.walks ht
      | cons m ds =>
        -- the name before the last is of a directory that was not there
        have hparent := isDirectory_parent (v := v) (p := place ++ m :: ds) (n := n) (by simp_all)
        have hnone := (h.made (m :: ds) (List.cons_ne_nil m ds) (by simp) (by simp)).1
        rw [Files.Links.isDirectory, hnone] at hparent
        cases hparent
    · rw [(h.made d hd hfront hds).1] at ht
      cases ht

/-- The way to where the entry is. -/
theorem Unpacks.walks (h : Unpacks e v w place ds) (hwrites : Writes directory ns v w ms place ds)
    (hpersists : Persists v w) : Walks w directory (names (ms ++ ds.dropLast)) (place ++ ds.dropLast) := by
  rw [names_append]
  refine (hwrites.walks.persist hpersists hwrites.isDirectory).append (hpersists.directory _ hwrites.isDirectory) ?_
  refine .down fun d hd hfront => (h.made d hd (hfront.trans (List.dropLast_prefix ds)) ?_).2
  rintro rfl
  have hlength := hfront.length_le
  rw [List.length_dropLast] at hlength
  have := List.length_pos_iff.mpr hd
  omega

end Step

/-- How each node that differs, and each link, was come to. -/
structure Traced (expected : String) (directory : List String) (v₀ v : Disk) (links : List String) : Prop where
  isDirectory : isDirectory v directory = true
  changed : ∀ q, get v q ≠ get v₀ q → ∃ ms place ds, q = place ++ ds ∧ (ms ++ ds).head? = some expected ∧
    Walks v directory (names ms) place ∧ Files.Links.isDirectory v place = true ∧ ds ≠ []
  linked : ∀ p n t, directory <+: p → get v (p ++ [n]) = some (.symlink t) →
    ∃ l ∈ links, ∃ ms, trim (rawParts l) = names (ms ++ [n]) ∧ Walks v directory (names ms) p

theorem head?_append_front {d : List String} (hd : d ≠ []) (hfront : d <+: ds) : (ms ++ d).head? = (ms ++ ds).head? := by
  obtain ⟨rest, rfl⟩ := hfront
  cases ms with
  | nil =>
    cases d with
    | nil => exact absurd rfl hd
    | cons n d => rfl
  | cons m ms => rfl

variable {v₀ : Disk} {links : List String}

theorem Traced.step (h : Traced expected directory v₀ v links) (hwrites : Writes directory ns v w ms place ds)
    (hns : ms ++ ds = ns) (hunpacks : Unpacks e v w place ds) (hparts : e.parts = ns.map .normal)
    (hhead : ns.head? = some expected) (hkeeps : KeepsLinks v directory e) :
    Traced expected directory v₀ w (if e.linkName.isSome then links ++ [e.path] else links) := by
  have hpersists := hunpacks.persists hwrites hns hparts hkeeps
  refine ⟨hpersists.directory _ h.isDirectory, fun q hq => ?_, fun p n t hp ht => ?_⟩
  · by_cases hsame : get w q = get v q
    · rw [hsame] at hq
      obtain ⟨ms, place, ds, rfl, hhead, hwalks, hdirectory, hds⟩ := h.changed q hq
      exact ⟨ms, place, ds, rfl, hhead, hwalks.persist hpersists hdirectory, hpersists.directory _ hdirectory, hds⟩
    · obtain ⟨d, hd, hfront, rfl⟩ := hwrites.changed q hsame
      refine ⟨ms, place, d, rfl, ?_, hwrites.walks.persist hpersists hwrites.isDirectory,
        hpersists.directory _ hwrites.isDirectory, hd⟩
      rw [head?_append_front hd hfront, hns, hhead]
  · by_cases hsame : get w (p ++ [n]) = get v (p ++ [n])
    · rw [hsame] at ht
      obtain ⟨l, hl, ms, htrim, hwalks⟩ := h.linked p n t hp ht
      refine ⟨l, ?_, ms, htrim, hwalks.persist hpersists (isDirectory_parent (by rw [ht]; rfl))⟩
      split
      · exact List.mem_append_left _ hl
      · exact hl
    · obtain ⟨d, hd, hfront, heq⟩ := hwrites.changed _ hsame
      by_cases hds : d = ds
      · subst hds
        obtain ⟨node, hnode, hfits⟩ := hunpacks.fits
        rw [heq, hnode] at ht
        obtain rfl := Option.some.inj ht
        have hlink : e.linkName.isSome = true := by
          generalize hlink : Node.symlink t = node at hfits
          cases hfits with
          | symlink _ hname _ => rw [hname]; rfl
          | _ => cases hlink
        obtain ⟨d, m, rfl⟩ := List.eq_nil_or_concat' d |>.resolve_left hd
        rw [← List.append_assoc] at heq
        obtain ⟨rfl, hn⟩ := List.append_inj' heq rfl
        obtain rfl : n = m := by simpa using hn
        refine ⟨e.path, by simp [hlink], ms ++ d, ?_, ?_⟩
        · rw [List.append_assoc, hns]
          exact trim_rawParts hparts
        · simpa using hunpacks.walks hwrites hpersists
      · rw [heq] at ht
        obtain ⟨mode, hmode⟩ := isDirectory_iff.mp (hunpacks.made d hd hfront hds).2
        cases hmode.symm.trans ht

end RemoteCodex.Updates
