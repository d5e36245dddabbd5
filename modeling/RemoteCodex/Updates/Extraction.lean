import RemoteCodex.Updates.Unpacking

/-!
# Where an update is extracted

Nothing outside the staging directory changes, whatever the archive. What is
extracted is below the component's directory as long as no entry comes where a
link is: the links are resolved at the end only, and one that has been replaced
is not there any more.
-/

namespace RemoteCodex.Updates

open Files.Links
open Transfer (Component Fault fault pathComponents rawParts)

variable {unpackIn : UnpackIn} {expected : String} {e : Entry} {v₀ v w : Disk} {directory q : List String}
variable {links links' : List String} {size linkLimit : Nat} {archive rest : List (Except Fault Entry)}

theorem extractEntries_cons (unpackIn : UnpackIn) (directory : List String) (expected : String) (v : Disk)
    (links : List String) (size : Nat) (e : Entry) (rest : List (Except Fault Entry)) :
    (∃ error, extractEntries unpackIn directory expected v links size (.ok e :: rest) = (.error error, v)) ∨
      (Checked expected e ∧ ∃ error, extractEntries unpackIn directory expected v links size (.ok e :: rest) =
        (.error error, (unpackIn v directory e).2)) ∨
      (Checked expected e ∧ min (size + e.size) u64Max ≤ maxSize ∧ (unpackIn v directory e).1 = .ok true ∧
        extractEntries unpackIn directory expected v links size (.ok e :: rest) =
          extractEntries unpackIn directory expected (unpackIn v directory e).2
            (if e.linkName.isSome then links ++ [e.path] else links) (min (size + e.size) u64Max) rest) := by
  rw [extractEntries]
  cases hcheck : check expected e with
  | error error => exact .inl ⟨error, rfl⟩
  | ok _ =>
    have hchecked := check_ok hcheck
    dsimp only
    split
    · exact .inl ⟨refused, rfl⟩
    next hsize =>
    split
    next error w hunpack => exact .inr (.inl ⟨hchecked, error, by rw [hunpack]⟩)
    next w hunpack => exact .inr (.inl ⟨hchecked, refused, by rw [hunpack]⟩)
    next w hunpack => exact .inr (.inr ⟨hchecked, Nat.le_of_not_lt hsize, by rw [hunpack], by rw [hunpack]⟩)

/-- Also when it fails. -/
theorem extractEntries_outside (hunpack : Contained unpackIn) (hdirectory : isDirectory v directory = true)
    (hq : ¬ directory <+: q) :
    get (extractEntries unpackIn directory expected v links size archive).2 q = get v q := by
  induction archive generalizing v links size with
  | nil => rfl
  | cons entry rest ih =>
    cases entry with
    | error error => rfl
    | ok e =>
      rcases extractEntries_cons unpackIn directory expected v links size e rest with
        ⟨error, heq⟩ | ⟨hchecked, error, heq⟩ | ⟨hchecked, -, -, heq⟩
      · rw [heq]
      · obtain ⟨ns, hns⟩ := hchecked.parts
        obtain ⟨ms, place, ds, hwrites, -⟩ := hunpack v directory e _ hdirectory hns
        rw [heq]
        exact hwrites.outside hq
      · obtain ⟨ns, hns⟩ := hchecked.parts
        obtain ⟨ms, place, ds, hwrites, -⟩ := hunpack v directory e _ hdirectory hns
        have hstill : isDirectory (unpackIn v directory e).2 directory = true := by
          rwa [isDirectory, hwrites.directory_same]
        rw [heq, ih hstill, hwrites.outside hq]

/-- What holds of every entry of an archive that is extracted to the end. -/
structure Accepted (expected : String) (links : List String) (e : Entry) : Prop where
  checked : Checked expected e
  listed : e.kind = .symlink ∨ e.linkName.isSome = true → e.path ∈ links

theorem extractEntries_accepted (hunpack : Contained unpackIn) (hdirectory : isDirectory v directory = true)
    (hsize : size ≤ maxSize) (h : extractEntries unpackIn directory expected v links size archive = (.ok links', w)) :
    (∀ l ∈ links, l ∈ links') ∧ ∃ es : List Entry, archive = es.map .ok ∧ (∀ e ∈ es, Accepted expected links' e) ∧
      size + (es.map Entry.size).sum ≤ maxSize := by
  induction archive generalizing v links size with
  | nil =>
    obtain ⟨rfl, rfl⟩ := Prod.mk.inj h |>.imp_left Except.ok.inj
    exact ⟨fun _ hl => hl, [], rfl, by simp, by simpa using hsize⟩
  | cons entry rest ih =>
    cases entry with
    | error error => cases (Prod.mk.inj h).1
    | ok e =>
      rcases extractEntries_cons unpackIn directory expected v links size e rest with
        ⟨error, heq⟩ | ⟨-, error, heq⟩ | ⟨hchecked, hfits, hok, heq⟩
      · cases heq.symm.trans h
      · cases heq.symm.trans h
      obtain ⟨ns, hns⟩ := hchecked.parts
      obtain ⟨ms, place, ds, hwrites, hdone⟩ := hunpack v directory e _ hdirectory hns
      obtain ⟨-, hunpacks⟩ := hdone hok
      have hstill : isDirectory (unpackIn v directory e).2 directory = true := by
        rwa [isDirectory, hwrites.directory_same]
      have hsum : min (size + e.size) u64Max = size + e.size := by
        unfold maxSize u64Max at *
        omega
      obtain ⟨hlinks, es, rfl, hes, htotal⟩ := ih hstill hfits (heq ▸ h)
      refine ⟨fun l hl => hlinks l ?_, e :: es, rfl, fun e' he' => ?_, ?_⟩
      · split
        · exact List.mem_append_left _ hl
        · exact hl
      · rcases List.mem_cons.mp he' with rfl | he'
        · refine ⟨hchecked, fun hlink => hlinks _ ?_⟩
          have hsome : e'.linkName.isSome = true := by
            rcases hlink with hkind | hsome
            · obtain ⟨node, -, hnode⟩ := hunpacks.fits
              cases hnode with
              | directory hne _ => exact absurd hkind hne
              | file hregular _ => cases hkind.symm.trans hregular
              | symlink _ hname _ => rw [hname]; rfl
            · exact hsome
          rw [if_pos hsome]
          exact List.mem_append_right _ (List.mem_singleton_self _)
        · exact hes e' he'
      · rw [hsum] at htotal
        rw [List.map_cons, List.sum_cons, ← Nat.add_assoc]
        exact htotal

theorem extractEntries_traced (hunpack : Contained unpackIn) (htraced : Traced expected directory v₀ v links)
    (hkeeps : NoLinkReplaced unpackIn directory v archive)
    (h : extractEntries unpackIn directory expected v links size archive = (.ok links', w)) :
    Traced expected directory v₀ w links' := by
  induction archive generalizing v links size with
  | nil =>
    obtain ⟨rfl, rfl⟩ := Prod.mk.inj h |>.imp_left Except.ok.inj
    exact htraced
  | cons entry rest ih =>
    cases entry with
    | error error => cases (Prod.mk.inj h).1
    | ok e =>
      rcases extractEntries_cons unpackIn directory expected v links size e rest with
        ⟨error, heq⟩ | ⟨-, error, heq⟩ | ⟨hchecked, -, hok, heq⟩
      · cases heq.symm.trans h
      · cases heq.symm.trans h
      obtain ⟨ns, hns⟩ := hchecked.parts
      obtain ⟨ms, place, ds, hwrites, hdone⟩ := hunpack v directory e _ htraced.isDirectory hns
      obtain ⟨hpath, hunpacks⟩ := hdone hok
      exact ih (htraced.step hwrites hpath hunpacks hns rfl hkeeps.1) hkeeps.2 (heq ▸ h)

theorem UpdateComponent.rawParts_expected (kind : UpdateComponent) : rawParts kind.expected = names [kind.expected] := by
  cases kind <;> decide +kernel

/-- A link path that resolves within `root`. -/
def ResolvesIn (linkLimit : Nat) (v : Disk) (directory root : List String) (path : String) : Prop :=
  ∃ p, resolve v linkLimit directory (rawParts path) = some p ∧ root <+: p

theorem checkLinks_ok {canonical : List String} (h : checkLinks linkLimit v directory canonical links = .ok ()) :
    ∀ l ∈ links, ResolvesIn linkLimit v directory canonical l := by
  induction links with
  | nil => simp
  | cons link links ih =>
    unfold checkLinks canonicalize at h
    split at h
    · next p hp =>
      simp only [bind, Except.bind] at h
      split at h
      · next hfront =>
        intro l hl
        rcases List.mem_cons.mp hl with rfl | hl
        · exact ⟨p, hp, List.isPrefixOf_iff_prefix.mp hfront⟩
        · exact ih h l hl
      · cases h
    · cases h

/-- What the last checks make sure of. -/
structure Finished (linkLimit : Nat) (v : Disk) (directory : List String) (expected : String) (links : List String) :
    Prop where
  root : ∃ node, get v (directory ++ [expected]) = some node ∧ ∀ t, node ≠ .symlink t
  links : ∀ l ∈ links, ResolvesIn linkLimit v directory (directory ++ [expected]) l

theorem walks_component {v : Disk} {p : List String} {n : String} {node : Node String}
    (hget : get v (directory ++ [n]) = some node) (hnode : ∀ t, node ≠ .symlink t)
    (h : Walks v directory (names [n]) p) : p = directory ++ [n] := by
  cases h with
  | enter _ h =>
    cases h with
    | done => rfl
  | follow hlink _ =>
    obtain rfl := Option.some.inj (hget.symm.trans hlink)
    exact absurd rfl (hnode _)
  | leaf => rfl

theorem finish_ok {kind : UpdateComponent} {path : List String}
    (h : finish linkLimit v directory kind.expected links = .ok path) :
    path = directory ++ [kind.expected] ∧ Finished linkLimit v directory kind.expected links := by
  unfold finish at h
  split at h
  · cases h
  · cases h
  next node hnode hget =>
  cases hcanonical : canonicalize linkLimit v directory kind.expected with
  | error error =>
    rw [hcanonical] at h
    cases h
  | ok canonical =>
    cases hlinks : checkLinks linkLimit v directory canonical links with
    | error error =>
      rw [hcanonical] at h
      simp only [bind, Except.bind, hlinks] at h
      cases h
    | ok _ =>
      rw [hcanonical] at h
      simp only [bind, Except.bind, hlinks] at h
      obtain rfl := Except.ok.inj h
      have hroot : canonical = directory ++ [kind.expected] := by
        unfold canonicalize at hcanonical
        split at hcanonical
        · next p hp =>
          obtain rfl := Except.ok.inj hcanonical
          rw [UpdateComponent.rawParts_expected] at hp
          exact walks_component hget (fun t ht => hnode t ht) (walks_resolve hp)
        · cases hcanonical
      exact ⟨rfl, ⟨node, hget, fun t ht => hnode t ht⟩, hroot ▸ checkLinks_ok hlinks⟩

/-- Each link resolves within the component. -/
theorem Traced.link_within (h : Traced expected directory v₀ v links) (hfinished : Finished linkLimit v directory expected links)
    {p : List String} {n : String} {t : Target String} (hp : directory <+: p) (ht : get v (p ++ [n]) = some (.symlink t)) :
    ∃ c, Walks v p [.name n] c ∧ directory ++ [expected] <+: c := by
  obtain ⟨l, hl, ms, htrim, hwalks⟩ := h.linked p n t hp ht
  obtain ⟨c, hc, hroot⟩ := hfinished.links l hl
  have hresolved : Walks v directory ([] ++ rawParts l) c := walks_resolve hc
  have hway : Walks v directory (trim (rawParts l)) c := hresolved.trim_right
  rw [htrim, names_append] at hway
  obtain ⟨p', hp', hlast⟩ := hway.split
  obtain rfl := hp'.unique hwalks
  exact ⟨c, hlast, hroot⟩

/-- Every node that differs is within the component. -/
theorem Traced.changed_within (h : Traced expected directory v₀ v links)
    (hfinished : Finished linkLimit v directory expected links) (hq : get v q ≠ get v₀ q) :
    directory ++ [expected] <+: q := by
  obtain ⟨ms, place, ds, rfl, hhead, hwalks, -, hds⟩ := h.changed q hq
  cases ms with
  | nil =>
    obtain rfl := hwalks.unique .done
    cases ds with
    | nil => cases hhead
    | cons d ds =>
      obtain rfl := Option.some.inj hhead
      simp
  | cons m ms =>
    obtain rfl := Option.some.inj hhead
    have hsteps : Walks v directory (names [m] ++ names ms) place := hwalks
    obtain ⟨root, hroot, hrest⟩ := hsteps.split
    obtain ⟨node, hget, hnode⟩ := hfinished.root
    obtain rfl := walks_component hget hnode hroot
    refine List.IsPrefix.trans (Walks.within (fun p n t c hp ht hc => ?_) (List.prefix_refl _) hrest) (List.prefix_append _ _)
    obtain ⟨c', hc', hwithin⟩ := h.link_within hfinished ((List.prefix_append _ _).trans hp) ht
    have hfollow : Walks v p [.name n] c := .follow ht (by rwa [List.append_nil])
    exact hc'.unique hfollow ▸ hwithin

/-- What an extraction that returns has made of the archive. -/
structure Extracted (linkLimit : Nat) (v : Disk) (root directory : List String) (expected : String)
    (archive : List (Except Fault Entry)) : Prop where
  noLink : ∃ node, get v root = some node ∧ ∀ t, node ≠ .symlink t
  entries : ∃ es : List Entry, archive = es.map .ok ∧ (es.map Entry.size).sum ≤ maxSize ∧ ∀ e ∈ es, Checked expected e ∧
    (e.kind = .symlink ∨ e.linkName.isSome = true → ResolvesIn linkLimit v directory root e.path)

theorem extract_contained {kind : UpdateComponent} {r : Except Fault (List String)} (hunpack : Contained unpackIn)
    (hdirectory : isDirectory v directory = true) (hfresh : ∀ q, directory <+: q → q ≠ directory → get v q = none)
    (hrun : extract unpackIn linkLimit v directory kind archive = (r, w)) :
    (∀ q, ¬ directory <+: q → get w q = get v q) ∧ ∀ root, r = .ok root →
      root = directory ++ [kind.expected] ∧ Extracted linkLimit w root directory kind.expected archive ∧
      (NoLinkReplaced unpackIn directory v archive → (∀ q, get w q ≠ get v q → root <+: q) ∧
        ∀ p n t, directory <+: p → get w (p ++ [n]) = some (.symlink t) → ∃ c, Walks w p [.name n] c ∧ root <+: c) := by
  have hdisk : w = (extractEntries unpackIn directory kind.expected v [] 0 archive).2 := by
    unfold extract at hrun
    split at hrun
    · next heq => rw [heq, ← (Prod.mk.inj hrun).2]
    · next heq => rw [heq, ← (Prod.mk.inj hrun).2]
  refine ⟨fun q hq => hdisk ▸ extractEntries_outside hunpack hdirectory hq, ?_⟩
  rintro root rfl
  unfold extract at hrun
  split at hrun
  · cases (Prod.mk.inj hrun).1
  next links w hentries =>
  obtain ⟨hfinish, rfl⟩ := Prod.mk.inj hrun
  obtain ⟨rfl, hfinished⟩ := finish_ok hfinish
  obtain ⟨-, es, rfl, hes, hsum⟩ := extractEntries_accepted hunpack hdirectory (Nat.zero_le _) hentries
  rw [Nat.zero_add] at hsum
  refine ⟨rfl, ⟨hfinished.root, es, rfl, hsum, fun e he => ⟨(hes e he).checked, fun hlink =>
    hfinished.links _ ((hes e he).listed hlink)⟩⟩, fun hkeeps => ?_⟩
  have hstart : Traced kind.expected directory v v [] := by
    refine ⟨hdirectory, fun q hq => absurd rfl hq, fun p n t hp ht => ?_⟩
    have hlength := hp.length_le
    have hne : p ++ [n] ≠ directory := by
      intro heq
      rw [← heq, List.length_append, List.length_singleton] at hlength
      omega
    rw [hfresh _ (hp.trans (List.prefix_append _ _)) hne] at ht
    cases ht
  have htraced := extractEntries_traced hunpack hstart hkeeps hentries
  exact ⟨fun q hq => htraced.changed_within hfinished hq, fun p n t hp ht => htraced.link_within hfinished hp ht⟩

def Component.normal? : Component → Option String
  | .normal n => some n
  | _ => none

def Entry.names (e : Entry) : List String := e.parts.filterMap Component.normal?

def Entry.node (e : Entry) : Option (Node String) :=
  match e.kind, e.linkName with
  | .directory, _ => some (.directory e.mode)
  | .regular, _ => some (.file e.content e.mode)
  | .symlink, some link => some (.symlink (linkTarget link))
  | _, _ => none

/-- `unpack_in` for entries whose parent is there. -/
def unpackBelow (linkLimit : Nat) : UnpackIn := fun v directory e =>
  match e.names.getLast?, resolve v linkLimit directory (Files.Links.names e.names.dropLast), e.node with
  | some n, some place, some node =>
    if h : isDirectory v place = true ∧ directory <+: place ∧
        ∀ old ∈ get v (place ++ [n]), old.isDirectory = node.isDirectory then
      (.ok true, put v place n node h.1 fun hold => by
        obtain ⟨mode, hmode⟩ := isDirectory_iff.mp hold
        rw [← h.2.2 _ hmode]
        rfl)
    else (.error (ioError "The entry cannot be unpacked."), v)
  | _, _, _ => (.error (ioError "The entry cannot be unpacked."), v)

theorem Entry.names_eq {ns : List String} (h : e.parts = ns.map .normal) : e.names = ns := by
  rw [Entry.names, h, List.filterMap_map]
  exact List.filterMap_some

theorem Entry.node_fits {node : Node String} {old : Option (Node String)} (h : e.node = some node)
    (hold : ∀ o ∈ old, o.isDirectory = node.isDirectory) : Fits e old node := by
  unfold Entry.node at h
  split at h
  · next hkind =>
    obtain rfl := Option.some.inj h
    exact .directory (by rw [hkind]; intro heq; cases heq) hold
  · next hkind =>
    obtain rfl := Option.some.inj h
    exact .file hkind hold
  · next hkind hlink =>
    obtain rfl := Option.some.inj h
    exact .symlink hkind hlink hold
  · cases h

theorem contained_unpackBelow (linkLimit : Nat) : Contained (unpackBelow linkLimit) := by
  intro v directory e ns hdirectory hns
  have hnothing : ∃ ms place ds, Writes directory ns v v ms place ds ∧
      (Except.error (ioError "The entry cannot be unpacked.") = .ok true → ms ++ ds = ns ∧ Unpacks e v v place ds) :=
    ⟨[], directory, [], ⟨List.nil_prefix, .done, hdirectory, List.prefix_refl _, fun q hq => absurd rfl hq⟩,
      fun h => by cases h⟩
  unfold unpackBelow
  rw [Entry.names_eq hns]
  split
  next n place node hlast hplace hnode =>
    split
    next h =>
      obtain ⟨hparent, hinside, hold⟩ := h
      have hpath : ns.dropLast ++ [n] = ns := List.dropLast_append_getLast? n hlast
      have hfront : ns.dropLast ++ [n] <+: ns := by simp [hpath]
      refine ⟨ns.dropLast, place, [n], ⟨hfront, walks_resolve hplace, hparent, hinside, fun q hq => ?_⟩,
        fun _ => ⟨hpath, List.cons_ne_nil n [], fun d hd hfront hne => ?_, node, ?_, Entry.node_fits hnode hold⟩⟩
      · rw [get_put] at hq
        split at hq
        · next heq => exact ⟨[n], List.cons_ne_nil n [], List.prefix_refl _, heq⟩
        · exact absurd rfl hq
      · rcases List.prefix_cons_iff.mp hfront with rfl | ⟨rest, rfl, hrest⟩
        · exact absurd rfl hd
        · obtain rfl := List.prefix_nil.mp hrest
          exact absurd rfl hne
      · rw [get_put, if_pos rfl]
    next => exact hnothing
  next => exact hnothing

def rootDisk : Disk where
  nodes := (∅ : Interact.Table (List String) (Node String)).insert [] (.directory 0o755)
  rooted := by
    intro p n h
    rw [Interact.Table.lookup_insert_if, if_neg (List.append_ne_nil_of_right_ne_nil p (List.cons_ne_nil n []))] at h
    cases h

/-- A disk with an empty staging directory. -/
def stageDisk : Disk := put rootDisk [] "stage" (.directory 0o700) (by decide +kernel) (by simp [Node.isDirectory])

theorem stageDisk_fresh (q : List String) (hfront : ["stage"] <+: q) (hne : q ≠ ["stage"]) : get stageDisk q = none := by
  have hnil : q ≠ [] := by
    rintro rfl
    cases List.prefix_nil.mp hfront
  have hput : get stageDisk q = if q = ["stage"] then some (.directory 0o700) else get rootDisk q := get_put q
  rw [hput, if_neg hne]
  exact (Interact.Table.lookup_insert_if _ _ _ _).trans (if_neg hnil)

/-- The parent resolves to where nothing of the entry's name is. -/
theorem keepsLinks_of_none (linkLimit : Nat) (ms : List String) (n : String) (place : List String) (hparts : e.parts = (ms ++ [n]).map .normal)
    (hplace : resolve v linkLimit directory (names ms) = some place) (hnone : get v (place ++ [n]) = none) :
    KeepsLinks v directory e := by
  intro ms' n' place' t hparts' hwalks ht
  have hpath : ms ++ [n] = ms' ++ [n'] := by
    rw [← Entry.names_eq hparts, Entry.names_eq hparts']
  obtain ⟨rfl, hn⟩ := List.append_inj' hpath rfl
  obtain rfl := (List.cons.inj hn).1
  obtain rfl := hwalks.unique (walks_resolve hplace)
  cases hnone.symm.trans ht

def regularArchive : List (Except Fault Entry) :=
  [.ok { path := "remote-codex", kind := .directory },
    .ok { path := "remote-codex/codex", kind := .regular, size := 3, content := [110, 101, 119] },
    .ok { path := "remote-codex/current", kind := .symlink, linkName := some "codex" }]

theorem extract_contained_regular :
    (extract (unpackBelow 40) 40 stageDisk ["stage"] .cli regularArchive).1 = .ok ["stage", "remote-codex"] ∧
      (∀ q, ¬ ["stage"] <+: q →
        get (extract (unpackBelow 40) 40 stageDisk ["stage"] .cli regularArchive).2 q = get stageDisk q) ∧
      ∀ q, get (extract (unpackBelow 40) 40 stageDisk ["stage"] .cli regularArchive).2 q ≠ get stageDisk q →
        ["stage", "remote-codex"] <+: q := by
  have hok : (extract (unpackBelow 40) 40 stageDisk ["stage"] .cli regularArchive).1 = .ok ["stage", "remote-codex"] := by
    decide
  obtain ⟨houtside, hinside⟩ := extract_contained (contained_unpackBelow 40) (v := stageDisk)
    (by decide) stageDisk_fresh (Prod.eta (extract (unpackBelow 40) 40 stageDisk ["stage"] .cli regularArchive)).symm
  obtain ⟨-, -, hkept⟩ := hinside _ hok
  refine ⟨hok, houtside, (hkept ⟨?_, ?_, ?_, trivial⟩).1⟩
  · exact keepsLinks_of_none 40 [] "remote-codex" ["stage"]
      (by decide) (by decide) (by decide)
  · exact keepsLinks_of_none 40 ["remote-codex"] "codex" ["stage", "remote-codex"]
      (by decide) (by decide) (by decide)
  · exact keepsLinks_of_none 40 ["remote-codex"] "current" ["stage", "remote-codex"]
      (by decide) (by decide) (by decide)

/-- A link out of the component that is written through and then replaced by a file. -/
def replacingArchive : List (Except Fault Entry) :=
  [.ok { path := "remote-codex", kind := .directory },
    .ok { path := "remote-codex/s", kind := .symlink, linkName := some "." },
    .ok { path := "remote-codex/m", kind := .symlink, linkName := some "s/s/.." },
    .ok { path := "remote-codex/m/evil", kind := .regular, size := 1, content := [120] },
    .ok { path := "remote-codex/m", kind := .regular }]

theorem extract_escapes : Contained (unpackBelow 40) ∧
    (extract (unpackBelow 40) 40 stageDisk ["stage"] .cli replacingArchive).1 = .ok ["stage", "remote-codex"] ∧
    get stageDisk ["stage", "evil"] = none ∧
    get (extract (unpackBelow 40) 40 stageDisk ["stage"] .cli replacingArchive).2 ["stage", "evil"] =
      some (.file [120] 0o755) ∧
    ¬ ["stage", "remote-codex"] <+: ["stage", "evil"] :=
  ⟨contained_unpackBelow 40, by decide, by decide, by decide, by decide⟩

end RemoteCodex.Updates
