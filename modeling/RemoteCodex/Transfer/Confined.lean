import RemoteCodex.Transfer.Handles
import RemoteCodex.Transfer.Publication

/-!
# Staying beneath the root

One lemma for each function of the endpoint: every call it makes is on what it
has opened before, by a plain name. Nothing is asked of the tree, which others
may change at any moment; what is open stays open.
-/

namespace RemoteCodex.Transfer.Handles

open Files Interact

-- ---------------------------------------------------------------------------
-- Plain names
-- ---------------------------------------------------------------------------

theorem plain_iff {name : String} : plain name = true ↔ PlainName name.toList := by
  simp only [plain, Bool.and_eq_true, decide_eq_true_eq, Bool.not_eq_true', List.contains_eq_mem,
    decide_eq_false_iff_not, ne_eq, ← String.toList_inj]
  constructor
  · rintro ⟨⟨⟨hslash, hempty⟩, hdot⟩, hparent⟩
    exact ⟨hslash, hempty, hdot, hparent⟩
  · rintro ⟨hslash, hempty, hdot, hparent⟩
    exact ⟨⟨⟨hslash, hempty⟩, hdot⟩, hparent⟩

theorem plain_ofList {cs : List Char} (h : PlainName cs) : plain (String.ofList cs) = true := by
  rw [plain_iff, String.toList_ofList]
  exact h

theorem pathComponents_normal {path name : String} (h : .normal name ∈ pathComponents path) : plain name = true := by
  unfold pathComponents at h
  have hslash : ∀ cs ∈ path.toList.splitOn '/', '/' ∉ cs := fun cs hcs => not_mem_of_mem_splitOn hcs
  generalize path.toList.splitOn '/' = groups at h hslash
  cases groups with
  | nil => cases h
  | cons first rest =>
    rcases List.mem_append.mp h with h | h
    · have hfirst := hslash first (List.mem_cons_self ..)
      split at h
      · split at h
        · cases h
        · cases List.mem_singleton.mp h
      · cases List.mem_singleton.mp h
      · cases List.mem_singleton.mp h
      · next hempty hdot hparent =>
        obtain rfl := Component.normal.inj (List.mem_singleton.mp h)
        exact plain_ofList ⟨hfirst, hempty, hdot, hparent⟩
    · obtain ⟨cs, hcs, heq⟩ := List.mem_filterMap.mp h
      have hcs := hslash cs (List.mem_cons_of_mem _ hcs)
      split at heq
      · cases heq
      · cases heq
      · cases heq
      · next hempty hdot hparent =>
        obtain rfl := Component.normal.inj (Option.some.inj heq)
        exact plain_ofList ⟨hcs, hempty, hdot, hparent⟩

theorem components_plain {path : String} {parts : List String} (h : components path = .ok parts) :
    ∀ name ∈ parts, plain name = true := by
  intro name hname
  obtain ⟨-, -, hparts⟩ := components_ok.mp h
  exact pathComponents_normal (by rw [hparts]; exact List.mem_map_of_mem hname)

theorem plain_append {start rest : String} (hstart : '/' ∉ start.toList) (hlong : 2 < start.toList.length)
    (hrest : '/' ∉ rest.toList) : plain (start ++ rest) = true := by
  have hshort : ∀ cs : List Char, cs.length ≤ 2 → start.toList ++ rest.toList ≠ cs := by
    rintro cs hcs rfl
    rw [List.length_append] at hcs
    omega
  rw [plain_iff, String.toList_append]
  refine ⟨fun hmem => ?_, hshort _ (by simp), hshort _ (by simp), hshort _ (by simp)⟩
  exact (List.mem_append.mp hmem).elim hstart hrest

/-- The canonical text of a token is one name. -/
theorem stageName_plain {id : String} (h : '/' ∉ id.toList) : plain (stageName id) = true :=
  plain_append (by decide) (by decide) h

-- ---------------------------------------------------------------------------
-- Rules
-- ---------------------------------------------------------------------------

/-- A call that stays beneath the root in what it is given. -/
def Bounded (op : Op) (w u : World) : Prop := Allowed op w ∧ u = (exec op w).2

/-- From `w` on, `x` only makes such calls, and what was open stays open. -/
def Keeps (x : M α) (w : World) (Q : α → World → Prop) : Prop :=
  Act.Sat machine Bounded x w (fun a u => Grown w u ∧ Q a u) fun _ u => Grown w u

section

variable {w : World} {x : M α} {f : α → M β} {R : α → World → Prop} {Q : β → World → Prop}

theorem keeps_bind (hx : Keeps x w R) (hf : ∀ a u, Grown w u → R a u → Keeps (f a) u Q) : Keeps (x >>= f) w Q := by
  refine .bind (hx.mono (fun _ _ h => h) fun _ _ h => h) ?_
  rintro a u ⟨hgrown, hR⟩
  refine (hf a u hgrown hR).mono ?_ fun _ _ h => hgrown.trans h
  exact fun _ _ h => ⟨hgrown.trans h.1, h.2⟩

theorem keeps_mono {Q' : α → World → Prop} (h : Keeps x w R) (hQ : ∀ a u, Grown w u → R a u → Q' a u) :
    Keeps x w Q' :=
  h.mono (fun a u h => ⟨h.1, hQ a u h.1 h.2⟩) fun _ _ h => h

/-- Where nothing is asked of the result. -/
theorem keeps_any (h : Keeps x w R) : Keeps x w fun _ _ => True := keeps_mono h fun _ _ _ _ => trivial

theorem keeps_pure {a : β} (h : Q a w) : Keeps (pure a) w Q := .pure ⟨.refl w, h⟩

theorem keeps_throw {e : Fault} : Keeps (throw e : M β) w Q := .throw (.refl w)

theorem keeps_ensure {b : Bool} {e : Fault} : Keeps (ensure b e) w fun _ _ => b = true :=
  .ensure (fun h => ⟨.refl w, h⟩) fun _ => .refl w

theorem keeps_checkCancelled {e : Endpoint} : Keeps (checkCancelled e) w fun _ _ => True := keeps_any keeps_ensure

theorem keeps_ofExcept {r : Except Fault β} (h : ∀ a, r = .ok a → Q a w) : Keeps (ofExcept r) w Q := by
  cases r with
  | ok a => exact keeps_pure (h a rfl)
  | error e => exact keeps_throw

theorem keeps_orIo {r : Except Errno β} (h : ∀ a, r = .ok a → Q a w) : Keeps (orIo r) w Q := by
  cases r with
  | ok a => exact keeps_pure (h a rfl)
  | error e => exact keeps_throw

theorem keeps_attempt (h : Keeps x w R) : Keeps (attempt x) w fun r u => ∀ a, r = .ok a → R a u := by
  refine .attempt (h.mono ?_ ?_)
  · rintro a u ⟨hgrown, hR⟩
    refine ⟨hgrown, fun b heq => ?_⟩
    obtain rfl := Except.ok.inj heq
    exact hR
  · exact fun e u hgrown => ⟨hgrown, fun b heq => by cases heq⟩

/-- Others may act before the call does. -/
theorem keeps_sys {op : Op} {Q : Ans op → World → Prop} (h : Allowed op w)
    (hQ : ∀ u, Grown w u → Q (exec op u).1 (exec op u).2) : Keeps (sys op) w Q := by
  refine .request fun u hu => ?_
  have hgrown := Others.grown hu
  refine ⟨fun _ => False.elim, ⟨h.grown hgrown, rfl⟩, hgrown.trans (grown_exec op u), hQ u hgrown⟩

/-- A call of which only the success matters, and what follows it. -/
theorem keeps_step (op : Op) {g : Ans op → M α} (h : Allowed op w) (hg : ∀ r u, Grown w u → Keeps (g r) u R) :
    Keeps (sys op >>= g) w R :=
  keeps_bind (R := fun _ _ => True) (keeps_sys h fun _ _ => trivial) fun r u hgrown _ => hg r u hgrown

theorem keeps_try {r : Except Errno α} (h : ∀ a, Keeps (f a) w Q) : Keeps (orIo r >>= f) w Q := by
  cases r with
  | ok a => exact h a
  | error e => exact keeps_throw

end

-- ---------------------------------------------------------------------------
-- Opening
-- ---------------------------------------------------------------------------

section

variable {w u : World} {dir : Path} {name path : String}

theorem Opened.at (h : Opened dir w) (hplain : plain name = true) : At (dir ++ [name]) w := ⟨dir, name, rfl, hplain, h⟩

theorem directory_keeps (h : Opened dir w) (hplain : plain name = true) :
    Keeps (directory dir name) w fun r u => r = dir ++ [name] ∧ Opened r u := by
  unfold directory
  refine keeps_bind (R := fun r u => r = .ok () → Opened (dir ++ [name]) u) (keeps_sys (h.at hplain) ?_) ?_
  · exact fun u _ => (grown_openDirectory u _).2
  · intro r u _ hopen
    refine keeps_bind (R := fun _ u => Opened (dir ++ [name]) u) (keeps_orIo fun _ heq => hopen heq) ?_
    exact fun _ v _ hv => keeps_pure ⟨rfl, hv⟩

theorem file_keeps {p : Path} (h : At p w) (flags : Flags) : Keeps (file p flags) w fun _ u => Ready p u := by
  unfold file
  refine keeps_bind (R := fun r u => r = .ok true → Ready p u) (keeps_sys h ?_) ?_
  · exact fun u _ => (grown_openFile u _ _).2
  · intro r u _ hready
    refine keeps_bind (R := fun b u => b = true → Ready p u) (keeps_orIo fun b heq hb => hready (by rw [heq, hb])) ?_
    intro b v _ hb
    exact keeps_mono keeps_ensure fun _ t hgrown hok => hgrown.ready (hb hok)

theorem walk_keeps {names : List String} (h : Opened dir w) (hplain : ∀ n ∈ names, plain n = true) :
    Keeps (walk dir names) w fun r u => Opened r u := by
  induction names generalizing dir w with
  | nil => exact keeps_pure h
  | cons name names ih =>
    refine keeps_bind (directory_keeps h (hplain _ (List.mem_cons_self ..))) ?_
    rintro _ u _ ⟨rfl, hopen⟩
    exact ih hopen fun n hn => hplain n (List.mem_cons_of_mem _ hn)

theorem components_keeps :
    Keeps (ofExcept (components path)) w fun parts _ => ∀ n ∈ parts, plain n = true :=
  keeps_ofExcept fun _ h => components_plain h

variable (hroot : Opened [] w)

include hroot

theorem openDirectory_keeps : Keeps (openDirectory path) w fun r u => Opened r u := by
  refine keeps_bind components_keeps ?_
  exact fun parts u hgrown hplain => walk_keeps (hgrown.opened hroot) hplain

theorem parent_keeps : Keeps (parent path) w fun r u => Opened r.1 u ∧ plain r.2 = true := by
  refine keeps_bind components_keeps ?_
  intro parts u hgrown hplain
  cases hlast : parts.getLast? with
  | none => exact keeps_throw
  | some name =>
    refine keeps_bind (walk_keeps (hgrown.opened hroot) fun n hn => hplain n (List.mem_of_mem_dropLast hn)) ?_
    exact fun r v _ hr => keeps_pure ⟨hr, hplain name (List.mem_of_getLast? hlast)⟩

end

-- ---------------------------------------------------------------------------
-- Looking at files
-- ---------------------------------------------------------------------------

section

variable {w u : World} {dir p : Path} {name path : String} {c : Crates} {e : Endpoint}

theorem stat_keeps (hroot : Opened [] w) : Keeps (stat path) w fun _ _ => True := by
  unfold stat
  split
  · refine keeps_step (.symlinkMetadata []) (.inl ⟨rfl, hroot⟩) fun r u _ => ?_
    split
    · exact keeps_pure trivial
    · exact keeps_pure trivial
    · exact keeps_throw
  · refine keeps_bind (parent_keeps hroot) ?_
    rintro ⟨dir, name⟩ u _ ⟨hdir, hplain⟩
    refine keeps_step (.symlinkMetadata _) (.inr (hdir.at hplain)) fun r v _ => ?_
    split
    · exact keeps_pure trivial
    · exact keeps_pure trivial
    · exact keeps_throw

theorem isInternal_keeps (h : Opened dir w) (hplain : plain name = true) : Keeps (isInternal c dir name) w fun _ _ => True := by
  unfold isInternal
  split
  · exact keeps_pure trivial
  · refine keeps_bind (keeps_attempt (directory_keeps h hplain)) ?_
    intro r u _ hr
    split
    · exact keeps_pure trivial
    · next stage =>
      refine keeps_step (.symlinkMetadata (stage ++ ["state.json"])) (.inr ?_) fun r v _ => ?_
      · exact (hr stage rfl).2.at (by decide)
      · split <;> exact keeps_pure trivial

theorem insertName_subset (names : List String) : ∀ n ∈ insertName name names, n = name ∨ n ∈ names := by
  have hsub : ∀ n ∈ (if names.contains name then names else names.orderedInsert (· ≤ ·) name), n = name ∨ n ∈ names := by
    intro n hn
    split at hn
    · exact .inr hn
    · exact (List.mem_orderedInsert _).mp hn
  intro n hn
  unfold insertName at hn
  generalize (if names.contains name then names else names.orderedInsert (· ≤ ·) name) = all at hn hsub
  dsimp only at hn
  split at hn
  · exact hsub n (List.mem_of_mem_dropLast hn)
  · exact hsub n hn

theorem listNames_keeps {after : Option String} {names rest : List String} (h : Opened dir w)
    (hnames : ∀ n ∈ names, plain n = true) (hrest : ∀ n ∈ rest, plain n = true) :
    Keeps (listNames c e dir after names rest) w fun r _ => ∀ n ∈ r, plain n = true := by
  induction rest generalizing names w with
  | nil => exact keeps_pure hnames
  | cons name rest ih =>
    have hname := hrest name (List.mem_cons_self ..)
    have hrest : ∀ n ∈ rest, plain n = true := fun n hn => hrest n (List.mem_cons_of_mem _ hn)
    refine keeps_bind keeps_checkCancelled fun _ u hu _ => ?_
    refine keeps_bind (isInternal_keeps (hu.opened h) hname) fun internal v hv _ => ?_
    have hopen := hv.opened (hu.opened h)
    split
    · exact ih hopen hnames hrest
    · refine ih hopen ?_ hrest
      intro n hn
      rcases insertName_subset names n hn with rfl | hn
      · exact hname
      · exact hnames n hn

theorem stampNames_keeps {names : List String} (h : Opened dir w) (hnames : ∀ n ∈ names, plain n = true) :
    Keeps (stampNames dir names) w fun _ _ => True := by
  induction names generalizing w with
  | nil => exact keeps_pure trivial
  | cons name names ih =>
    refine keeps_step _ (.inr (h.at (hnames name (List.mem_cons_self ..)))) fun r u hu => keeps_try fun m => ?_
    refine keeps_bind (ih (hu.opened h) fun n hn => hnames n (List.mem_cons_of_mem _ hn)) ?_
    exact fun _ _ _ _ => keeps_pure trivial

theorem names_plain (w : World) (p : Path) : ∀ n ∈ w.names p, plain n = true := by
  intro n hn
  unfold World.names at hn
  split at hn
  · obtain ⟨entry, -, rfl⟩ := List.mem_map.mp hn
    exact entry.1.property
  · cases hn

theorem list_keeps (hroot : Opened [] w) (after : Option String) : Keeps (list c e path after) w fun _ _ => True := by
  refine keeps_bind (openDirectory_keeps hroot) fun dir u _ hdir => ?_
  refine keeps_bind (R := fun r _ => ∀ names, r = .ok names → ∀ n ∈ names, plain n = true) (keeps_sys hdir ?_) ?_
  · rintro v - names ⟨⟩
    exact names_plain v dir
  intro r v hv hr
  refine keeps_bind (R := fun names _ => ∀ n ∈ names, plain n = true) (keeps_orIo hr) fun entries t ht hentries => ?_
  have hdir := ht.opened (hv.opened hdir)
  refine keeps_bind (listNames_keeps hdir (by simp) hentries) fun names s hs hnames => ?_
  refine keeps_bind (stampNames_keeps (hs.opened hdir) ?_) fun _ _ _ _ => keeps_pure trivial
  intro n hn
  split at hn
  · exact hnames n (List.mem_of_mem_dropLast hn)
  · exact hnames n hn

theorem source_keeps (hroot : Opened [] w) (expected : Stamp) : Keeps (source path expected) w fun r u => Ready r u := by
  refine keeps_bind (parent_keeps hroot) ?_
  rintro ⟨dir, name⟩ u _ ⟨hdir, hplain⟩
  refine keeps_bind (file_keeps (hdir.at hplain) {}) fun _ v hv hready => ?_
  refine keeps_step _ (.inr ((hdir.at hplain).grown hv)) fun r t ht => keeps_try fun m => ?_
  refine keeps_bind keeps_ensure fun _ s hs _ => ?_
  exact keeps_pure (hs.ready (ht.ready hready))

theorem read_keeps (hroot : Opened [] w) (expected : Stamp) (offset : Nat) :
    Keeps (read c path expected offset) w fun _ _ => True := by
  refine keeps_bind keeps_ensure fun _ u hu _ => ?_
  refine keeps_bind (source_keeps (hu.opened hroot) expected) fun file v hv hready => ?_
  refine keeps_step (.read file) hready fun r t ht => keeps_try fun all => ?_
  refine keeps_bind keeps_ensure fun _ s hs _ => ?_
  refine keeps_bind (source_keeps ?_ expected) fun _ _ _ _ => keeps_pure trivial
  exact hs.opened (ht.opened (hv.opened (hu.opened hroot)))

theorem hashFile_keeps (h : Ready p w) : Keeps (hashFile c e p) w fun _ _ => True := by
  refine keeps_bind keeps_checkCancelled fun _ u hu _ => ?_
  exact keeps_step (.read p) (hu.ready h) fun r v _ => keeps_try fun bytes => keeps_pure trivial

theorem hash_keeps (hroot : Opened [] w) (expected : Stamp) : Keeps (hash c e path expected) w fun _ _ => True := by
  refine keeps_bind (source_keeps hroot expected) fun file u hu hready => ?_
  refine keeps_bind (hashFile_keeps hready) fun result v hv _ => ?_
  refine keeps_bind (source_keeps (hv.opened (hu.opened hroot)) expected) fun _ _ _ _ => keeps_pure trivial

theorem setMetadata_keeps (h : Opened p w ∨ Ready p w) (stamp : Stamp) :
    Keeps (setMetadata p stamp) w fun _ _ => True := by
  have hgrown : ∀ {w u}, Grown w u → Opened p w ∨ Ready p w → Opened p u ∨ Ready p u :=
    fun hg h => h.imp hg.opened hg.ready
  refine keeps_step (.setPermissions p _) h fun _ u hu => keeps_try fun _ => ?_
  refine keeps_step (.setModified p _ _) (hgrown hu h) fun _ v hv => keeps_try fun _ => ?_
  refine keeps_step (.sync p) (hgrown hv (hgrown hu h)) fun _ _ _ => ?_
  exact keeps_orIo fun _ _ => trivial

theorem metadata_keeps (hroot : Opened [] w) (stamp : Stamp) : Keeps (metadata path stamp) w fun _ _ => True := by
  unfold metadata
  split
  · exact keeps_bind (openDirectory_keeps hroot) fun dir u _ hdir => setMetadata_keeps (.inl hdir) stamp
  · refine keeps_bind (parent_keeps hroot) ?_
    rintro ⟨dir, name⟩ u _ ⟨hdir, hplain⟩
    refine keeps_bind (file_keeps (hdir.at hplain) {}) fun _ v _ hready => ?_
    exact setMetadata_keeps (.inr hready) stamp

end

-- ---------------------------------------------------------------------------
-- Staged uploads
-- ---------------------------------------------------------------------------

/-- The directories of a stage are open. -/
structure Held (stage : Stage) (w : World) : Prop where
  parent : Opened stage.parent w
  dir : Opened stage.dir w
  plain : plain stage.name = true

section

variable {w u : World} {dir p : Path} {name path token : String} {c : Crates} {e : Endpoint} {stage : Stage}

theorem Held.grown (h : Held stage w) (hg : Grown w u) : Held stage u := ⟨hg.opened h.parent, hg.opened h.dir, h.plain⟩

/-- One of the names a staging directory has. -/
theorem Held.at (h : Held stage w) (hplain : Handles.plain name = true) : At (stage.dir ++ [name]) w := h.dir.at hplain

theorem save_keeps (h : Held stage w) : Keeps (stage.save c) w fun _ _ => True := by
  have hnext : At (stage.dir ++ ["next.json"]) w := h.at (by decide)
  have hstate : At (stage.dir ++ ["state.json"]) w := h.at (by decide)
  refine keeps_bind (file_keeps hnext _) fun _ u hu hready => ?_
  refine keeps_step (.write _ _ _) hready fun _ v hv => keeps_try fun _ => ?_
  refine keeps_step (.sync _) (.inr (hv.ready hready)) fun _ t ht => keeps_try fun _ => ?_
  have hgrown := (hu.trans hv).trans ht
  refine keeps_step (.rename _ _ _) ⟨hnext.grown hgrown, hstate.grown hgrown⟩ fun _ s hs => keeps_try fun _ => ?_
  refine keeps_step (.sync _) (.inl ((h.grown hgrown).grown hs).dir) fun _ _ _ => ?_
  exact keeps_orIo fun _ _ => trivial

theorem data_keeps (h : Held stage w) : Keeps stage.data w fun _ u => Ready (stage.dir ++ ["data"]) u :=
  file_keeps (h.at (by decide)) _

variable (huuid : ∀ token id, c.uuid token = some id → '/' ∉ id.toList)

include huuid in
theorem name_keeps : Keeps (Transfer.name c token) w fun r _ => plain r = true := by
  unfold Transfer.name
  split
  · next id hid => exact keeps_pure (stageName_plain (huuid token id hid))
  · exact keeps_throw

theorem createStage_keeps (h : At p w) (initial : Option Journal) : Keeps (createStage p initial) w fun _ _ => True := by
  unfold createStage
  split
  · exact keeps_pure trivial
  · refine keeps_step (.createDirectory p) h fun r u _ => ?_
    split
    · exact keeps_pure trivial
    · exact keeps_pure trivial
    · exact keeps_throw

theorem restrict_keeps (h : Opened dir w) (created : Bool) : Keeps (restrict dir created) w fun _ _ => True := by
  unfold restrict
  split
  · refine keeps_step (.setPermissions dir _) (.inl h) fun _ _ _ => ?_
    exact keeps_orIo fun _ _ => trivial
  · exact keeps_pure trivial

theorem enterStage_keeps (h : Opened dir w) (hplain : plain name = true) (initial : Option Journal) :
    Keeps (enterStage dir name initial) w fun r u => Opened r u := by
  refine keeps_bind (createStage_keeps (h.at hplain) initial) fun created u hu _ => ?_
  refine keeps_bind (directory_keeps (hu.opened h) hplain) ?_
  rintro _ v _ ⟨rfl, hdir⟩
  refine keeps_bind (restrict_keeps hdir created) fun _ t ht _ => ?_
  have hlock : At (dir ++ [name] ++ ["lock"]) t := (ht.opened hdir).at (by decide)
  refine keeps_bind (file_keeps hlock _) fun _ s hs hready => ?_
  refine keeps_step (.lock _) hready fun free r hr => ?_
  refine keeps_bind keeps_ensure fun _ q hq _ => ?_
  exact keeps_pure (hq.opened (hr.opened (hs.opened (ht.opened hdir))))

theorem readJournal_keeps (h : Opened dir w) (initial : Option Journal) (missing : Bool) :
    Keeps (readJournal c dir initial missing) w fun _ _ => True := by
  have hstate : At (dir ++ ["state.json"]) w := h.at (by decide)
  refine keeps_bind (keeps_attempt (file_keeps hstate {})) fun r u hu hr => ?_
  split
  · refine keeps_step (.read _) (hr () rfl) fun bytes v _ => keeps_try fun bytes => ?_
    split
    · exact keeps_pure trivial
    · exact keeps_throw
  · split
    · exact keeps_pure trivial
    · exact keeps_throw
    · exact keeps_throw

theorem initializeStage_keeps (h : Held stage w) (fresh : Bool) :
    Keeps (initializeStage c stage fresh) w fun _ _ => True := by
  unfold initializeStage
  split
  · refine keeps_bind (file_keeps (h.at (by decide)) _) fun _ u hu hready => ?_
    refine keeps_step (.sync _) (.inr hready) fun _ v hv => keeps_try fun _ => ?_
    have hheld := (h.grown hu).grown hv
    refine keeps_bind (save_keeps hheld) fun _ t ht _ => ?_
    refine keeps_step (.sync _) (.inl (hheld.grown ht).parent) fun _ _ _ => ?_
    exact keeps_orIo fun _ _ => trivial
  · exact keeps_pure trivial

include huuid

theorem openStage_keeps (hroot : Opened [] w) (initial : Option Journal) :
    Keeps (openStage c e path token initial) w Held := by
  refine keeps_bind (parent_keeps hroot) ?_
  rintro ⟨parent, last⟩ u _ ⟨hparent, -⟩
  refine keeps_bind (name_keeps huuid) fun name v hv hplain => ?_
  have hparent := hv.opened hparent
  refine keeps_bind (enterStage_keeps hparent hplain initial) fun dir t ht hdir => ?_
  refine keeps_step (.symlinkMetadata _) (.inr (hdir.at (by decide))) fun found s hs => ?_
  refine keeps_bind (readJournal_keeps (hs.opened hdir) initial _) fun journal r hr _ => ?_
  refine keeps_bind keeps_ensure fun _ q hq _ => ?_
  have hgrown := (hs.trans hr).trans hq
  have hheld : Held { parent, name, dir, journal } q :=
    ⟨hgrown.opened (ht.opened hparent), hgrown.opened hdir, hplain⟩
  refine keeps_bind (initializeStage_keeps hheld _) fun _ o ho _ => keeps_pure (hheld.grown ho)

end

-- ---------------------------------------------------------------------------
-- The commands
-- ---------------------------------------------------------------------------

section

variable {w u : World} {dir p : Path} {path token digest : String} {c : Crates} {e : Endpoint} {stage : Stage}

theorem reconcile_keeps (hroot : Opened [] w) (h : Held stage w) : Keeps (reconcile c e stage) w Held := by
  refine keeps_bind (stat_keeps hroot) fun found u hu _ => ?_
  split
  · exact keeps_throw
  · next stamp =>
    refine keeps_bind keeps_ensure fun _ v hv _ => ?_
    refine keeps_bind (hash_keeps (hv.opened (hu.opened hroot)) stamp) fun digest t ht _ => ?_
    refine keeps_bind keeps_ensure fun _ s hs _ => ?_
    have hheld := (((h.grown hu).grown hv).grown ht).grown hs
    have hheld : Held { stage with journal := { stage.journal with committed := true } } s :=
      ⟨hheld.parent, hheld.dir, hheld.plain⟩
    exact keeps_bind (save_keeps hheld) fun _ r hr _ => keeps_pure (hheld.grown hr)

theorem renamed_keeps (h : Held stage w) : Keeps (renamed stage) w fun _ _ => True := by
  unfold renamed
  split
  · exact keeps_step (.symlinkMetadata _) (.inr (h.at (by decide))) fun _ _ _ => keeps_pure trivial
  · exact keeps_pure trivial

theorem checkpoint_keeps (h : Held stage w) : Keeps (checkpoint stage) w fun _ _ => True := by
  have hdata : At (stage.dir ++ ["data"]) w := h.at (by decide)
  refine keeps_bind (file_keeps hdata {}) fun _ u hu _ => ?_
  refine keeps_step (.symlinkMetadata _) (.inr (hdata.grown hu)) fun r v hv => keeps_try fun m => ?_
  refine keeps_bind keeps_ensure fun _ t ht _ => ?_
  split
  · refine keeps_bind (data_keeps (((h.grown hu).grown hv).grown ht)) fun _ s _ hready => ?_
    exact keeps_step (.setLength _ _) hready fun _ _ _ => keeps_orIo fun _ _ => trivial
  · exact keeps_pure trivial

theorem settle_keeps (hroot : Opened [] w) (h : Held stage w) : Keeps (settle c e stage) w Held := by
  refine keeps_bind (renamed_keeps h) fun taken u hu _ => ?_
  split
  · exact reconcile_keeps (hu.opened hroot) (h.grown hu)
  · exact keeps_pure (h.grown hu)

theorem removeFiles_keeps {names : List String} (h : Opened dir w) (hnames : ∀ n ∈ names, plain n = true) :
    Keeps (removeFiles dir names) w fun _ _ => True := by
  induction names generalizing w with
  | nil => exact keeps_pure trivial
  | cons name names ih =>
    refine keeps_step (.removeFile _) (h.at (hnames name (List.mem_cons_self ..))) fun r u hu => ?_
    have hrest := ih (hu.opened h) fun n hn => hnames n (List.mem_cons_of_mem _ hn)
    split
    · exact hrest
    · exact hrest
    · exact keeps_throw

theorem resume_keeps (hroot : Opened [] w) (h : Held stage w) (expected : Option Stamp) :
    Keeps (resume path expected stage) w fun _ _ => True := by
  unfold resume
  split
  · exact keeps_pure trivial
  · refine keeps_bind (stat_keeps hroot) fun found u hu _ => ?_
    exact keeps_bind keeps_ensure fun _ v hv _ => checkpoint_keeps ((h.grown hu).grown hv)

theorem publish_keeps (hroot : Opened [] w) (h : Held stage w) : Keeps (publish c e path digest stage) w fun _ _ => True := by
  have hdata : At (stage.dir ++ ["data"]) w := h.at (by decide)
  refine keeps_bind (file_keeps hdata {}) fun _ u hu hready => ?_
  refine keeps_bind (hashFile_keeps hready) fun actual v hv _ => ?_
  refine keeps_bind keeps_ensure fun _ t ht _ => ?_
  refine keeps_bind (setMetadata_keeps (.inr (ht.ready (hv.ready hready))) _) fun _ s hs _ => ?_
  have hgrown := ((hu.trans hv).trans ht).trans hs
  have hheld := h.grown hgrown
  have hsave : Held { stage with journal := { stage.journal with digest := some digest } } s :=
    ⟨hheld.parent, hheld.dir, hheld.plain⟩
  refine keeps_bind (save_keeps hsave) fun _ r hr _ => ?_
  refine keeps_bind (parent_keeps (hr.opened (hgrown.opened hroot))) ?_
  rintro ⟨parent, target⟩ q hq ⟨-, htarget⟩
  refine keeps_bind (stat_keeps (hq.opened (hr.opened (hgrown.opened hroot)))) fun found o ho _ => ?_
  refine keeps_bind keeps_ensure fun _ n hn _ => ?_
  have hgrown' := ((hr.trans hq).trans ho).trans hn
  have hheld := hheld.grown hgrown'
  have hboth : Allowed (.rename (stage.dir ++ ["data"]) (stage.parent ++ [target]) stage.journal.expected.isSome) n :=
    ⟨hheld.at (by decide), hheld.parent.at htarget⟩
  refine keeps_step _ hboth fun _ m hm => keeps_try fun _ => ?_
  refine keeps_step (.sync _) (.inl (hheld.grown hm).parent) fun _ l hl => keeps_try fun _ => ?_
  have hheld := (hheld.grown hm).grown hl
  exact keeps_bind (save_keeps ⟨hheld.parent, hheld.dir, hheld.plain⟩) fun _ _ _ _ => keeps_pure trivial

variable (huuid : ∀ token id, c.uuid token = some id → '/' ∉ id.toList) (hroot : Opened [] w)

include hroot in
theorem createDirectory_keeps : Keeps (createDirectory path) w fun _ _ => True := by
  refine keeps_bind (parent_keeps hroot) ?_
  rintro ⟨dir, name⟩ u _ ⟨hdir, hplain⟩
  refine keeps_step (.createDirectory _) (hdir.at hplain) fun _ v hv => keeps_try fun _ => ?_
  refine keeps_step (.sync _) (.inl (hv.opened hdir)) fun _ _ _ => keeps_try fun _ => ?_
  exact keeps_pure trivial

include huuid hroot

theorem prepare_keeps (source : Stamp) (expected : Option Stamp) :
    Keeps (prepare c e path token source expected) w fun _ _ => True := by
  refine keeps_bind keeps_ensure fun _ u hu _ => ?_
  refine keeps_bind (openStage_keeps huuid (hu.opened hroot) _) fun stage v hv hheld => ?_
  refine keeps_bind keeps_ensure fun _ t ht _ => ?_
  have hroot := ht.opened (hv.opened (hu.opened hroot))
  refine keeps_bind (settle_keeps hroot (hheld.grown ht)) fun stage s hs hheld => ?_
  exact keeps_bind (resume_keeps (hs.opened hroot) hheld expected) fun _ _ _ _ => keeps_pure trivial

theorem write_keeps (offset : Nat) (bytes : Bytes) :
    Keeps (write c e path token offset digest bytes) w fun _ _ => True := by
  refine keeps_bind (openStage_keeps huuid hroot none) fun stage u hu hheld => ?_
  refine keeps_bind keeps_ensure fun _ v hv _ => ?_
  refine keeps_bind (data_keeps (hheld.grown hv)) fun _ t ht hready => ?_
  refine keeps_step (.write _ _ _) hready fun _ s hs => keeps_try fun _ => ?_
  refine keeps_step (.sync _) (.inr (hs.ready hready)) fun _ r hr => keeps_try fun _ => ?_
  have hheld := (((hheld.grown hv).grown ht).grown hs).grown hr
  exact keeps_bind (save_keeps ⟨hheld.parent, hheld.dir, hheld.plain⟩) fun _ _ _ _ => keeps_pure trivial

theorem commit_keeps : Keeps (commit c e path token digest) w fun _ _ => True := by
  refine keeps_bind (openStage_keeps huuid hroot none) fun stage u hu hheld => ?_
  refine keeps_bind (renamed_keeps hheld) fun taken v hv _ => ?_
  have hroot := hv.opened (hu.opened hroot)
  have hheld := hheld.grown hv
  split
  · exact keeps_bind (reconcile_keeps hroot hheld) fun _ _ _ _ => keeps_pure trivial
  · refine keeps_bind keeps_ensure fun _ t ht _ => ?_
    have hroot := ht.opened hroot
    refine keeps_bind (stat_keeps hroot) fun found s hs _ => ?_
    refine keeps_bind keeps_ensure fun _ r hr _ => ?_
    exact publish_keeps (hr.opened (hs.opened hroot)) (((hheld.grown ht).grown hs).grown hr)

theorem cancel_keeps : Keeps (cancel c e path token) w fun _ _ => True := by
  refine keeps_bind (parent_keeps hroot) ?_
  rintro ⟨parent, last⟩ u hu ⟨hparent, -⟩
  refine keeps_bind (name_keeps huuid) fun name v hv hplain => ?_
  have hstage := (hv.opened hparent).at hplain
  refine keeps_step (.symlinkMetadata _) (.inr hstage) fun found t ht => ?_
  split
  · exact keeps_pure trivial
  · have hroot := ht.opened (hv.opened (hu.opened hroot))
    refine keeps_bind (openStage_keeps huuid hroot none) fun stage s hs hheld => ?_
    refine keeps_bind (removeFiles_keeps hheld.dir (by decide)) fun _ r hr _ => ?_
    have hheld := hheld.grown hr
    refine keeps_step (.removeDirectory _) (hheld.parent.at hheld.plain) fun _ q hq => keeps_try fun _ => ?_
    refine keeps_step (.sync _) (.inl (hheld.grown hq).parent) fun _ _ _ => keeps_try fun _ => ?_
    exact keeps_pure trivial

theorem dispatch_keeps (command : Command) (bytes : Bytes) : Keeps (dispatch c e command bytes) w fun _ _ => True := by
  have hdone : ∀ {α} {x : M α} {f : α → Reply × Bytes} {u}, Keeps x u (fun _ _ => True) →
      Keeps (x >>= fun a => pure (f a)) u fun _ _ => True :=
    fun h => keeps_bind h fun _ _ _ _ => keeps_pure trivial
  refine keeps_bind keeps_checkCancelled fun _ u hu _ => ?_
  refine keeps_bind keeps_ensure fun _ v hv _ => ?_
  have hroot := hv.opened (hu.opened hroot)
  cases command with
  | stat path => exact hdone (stat_keeps hroot)
  | list path after => exact hdone (list_keeps hroot after)
  | read path stamp offset => exact read_keeps hroot stamp offset
  | hash path stamp => exact hdone (hash_keeps hroot stamp)
  | prepare path token source expected => exact hdone (prepare_keeps huuid hroot source expected)
  | write path token offset digest => exact hdone (write_keeps huuid hroot offset bytes)
  | commit path token digest => exact hdone (commit_keeps huuid hroot)
  | cancel path token => exact hdone (cancel_keeps huuid hroot)
  | directory path => exact hdone (createDirectory_keeps hroot)
  | metadata path stamp => exact hdone (f := fun _ => (.done, [])) (metadata_keeps hroot stamp)

end

-- ---------------------------------------------------------------------------
-- Refused paths
-- ---------------------------------------------------------------------------

/-- An absolute path, one that leads up, one with a NUL byte, or too long a one. -/
def Refused (path : String) : Prop :=
  path.toList.head? = some '/' ∨ ['.', '.'] ∈ path.toList.splitOn '/' ∨ '\x00' ∈ path.toList ∨ 4096 < path.utf8ByteSize

/-- `x` makes no call and fails. -/
def Fails (x : M α) : Prop := ∃ f, x.run = .done (.error f)

section

variable {x : M α} {f : α → M β} {c : Crates} {e : Endpoint} {path token digest : String}

theorem fails_bind (h : Fails x) : Fails (x >>= f) := by
  obtain ⟨fault, h⟩ := h
  exact ⟨fault, by rw [ExceptT.run_bind, h]; rfl⟩

theorem fails_ensure {b : Bool} {e : Fault} {g : Unit → M α} (h : Fails (g ())) : Fails (ensure b e >>= g) := by
  cases b
  · exact ⟨e, rfl⟩
  · exact h

theorem parentDir_mem (h : ['.', '.'] ∈ path.toList.splitOn '/') : .parentDir ∈ pathComponents path := by
  unfold pathComponents
  cases hgroups : path.toList.splitOn '/' with
  | nil =>
    rw [hgroups] at h
    cases h
  | cons first rest =>
    rw [hgroups] at h
    rcases List.mem_cons.mp h with rfl | h
    · exact List.mem_append_left _ (List.mem_singleton_self _)
    · exact List.mem_append_right _ (List.mem_filterMap.mpr ⟨_, h, rfl⟩)

theorem rootDir_mem (h : path.toList.head? = some '/') : .rootDir ∈ pathComponents path := by
  obtain ⟨rest, hrest⟩ := List.head?_eq_some_iff.mp h
  unfold pathComponents
  rw [hrest, show '/' :: rest = [] ++ '/' :: rest from rfl, List.splitOn_append_cons_self, List.splitOn_nil]
  simp

theorem components_refused (h : Refused path) : ∃ f, components path = .error f := by
  cases hparts : components path with
  | error f => exact ⟨f, rfl⟩
  | ok parts =>
    exfalso
    obtain ⟨hzero, hsize, hparts⟩ := components_ok.mp hparts
    rcases h with habsolute | hup | hnul | hlong
    · have hmem := rootDir_mem habsolute
      rw [hparts] at hmem
      obtain ⟨name, -, heq⟩ := List.mem_map.mp hmem
      cases heq
    · have hmem := parentDir_mem hup
      rw [hparts] at hmem
      obtain ⟨name, -, heq⟩ := List.mem_map.mp hmem
      cases heq
    · exact hzero hnul
    · omega

variable (h : ∃ f, components path = .error f)

include h

theorem openDirectory_fails : Fails (openDirectory path) := by
  obtain ⟨f, hf⟩ := h
  exact fails_bind ⟨f, by rw [hf]; rfl⟩

theorem parent_fails : Fails (parent path) := by
  obtain ⟨f, hf⟩ := h
  exact fails_bind ⟨f, by rw [hf]; rfl⟩

theorem stat_fails : Fails (stat path) := by
  have hne : ¬ path.isEmpty = true := by
    rw [String.isEmpty_iff]
    rintro rfl
    obtain ⟨f, hf⟩ := h
    cases hf
  unfold stat
  rw [if_neg hne]
  exact fails_bind (parent_fails h)

theorem source_fails (expected : Stamp) : Fails (source path expected) := fails_bind (parent_fails h)

theorem openStage_fails (initial : Option Journal) : Fails (openStage c e path token initial) :=
  fails_bind (parent_fails h)

end

/-- A command with a refused path makes no call. -/
theorem dispatch_fails {c : Crates} {e : Endpoint} {command : Command} (h : ∃ f, components command.path = .error f)
    (bytes : Bytes) : Fails (dispatch c e command bytes) := by
  refine fails_ensure (fails_ensure ?_)
  cases command with
  | stat path => exact fails_bind (stat_fails h)
  | list path after => exact fails_bind (fails_bind (openDirectory_fails h))
  | read path stamp offset => exact fails_ensure (fails_bind (source_fails h stamp))
  | hash path stamp => exact fails_bind (fails_bind (source_fails h stamp))
  | prepare path token source expected => exact fails_bind (fails_ensure (fails_bind (openStage_fails h _)))
  | write path token offset digest => exact fails_bind (fails_bind (openStage_fails h none))
  | commit path token digest => exact fails_bind (fails_bind (openStage_fails h none))
  | cancel path token => exact fails_bind (fails_bind (parent_fails h))
  | directory path => exact fails_bind (fails_bind (parent_fails h))
  | metadata path stamp =>
    refine fails_bind ?_
    unfold metadata
    split
    · exact fails_bind (openDirectory_fails h)
    · exact fails_bind (parent_fails h)

-- ---------------------------------------------------------------------------
-- Every command
-- ---------------------------------------------------------------------------

/-- A command has the handle of the root, and has opened nothing. -/
structure Fresh (root : Nat) (w : World) : Prop where
  root : w.dirs [] = [root]
  dirs : ∀ p, p ≠ [] → w.dirs p = []
  files : ∀ p, w.files p = []
  deeds : w.deeds = []

section

variable {root : Nat} {w u : World} {c : Crates}

theorem Fresh.honest (h : Fresh root w) : Honest root w where
  dirs p i hi := by
    by_cases hp : p = []
    · rw [hp, h.root, List.mem_singleton] at hi
      rw [hi]
      exact .root
    · rw [h.dirs p hp] at hi
      cases hi
  files p i hi := by
    rw [h.files p] at hi
    cases hi

theorem Honest.others (h : Honest root w) (hu : Others w u) : Honest root u := by
  obtain ⟨hdirs, hfiles, hdeeds⟩ := hu
  constructor
  · rw [hdirs, hdeeds]
    exact h.dirs
  · rw [hfiles, hdeeds]
    exact h.files

/-- Whatever the tree is, and becomes between any two calls, all a command does
is beneath the root, in real directories found by plain names, and what it
opens for data is a regular file. A refused path has no effect at all. -/
theorem dispatch_confined (huuid : ∀ token id, c.uuid token = some id → '/' ∉ id.toList) (e : Endpoint)
    (command : Command) (bytes : Bytes) (hfresh : Fresh root w) :
    (∀ op a b, Prog.Occurs machine (dispatch c e command bytes).run w op a b →
      ∃ new, b.deeds = new ++ a.deeds ∧ ∀ deed ∈ new, Confined root a deed) ∧
    (Refused command.path → ∃ f, (dispatch c e command bytes).run = .done (.error f)) := by
  refine ⟨?_, fun h => dispatch_fails (components_refused h) bytes⟩
  intro op a b hoccurs
  have hopen : Opened [] w := by simp [Opened, hfresh.root]
  have hkeeps := dispatch_keeps (e := e) huuid hopen command bytes
  unfold Keeps Act.Sat at hkeeps
  have hhonest : Honest root a := by
    refine hkeeps.occurs_inv hoccurs hfresh.honest ?_ ?_
    · exact fun _ _ hothers h => h.others hothers
    · rintro op a b ⟨hallowed, rfl⟩ h
      exact (further_exec h hallowed).honest
  obtain ⟨hallowed, rfl⟩ := hkeeps.occurs hoccurs
  exact (further_exec hhonest hallowed).deeds

/-- A root with a link in it. -/
def someWorld : World where
  tree i :=
    if i = 0 then some ⟨⟨1, 0, 0o755, 0, 0, 0⟩, .directory [(⟨"a", by decide⟩, 1)]⟩
    else if i = 1 then some ⟨⟨1, 1, 0o777, 0, 0, 0⟩, .symlink "/etc"⟩
    else none
  around := ⟨0, 2, .ok (), true⟩
  dirs p := if p = [] then [0] else []
  files _ := []
  deeds := []

end

theorem mem_splitOn {a ch : Char} {cs : List Char} (h : ch ∈ cs) (hne : ch ≠ a) : ∃ group ∈ cs.splitOn a, ch ∈ group := by
  induction cs with
  | nil => cases h
  | cons x xs ih =>
    obtain ⟨first, rest, hsplit⟩ := List.exists_cons_of_ne_nil (List.splitOn_ne_nil a xs)
    rw [List.splitOn_cons_eq_if_modifyHead]
    rcases List.mem_cons.mp h with rfl | h
    · rw [if_neg (by simpa using hne), hsplit, List.modifyHead_cons]
      exact ⟨_, List.mem_cons_self .., List.mem_cons_self ..⟩
    · obtain ⟨group, hgroup, hmem⟩ := ih h
      split
      · exact ⟨group, List.mem_cons_of_mem _ hgroup, hmem⟩
      · rw [hsplit, List.modifyHead_cons]
        rw [hsplit] at hgroup
        rcases List.mem_cons.mp hgroup with rfl | hgroup
        · exact ⟨_, List.mem_cons_self .., List.mem_cons_of_mem _ hmem⟩
        · exact ⟨group, List.mem_cons_of_mem _ hgroup, hmem⟩

theorem canonicalToken_plain (token id : String) (h : canonicalToken token = some id) : '/' ∉ id.toList := by
  unfold canonicalToken at h
  dsimp only at h
  split at h
  · next hgroups =>
    obtain rfl := Option.some.inj h
    rw [String.toList_ofList]
    intro hmem
    obtain ⟨group, hgroup, hmem⟩ := mem_splitOn hmem (by decide : '/' ≠ '-')
    rw [Bool.and_eq_true, List.all_eq_true] at hgroups
    have hall := List.all_eq_true.mp (hgroups.2 group hgroup) _ hmem
    revert hall
    decide
  · cases h

theorem dispatch_confined_link :
    (∀ op a b, Prog.Occurs machine (dispatch linked ⟨"o", false⟩ (.list "a" none) []).run someWorld op a b →
      ∃ new, b.deeds = new ++ a.deeds ∧ ∀ deed ∈ new, Confined 0 a deed) ∧
    (Refused (Command.list "a" none).path →
      ∃ f, (dispatch linked ⟨"o", false⟩ (.list "a" none) []).run = .done (.error f)) :=
  have hfresh : Fresh 0 someWorld := ⟨rfl, fun _ hp => if_neg hp, fun _ => rfl, rfl⟩
  dispatch_confined canonicalToken_plain ⟨"o", false⟩ (.list "a" none) [] hfresh

end RemoteCodex.Transfer.Handles
