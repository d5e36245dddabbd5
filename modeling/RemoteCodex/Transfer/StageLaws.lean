import RemoteCodex.Transfer.Change

/-!
# The staging directory, step by step

Opening the staging directory and saving the journal make only the changes an
upload may make. What each function is told to have found holds of the tree it
leaves behind, and where it fails, the tree it was started in says why.
-/

namespace RemoteCodex.Transfer

open Files Interact

/-- Nothing is in the way of opening the stage: its directory can be entered,
and the journal is the owner's. -/
structure Openable (c : Crates) (e : Endpoint) (path : String) (p : Site) (s : Disk) : Prop where
  entered : Entered p s
  journal : ∃ j, Reads c s p.dir j ∧ j.owner = e.owner ∧ j.path = path

/-- Nothing is there yet of the stage, and its directory can be made. -/
structure Fresh (p : Site) (s : Disk) : Prop where
  walks : Walks s [] p.parent
  parent : s.isDirectory p.parent = true
  absent : ∀ q, p.dir <+: q → s.get q = none
  unlocked : p.inner "lock" ∉ s.held

theorem Fresh.inner (h : Fresh p s) (n : String) : s.get (p.inner n) = none :=
  h.absent _ (List.prefix_append _ _)

/-- A stage that can neither be opened nor begun. -/
def Blocked (c : Crates) (e : Endpoint) (path : String) (p : Site) (initial : Option Journal) (s : Disk) : Prop :=
  ¬ Openable c e path p s ∧ (initial.isSome = true → ¬ Fresh p s)

/-- A stage as `openStage` returns it in `t`, having been started in `s`. -/
structure Opened (c : Crates) (e : Endpoint) (path : String) (p : Site) (initial : Option Journal)
    (s : Disk) (stage : Stage) (t : Disk) : Prop where
  parent : stage.parent = p.parent
  name : stage.name = p.stage
  dir : stage.dir = p.dir
  sameOwner : stage.journal.owner = e.owner
  samePath : stage.journal.path = path
  entered : Entered p t
  found :
    (Reads c s p.dir stage.journal ∧ Same [p.dir, p.inner "lock"] s t ∧
      (initial = none → Entered p s ∧ Same [p.inner "lock"] s t)) ∨
    (initial = some stage.journal ∧ s.get (p.inner "state.json") = none ∧
      t.file? (p.inner "data") = some [] ∧ t.get (p.inner "next.json") = none ∧
      t.file? (p.inner "state.json") = some (c.toJson stage.journal) ∧
      Same [p.dir, p.inner "lock", p.inner "data", p.inner "next.json", p.inner "state.json"] s t)

theorem Opened.holds (h : Opened c e path p initial s stage t) : Holds c t p.dir stage.journal := by
  obtain ⟨hr, hs, -⟩ | ⟨-, -, -, -, hf, -⟩ := h.found
  · exact .inl (hr.same hs (by simp [Site.inner]))
  · exact .inr hf

/-- A command that begins no journal has read the one it works on. -/
theorem Opened.reads (h : Opened c e path p none s stage t) : Reads c t p.dir stage.journal := by
  obtain ⟨hr, hs, -⟩ | ⟨hn, -⟩ := h.found
  · exact hr.same hs (by simp [Site.inner])
  · cases hn

theorem Opened.readsBefore (h : Opened c e path p none s stage t) :
    Reads c s p.dir stage.journal := by
  obtain ⟨hr, -⟩ | ⟨hn, -⟩ := h.found
  · exact hr
  · cases hn

theorem Opened.same (h : Opened c e path p initial s stage t) :
    Same [p.dir, p.inner "lock", p.inner "data", p.inner "next.json", p.inner "state.json"] s t := by
  obtain ⟨-, hs, -⟩ | ⟨-, -, -, -, -, hs⟩ := h.found
  · exact hs.mono (by simp)
  · exact hs

theorem Opened.openable (h : Opened c e path p none s stage t) : Openable c e path p s := by
  obtain ⟨hr, -, hd⟩ | ⟨hn, -⟩ := h.found
  · exact ⟨(hd rfl).1, _, hr, h.sameOwner, h.samePath⟩
  · cases hn

section Laws

variable {c : Crates} {e : Endpoint} {cmd : Command} {payload : Bytes} {p : Site} {s s₀ : Disk}

/-- A file is opened, and made or emptied as the flags say. -/
theorem create_sat {G : Op → Disk → Disk → Prop} (hrest : ∀ op a, G op a a) {flags : Flags} {n : String}
    (hf : flags.create = true) (hd : s.isDirectory p.dir = true)
    (hg : ∀ op t x, Same [p.inner n] s t → t.file? (p.inner n) = some x →
      (flags.truncate = true → x = []) → (flags.truncate = false → t = s ∨ s.get (p.inner n) = none) → G op s t) :
    Act.Sat machine G (file (p.inner n) flags) s
      (fun _ t => Same [p.inner n] s t ∧ s.free (p.inner n) = true ∧
        ∃ x, t.file? (p.inner n) = some x ∧ (flags.truncate = true → x = []))
      (fun _ t => t = s ∧ s.free (p.inner n) = false) := by
  rw [← show (p.inner n).dropLast = p.dir from Site.parent_of_inner] at hd
  have hsame := same_openFile s (p.inner n) flags
  obtain ⟨hfree, t, x, hx, ht, hempty, hkeep⟩ | ⟨hfree, r, hx, hr⟩ := openFile_create hf hd
  · rw [hx] at hsame
    exact sat_exec hx rfl (hg _ _ x hsame ht hempty hkeep) (.pure ⟨hsame, hfree, x, ht, hempty⟩)
  · refine sat_exec hx rfl (hrest _ _) ?_
    match r, hr with
    | .error _, _ => exact .throw ⟨rfl, hfree⟩
    | .ok false, _ => exact .throw ⟨rfl, hfree⟩

/-- The bytes of a file that is open are changed. -/
theorem modify_eq {f : Bytes → Bytes} {q : Path} (h : s.file? q = some b) :
    (s.modify q f).1 = .ok () ∧ (s.modify q f).2.file? q = some (f b) ∧
      Same [q] s (s.modify q f).2 := by
  obtain ⟨a, hn⟩ := Disk.file?_eq_some.mp h
  refine ⟨by simp [Disk.modify, hn], ?_, same_modify s q f⟩
  simp [Disk.modify, hn, Disk.store, Disk.file?_put]

theorem setAttr_eq {q : Path} (h : s.get q = some ⟨a, body⟩) (f : Attr → Attr) :
    s.setAttr q f = (.ok (), s.put q ⟨f a, body⟩) := by
  simp [Disk.setAttr, h]

/-- A file renamed over what may be there. -/
theorem rename_eq {q r : Path} (h : s.get q = some ⟨a, .file b⟩)
    (hd : s.isDirectory r.dropLast = true) :
    s.rename q r true = if s.isDirectory r then (.error .isDirectory, s)
      else (.ok (), (s.remove q).put r ⟨a, .file b⟩) := by
  simp [Disk.rename, h, Node.isDirectory, hd]

/-- Saving the journal: the new one is written beside the old one, and takes its place in one step. -/
theorem saving_sat {G : Op → Disk → Disk → Prop} (hrest : ∀ op a, G op a a) (stage : Stage) (hdir : stage.dir = p.dir)
    (hd : s.isDirectory p.dir = true)
    (hscratch : ∀ op a t x, Same [p.inner "next.json"] a t → a.isDirectory p.dir = true →
      t.file? (p.inner "next.json") = some x → G op a t)
    (hsave : ∀ op a t, Same [p.inner "next.json"] s a → a.isDirectory p.dir = true →
      Same [p.inner "next.json", p.inner "state.json"] a t → t.get (p.inner "next.json") = none →
      t.file? (p.inner "state.json") = some (c.toJson stage.journal) → G op a t) :
    Act.Sat machine G (stage.save c) s
      (fun _ t => Same [p.inner "next.json", p.inner "state.json"] s t ∧
        t.get (p.inner "next.json") = none ∧
        t.file? (p.inner "state.json") = some (c.toJson stage.journal))
      (fun _ t => Same [p.inner "next.json"] s t ∧
        (s.free (p.inner "next.json") = false ∨ s.isDirectory (p.inner "state.json") = true)) := by
  unfold Stage.save
  rw [show stage.dir ++ ["next.json"] = p.inner "next.json" by rw [hdir]; rfl,
    show stage.dir ++ ["state.json"] = p.inner "state.json" by rw [hdir]; rfl]
  refine .bind (Act.Sat.mono (create_sat (p := p) hrest rfl hd fun op t x hs hx _ _ => hscratch op s t x hs hd hx)
    (fun _ _ h => h) ?_) ?_
  · rintro _ _ ⟨rfl, h⟩
    exact ⟨.refl _ _, .inl h⟩
  rintro _ u ⟨hsu, _, x, hx, hempty⟩
  obtain rfl := hempty rfl
  have hdu : u.isDirectory p.dir = true := by rw [hsu.isDirectory (by simp), hd]
  have hwrite := fun bytes => modify_eq (f := (splice · 0 bytes)) hx
  refine .bind (R := fun r v => r = .ok () ∧ Same [p.inner "next.json"] u v ∧
      v.file? (p.inner "next.json") = some (c.toJson stage.journal))
    (.request_alone machine_alone ?_ ?_ ?_) ?_
  · rintro _ ⟨k⟩
    exact hscratch _ _ _ _ (hwrite _).2.2 hdu (hwrite _).2.1
  · exact hscratch _ _ _ _ (hwrite _).2.2 hdu (hwrite _).2.1
  · exact ⟨(hwrite _).1, (hwrite _).2.2, (hwrite _).2.1.trans (congrArg some (splice_nil _))⟩
  rintro _ v ⟨rfl, hsv, hv⟩
  have hsw := hsu.trans hsv
  refine sat_ok (sat_look hrest rfl (sat_ok ?_))
  have hdv : v.isDirectory p.dir = true := by rw [hsw.isDirectory (by simp), hd]
  obtain ⟨a, hn⟩ := Disk.file?_eq_some.mp hv
  have hrename := rename_eq (r := p.inner "state.json") hn (by rw [Site.parent_of_inner, hdv])
  rw [hsw.isDirectory (by simp)] at hrename
  refine .bind (R := fun r t => (r, t) = v.rename (p.inner "next.json") (p.inner "state.json") true)
    (sat_whole rfl ?_ rfl) ?_
  · rw [show exec (.rename _ _ true) v = _ from hrename]
    split
    · exact hrest _ _
    · refine hsave _ _ _ hsw hdv ?_ ?_ (Disk.file?_put _ _ _ _)
      · exact same_move _ _ _ _
      · rw [Disk.get_put, if_neg (by simp), Disk.get_remove, if_pos rfl]
  rw [hrename]
  intro r t hrt
  split at hrt
  · next hst =>
    obtain ⟨rfl, rfl⟩ := Prod.mk.inj hrt
    exact .throw ⟨hsw, .inr hst⟩
  · obtain ⟨rfl, rfl⟩ := Prod.mk.inj hrt
    refine sat_ok (sat_look hrest rfl (.pure ⟨?_, ?_, Disk.file?_put _ _ _ _⟩))
    · exact (hsw.mono (by simp)).trans
        (same_move _ _ _ _)
    · rw [Disk.get_put, if_neg (by simp), Disk.get_remove, if_pos rfl]

/-- The old journal or the new one is there at every moment. -/
theorem save_sat (stage : Stage) (hp : cmd.site c = some p) (hdir : stage.dir = p.dir)
    (hd : s.isDirectory p.dir = true) (hdue : Due c e cmd payload p s stage.journal) :
    Act.Sat machine (Step c e cmd payload s₀) (stage.save c) s
      (fun _ t => Same [p.inner "next.json", p.inner "state.json"] s t ∧
        t.get (p.inner "next.json") = none ∧
        t.file? (p.inner "state.json") = some (c.toJson stage.journal))
      (fun _ t => Same [p.inner "next.json"] s t ∧
        (s.free (p.inner "next.json") = false ∨ s.isDirectory (p.inner "state.json") = true)) := by
  refine saving_sat Step.rest stage hdir hd ?_ ?_
  · exact fun op a t x hs ha hx => .inr ⟨p, hp, .scratch (n := "next.json") (by simp) ha hs hx⟩
  · exact fun op a t hs ha ht hnext hstate => .inr ⟨p, hp, .save (hdue.same hs) ha ht hnext hstate⟩

-- ---------------------------------------------------------------------------
-- Opening
-- ---------------------------------------------------------------------------

/-- The journal a `prepare` begins with, and the only one a command brings along. -/
def Begins (e : Endpoint) (cmd : Command) (j : Journal) : Prop :=
  ∃ path token src expected, cmd = .prepare path token src expected ∧ src.kind = .file ∧
    j = ⟨e.owner, path, src, expected, 0, none, false⟩

theorem createStage_sat {initial : Option Journal} (hp : cmd.site c = some p) :
    Act.Sat machine (Step c e cmd payload s₀) (createStage p.dir initial) s
      (fun created t => (created = false ∧ t = s ∧ (initial.isSome = true → s.get p.dir ≠ none)) ∨
        (created = true ∧ initial.isSome = true ∧ s.get p.dir = none ∧ Same [p.dir] s t ∧
          t.isDirectory p.dir = true))
      (fun _ t => t = s ∧ s.isDirectory p.dir = false ∧ s.isDirectory p.parent = false) := by
  cases initial with
  | none => exact .pure (.inl ⟨rfl, rfl, by simp⟩)
  | some j =>
    refine .bind (R := fun r t => (r, t) = exec (.createDirectory p.dir) s) (sat_whole rfl ?_ rfl) ?_
    · simp only [exec]
      split
      · exact .rest _ _
      · next hn =>
        split
        · refine .inr ⟨p, hp, .folder (.inl (by simpa using hn)) (same_create _ _ _ _) ?_⟩
          simp [Disk.isDirectory_iff, Disk.get_create]
        · exact .rest _ _
    · intro r t hrt
      simp only [exec] at hrt
      split at hrt
      · next hsome =>
        obtain ⟨rfl, rfl⟩ := Prod.mk.inj hrt
        exact .pure (.inl ⟨rfl, rfl, fun _ => Option.isSome_iff_ne_none.mp hsome⟩)
      · next hn =>
        have hn : s.get p.dir = none := by simpa using hn
        split at hrt
        · obtain ⟨rfl, rfl⟩ := Prod.mk.inj hrt
          refine .pure (.inr ⟨rfl, rfl, hn, same_create _ _ _ _, ?_⟩)
          simp [Disk.isDirectory_iff, Disk.get_create]
        · next hparent =>
          obtain ⟨rfl, rfl⟩ := Prod.mk.inj hrt
          refine .throw ⟨rfl, by simp [Disk.isDirectory, hn], ?_⟩
          simpa [Site.dir] using hparent

theorem restrict_sat {created : Bool} (hp : cmd.site c = some p)
    (hd : s.isDirectory p.dir = true) :
    Act.Sat machine (Step c e cmd payload s₀) (restrict p.dir created) s
      (fun _ t => Same [p.dir] s t ∧ t.isDirectory p.dir = true ∧ (created = false → t = s))
      (fun _ _ => False) := by
  cases created with
  | false => exact .pure ⟨.refl _ _, hd, fun _ => rfl⟩
  | true =>
    obtain ⟨a, hn⟩ := Disk.isDirectory_iff.mp hd
    have hset := setAttr_eq hn fun a => { a with mode := 0o700 }
    have hsame := same_setAttr s p.dir fun a => { a with mode := 0o700 }
    have hdir : (s.setAttr p.dir fun a => { a with mode := 0o700 }).2.isDirectory p.dir = true := by
      simp [Disk.isDirectory_iff, hset, Disk.get_put]
    refine .bind (R := fun r t => r = .ok () ∧ Same [p.dir] s t ∧ t.isDirectory p.dir = true)
      (sat_whole rfl ?_ ?_) ?_
    · exact .inr ⟨p, hp, .folder (.inr hd) hsame hdir⟩
    · exact ⟨congrArg Prod.fst hset, hsame, hdir⟩
    · rintro _ t ⟨rfl, h1, h2⟩
      exact .pure ⟨h1, h2, by simp⟩

theorem readJournal_sat {initial : Option Journal} {missing : Bool}
    (hm : missing = true ↔ s.get (p.inner "state.json") = none) :
    Act.Sat machine (Step c e cmd payload s₀) (readJournal c p.dir initial missing) s
      (fun j t => t = s ∧ (Reads c s p.dir j ∨
        (initial = some j ∧ s.get (p.inner "state.json") = none)))
      (fun _ t => t = s ∧ (∀ j, ¬ Reads c s p.dir j) ∧
        (initial.isSome = true → s.get (p.inner "state.json") ≠ none)) := by
  unfold readJournal
  rw [show p.dir ++ ["state.json"] = p.inner "state.json" from rfl]
  refine .bind (R := fun r t => t = s ∧ (r.isOk = true ↔ ∃ b, s.file? (p.inner "state.json") = some b))
    (.attempt ((file_sat Step.rest _ _ ⟨rfl, rfl⟩).mono ?_ ?_)) ?_
  · rintro _ t ⟨rfl, h⟩
    exact ⟨rfl, by simpa [Except.isOk, Except.toBool] using h⟩
  · rintro _ t ⟨rfl, h⟩
    exact ⟨rfl, by simp [Except.isOk, Except.toBool, h]⟩
  rintro (err | u) t ⟨rfl, hfile⟩
  · have hno : ∀ j, ¬ Reads c t p.dir j := fun j ⟨b, hb, _⟩ => by
      have := hfile.mpr ⟨b, hb⟩
      simp [Except.isOk, Except.toBool] at this
    cases missing with
    | false =>
      have hthere : t.get (p.inner "state.json") ≠ none := by simp [← hm]
      cases initial <;> exact .throw ⟨rfl, hno, fun _ => hthere⟩
    | true =>
      cases initial with
      | none => exact .throw ⟨rfl, hno, by simp⟩
      | some j => exact .pure ⟨rfl, .inr ⟨rfl, hm.mp rfl⟩⟩
  · obtain ⟨b, hb⟩ := hfile.mp (by simp [Except.isOk, Except.toBool])
    refine sat_look Step.rest rfl ?_
    simp only [exec, hb]
    refine sat_ok ?_
    cases hj : c.fromJson (b.take 16384) with
    | ok j => exact .pure ⟨rfl, .inl ⟨b, hb, hj⟩⟩
    | error err =>
      refine .throw ⟨rfl, fun j ⟨b', hb', hj'⟩ => ?_, fun _ hn => ?_⟩
      · obtain rfl := Option.some.inj (hb.symm.trans hb')
        cases hj.symm.trans hj'
      · cases (Disk.file?_none hn).symm.trans hb

theorem initializeStage_sat {stage : Stage} (hp : cmd.site c = some p) (hdir : stage.dir = p.dir)
    (hd : s.isDirectory p.dir = true) (hb : Begins e cmd stage.journal)
    (hn : s.get (p.inner "state.json") = none) :
    Act.Sat machine (Step c e cmd payload s₀) (initializeStage c stage true) s
      (fun _ t => Same [p.inner "data", p.inner "next.json", p.inner "state.json"] s t ∧
        t.file? (p.inner "data") = some [] ∧ t.get (p.inner "next.json") = none ∧
        t.file? (p.inner "state.json") = some (c.toJson stage.journal))
      (fun _ _ => s.free (p.inner "data") = false ∨ s.free (p.inner "next.json") = false) := by
  obtain ⟨path, token, src, expected, rfl, hk, hj⟩ := hb
  rw [initializeStage, if_pos rfl]
  rw [show stage.dir ++ ["data"] = p.inner "data" by rw [hdir]; rfl]
  refine .bind ((create_sat (p := p) Step.rest rfl hd ?_).mono (fun _ _ h => h) fun _ _ h => .inl h.2) ?_
  · intro op t x hs hx hempty _
    obtain rfl := hempty rfl
    exact .inr ⟨p, hp, .empty rfl hd hn hs hx⟩
  rintro _ u ⟨hsu, _, x, hx, hempty⟩
  obtain rfl := hempty rfl
  refine sat_look Step.rest rfl (sat_ok ?_)
  have hdue : Due c e (.prepare path token src expected) payload p u stage.journal := by
    rw [hj]
    exact .initial rfl hk (by rw [hsu.get _ (by simp), hn]) hx
  refine .bind ((save_sat _ hp hdir (by rw [hsu.isDirectory (by simp), hd]) hdue).mono (fun _ _ h => h) ?_) ?_
  · rintro _ _ ⟨-, h | h⟩
    · exact .inr (by rw [← hsu.free (by simp), h])
    · rw [hsu.isDirectory (by simp), Disk.isDirectory, hn] at h
      cases h
  rintro _ t ⟨hst, hnext, hstate⟩
  refine sat_look Step.rest rfl (.pure ⟨?_, ?_, hnext, hstate⟩)
  · exact (hsu.mono (by simp)).trans (hst.mono (by simp))
  · rw [hst.file? (by simp), hx]

theorem enterStage_sat {initial : Option Journal} (hp : cmd.site c = some p)
    (hw : Walks s [] p.parent) :
    Act.Sat machine (Step c e cmd payload s₀) (enterStage p.parent p.stage initial) s
      (fun r t => r = p.dir ∧ Entered p t ∧ Same [p.dir, p.inner "lock"] s t ∧
        (initial = none → Entered p s ∧ Same [p.inner "lock"] s t))
      (fun _ _ => ¬ Entered p s ∧ (initial.isSome = true → ¬ Fresh p s)) := by
  unfold enterStage
  rw [show p.parent ++ [p.stage] = p.dir from rfl]
  refine .bind ((createStage_sat hp).mono (fun _ _ h => h) ?_) ?_
  · rintro _ _ ⟨-, hdir, hparent⟩
    refine ⟨fun he => ?_, fun _ hf => ?_⟩
    · cases he.dir.symm.trans hdir
    · cases hf.parent.symm.trans hparent
  intro created u hu
  refine .bind ((directory_sat Step.rest _ _).mono (fun _ _ h => h) ?_) ?_
  · rintro _ t ⟨rfl, hd⟩
    obtain ⟨-, rfl, hthere⟩ | ⟨-, -, -, -, ht⟩ := hu
    · refine ⟨fun he => ?_, fun hi hf => hthere hi (hf.absent _ (List.prefix_refl _))⟩
      cases hd.symm.trans he.dir
    · cases hd.symm.trans ht
  rintro _ u ⟨rfl, rfl, hdu⟩
  refine .bind ((restrict_sat hp hdu).mono (fun _ _ h => h) fun _ _ h => h.elim) ?_
  rintro _ v ⟨huv, hdv, hkept⟩
  have hsv : Same [p.dir] s v := by
    obtain ⟨-, rfl, -⟩ | ⟨-, -, -, hsu, -⟩ := hu
    · exact huv
    · exact hsu.trans huv
  have hsame : initial = none → v = s := by
    rintro rfl
    obtain ⟨hc, rfl, -⟩ | ⟨-, hi, -⟩ := hu
    · exact hkept hc
    · cases hi
  refine .bind ((create_sat (p := p) (n := "lock") Step.rest rfl hdv ?_).mono (fun _ _ h => h) ?_) ?_
  · intro op t x hs hx _ _
    exact .inr ⟨p, hp, .scratch (n := "lock") (by simp) hdv hs hx⟩
  · rintro _ t ⟨rfl, hfree⟩
    rw [hsv.free (by simp)] at hfree
    refine ⟨fun he => ?_, fun _ hf => ?_⟩
    · cases he.lock.symm.trans hfree
    · cases (Disk.free_of_none (hf.inner "lock")).symm.trans hfree
  rintro _ t ⟨hvt, hfree, x, hx, -⟩
  refine sat_look Step.rest rfl ?_
  refine .bind (.ensure (Q := fun _ t' => t' = t ∧ p.inner "lock" ∉ t.held) ?_ ?_) ?_
  · intro h
    replace h : (!t.held.contains (p.inner "lock")) = true := h
    exact ⟨rfl, by simpa using h⟩
  · intro h
    replace h : (!t.held.contains (p.inner "lock")) = false := h
    rw [hvt.held, hsv.held] at h
    exact ⟨fun he => he.unlocked (by simpa using h), fun _ hf => hf.unlocked (by simpa using h)⟩
  rintro _ t' ⟨rfl, hlock⟩
  have hst : Same [p.dir, p.inner "lock"] s t' := (hsv.mono (by simp)).trans (hvt.mono (by simp))
  have hwt : Walks t' [] p.parent := hw.same hst (by simp)
  refine .pure ⟨rfl, ⟨hwt, by rw [hvt.isDirectory (by simp), hdv], Disk.free_of_file hx, hlock⟩, hst, ?_⟩
  intro hi
  obtain rfl := hsame hi
  exact ⟨⟨hw, hdv, hfree, by rw [← hvt.held]; exact hlock⟩, hvt⟩

theorem openStage_sat (cmd : Command) {path token : String} {initial : Option Journal}
    (hsite : cmd.site c = (do
      let (dir, target) ← place path
      let id ← c.uuid token
      some ⟨dir, target, stageName id⟩))
    (hb : ∀ j, initial = some j → Begins e cmd j ∧ j.owner = e.owner ∧ j.path = path) :
    Act.Sat machine (Step c e cmd payload s₀) (openStage c e path token initial) s
      (fun stage t => ∃ p, cmd.site c = some p ∧ place path = some (p.parent, p.target) ∧
        Opened c e path p initial s stage t)
      (fun _ _ => ∀ p, cmd.site c = some p → Blocked c e path p initial s) := by
  refine .bind ((parent_sat Step.rest path).mono (fun _ _ h => h) ?_) ?_
  · rintro _ t ⟨rfl, hno⟩ p hp
    rw [hsite] at hp
    simp only [Option.bind_eq_bind, Option.bind_eq_some_iff] at hp
    obtain ⟨r, hr, id, -, h⟩ := hp
    obtain rfl := Option.some.inj h
    exact ⟨fun ho => hno r hr ho.entered.walks, fun _ hf => hno r hr hf.walks⟩
  rintro ⟨dir, target⟩ s ⟨rfl, hplace, hwalks⟩
  cases hid : c.uuid token with
  | none =>
    have hnone : cmd.site c = none := by rw [hsite, hplace, hid]; rfl
    simp only [name, hid]
    refine .throw fun p hp => ?_
    rw [hnone] at hp
    cases hp
  | some id =>
  obtain ⟨p, hpdef⟩ : ∃ p : Site, p = ⟨dir, target, stageName id⟩ := ⟨_, rfl⟩
  have hp : cmd.site c = some p := by rw [hsite, hplace, hid, hpdef]; rfl
  obtain ⟨rfl, rfl, hst⟩ : dir = p.parent ∧ target = p.target ∧ stageName id = p.stage := by
    rw [hpdef]
    exact ⟨rfl, rfl, rfl⟩
  have hno (h : Blocked c e path p initial s) : ∀ q, cmd.site c = some q → Blocked c e path q initial s := by
    intro q hq
    obtain rfl := Option.some.inj (hp.symm.trans hq)
    exact h
  simp only [name, hid, hst]
  refine .bind (Act.Sat.pure (Q := fun n t => n = p.stage ∧ t = s) ⟨rfl, rfl⟩) ?_
  rintro _ s ⟨rfl, rfl⟩
  refine .bind ((enterStage_sat hp hwalks).mono (fun _ _ h => h) ?_) ?_
  · exact fun _ _ h => hno ⟨fun ho => h.1 ho.entered, h.2⟩
  rintro _ t ⟨rfl, hent, hst, ht⟩
  refine sat_look Step.rest rfl ?_
  rw [show p.dir ++ ["state.json"] = p.inner "state.json" from rfl]
  have hm : isMissing (exec (.symlinkMetadata (p.inner "state.json")) t).1 = true ↔
      t.get (p.inner "state.json") = none := by
    simp only [exec]
    cases t.get (p.inner "state.json") <;> simp [isMissing]
  generalize isMissing (exec (.symlinkMetadata (p.inner "state.json")) t).1 = missing at hm
  have hstate : p.inner "state.json" ∉ [p.dir, p.inner "lock"] := by simp
  have hnot {u : Disk} {j' : Journal} (hn : u.get (p.inner "state.json") = none) : ¬ Reads c u p.dir j' := by
    rintro ⟨b, hb, -⟩
    rw [show p.dir ++ ["state.json"] = p.inner "state.json" from rfl, Disk.file?_none hn] at hb
    cases hb
  refine .bind ((readJournal_sat hm).mono (fun _ _ h => h) ?_) ?_
  · rintro _ _ ⟨rfl, h, hthere⟩
    refine hno ⟨fun ho => ?_, fun hi hf => hthere hi ?_⟩
    · obtain ⟨j, hj, -⟩ := ho.journal
      exact h j (hj.same hst hstate)
    · rw [hst.get _ hstate, hf.inner]
  rintro j t' ⟨rfl, hj⟩
  refine .bind (.ensure (Q := fun _ t'' => t'' = t' ∧ j.owner = e.owner ∧ j.path = path) ?_ ?_) ?_
  · intro h
    exact ⟨rfl, by simpa using h⟩
  · intro h
    refine hno ⟨fun ho => ?_, fun _ hf => ?_⟩
    · obtain ⟨j', hj', hown⟩ := ho.journal
      replace hj' := hj'.same hst hstate
      obtain hj | ⟨-, hj⟩ := hj
      · obtain rfl := hj.unique hj'
        simp [hown] at h
      · exact hnot hj hj'
    · obtain hj | ⟨hi, -⟩ := hj
      · exact hnot (hf.inner _) (hj.same hst.symm hstate)
      · simp [(hb j hi).2] at h
  rintro _ t ⟨rfl, hown, hpath⟩
  cases hmiss : missing with
  | false =>
    have hne : ¬ t.get (p.inner "state.json") = none := by simp [← hm, hmiss]
    have hr : Reads c t p.dir j := hj.resolve_right fun h => hne h.2
    refine .bind (.pure (Q := fun _ t' => t' = t) rfl) ?_
    rintro _ _ rfl
    exact .pure ⟨p, hp, hplace, rfl, rfl, rfl, hown, hpath, hent, .inl ⟨hr.same hst.symm hstate, hst, ht⟩⟩
  | true =>
    have hn := hm.mp hmiss
    obtain rfl : initial = some j := hj.elim (fun h => absurd h (hnot hn)) (·.1)
    refine .bind ((initializeStage_sat hp rfl hent.dir (hb j rfl).1 hn).mono (fun _ _ h => h) ?_) ?_
    · rintro _ _ h
      refine hno ⟨fun ho => ?_, fun _ hf => ?_⟩
      · obtain ⟨j', hj', -⟩ := ho.journal
        exact hnot hn (hj'.same hst hstate)
      · have hfree (n : String) (hn : p.inner n ∉ [p.dir, p.inner "lock"]) : t.free (p.inner n) = true :=
          Disk.free_of_none (by rw [hst.get _ hn, hf.inner])
        obtain h | h := h
        · cases (hfree "data" (by simp)).symm.trans h
        · cases (hfree "next.json" (by simp)).symm.trans h
    rintro _ u ⟨htu, hdata, hnext, hsaved⟩
    refine .pure ⟨p, hp, hplace, rfl, rfl, rfl, hown, hpath, hent.same htu ?_ (.inl (by simp)),
      .inr ⟨rfl, by rw [← hst.get _ hstate, hn], hdata, hnext, hsaved, ?_⟩⟩
    · simp only [List.mem_cons, List.not_mem_nil, or_false]
      rintro q (rfl | rfl | rfl)
      all_goals exact .inr ⟨_, by decide, rfl⟩
    · exact (hst.mono (by simp)).trans (htu.mono (by simp))

end Laws

end RemoteCodex.Transfer
