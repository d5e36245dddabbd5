import RemoteCodex.Transfer.StageLaws

/-!
# The upload commands, step by step

Every step of `prepare`, `write`, `commit` and `cancel` is a `Step`; the
results are told from what the stage was found to hold when it was opened.
-/

namespace RemoteCodex.Transfer

open Files Interact

/-- A stage that is open for `path` in the tree `s`. -/
structure Working (c : Crates) (e : Endpoint) (path : String) (p : Site) (stage : Stage) (s : Disk) :
    Prop where
  parent : stage.parent = p.parent
  name : stage.name = p.stage
  dir : stage.dir = p.dir
  sameOwner : stage.journal.owner = e.owner
  samePath : stage.journal.path = path
  entered : Entered p s
  place : place path = some (p.parent, p.target)
  holds : Holds c s p.dir stage.journal

theorem Opened.working (h : Opened c e path p initial s stage t)
    (hp : place path = some (p.parent, p.target)) : Working c e path p stage t :=
  ⟨h.parent, h.name, h.dir, h.sameOwner, h.samePath, h.entered, hp, h.holds⟩

/-- The rename of a commit may have happened: its digest is recorded and the data is gone. -/
def Renamed (p : Site) (j : Journal) (s : Disk) : Prop :=
  j.digest.isSome = true ∧ s.get (p.inner "data") = none

/-- The destination is the file the journal describes. -/
def Good (c : Crates) (p : Site) (j : Journal) (s : Disk) : Prop :=
  ∃ b, s.file? p.dest = some b ∧ b.length = j.source.length ∧ some (c.digest b) = j.digest

theorem good_same (hs : Same ps s t) (hps : p.dest ∉ ps) : Good c p j t ↔ Good c p j s := by
  simp [Good, hs.file? hps]

section Laws

variable {c : Crates} {e : Endpoint} {cmd : Command} {payload : Bytes} {p : Site} {s s₀ : Disk}

theorem renamed_sat {stage : Stage} (hdir : stage.dir = p.dir) :
    Act.Sat machine (Step c e cmd payload s₀) (renamed stage) s
      (fun r t => t = s ∧ (r = true ↔ Renamed p stage.journal s)) (fun _ _ => False) := by
  unfold renamed
  split
  · next hd =>
    refine sat_look Step.rest rfl (.pure ⟨rfl, ?_⟩)
    rw [show stage.dir ++ ["data"] = p.inner "data" by rw [hdir]; rfl]
    simp only [exec, Renamed, hd, true_and]
    cases s.get (p.inner "data") <;> simp [isAbsent]
  · next hd => exact .pure ⟨rfl, by simp [Renamed, hd]⟩

/-- The journal of a stage is replaced. -/
theorem saveJournal_sat {stage : Stage} {j : Journal} (hp : cmd.site c = some p)
    (hw : Working c e path p stage s) (hdue : Due c e cmd payload p s j) :
    Act.Sat machine (Step c e cmd payload s₀) (Stage.save c { stage with journal := j }) s
      (fun _ t => Same [p.inner "next.json", p.inner "state.json"] s t ∧
        t.get (p.inner "next.json") = none ∧ t.file? (p.inner "state.json") = some (c.toJson j))
      (fun _ _ => s.free (p.inner "next.json") = false) := by
  refine (save_sat { stage with journal := j } hp hw.dir hw.entered.dir hdue).mono
    (fun _ _ h => h) ?_
  rintro _ t ⟨-, h | h⟩
  · exact h
  · obtain ⟨b, hb, -⟩ | hb := hw.holds
    all_goals cases (Disk.isDirectory_of_file hb).symm.trans h

theorem reconcile_sat {stage : Stage} (hc : e.cancelled = false) (hp : cmd.site c = some p)
    (hw : Working c e path p stage s) (hr : Renamed p stage.journal s) :
    Act.Sat machine (Step c e cmd payload s₀) (reconcile c e stage) s
      (fun r t => r = { stage with journal := { stage.journal with committed := true } } ∧
        Good c p stage.journal s ∧ Same [p.inner "next.json", p.inner "state.json"] s t ∧
        t.get (p.inner "next.json") = none ∧
        t.file? (p.inner "state.json") = some (c.toJson { stage.journal with committed := true }))
      (fun f _ => (f.code = "TRANSFER_CONFLICT" ∧ ¬ Good c p stage.journal s) ∨
        s.free (p.inner "next.json") = false) := by
  have hplace := hw.place
  have hwalks := hw.entered.walks
  unfold reconcile
  rw [hw.samePath]
  refine .bind ((stat_sat Step.rest hplace).mono (fun _ _ h => h) fun _ _ h => absurd hwalks h.2) ?_
  rintro found s ⟨rfl, hfound, -⟩
  rw [show p.parent ++ [p.target] = p.dest from rfl] at hfound
  cases hst : stampAt s p.dest with
  | none =>
    rw [hfound, hst]
    refine .throw (.inl ⟨rfl, fun ⟨b, hb, _⟩ => ?_⟩)
    rw [Disk.file?_none (stampAt_none.mp hst)] at hb
    cases hb
  | some st =>
  rw [hfound, hst]
  refine .bind (.ensure (Q := fun _ t => t = s ∧ st.kind = .file ∧ st.length = stage.journal.source.length) ?_ ?_) ?_
  · intro h
    exact ⟨rfl, by simpa using h⟩
  · intro h
    refine .inl ⟨rfl, fun ⟨b, hb, hl, _⟩ => ?_⟩
    simp [(stampAt_isFile hst).mpr ⟨b, hb⟩, stampAt_length hst hb, hl] at h
  rintro _ s ⟨rfl, hk, hl⟩
  obtain ⟨b, hb⟩ := (stampAt_isFile hst).mp hk
  rw [stampAt_length hst hb] at hl
  refine .bind ((hash_sat Step.rest hplace hst hb hc).mono (fun _ _ h => h) fun _ _ h => absurd hwalks h.2) ?_
  rintro _ s ⟨rfl, rfl⟩
  refine .bind (.ensure (Q := fun _ t => t = s ∧ some (c.digest b) = stage.journal.digest) ?_ ?_) ?_
  · intro h
    exact ⟨rfl, by simpa using h⟩
  · intro h
    refine .inl ⟨rfl, fun ⟨b', hb', _, hg⟩ => ?_⟩
    obtain rfl := Option.some.inj (hb.symm.trans hb')
    simp [hg] at h
  rintro _ s ⟨rfl, hg⟩
  refine .bind ((saveJournal_sat hp hw (.confirm hw.holds hr.1 hr.2)).mono (fun _ _ h => h) fun _ _ h => .inr h) ?_
  rintro _ t ht
  exact .pure ⟨rfl, ⟨b, hb, hl, hg⟩, ht⟩

/-- How an upload stands once a rename that may have happened is settled. -/
theorem settle_sat {stage : Stage} (hc : e.cancelled = false) (hp : cmd.site c = some p)
    (hw : Working c e path p stage s) :
    Act.Sat machine (Step c e cmd payload s₀) (settle c e stage) s
      (fun r t => (¬ Renamed p stage.journal s ∧ r = stage ∧ t = s) ∨
        (Renamed p stage.journal s ∧ Good c p stage.journal s ∧
          r = { stage with journal := { stage.journal with committed := true } } ∧
          Same [p.inner "next.json", p.inner "state.json"] s t ∧
          t.get (p.inner "next.json") = none ∧
          t.file? (p.inner "state.json") = some (c.toJson { stage.journal with committed := true })))
      (fun f _ => Renamed p stage.journal s ∧
        ((f.code = "TRANSFER_CONFLICT" ∧ ¬ Good c p stage.journal s) ∨
          s.free (p.inner "next.json") = false)) := by
  refine .bind ((renamed_sat hw.dir).mono (fun _ _ h => h) fun _ _ h => h.elim) ?_
  rintro r t ⟨rfl, hr⟩
  cases r with
  | false => exact .pure (.inl ⟨by simp [← hr], rfl, rfl⟩)
  | true =>
    have hr := hr.mp rfl
    refine (reconcile_sat hc hp hw hr).mono ?_ fun _ _ h => ⟨hr, h⟩
    rintro _ _ ⟨rfl, hg, ht⟩
    exact .inr ⟨hr, hg, rfl, ht⟩

theorem checkpoint_sat {stage : Stage} (hp : cmd.site c = some p)
    (hw : Working c e path p stage s) :
    Act.Sat machine (Step c e cmd payload s₀) (checkpoint stage) s
      (fun _ t => ∃ d, s.file? (p.inner "data") = some d ∧ stage.journal.offset ≤ d.length ∧
        Same [p.inner "data"] s t ∧
        t.file? (p.inner "data") = some (d.take stage.journal.offset))
      (fun _ _ => ∀ d, s.file? (p.inner "data") = some d → d.length < stage.journal.offset) := by
  unfold checkpoint
  rw [show stage.dir ++ ["data"] = p.inner "data" by rw [hw.dir]; rfl]
  refine .bind ((file_sat Step.rest _ _ ⟨rfl, rfl⟩).mono (fun _ _ h => h) ?_) ?_
  · rintro _ _ ⟨-, hn⟩ d hd
    cases hn.symm.trans hd
  rintro _ s ⟨rfl, d, hd⟩
  refine lstat_sat Step.rest hd ?_
  intro m _ hm
  refine .bind (.ensure (Q := fun _ t => t = s ∧ stage.journal.offset ≤ d.length) ?_ ?_) ?_
  · intro h
    exact ⟨rfl, by simpa [hm] using h⟩
  · intro h d' hd'
    obtain rfl := Option.some.inj (hd.symm.trans hd')
    simpa [hm] using h
  rintro _ s ⟨rfl, hle⟩
  split
  · have hset := modify_eq (f := (resize · stage.journal.offset)) hd
    unfold Stage.data
    rw [show stage.dir ++ ["data"] = p.inner "data" by rw [hw.dir]; rfl]
    refine .bind ((file_sat Step.rest _ _ ⟨rfl, rfl⟩).mono (fun _ _ h => h) ?_) ?_
    · rintro _ _ ⟨-, hn⟩
      cases hn.symm.trans hd
    rintro _ s ⟨rfl, -⟩
    rw [resize_of_le hle] at hset
    refine .bind (R := fun r t => r = .ok () ∧ Same [p.inner "data"] s t ∧
      t.file? (p.inner "data") = some (d.take stage.journal.offset)) (sat_whole rfl ?_ ?_) ?_
    · exact .inr ⟨p, hp, .cut hw.holds hd hle hset.2.2 hset.2.1⟩
    · exact ⟨hset.1, hset.2.2, hset.2.1⟩
    · rintro _ t ⟨rfl, hs, ht⟩
      exact .pure ⟨d, hd, hle, hs, ht⟩
  · next h =>
    refine .pure ⟨d, hd, hle, .refl _ _, ?_⟩
    rw [List.take_of_length_le (by omega), hd]

/-- An upload, open in `u`, that cannot be resumed. -/
def Stuck (p : Site) (expected : Option Stamp) (j : Journal) (u : Disk) : Prop :=
  j.committed = false ∧ (stampAt u p.dest ≠ expected ∨
    ∀ d, u.file? (p.inner "data") = some d → d.length < j.offset)

theorem resume_sat {stage : Stage} (hp : cmd.site c = some p) (hw : Working c e path p stage s) :
    Act.Sat machine (Step c e cmd payload s₀) (resume path expected stage) s
      (fun _ t => (stage.journal.committed = true ∧ t = s) ∨
        (stage.journal.committed = false ∧ stampAt s p.dest = expected ∧
          ∃ d, s.file? (p.inner "data") = some d ∧ stage.journal.offset ≤ d.length ∧
            Same [p.inner "data"] s t ∧
            t.file? (p.inner "data") = some (d.take stage.journal.offset)))
      (fun _ _ => Stuck p expected stage.journal s) := by
  have hwalks := hw.entered.walks
  unfold resume
  split
  · next h => exact .pure (.inl ⟨h, rfl⟩)
  · next h =>
    replace h : stage.journal.committed = false := by simpa using h
    refine .bind ((stat_sat Step.rest hw.place).mono (fun _ _ h => h) fun _ _ h => absurd hwalks h.2) ?_
    rintro found s ⟨rfl, rfl, -⟩
    refine .bind (.ensure (Q := fun _ t => t = s ∧ stampAt s p.dest = expected) ?_ ?_) ?_
    · intro he
      exact ⟨rfl, by simpa [Site.dest] using he⟩
    · intro he
      exact ⟨h, .inl (by simpa [Site.dest] using he)⟩
    rintro _ s ⟨rfl, he⟩
    refine (checkpoint_sat hp hw).mono ?_ fun _ _ hd => ⟨h, .inr hd⟩
    exact fun _ _ hd => .inr ⟨h, he, hd⟩

-- ---------------------------------------------------------------------------
-- Prepare
-- ---------------------------------------------------------------------------

/-- What a `prepare` that found the stage open in `u` answers, and leaves. -/
inductive Prepared (c : Crates) (p : Site) (expected : Option Stamp) (j : Journal) (u t : Disk) :
    Reply → Prop
  | settled : Renamed p j u → Good c p j u → Same [p.inner "next.json", p.inner "state.json"] u t →
      t.get (p.inner "next.json") = none →
      t.file? (p.inner "state.json") = some (c.toJson { j with committed := true }) →
      Prepared c p expected j u t (.ready j.offset true)
  | complete : ¬ Renamed p j u → j.committed = true → t = u →
      Prepared c p expected j u t (.ready j.offset true)
  | resumed : ¬ Renamed p j u → j.committed = false → stampAt u p.dest = expected →
      u.file? (p.inner "data") = some d → j.offset ≤ d.length → Same [p.inner "data"] u t →
      t.file? (p.inner "data") = some (d.take j.offset) →
      Prepared c p expected j u t (.ready j.offset false)

/-- Why a command that found the stage open in `u` fails over a rename that may have happened. -/
def Unsettled (c : Crates) (p : Site) (j : Journal) (u : Disk) (f : Fault) : Prop :=
  (f.code = "TRANSFER_CONFLICT" ∧ ¬ Good c p j u) ∨ u.free (p.inner "next.json") = false

theorem prepare_sat {path token : String} {src : Stamp} {expected : Option Stamp}
    (hc : e.cancelled = false) :
    Act.Sat machine (Step c e (.prepare path token src expected) payload s₀)
      (prepare c e path token src expected) s
      (fun r t => ∃ p stage u, (Command.prepare path token src expected).site c = some p ∧
        src.kind = .file ∧ place path = some (p.parent, p.target) ∧
        Opened c e path p (some ⟨e.owner, path, src, expected, 0, none, false⟩) s stage u ∧
        stage.journal.source = src ∧ stage.journal.expected = expected ∧
        Prepared c p expected stage.journal u t r)
      (fun f _ => src.kind ≠ .file ∨
        (∀ p, (Command.prepare path token src expected).site c = some p →
          ¬ Openable c e path p s ∧ ¬ Fresh p s) ∨
        ∃ p stage u, (Command.prepare path token src expected).site c = some p ∧
          Opened c e path p (some ⟨e.owner, path, src, expected, 0, none, false⟩) s stage u ∧
          (stage.journal.source ≠ src ∨ stage.journal.expected ≠ expected ∨
            (¬ Renamed p stage.journal u ∧ Stuck p expected stage.journal u) ∨
            (Renamed p stage.journal u ∧ Unsettled c p stage.journal u f))) := by
  unfold prepare
  refine .bind (.ensure (Q := fun _ t => t = s ∧ src.kind = .file) ?_ ?_) ?_
  · intro h
    exact ⟨rfl, by simpa using h⟩
  · intro h
    exact .inl (by simpa using h)
  rintro _ s ⟨rfl, hk⟩
  refine .bind ((openStage_sat (.prepare path token src expected) rfl ?_).mono (fun _ _ h => h)
    fun _ _ h => .inr (.inl fun p hp => ⟨(h p hp).1, (h p hp).2 rfl⟩)) ?_
  · rintro j ⟨⟩
    exact ⟨⟨path, token, src, expected, rfl, hk, rfl⟩, rfl, rfl⟩
  rintro stage u ⟨p, hp, hplace, ho⟩
  have hw := ho.working hplace
  refine .bind (.ensure (Q := fun _ t => t = u ∧ stage.journal.source = src ∧
    stage.journal.expected = expected) ?_ ?_) ?_
  · intro h
    exact ⟨rfl, by simpa using h⟩
  · intro h
    refine .inr (.inr ⟨p, stage, u, hp, ho, ?_⟩)
    by_cases hs : stage.journal.source = src
    · exact .inr (.inl (by simpa [hs] using h))
    · exact .inl hs
  rintro _ u ⟨rfl, hsrc, hexp⟩
  refine .bind ((settle_sat hc hp hw).mono (fun _ _ h => h) ?_) ?_
  · intro f _ h
    exact .inr (.inr ⟨p, stage, u, hp, ho, .inr (.inr (.inr h))⟩)
  rintro settled v (⟨hr, rfl, rfl⟩ | ⟨hr, hg, rfl, hs, hnext, hstate⟩)
  · refine .bind ((resume_sat hp hw).mono (fun _ _ h => h) ?_) ?_
    · intro _ _ h
      exact .inr (.inr ⟨p, settled, v, hp, ho, .inr (.inr (.inl ⟨hr, h⟩))⟩)
    rintro _ t (⟨hcom, rfl⟩ | ⟨hcom, hst, d, hd, hle, hs, ht⟩)
    · refine .pure ⟨p, settled, t, hp, hk, hplace, ho, hsrc, hexp, ?_⟩
      rw [hcom]
      exact .complete hr hcom rfl
    · refine .pure ⟨p, settled, v, hp, hk, hplace, ho, hsrc, hexp, ?_⟩
      rw [hcom]
      exact .resumed hr hcom hst hd hle hs ht
  · exact .pure ⟨p, stage, u, hp, hk, hplace, ho, hsrc, hexp, .settled hr hg hs hnext hstate⟩

-- ---------------------------------------------------------------------------
-- Write
-- ---------------------------------------------------------------------------

/-- What a `write` that found the journal `j` in `u` leaves. -/
structure Written (c : Crates) (p : Site) (j : Journal) (payload : Bytes) (u t : Disk) : Prop where
  open_ : j.committed = false
  fits : j.offset + payload.length ≤ j.source.length
  data : ∃ old, u.file? (p.inner "data") = some old ∧
    t.file? (p.inner "data") = some (splice old j.offset payload)
  state : t.file? (p.inner "state.json") =
    some (c.toJson { j with offset := j.offset + payload.length })
  same : Same [p.inner "data", p.inner "next.json", p.inner "state.json"] u t

theorem drop_splice (old : Bytes) (offset : Nat) (bytes : Bytes) :
    ((splice old offset bytes).drop offset).take bytes.length = bytes := by
  have h : (old.take offset ++ List.replicate (offset - old.length) 0).length = offset := by
    simp; omega
  simp only [splice, List.append_assoc]
  rw [← List.append_assoc, List.drop_append_of_le_length (by omega), List.drop_of_length_le (by omega)]
  simp

theorem write_sat {path token digest : String} {offset : Nat} :
    Act.Sat machine (Step c e (.write path token offset digest) payload s₀)
      (write c e path token offset digest payload) s
      (fun r t => ∃ p stage u, (Command.write path token offset digest).site c = some p ∧
        place path = some (p.parent, p.target) ∧ Opened c e path p none s stage u ∧
        stage.journal.offset = offset ∧ Written c p stage.journal payload u t ∧
        r = .ready (offset + payload.length) false)
      (fun _ _ => True) := by
  unfold write
  refine .bind ((openStage_sat (.write path token offset digest) rfl (by simp)).mono (fun _ _ h => h)
    fun _ _ _ => trivial) ?_
  rintro stage u ⟨p, hp, hplace, ho⟩
  have hw := ho.working hplace
  refine .bind (.ensure (Q := fun _ t => t = u ∧ stage.journal.committed = false ∧ payload ≠ [] ∧
    offset = stage.journal.offset ∧ offset + payload.length ≤ stage.journal.source.length) ?_
    fun _ => trivial) ?_
  · intro h
    simp only [Bool.and_eq_true, Bool.not_eq_true', beq_iff_eq, decide_eq_true_eq,
      List.isEmpty_eq_false_iff] at h
    obtain ⟨⟨⟨⟨⟨h1, h2⟩, -⟩, h3⟩, h4⟩, -⟩ := h
    exact ⟨rfl, h1, h2, h3, h4⟩
  rintro _ u ⟨rfl, hopen, hne, rfl, hfit⟩
  unfold Stage.data
  rw [show stage.dir ++ ["data"] = p.inner "data" by rw [hw.dir]; rfl]
  refine .bind ((file_sat Step.rest _ _ ⟨rfl, rfl⟩).mono (fun _ _ h => h) fun _ _ _ => trivial) ?_
  rintro _ u ⟨rfl, old, hold⟩
  have hset := fun bytes => modify_eq (f := (splice · stage.journal.offset bytes)) hold
  have hstep : ∀ op k, Step c e (.write path token stage.journal.offset digest) payload s₀ op u
      (u.modify (p.inner "data") (splice · stage.journal.offset (payload.take k))).2 := fun op k =>
    .inr ⟨p, hp, .extend rfl ho.reads hopen hfit hold (hset _).2.2 (hset _).2.1⟩
  refine .bind (R := fun r t => r = .ok () ∧ Same [p.inner "data"] u t ∧
    t.file? (p.inner "data") = some (splice old stage.journal.offset payload))
    (.request_alone machine_alone ?_ ?_ ?_) ?_
  · rintro _ ⟨k⟩
    exact hstep _ k
  · have := hstep (.write (p.inner "data") stage.journal.offset payload) payload.length
    rwa [List.take_length] at this
  · exact ⟨(hset _).1, (hset _).2.2, (hset _).2.1⟩
  rintro _ v ⟨rfl, huv, hv⟩
  refine sat_ok (sat_look Step.rest rfl (sat_ok ?_))
  have hwv : Working c e path p stage v :=
    ⟨hw.parent, hw.name, hw.dir, hw.sameOwner, hw.samePath,
      hw.entered.same huv (by simp) (.inl (by simp)), hw.place, hw.holds.same huv (by simp [Site.inner])⟩
  have hdue : Due c e (.write path token stage.journal.offset digest) payload p v
      { stage.journal with offset := stage.journal.offset + payload.length } :=
    .advance rfl (ho.reads.same huv (by simp [Site.inner])) hopen hne hfit hv (drop_splice _ _ _)
  refine .bind ((saveJournal_sat hp hwv hdue).mono (fun _ _ h => h) fun _ _ _ => trivial) ?_
  rintro _ t ⟨hvt, hnext, hstate⟩
  refine .pure ⟨p, stage, u, hp, hplace, ho, rfl, ⟨hopen, hfit, ⟨old, hold, ?_⟩, hstate, ?_⟩, rfl⟩
  · rw [hvt.file? (by simp), hv]
  · exact (huv.mono (by simp)).trans (hvt.mono (by simp))

-- ---------------------------------------------------------------------------
-- Commit
-- ---------------------------------------------------------------------------

/-- What a `commit` leaves that has just renamed the data. -/
structure Published (c : Crates) (p : Site) (j : Journal) (digest : String) (u t : Disk) : Prop where
  full : j.offset = j.source.length
  same : Same [p.inner "data", p.inner "next.json", p.inner "state.json", p.dest] u t
  data : ∃ d, u.file? (p.inner "data") = some d ∧ t.file? p.dest = some d ∧ c.digest d = digest
  gone : t.get (p.inner "data") = none
  state : t.file? (p.inner "state.json") =
    some (c.toJson { j with digest := some digest, committed := true })

theorem setMetadata_sat {st : Stamp} (hp : cmd.site c = some p)
    (hd : s.file? (p.inner "data") = some d) :
    Act.Sat machine (Step c e cmd payload s₀) (setMetadata (p.inner "data") st) s
      (fun _ t => Same [p.inner "data"] s t ∧ t.file? (p.inner "data") = some d)
      (fun _ _ => False) := by
  have hset (f : Attr → Attr) {u : Disk} (hu : u.file? (p.inner "data") = some d) :
      (u.setAttr (p.inner "data") f).1 = .ok () ∧ Same [p.inner "data"] u (u.setAttr (p.inner "data") f).2 ∧
        (u.setAttr (p.inner "data") f).2.file? (p.inner "data") = some d := by
    obtain ⟨a, hn⟩ := Disk.file?_eq_some.mp hu
    have h := same_setAttr u (p.inner "data") f
    rw [setAttr_eq hn f] at h ⊢
    exact ⟨rfl, h, Disk.file?_put _ _ _ _⟩
  refine .bind (R := fun r t => r = .ok () ∧ Same [p.inner "data"] s t ∧
    t.file? (p.inner "data") = some d) (sat_whole rfl ?_ ?_) ?_
  · exact .inr ⟨p, hp, .touch hd (hset _ hd).2.1 (hset _ hd).2.2⟩
  · exact hset _ hd
  rintro _ u ⟨rfl, hsu, hu⟩
  refine sat_ok (.bind (R := fun r t => r = .ok () ∧ Same [p.inner "data"] u t ∧
    t.file? (p.inner "data") = some d) (sat_whole rfl ?_ ?_) ?_)
  · exact .inr ⟨p, hp, .touch hu (hset _ hu).2.1 (hset _ hu).2.2⟩
  · exact hset _ hu
  rintro _ t ⟨rfl, hut, ht⟩
  exact sat_ok (sat_look Step.rest rfl (.pure ⟨hsu.trans hut, ht⟩))

/-- A rename either fails and changes nothing, or takes place. -/
theorem rename_cases {q : Path} (r : Path) (replace : Bool) (h : s.get q = some ⟨a, .file b⟩) :
    ((∃ err, s.rename q r replace = (.error err, s)) ∧ (s.isDirectory r.dropLast = false ∨
      (s.get r ≠ none ∧ replace = false) ∨ s.isDirectory r = true)) ∨
    (s.rename q r replace = (.ok (), (s.remove q).put r ⟨a, .file b⟩) ∧ s.isDirectory r = false ∧
      (replace = false → s.get r = none)) := by
  simp only [Disk.rename, h, Node.isDirectory, Bool.false_eq_true, ↓reduceIte]
  split
  · next h => exact .inl ⟨⟨_, rfl⟩, .inl (by simpa using h)⟩
  split
  · next h => exact .inl ⟨⟨_, rfl⟩, .inr (.inl (by simpa [Option.isSome_iff_ne_none] using h))⟩
  next hex =>
  split
  · next h => exact .inl ⟨⟨_, rfl⟩, .inr (.inr h)⟩
  next hd => exact .inr ⟨rfl, by simpa using hd, fun hr => by simpa [hr] using hex⟩

/-- An upload, open in `u`, that cannot be published with `digest`. -/
def Unready (c : Crates) (p : Site) (digest : String) (j : Journal) (u : Disk) : Prop :=
  j.offset ≠ j.source.length ∨ stampAt u p.dest ≠ j.expected ∨
    (∀ d, u.file? (p.inner "data") = some d → c.digest d ≠ digest) ∨
    u.free (p.inner "next.json") = false ∨ u.isDirectory p.parent = false ∨ u.isDirectory p.dest = true

theorem publish_sat {path token digest : String} {stage : Stage} (hc : e.cancelled = false)
    (hp : (Command.commit path token digest).site c = some p)
    (hw : Working c e path p stage s) (hreads : Reads c s p.dir stage.journal)
    (hstart : Reads c s₀ p.dir stage.journal)
    (hfull : stage.journal.offset = stage.journal.source.length) :
    Act.Sat machine (Step c e (.commit path token digest) payload s₀) (publish c e path digest stage) s
      (fun r t => r = .done ∧ Published c p stage.journal digest s t)
      (fun _ _ => Unready c p digest stage.journal s) := by
  unfold publish
  rw [show stage.dir ++ ["data"] = p.inner "data" by rw [hw.dir]; rfl]
  refine .bind ((file_sat Step.rest _ _ ⟨rfl, rfl⟩).mono (fun _ _ h => h) ?_) ?_
  · rintro _ _ ⟨-, hn⟩
    exact .inr (.inr (.inl fun d hd => by cases hn.symm.trans hd))
  rintro _ s ⟨rfl, d, hd⟩
  refine .bind ((hashFile_sat Step.rest hd hc).mono (fun _ _ h => h) fun _ _ h => h.elim) ?_
  rintro _ s ⟨rfl, rfl⟩
  refine .bind (.ensure (Q := fun _ t => t = s ∧ c.digest d = digest) ?_ ?_) ?_
  · intro h
    exact ⟨rfl, by simpa using h⟩
  · intro h
    refine .inr (.inr (.inl fun d' hd' => ?_))
    obtain rfl := Option.some.inj (hd.symm.trans hd')
    simpa using h
  rintro _ s ⟨rfl, rfl⟩
  refine .bind ((setMetadata_sat hp hd).mono (fun _ _ h => h) fun _ _ h => h.elim) ?_
  rintro _ u ⟨hsu, hdu⟩
  have hwu : Working c e path p stage u :=
    ⟨hw.parent, hw.name, hw.dir, hw.sameOwner, hw.samePath,
      hw.entered.same hsu (by simp) (.inl (by simp)), hw.place, hw.holds.same hsu (by simp [Site.inner])⟩
  have hdue : Due c e (.commit path token (c.digest d)) payload p u
      { stage.journal with digest := some (c.digest d) } := .sealed rfl (hreads.same hsu (by simp [Site.inner])) hfull hdu rfl
  refine .bind ((saveJournal_sat hp hwu hdue).mono (fun _ _ h => h) ?_) ?_
  · intro _ _ h
    exact .inr (.inr (.inr (.inl (by rw [← hsu.free (by simp), h]))))
  rintro _ v ⟨huv, hnext, hstate⟩
  have hsv := (hsu.mono (by simp)).trans (huv.mono (List.subset_cons_self (p.inner "data") _))
  have hev : Entered p v := hwu.entered.same huv (by simp) (.inl (by simp))
  have hdv : v.file? (p.inner "data") = some d := by rw [huv.file? (by simp), hdu]
  refine .bind ((parent_sat Step.rest path).mono (fun _ _ h => h)
    fun _ _ h => absurd hev.walks (h.1 ▸ h.2 _ hw.place)) ?_
  rintro ⟨dir, target⟩ v ⟨rfl, hplace, -⟩
  obtain ⟨rfl, rfl⟩ := Prod.mk.inj (Option.some.inj (hw.place.symm.trans hplace))
  refine .bind ((stat_sat Step.rest hw.place).mono (fun _ _ h => h) fun _ _ h => absurd hev.walks (h.1 ▸ h.2)) ?_
  rintro _ v ⟨rfl, rfl, -⟩
  refine .bind (.ensure (Q := fun _ t => t = v ∧ stampAt v p.dest = stage.journal.expected) ?_ ?_) ?_
  · intro h
    exact ⟨rfl, by simpa [Site.dest] using h⟩
  · intro h
    refine .inr (.inl ?_)
    rw [stampAt, ← hsv.get _ (by simp), ← stampAt]
    simpa [Site.dest] using h
  rintro _ v ⟨rfl, hstamp⟩
  dsimp only
  rw [hw.parent, show p.parent ++ [p.target] = p.dest from rfl]
  obtain ⟨a, hn⟩ := Disk.file?_eq_some.mp hdv
  obtain ⟨⟨err, hx⟩, hwhy⟩ | ⟨hx, hdir, -⟩ := rename_cases p.dest stage.journal.expected.isSome hn
  · refine sat_exec hx rfl (.rest _ _) (.throw (.inr ?_))
    obtain hwhy | ⟨hthere, hno⟩ | hwhy := hwhy
    · refine .inr (.inr (.inr (.inl ?_)))
      have hq : p.parent ∉ [p.inner "data", p.inner "next.json", p.inner "state.json"] := by
        simp [Site.not_above]
      rw [← hsv.isDirectory hq, ← hwhy, Site.parent_of_dest]
    · rw [Option.isSome_eq_false_iff, Option.isNone_iff_eq_none] at hno
      rw [hno] at hstamp
      exact absurd (stampAt_none.mp hstamp) hthere
    · exact .inr (.inr (.inr (.inr (by rw [← hsv.isDirectory (by simp), hwhy]))))
  refine sat_exec hx rfl (.inr ⟨p, hp, .publish (j := stage.journal) rfl hev hnext hstart
    hstate hw.sameOwner hw.samePath hfull hn rfl hstamp hdir⟩) ?_
  generalize hwdef : (v.remove (p.inner "data")).put p.dest ⟨a, .file d⟩ = w
  have hvw : Same [p.inner "data", p.dest] v w := by
    rw [← hwdef]
    exact same_move _ _ _ _
  have hgone : w.get (p.inner "data") = none := by
    rw [← hwdef, Disk.get_put, if_neg (by simp), Disk.get_remove, if_pos rfl]
  have hdest : w.file? p.dest = some d := by rw [← hwdef, Disk.file?_put]
  have hne : p.dest ≠ p.dir := by
    intro h
    rw [h, hev.dir] at hdir
    cases hdir
  have hew : Entered p w := hev.same hvw (by simp) (.inr hne)
  have hstatew : w.file? (p.inner "state.json") =
      some (c.toJson { stage.journal with digest := some (c.digest d) }) := by
    rw [hvw.file? (by simp), hstate]
  have hww : Working c e path p
      { stage with journal := { stage.journal with digest := some (c.digest d) } } w :=
    ⟨hw.parent, hw.name, hw.dir, hw.sameOwner, hw.samePath, hew, hw.place, .inr hstatew⟩
  refine sat_ok (sat_look Step.rest rfl (sat_ok ?_))
  refine .bind ((saveJournal_sat hp hww (.confirm hww.holds rfl hgone)).mono (fun _ _ h => h) ?_) ?_
  · intro _ _ h
    cases (Disk.free_of_none hnext).symm.trans ((hvw.free (by simp)).symm.trans h)
  rintro _ t ⟨hwt, -, hfinal⟩
  refine .pure ⟨rfl, hfull, ?_, ⟨d, hd, ?_, rfl⟩, ?_, hfinal⟩
  · exact (hsu.mono (by simp)).trans ((huv.mono (by simp)).trans
      ((hvw.mono (by simp)).trans (hwt.mono (by simp))))
  · rw [hwt.file? (by simp), hdest]
  · rw [hwt.get _ (by simp), hgone]

theorem commit_sat {path token digest : String} (hc : e.cancelled = false) :
    Act.Sat machine (Step c e (.commit path token digest) payload s) (commit c e path token digest) s
      (fun r t => ∃ p stage u, (Command.commit path token digest).site c = some p ∧
        place path = some (p.parent, p.target) ∧ Opened c e path p none s stage u ∧ r = .done ∧
        ((Renamed p stage.journal u ∧ Good c p stage.journal u ∧
            Same [p.inner "next.json", p.inner "state.json"] u t) ∨
          (¬ Renamed p stage.journal u ∧ Published c p stage.journal digest u t)))
      (fun f _ => (∀ p, (Command.commit path token digest).site c = some p → ¬ Openable c e path p s) ∨
        ∃ p stage u, (Command.commit path token digest).site c = some p ∧
          Opened c e path p none s stage u ∧
          ((¬ Renamed p stage.journal u ∧ Unready c p digest stage.journal u) ∨
            (Renamed p stage.journal u ∧ Unsettled c p stage.journal u f))) := by
  unfold commit
  refine .bind ((openStage_sat (.commit path token digest) rfl (by simp)).mono (fun _ _ h => h)
    fun _ _ h => .inl fun p hp => (h p hp).1) ?_
  rintro stage u ⟨p, hp, hplace, ho⟩
  have hw := ho.working hplace
  refine .bind ((renamed_sat hw.dir).mono (fun _ _ h => h) fun _ _ h => h.elim) ?_
  rintro r u ⟨rfl, hr⟩
  cases r with
  | true =>
    have hr := hr.mp rfl
    refine .bind ((reconcile_sat hc hp hw hr).mono (fun _ _ h => h) ?_) ?_
    · intro f _ h
      exact .inr ⟨p, stage, u, hp, ho, .inr ⟨hr, h⟩⟩
    · rintro _ t ⟨-, hg, hs, -, -⟩
      exact .pure ⟨p, stage, u, hp, hplace, ho, rfl, .inl ⟨hr, hg, hs⟩⟩
  | false =>
    have hr : ¬ Renamed p stage.journal u := by simp [← hr]
    refine .bind (.ensure (Q := fun _ t => t = u ∧ stage.journal.offset = stage.journal.source.length) ?_ ?_) ?_
    · intro h
      exact ⟨rfl, by simpa using h⟩
    · intro h
      exact .inr ⟨p, stage, u, hp, ho, .inl ⟨hr, .inl (by simpa using h)⟩⟩
    rintro _ u ⟨rfl, hfull⟩
    refine .bind ((stat_sat Step.rest hplace).mono (fun _ _ h => h) fun _ _ h => absurd hw.entered.walks (h.1 ▸ h.2)) ?_
    rintro _ u ⟨rfl, rfl, -⟩
    refine .bind (.ensure (Q := fun _ t => t = u) (fun _ => rfl) ?_) ?_
    · intro h
      exact .inr ⟨p, stage, u, hp, ho, .inl ⟨hr, .inr (.inl (by simpa [Site.dest] using h))⟩⟩
    rintro _ u rfl
    refine (publish_sat hc hp hw ho.reads ho.readsBefore hfull).mono ?_
      fun _ _ h => .inr ⟨p, stage, u, hp, ho, .inl ⟨hr, h⟩⟩
    rintro _ t ⟨rfl, ht⟩
    exact ⟨p, stage, u, hp, hplace, ho, rfl, .inr ⟨hr, ht⟩⟩

-- ---------------------------------------------------------------------------
-- Cancel
-- ---------------------------------------------------------------------------

/-- The names an upload keeps in its directory, in the order they are removed. -/
def names : List String := ["data", "next.json", "state.json", "lock"]

/-- There is nothing in the staging directory but the files of an upload. -/
def Clean (p : Site) (s : Disk) : Prop :=
  ∀ q, p.dir <+: q → q ≠ p.dir → s.get q ≠ none → ∃ n ∈ names, q = p.inner n ∧ ∃ b, s.file? q = some b

/-- A name that is gone is gone whether it is among those still to be removed or not. -/
theorem removed {ns : List String} (hs : Same (ns.map p.inner) s t)
    (ht : ∀ n ∈ ns, t.get (p.inner n) = none) (hn : s.get (p.inner n) = none) :
    t.get (p.inner n) = none := by
  by_cases hin : n ∈ ns
  · exact ht n hin
  · rw [hs.get _ (by simpa using hin), hn]

theorem removeFiles_sat {path token : String} (hp : (Command.cancel path token).site c = some p)
    (ns : List String) (hns : ns ⊆ names) :
    Act.Sat machine (Step c e (.cancel path token) payload s₀) (removeFiles p.dir ns) s
      (fun _ t => Same (ns.map p.inner) s t ∧ ∀ n ∈ ns, t.get (p.inner n) = none)
      (fun _ _ => ∃ n ∈ ns, s.isDirectory (p.inner n) = true) := by
  induction ns generalizing s with
  | nil => exact .pure ⟨.refl _ _, by simp⟩
  | cons n ns ih =>
    obtain ⟨hn, hns⟩ := List.cons_subset.mp hns
    unfold removeFiles
    rw [show p.dir ++ [n] = p.inner n from rfl]
    cases hg : s.get (p.inner n) with
    | none =>
      have hx : exec (.removeFile (p.inner n)) s = (.error .notFound, s) := by simp only [exec, hg]
      refine sat_exec hx rfl (.rest _ _) ((ih hns).mono ?_ ?_)
      · rintro _ t ⟨hs, ht⟩
        refine ⟨hs.mono (by simp), ?_⟩
        intro m hm
        rcases List.mem_cons.mp hm with rfl | hm
        · exact removed hs ht hg
        · exact ht m hm
      · rintro _ _ ⟨m, hm, hd⟩
        exact ⟨m, List.mem_cons_of_mem _ hm, hd⟩
    | some node =>
      cases hd : node.isDirectory with
      | true =>
        have hx : exec (.removeFile (p.inner n)) s = (.error .isDirectory, s) := by
          simp only [exec, hg, hd, ↓reduceIte]
        exact sat_exec hx rfl (.rest _ _)
          (.throw ⟨n, by simp, by simp [Disk.isDirectory, hg, hd]⟩)
      | false =>
        have hx : exec (.removeFile (p.inner n)) s = (.ok (), s.remove (p.inner n)) := by
          simp only [exec, hg, hd, Bool.false_eq_true, ↓reduceIte]
        have hrem := same_remove s (p.inner n)
        have hnone : (s.remove (p.inner n)).get (p.inner n) = none := by simp [Disk.get_remove]
        refine sat_exec hx rfl (.inr ⟨p, hp, .drop rfl hn hrem hnone⟩) ((ih hns).mono ?_ ?_)
        · rintro _ t ⟨hs, ht⟩
          refine ⟨(hrem.mono (by simp)).trans (hs.mono (by simp)), ?_⟩
          intro m hm
          rcases List.mem_cons.mp hm with rfl | hm
          · exact removed hs ht hnone
          · exact ht m hm
        · rintro _ _ ⟨m, hm, hdm⟩
          refine ⟨m, List.mem_cons_of_mem _ hm, ?_⟩
          by_cases hmn : m = n
          · subst hmn
            simp [Disk.isDirectory, hnone] at hdm
          · rwa [hrem.isDirectory (by simpa using hmn)] at hdm

/-- Once its files are removed, nothing is left below a clean directory. -/
theorem Clean.below (h : Clean p s) (hs : Same (names.map p.inner) s t)
    (hn : ∀ n ∈ names, t.get (p.inner n) = none) : t.below p.dir = [] := by
  rw [List.eq_nil_iff_forall_not_mem]
  intro q hq
  obtain ⟨hpre, hne, hsome⟩ := Disk.mem_below.mp hq
  by_cases hm : q ∈ names.map p.inner
  · obtain ⟨n, hn', rfl⟩ := List.mem_map.mp hm
    simp [hn n hn'] at hsome
  · rw [hs.get q hm] at hsome
    obtain ⟨n, hn', rfl, -⟩ := h q hpre hne (by intro h; simp [h] at hsome)
    exact hm (List.mem_map_of_mem hn')

theorem Clean.not_directory (h : Clean p s) (n : String) : s.isDirectory (p.inner n) = false := by
  cases hd : s.isDirectory (p.inner n) with
  | false => rfl
  | true =>
    obtain ⟨a, ha⟩ := Disk.isDirectory_iff.mp hd
    obtain ⟨_, -, -, b, hb⟩ := h (p.inner n) (by simp [Site.inner]) (by simp) (by simp [ha])
    rw [Disk.isDirectory_of_file hb] at hd
    cases hd

theorem Clean.same (h : Clean p s) (hs : Same [p.inner "lock"] s t) (hf : t.free (p.inner "lock") = true) :
    Clean p t := by
  intro q hpre hne hq
  by_cases hl : q = p.inner "lock"
  · subst hl
    obtain hn | hb := Disk.free_iff.mp hf
    · exact absurd hn hq
    · exact ⟨"lock", by simp [names], rfl, hb⟩
  · rw [hs.get q (by simpa using hl)] at hq
    obtain ⟨n, hn, he, hb⟩ := h q hpre hne hq
    exact ⟨n, hn, he, by rwa [hs.file? (by simpa using hl)]⟩

theorem removeDirectory_cases {q : Path} (hd : s.isDirectory q = true) :
    (s.below q ≠ [] ∧ exec (.removeDirectory q) s = (.error .notEmpty, s)) ∨
    (s.below q = [] ∧ exec (.removeDirectory q) s = (.ok (), s.remove q)) := by
  obtain ⟨a, ha⟩ := Disk.isDirectory_iff.mp hd
  cases hb : (s.below q).isEmpty with
  | true => exact .inr ⟨by simpa using hb, by simp [exec, ha, Node.isDirectory, hb]⟩
  | false => exact .inl ⟨by simpa using hb, by simp [exec, ha, Node.isDirectory, hb]⟩

theorem Command.cancel_site {path token : String} :
    (Command.cancel path token).site c = some p ↔
      place path = some (p.parent, p.target) ∧ ∃ id, c.uuid token = some id ∧ p.stage = stageName id := by
  simp only [Command.site, Option.bind_eq_bind, Option.bind_eq_some_iff]
  constructor
  · rintro ⟨r, hr, id, hid, h⟩
    obtain rfl := Option.some.inj h
    exact ⟨hr, id, hid, rfl⟩
  · rintro ⟨hr, id, hid, h⟩
    exact ⟨_, hr, id, hid, by rw [← h]⟩

theorem cancel_sat {path token : String} :
    Act.Sat machine (Step c e (.cancel path token) payload s₀) (cancel c e path token) s
      (fun r t => r = .done ∧ ∃ p, (Command.cancel path token).site c = some p ∧
        t.get p.dir = none ∧ (s.get p.dir = none ∨ Openable c e path p s))
      (fun _ _ => ∀ p, (Command.cancel path token).site c = some p → Walks s [] p.parent →
        s.get p.dir ≠ none ∧ (¬ Openable c e path p s ∨ ¬ Clean p s)) := by
  unfold cancel
  refine .bind ((parent_sat Step.rest path).mono (fun _ _ h => h) ?_) ?_
  · rintro _ _ ⟨rfl, hno⟩ p hp hw
    exact absurd hw (hno _ (Command.cancel_site.mp hp).1)
  rintro ⟨dir, target⟩ s ⟨rfl, hplace, hwalks⟩
  cases hid : c.uuid token with
  | none =>
    simp only [name, hid]
    refine .throw fun p hp => ?_
    obtain ⟨-, id, h, -⟩ := Command.cancel_site.mp hp
    cases hid.symm.trans h
  | some id =>
  simp only [name, hid]
  refine .bind (Act.Sat.pure (Q := fun n t => n = stageName id ∧ t = s) ⟨rfl, rfl⟩) ?_
  rintro _ s ⟨rfl, rfl⟩
  obtain ⟨p, hpdef⟩ : ∃ p : Site, p = ⟨dir, target, stageName id⟩ := ⟨_, rfl⟩
  have hp : (Command.cancel path token).site c = some p :=
    Command.cancel_site.mpr ⟨by rw [hpdef]; exact hplace, id, hid, by rw [hpdef]⟩
  rw [show dir ++ [stageName id] = p.dir by rw [hpdef]; rfl]
  refine sat_look Step.rest rfl ?_
  cases hn : s.get p.dir with
  | none =>
    rw [show exec (.symlinkMetadata p.dir) s = (.error .notFound, s) by simp only [exec, hn]]
    exact .pure ⟨rfl, p, hp, hn, .inl hn⟩
  | some node =>
  rw [show exec (.symlinkMetadata p.dir) s = (.ok node.metadata, s) by simp only [exec, hn]]
  have hE : ¬ Openable c e path p s ∨ ¬ Clean p s → ∀ q, (Command.cancel path token).site c = some q →
      Walks s [] q.parent → s.get q.dir ≠ none ∧ (¬ Openable c e path q s ∨ ¬ Clean q s) := by
    intro h q hq _
    obtain rfl := Option.some.inj (hp.symm.trans hq)
    exact ⟨by simp [hn], h⟩
  refine .bind ((openStage_sat (.cancel path token) rfl (by simp)).mono (fun _ _ h => h)
    fun _ _ h => hE (.inl (h p hp).1)) ?_
  rintro stage u ⟨q, hq, -, ho⟩
  obtain rfl := Option.some.inj (hp.symm.trans hq)
  have hopen := ho.openable
  obtain ⟨-, -, hsame⟩ | ⟨h, -⟩ := ho.found
  swap
  · cases h
  replace hsame := (hsame rfl).2
  rw [ho.dir, ho.parent, ho.name, show p.parent ++ [p.stage] = p.dir from rfl]
  refine .bind ((removeFiles_sat hp names (List.Subset.refl _)).mono (fun _ _ h => h) ?_) ?_
  · rintro _ _ ⟨n, -, hd⟩
    refine hE (.inr fun hc => ?_)
    rw [(hc.same hsame ho.entered.lock).not_directory n] at hd
    cases hd
  rintro _ v ⟨huv, hgone⟩
  have hdv : v.isDirectory p.dir = true := by
    rw [huv.isDirectory (by simp [names]), ho.entered.dir]
  obtain ⟨hbelow, hx⟩ | ⟨hempty, hx⟩ := removeDirectory_cases hdv
  · exact sat_exec hx rfl (.rest _ _)
      (.throw (hE (.inr fun hc => hbelow ((hc.same hsame ho.entered.lock).below huv hgone))))
  · have hnone : (v.remove p.dir).get p.dir = none := by simp [Disk.get_remove]
    refine sat_exec hx rfl (.inr ⟨p, hp, .leave rfl hempty (same_remove _ _) hnone⟩) ?_
    exact sat_ok (sat_look Step.rest rfl (.pure ⟨rfl, p, hp, hnone, .inr hopen⟩))

-- ---------------------------------------------------------------------------
-- Dispatch
-- ---------------------------------------------------------------------------

/-- The commands of an upload. -/
def Command.isUpload : Command → Bool
  | .prepare .. | .write .. | .commit .. | .cancel .. => true
  | _ => false

/-- What a command answers, once it is let through. -/
theorem dispatch_sat {x : M Reply}
    (heq : dispatch c e cmd payload = (do
      checkCancelled e
      ensure (cmd.isWrite || payload.isEmpty)
        (fault "TRANSFER_PACKET" "Unexpected transfer payload.")
      return (← x, [])))
    (hx : e.cancelled = false → Act.Sat machine (Step c e cmd payload s) x s Q E) :
    Act.Sat machine (Step c e cmd payload s) (dispatch c e cmd payload) s
      (fun r t => r.2 = [] ∧ Q r.1 t)
      (fun f t => e.cancelled = true ∨ (cmd.isWrite || payload.isEmpty) = false ∨ E f t) := by
  rw [heq, checkCancelled]
  refine .bind (.ensure (Q := fun _ t => t = s ∧ e.cancelled = false) ?_ ?_) ?_
  · exact fun h => ⟨rfl, by simpa using h⟩
  · exact fun h => .inl (by simpa using h)
  rintro _ s ⟨rfl, hc⟩
  refine .bind (.ensure (Q := fun _ t => t = s) (fun _ => rfl) fun h => .inr (.inl h)) ?_
  rintro _ s rfl
  exact .bind ((hx hc).mono (fun _ _ h => h) fun _ _ h => .inr (.inr h)) fun _ _ h => .pure ⟨rfl, h⟩

/-- Every step an upload command takes is one of the changes listed. -/
theorem dispatch_step {c : Crates} {e : Endpoint} {cmd : Command} (payload : Bytes) (hcmd : cmd.isUpload = true) (s : Disk) :
    Act.Sat machine (Step c e cmd payload s) (dispatch c e cmd payload) s
      (fun _ _ => True) (fun _ _ => True) := by
  have hweak {x : M (Reply × Bytes)} {Q E} (h : Act.Sat machine (Step c e cmd payload s) x s Q E) :
      Act.Sat machine (Step c e cmd payload s) x s (fun _ _ => True) (fun _ _ => True) :=
    h.mono (fun _ _ _ => trivial) fun _ _ _ => trivial
  cases cmd with
  | prepare => exact hweak (dispatch_sat rfl prepare_sat)
  | write => exact hweak (dispatch_sat rfl fun _ => write_sat)
  | commit => exact hweak (dispatch_sat rfl commit_sat)
  | cancel => exact hweak (dispatch_sat rfl fun _ => cancel_sat)
  | _ => cases hcmd

end Laws

end RemoteCodex.Transfer
