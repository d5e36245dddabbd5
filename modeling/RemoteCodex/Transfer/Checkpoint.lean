import RemoteCodex.Transfer.Publication

/-!
# The checkpoint of an upload

The commands on one stage run one after the other, each to its end or stopped
anywhere, while others do what they like outside the staging directory.
`Upload` records, beside the tree, the blocks of the writes that moved the
journal on, as anybody can see who reads it before and after a command.
-/

namespace RemoteCodex.Transfer

open Files Interact
open Wire.Json (ascii)

def journalAt (c : Crates) (p : Site) (s : Disk) : Option Journal :=
  (s.file? (p.inner "state.json")).bind fun b => (c.fromJson (b.take 16384)).toOption

/-- The blocks recorded in the journal, after a command that found it in `s`
and left it in `t`. -/
def recorded (c : Crates) (p : Site) (cmd : Command) (payload : Bytes) (s t : Disk)
    (blocks : List Bytes) : List Bytes :=
  match journalAt c p s, journalAt c p t with
  | some j, some k => if cmd.isWrite && k.offset != j.offset then blocks ++ [payload] else blocks
  | _, _ => []

/-- A command on the stage at `p`, whatever the name of its destination. -/
def Command.On (c : Crates) (p : Site) (cmd : Command) : Prop :=
  ∃ q, cmd.site c = some q ∧ q.dir = p.dir

inductive Upload (c : Crates) (p : Site) : Disk → List Bytes → Prop
  | start : (∀ q, p.dir <+: q → s.get q = none) → Upload c p s []
  | command : Upload c p s blocks → cmd.On c p →
      Prog.Stops machine (dispatch c e cmd payload).run s t →
      Upload c p t (recorded c p cmd payload s t blocks)
  | others : Upload c p s blocks → (∀ q, p.dir <+: q → t.get q = s.get q) → Upload c p t blocks

/-- The blocks of `chunks` written and acknowledged from `offset` on; others
may act between the writes. -/
inductive Writes (c : Crates) (p : Site) : Nat → List Bytes → Disk → Disk → Prop
  | done : Writes c p offset [] s s
  | write : (Command.write path token offset digest).On c p →
      Prog.Ends machine (dispatch c e (.write path token offset digest) chunk).run s (.ok r) t →
      Writes c p (offset + chunk.length) chunks t u → Writes c p offset (chunk :: chunks) s u
  | others : (∀ q, p.dir <+: q → t.get q = s.get q) → Writes c p offset chunks t u →
      Writes c p offset chunks s u

section

variable {c : Crates} {e : Endpoint} {cmd : Command} {payload : Bytes} {p : Site} {s t s₀ a b : Disk}
variable {blocks : List Bytes}

theorem journalAt_eq {j : Journal} : journalAt c p s = some j ↔ Reads c s p.dir j := by
  unfold journalAt Reads
  rw [show p.dir ++ ["state.json"] = p.inner "state.json" from rfl]
  simp only [Option.bind_eq_some_iff]
  refine exists_congr fun b => and_congr_right fun _ => ?_
  cases c.fromJson (b.take 16384) <;> simp [Except.toOption]

theorem journalAt_none : journalAt c p s = none ↔ ∀ j, ¬ Reads c s p.dir j := by
  simp only [← journalAt_eq, Option.eq_none_iff_forall_ne_some]

/-- What lies in the staging directory is the same in both trees. -/
theorem Reads.inside (hr : Reads c s p.dir j) (h : ∀ q, p.dir <+: q → t.get q = s.get q) :
    Reads c t p.dir j := by
  obtain ⟨b, hb, hj⟩ := hr
  exact ⟨b, by rw [Disk.file?, h _ (List.prefix_append _ _), ← Disk.file?, hb], hj⟩

theorem file_inside {n : String} (h : ∀ q, p.dir <+: q → t.get q = s.get q) :
    t.file? (p.inner n) = s.file? (p.inner n) := by
  rw [Disk.file?, h (p.inner n) (List.prefix_append _ _), Disk.file?]

theorem Holds.inside (hh : Holds c s p.dir j) (h : ∀ q, p.dir <+: q → t.get q = s.get q) :
    Holds c t p.dir j :=
  hh.imp (·.inside h) fun hb => (file_inside (n := "state.json") h).trans hb

theorem Command.On.isUpload (h : cmd.On c p) : cmd.isUpload = true := by
  obtain ⟨q, hq, -⟩ := h
  cases cmd with
  | prepare | write | commit | cancel => rfl
  | _ => cases hq

-- ---------------------------------------------------------------------------
-- While a command runs
-- ---------------------------------------------------------------------------

/-- How the journal `k` and its data stand in the middle of a command that was
started in `s` with the blocks `blocks` recorded. -/
inductive Progress (c : Crates) (p : Site) (cmd : Command) (payload : Bytes) (s : Disk)
    (blocks : List Bytes) (k : Journal) (d : Bytes) : Prop
  | kept : Reads c s p.dir j → k.offset = j.offset → d.take k.offset = blocks.flatten →
      Progress c p cmd payload s blocks k d
  | advanced : Reads c s p.dir j → cmd = .write path token j.offset digest → payload ≠ [] →
      k.offset = j.offset + payload.length → d.take k.offset = blocks.flatten ++ payload →
      Progress c p cmd payload s blocks k d
  | begun : cmd = .prepare path token src expected → (∀ j, ¬ Reads c s p.dir j) → k.offset = 0 →
      Progress c p cmd payload s blocks k d

/-- What holds at every moment of a command started in `s`. -/
structure Underway (c : Crates) (p : Site) (cmd : Command) (payload : Bytes) (s : Disk)
    (blocks : List Bytes) (a : Disk) : Prop where
  sound : SoundAt c p a
  progress : ∀ k d, Reads c a p.dir k → a.file? (p.inner "data") = some d →
    Progress c p cmd payload s blocks k d
  unread : ∀ path token src expected, cmd = .prepare path token src expected →
    a.get (p.inner "state.json") = none → s.get (p.inner "state.json") = none

theorem Progress.congr (h : Progress c p cmd payload s blocks k d)
    (ho : k'.offset = k.offset) (hd : d'.take k.offset = d.take k.offset) :
    Progress c p cmd payload s blocks k' d' := by
  cases h with
  | kept hr h1 h2 => exact .kept hr (ho.trans h1) (by rw [ho, hd, h2])
  | advanced hr hc hp h1 h2 => exact .advanced hr hc hp (ho.trans h1) (by rw [ho, hd, h2])
  | begun hc hr h1 => exact .begun hc hr (ho.trans h1)

/-- A journal that is due goes on from the one that was read. -/
theorem Due.progress (h : Underway c p cmd payload s blocks a) (hdue : Due c e cmd payload p a k)
    (hd : a.file? (p.inner "data") = some d) : Progress c p cmd payload s blocks k d := by
  cases hdue with
  | initial hcmd _ hn =>
    refine .begun hcmd (fun j ⟨b, hb, _⟩ => ?_) rfl
    cases (Disk.file?_none (h.unread _ _ _ _ hcmd hn)).symm.trans hb
  | @advance path token digest j d' hcmd hr _ hne _ hd' htake =>
    obtain rfl := Option.some.inj (hd'.symm.trans hd)
    have hlen := (h.sound j d' (.inl hr) hd).1
    cases h.progress _ _ hr hd with
    | @kept j₀ hr₀ ho hflat =>
      have hsplit : d'.take (j.offset + payload.length) = blocks.flatten ++ payload := by
        rw [List.take_add, hflat, htake]
      exact .advanced (j := j₀) hr₀ (by rw [hcmd, ho]) hne (by simp [ho]) hsplit
    | advanced _ hcmd₀ _ ho =>
      -- The offset of the command is that of the journal it started from.
      obtain ⟨-, -, hoff, -⟩ := Command.write.inj (hcmd.symm.trans hcmd₀)
      have := List.length_pos_iff.mpr hne
      omega
    | begun hcmd₀ => cases hcmd.symm.trans hcmd₀
  | sealed _ hr => exact (h.progress _ _ hr hd).congr rfl rfl
  | confirm _ _ hn =>
    rw [Disk.file?_none hn] at hd
    cases hd

/-- One change of a command keeps its progress. -/
theorem Change.underway (hc : c.Lawful) (h : Underway c p cmd payload s blocks a)
    (hch : Change c e cmd payload s₀ p op a b) : Underway c p cmd payload s blocks b := by
  refine ⟨hch.soundAt hc h.sound, ?_, ?_⟩
  · intro k d hk hd
    have hback {ps : List Path} (h : Same ps a b) (hq : p.inner "state.json" ∉ ps) :
        Reads c a p.dir k := hk.same h.symm hq
    cases hch with
    | folder _ hs => exact h.progress k d (hback hs (by simp)) (by rw [← hs.file? (by simp), hd])
    | scratch hn _ hs =>
      simp only [List.mem_cons, List.not_mem_nil, or_false] at hn
      obtain rfl | rfl := hn <;>
        exact h.progress k d (hback hs (by simp)) (by rw [← hs.file? (by simp), hd])
    | empty _ _ hn hs =>
      obtain ⟨_, hf, -⟩ := hback hs (by simp)
      cases (Disk.file?_none hn).symm.trans hf
    | save hdue _ hs _ hstate =>
      obtain rfl := Holds.eq_saved hc (.inl hk) hstate
      exact hdue.progress h (by rw [← hs.file? (by simp), hd])
    | extend _ hr _ hfit hold hs hnew =>
      obtain rfl := hr.unique (hback hs (by simp))
      obtain rfl := Option.some.inj (hnew.symm.trans hd)
      exact (h.progress _ _ hr hold).congr rfl (take_splice (h.sound _ _ (.inl hr) hold).1)
    | cut hj hold hle hs hnew =>
      obtain rfl := hj.unique hc (.inl (hback hs (by simp)))
      obtain rfl := Option.some.inj (hnew.symm.trans hd)
      exact (h.progress _ _ (hback hs (by simp)) hold).congr rfl (List.take_take.trans (by rw [Nat.min_self]))
    | touch hold hs hnew =>
      obtain rfl := Option.some.inj (hnew.symm.trans hd)
      exact h.progress k _ (hback hs (by simp)) hold
    | publish =>
      rw [Disk.file?_none (by simp [Disk.get_put, Disk.get_remove])] at hd
      cases hd
    | drop _ hn hs hnone =>
      simp only [List.mem_cons, List.not_mem_nil, or_false] at hn
      obtain rfl | rfl | rfl | rfl := hn
      · rw [Disk.file?_none hnone] at hd
        cases hd
      · exact h.progress k d (hback hs (by simp)) (by rw [← hs.file? (by simp), hd])
      · obtain ⟨_, hf, -⟩ := hk
        cases (Disk.file?_none hnone).symm.trans hf
      · exact h.progress k d (hback hs (by simp)) (by rw [← hs.file? (by simp), hd])
    | leave _ _ hs => exact h.progress k d (hback hs (by simp)) (by rw [← hs.file? (by simp), hd])
  · intro path token src expected hcmd hn
    refine h.unread _ _ _ _ hcmd ?_
    cases hch with
    | folder _ hs | empty _ _ _ hs | extend _ _ _ _ _ hs | cut _ _ _ hs | touch _ hs =>
      rw [← hs.get _ (by simp), hn]
    | scratch hm _ hs =>
      simp only [List.mem_cons, List.not_mem_nil, or_false] at hm
      obtain rfl | rfl := hm <;> rw [← hs.get _ (by simp), hn]
    | save _ _ _ _ hstate => cases (Disk.file?_none hn).symm.trans hstate
    | publish hcmd' => cases hcmd.symm.trans hcmd'
    | drop hcmd' => cases hcmd.symm.trans hcmd'
    | leave hcmd' => cases hcmd.symm.trans hcmd'

-- ---------------------------------------------------------------------------
-- Between commands
-- ---------------------------------------------------------------------------

/-- What holds between the commands of an upload. -/
structure Checkpointed (c : Crates) (p : Site) (s : Disk) (blocks : List Bytes) : Prop where
  sound : SoundAt c p s
  prefix_ : ∀ j d, Reads c s p.dir j → s.file? (p.inner "data") = some d →
    d.take j.offset = blocks.flatten

theorem Site.inner_eq {q : Site} (h : q.dir = p.dir) (n : String) : q.inner n = p.inner n := by
  rw [Site.inner, h, Site.inner]

theorem Underway.of_dir {q : Site} (hq : q.dir = p.dir) :
    Underway c q cmd payload s blocks a ↔ Underway c p cmd payload s blocks a := by
  have hsound : SoundAt c q a ↔ SoundAt c p a := by simp only [SoundAt, Site.inner_eq hq, hq]
  have hprog {k d} : Progress c q cmd payload s blocks k d ↔ Progress c p cmd payload s blocks k d := by
    constructor <;> intro h <;> cases h with
    | kept hr h1 h2 => exact .kept (by simpa only [hq] using hr) h1 h2
    | advanced hr h1 h2 h3 h4 => exact .advanced (by simpa only [hq] using hr) h1 h2 h3 h4
    | begun h1 hr h2 => exact .begun h1 (by simpa only [hq] using hr) h2
  constructor
  · rintro ⟨h1, h2, h3⟩
    simp only [hq, Site.inner_eq hq] at h2 h3
    exact ⟨hsound.mp h1, fun k d hk hd => hprog.mp (h2 k d hk hd), h3⟩
  · rintro ⟨h1, h2, h3⟩
    refine ⟨hsound.mpr h1, ?_, ?_⟩
    · simp only [hq, Site.inner_eq hq]
      exact fun k d hk hd => hprog.mpr (h2 k d hk hd)
    · simpa only [Site.inner_eq hq] using h3

theorem Step.underway (hc : c.Lawful) (hon : cmd.On c p) (h : Underway c p cmd payload s blocks a)
    (hst : Step c e cmd payload s₀ op a b) : Underway c p cmd payload s blocks b := by
  obtain rfl | ⟨q, hq, hch⟩ := hst
  · exact h
  · obtain ⟨q', hq', hdir⟩ := hon
    obtain rfl := Option.some.inj (hq.symm.trans hq')
    exact (Underway.of_dir hdir).mp (hch.underway hc ((Underway.of_dir hdir).mpr h))

theorem Checkpointed.start (h : Checkpointed c p s blocks) : Underway c p cmd payload s blocks s :=
  ⟨h.sound, fun k d hk hd => .kept hk rfl (h.prefix_ k d hk hd), fun _ _ _ _ _ h => h⟩

/-- Where a command stops, the recorded blocks are those the journal counts. -/
theorem Underway.finish (h : Underway c p cmd payload s blocks t) :
    Checkpointed c p t (recorded c p cmd payload s t blocks) := by
  refine ⟨h.sound, fun k d hk hd => ?_⟩
  unfold recorded
  rw [journalAt_eq.mpr hk]
  cases h.progress k d hk hd with
  | kept hr ho hflat => simp [journalAt_eq.mpr hr, ← ho, hflat]
  | @advanced j _ _ _ hr hcmd hne ho hflat =>
    have hw : cmd.isWrite = true := by rw [hcmd]; rfl
    have hpos := List.length_pos_iff.mpr hne
    have hmoved : k.offset ≠ j.offset := by omega
    simp [journalAt_eq.mpr hr, hw, hmoved, hflat]
  | begun _ hno ho => simp [journalAt_none.mpr hno, ho]

theorem Upload.checkpointed (hc : c.Lawful) (h : Upload c p s blocks) : Checkpointed c p s blocks := by
  induction h with
  | start hn =>
    refine ⟨fun j d _ hd => ?_, fun j d _ hd => ?_⟩ <;>
      cases (Disk.file?_none (hn (p.inner "data") (List.prefix_append _ _))).symm.trans hd
  | command _ hon hstop ih =>
    refine ((dispatch_step _ hon.isUpload _).stops hstop ih.start ?_ fun op a b hst ha => hst.underway hc hon ha).finish
    rintro a b rfl ha
    exact ha
  | others _ hkeep ih =>
    have hback := fun q hq => (hkeep q hq).symm
    refine ⟨fun j d hj hd => ?_, fun j d hj hd => ?_⟩
    · exact ih.sound j d (hj.inside hback) ((file_inside hback).trans hd)
    · exact ih.prefix_ j d (hj.inside hback) ((file_inside hback).trans hd)

/-- Only a `prepare` begins a journal, and only for a regular file. -/
theorem Upload.regular (hc : c.Lawful) (h : Upload c p s blocks) :
    ∀ j, Holds c s p.dir j → j.source.kind = .file := by
  induction h with
  | start hn =>
    rintro j (⟨b, hb, -⟩ | hb) <;>
      cases (Disk.file?_none (hn (p.inner "state.json") (List.prefix_append _ _))).symm.trans hb
  | @command s _ cmd e payload t _ hon hstop ih =>
    refine (dispatch_step _ hon.isUpload s).stops (I := fun a => ∀ j, Holds c a p.dir j → j.source.kind = .file)
      hstop ih ?_ ?_
    · rintro a b rfl ha
      exact ha
    · rintro op a b (rfl | ⟨q, hq, hch⟩) ha
      · exact ha
      obtain ⟨q', hq', hdir⟩ := hon
      obtain rfl := Option.some.inj (hq.symm.trans hq')
      rw [← hdir] at ha ⊢
      refine fun j => hch.journals hc (P := fun j => j.source.kind = .file) (fun j hdue => ?_) ha
      cases hdue with
      | initial _ hk => exact hk
      | advance _ hr | sealed _ hr => exact (ha _ (.inl hr) :)
      | confirm hj => exact (ha _ hj :)
  | others _ hkeep ih => exact fun j hj => ih j (hj.inside fun q hq => (hkeep q hq).symm)

-- ---------------------------------------------------------------------------
-- Going on
-- ---------------------------------------------------------------------------

/-- A `prepare` goes back to the checkpoint of the journal it finds. -/
theorem prepare_resumes {path token : String} {src : Stamp} {expected : Option Stamp} {j : Journal}
    {d : Bytes} (hon : (Command.prepare path token src expected).On c p) (hj : Reads c s p.dir j)
    (hopen : j.committed = false) (hd : s.file? (p.inner "data") = some d)
    (hends : Prog.Ends machine (dispatch c e (.prepare path token src expected) payload).run s (.ok r) t) :
    r = (.ready j.offset false, []) ∧ t.file? (p.inner "data") = some (d.take j.offset) ∧
      Reads c t p.dir j ∧ j.offset ≤ d.length := by
  obtain ⟨hpay, q, stage, u, hq, -, -, ho, -, -, hprep⟩ := (dispatch_sat rfl prepare_sat).ends hends
  obtain ⟨q', hq', hdir⟩ := hon
  obtain rfl := Option.some.inj (hq.symm.trans hq')
  rw [← hdir] at hj ⊢
  rw [← Site.inner_eq hdir] at hd ⊢
  obtain ⟨hr, hsu, -⟩ | ⟨-, hn, -⟩ := ho.found
  swap
  · obtain ⟨b, hb, -⟩ := hj
    cases (Disk.file?_none hn).symm.trans hb
  obtain rfl := hr.unique hj
  have hdu : u.file? (q.inner "data") = some d := by rw [hsu.file? (by simp), hd]
  have hpresent : ¬ Renamed q stage.journal u := fun h => by
    cases (Disk.file?_none h.2).symm.trans hdu
  generalize hreply : r.1 = reply at hprep
  cases hprep with
  | settled h => exact absurd h hpresent
  | complete _ h => cases hopen.symm.trans h
  | resumed _ _ _ hd' hle hs ht =>
    obtain rfl := Option.some.inj (hd'.symm.trans hdu)
    have hstate : q.dir ++ ["state.json"] ∉ [q.dir, q.inner "lock"] := by simp [Site.inner]
    exact ⟨Prod.ext hreply hpay, ht, (hr.same hsu hstate).same hs (by simp [Site.inner]), hle⟩

/-- An acknowledged `write` appends its block to data that ends at the checkpoint. -/
theorem write_appends (hc : c.Lawful) {path token digest : String} {offset : Nat} {j : Journal}
    {d : Bytes} (hon : (Command.write path token offset digest).On c p) (hj : Holds c s p.dir j)
    (hd : s.file? (p.inner "data") = some d) (hlen : d.length = j.offset)
    (hends : Prog.Ends machine (dispatch c e (.write path token offset digest) payload).run s (.ok r) t) :
    ∃ k, Holds c t p.dir k ∧ k.offset = offset + payload.length ∧
      t.file? (p.inner "data") = some (d ++ payload) := by
  obtain ⟨-, q, stage, u, hq, -, ho, rfl, hw, -⟩ := (dispatch_sat rfl fun _ => write_sat).ends hends
  obtain ⟨q', hq', hdir⟩ := hon
  obtain rfl := Option.some.inj (hq.symm.trans hq')
  rw [← hdir] at hj ⊢
  rw [← Site.inner_eq hdir] at hd ⊢
  obtain ⟨hr, -, hsu⟩ | ⟨h, -⟩ := ho.found
  swap
  · cases h
  replace hsu := (hsu rfl).2
  obtain rfl := Holds.unique hc (.inl hr) hj
  obtain ⟨old, hold, hnew⟩ := hw.data
  obtain rfl : d = old := by
    rw [hsu.file? (by simp), hd] at hold
    exact Option.some.inj hold
  refine ⟨_, .inr hw.state, rfl, ?_⟩
  rw [hnew, splice_of_le (by omega), List.take_of_length_le (by omega),
    List.drop_of_length_le (by omega), List.append_nil]

theorem Writes.appends (hc : c.Lawful) (h : Writes c p offset chunks s t) {j : Journal} {d : Bytes}
    (hj : Holds c s p.dir j) (ho : j.offset = offset) (hd : s.file? (p.inner "data") = some d)
    (hlen : d.length = offset) : t.file? (p.inner "data") = some (d ++ chunks.flatten) := by
  induction h generalizing j d with
  | done => simpa using hd
  | write hon hends _ ih =>
    obtain ⟨k, hk, hko, hkd⟩ := write_appends hc hon hj hd (hlen.trans ho.symm) hends
    rw [ih hk hko hkd (by simp [hlen]), List.flatten_cons, List.append_assoc]
  | others hkeep _ ih => exact ih (hj.inside hkeep) ho ((file_inside hkeep).trans hd) hlen

/-- In whatever state an upload was stopped, with its journal uncommitted and
its data there, the data starts with the recorded blocks; a successful
`prepare` goes back to them, and the rest of the source, written from there on,
completes it. -/
theorem checkpoint_sound (hc : c.Lawful) (h : Upload c p s blocks) {j : Journal} {d : Bytes}
    (hj : journalAt c p s = some j) (hopen : j.committed = false)
    (hd : s.file? (p.inner "data") = some d) :
    j.offset ≤ d.length ∧ d.length ≤ j.source.length ∧ d.take j.offset = blocks.flatten ∧
    ∀ e path token src expected payload r t, (Command.prepare path token src expected).On c p →
      Prog.Ends machine (dispatch c e (.prepare path token src expected) payload).run s (.ok r) t →
      r = (.ready j.offset false, []) ∧
      (∃ d', t.file? (p.inner "data") = some d' ∧ d'.length = j.offset) ∧
      ∀ content chunks u, blocks.flatten = content.take j.offset →
        chunks.flatten = content.drop j.offset → Writes c p j.offset chunks t u →
        u.file? (p.inner "data") = some content := by
  have hch := h.checkpointed hc
  have hr := journalAt_eq.mp hj
  obtain ⟨hle, hmax⟩ := hch.sound j d (.inl hr) hd
  have hpre := hch.prefix_ j d hr hd
  refine ⟨hle, hmax, hpre, ?_⟩
  intro e path token src expected payload r t hon hends
  obtain ⟨hreply, ht, hrt, -⟩ := prepare_resumes hon hr hopen hd hends
  have hlen : (d.take j.offset).length = j.offset := by rw [List.length_take, Nat.min_eq_left hle]
  refine ⟨hreply, ⟨_, ht, hlen⟩, ?_⟩
  intro content chunks u hcontent hchunks hwrites
  rw [hwrites.appends hc (.inl hrt) rfl ht hlen, hpre, hcontent, hchunks, List.take_append_drop]

theorem someSite_on (h : cmd.upload = some ("a", someToken)) : cmd.On linked someSite :=
  ⟨someSite, someSite_eq h, rfl⟩

theorem emptyRoot_free {q : Path} (h : someSite.dir <+: q) : emptyRoot.get q = none :=
  emptyRoot_get fun hq => by simp [hq, Site.dir] at h

theorem journalAt_staged : journalAt linked someSite (staged 6 someJournal (ascii "x")) = some someJournal := by
  decide +kernel

/-- One block was written, and is the data up to the checkpoint. -/
theorem checkpoint_sound_one : ∃ blocks, Upload linked someSite (ran writing (ascii "x") (ran preparing [] emptyRoot)) blocks ∧
    someJournal.offset ≤ (ascii "x").length ∧ (ascii "x").take someJournal.offset = blocks.flatten := by
  have hup : Upload linked someSite _ _ :=
    .command (.command (.start fun q => emptyRoot_free) (someSite_on rfl) (stops_ran preparing [] emptyRoot))
      (someSite_on rfl) (stops_ran writing (ascii "x") _)
  have hj : journalAt linked someSite (ran writing (ascii "x") (ran preparing [] emptyRoot)) =
      some someJournal := by
    rw [ran_preparing, ran_writing]
    exact journalAt_staged
  have hd : (ran writing (ascii "x") (ran preparing [] emptyRoot)).file? (someSite.inner "data") =
      some (ascii "x") := by
    rw [ran_preparing, ran_writing]
    decide
  obtain ⟨hle, -, htake, -⟩ := checkpoint_sound linked_lawful hup hj rfl hd
  exact ⟨_, hup, hle, htake⟩

end

end RemoteCodex.Transfer
