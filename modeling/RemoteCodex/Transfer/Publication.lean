import RemoteCodex.Transfer.CommandLaws
import RemoteCodex.Transfer.Text

/-!
# Publication

Any commands run one after the other, each to its end or stopped anywhere, and
between them others change whatever lies outside the staging directories. A
destination is then only ever changed by the rename of a `commit`, and what it
receives is complete and verified.
-/

namespace RemoteCodex.Transfer

open Files Interact
open Wire.Json (ascii)

/-- The name of a staging directory. -/
def Internal (c : Crates) (n : String) : Prop :=
  ∃ token id, c.uuid token = some id ∧ n = stageName id

/-- A path that passes through no staging directory. -/
def Plain (c : Crates) (q : Path) : Prop := ∀ n ∈ q, ¬ Internal c n

def Command.path : Command → String
  | .stat path | .list path _ | .read path .. | .hash path _ | .prepare path .. | .write path ..
  | .commit path .. | .cancel path _ | .directory path | .metadata path _ => path

/-- The path and token of an upload command. -/
def Command.upload : Command → Option (String × String)
  | .prepare path token .. | .write path token .. | .commit path token _ | .cancel path token =>
    some (path, token)
  | _ => none

/-- A command whose path passes through no staging directory. -/
def Command.Plain (c : Crates) (cmd : Command) : Prop :=
  ∀ parts, components cmd.path = .ok parts → Transfer.Plain c parts

/-- The data of the stage at `p` reaches the checkpoint, and no further than
the source is long. -/
def SoundAt (c : Crates) (p : Site) (s : Disk) : Prop :=
  ∀ j d, Holds c s p.dir j → s.file? (p.inner "data") = some d →
    j.offset ≤ d.length ∧ d.length ≤ j.source.length

def Sound (c : Crates) (s : Disk) : Prop := ∀ p : Site, Internal c p.stage → SoundAt c p s

inductive Run (c : Crates) (s : Disk) : Disk → Prop
  | start : Run c s s
  | command : Run c s t → cmd.isUpload = true → cmd.Plain c →
      Prog.Stops machine (dispatch c e cmd payload).run t u → Run c s u
  | others : Run c s t → (∀ q, ¬ Plain c q → u.get q = t.get q) → Run c s u

/-- The step `op` from `a` to `b` renames the complete, verified data of the
stage at `p` onto its destination. -/
structure Publishes (c : Crates) (cmd : Command) (p : Site) (op : Op) (a b : Disk) : Prop where
  ofCommit : ∃ path token digest, cmd = .commit path token digest ∧
    ∃ j d, Holds c a p.dir j ∧ op = .rename (p.inner "data") p.dest j.expected.isSome ∧
      a.file? (p.inner "data") = some d ∧ b.file? p.dest = some d ∧
      d.length = j.source.length ∧ c.digest d = digest ∧
      stampAt a p.dest = j.expected ∧ (j.expected = none → a.get p.dest = none)
  others : ∀ q, q ≠ p.dest → q ≠ p.inner "data" → b.get q = a.get q

-- ---------------------------------------------------------------------------
-- Paths
-- ---------------------------------------------------------------------------

section

variable {c : Crates} {e : Endpoint} {cmd : Command} {payload : Bytes} {p : Site} {s s₀ a b : Disk}

theorem place_components (h : place path = some r) : components path = .ok (r.1 ++ [r.2]) := by
  unfold place at h
  split at h
  · next parts hp =>
    obtain ⟨name, hl, rfl⟩ := Option.map_eq_some_iff.mp h
    rw [hp, List.dropLast_append_getLast? _ hl]
  · cases h

theorem Command.site_eq (h : cmd.site c = some p) :
    place cmd.path = some (p.parent, p.target) ∧ Internal c p.stage := by
  cases cmd with
  | prepare | write | commit | cancel =>
    simp only [Command.site, Option.bind_eq_bind, Option.bind_eq_some_iff] at h
    obtain ⟨⟨dir, target⟩, hr, id, hid, h⟩ := h
    obtain rfl := Option.some.inj h
    exact ⟨hr, _, id, hid, rfl⟩
  | _ => cases h

theorem Command.upload_site {path token : String} (h : cmd.upload = some (path, token)) :
    cmd.site c = (Command.cancel path token).site c := by
  cases cmd with
  | prepare | write | commit | cancel =>
    obtain ⟨rfl, rfl⟩ := Prod.mk.inj (Option.some.inj h)
    rfl
  | _ => cases h

theorem Command.upload_isUpload {path token : String} (h : cmd.upload = some (path, token)) : cmd.isUpload = true := by
  cases cmd with
  | prepare | write | commit | cancel => rfl
  | _ => cases h

theorem Command.Plain.dest (h : cmd.Plain c) (hp : cmd.site c = some p) : Transfer.Plain c p.dest :=
  h _ (place_components (Command.site_eq hp).1)

theorem not_plain_dir (hp : cmd.site c = some p) : ¬ Plain c p.dir := fun h =>
  h p.stage (by simp [Site.dir]) (Command.site_eq hp).2

theorem not_plain_inner (hp : cmd.site c = some p) : ¬ Plain c (p.inner n) := fun h =>
  h p.stage (by simp [Site.inner, Site.dir]) (Command.site_eq hp).2

theorem stageName_head (id : String) : (stageName id).toList.head? = some '.' := by
  have hdot : (stageName "").toList = '.' :: (stageName "").toList.tail := by decide
  have happ : (stageName id).toList = (stageName "").toList ++ id.toList := String.toList_append
  rw [happ, hdot, List.cons_append, List.head?_cons]

theorem not_internal {n : String} (h : n.toList.head? ≠ some '.') : ¬ Internal c n := by
  rintro ⟨token, id, -, hn⟩
  exact h (hn ▸ stageName_head id)

/-- What an upload changes within the paths of its stage, no plain path sees. -/
theorem get_plain {ps : List Path} (hs : Same ps a b) (hps : ∀ q ∈ ps, ¬ Plain c q) (hq : Plain c q) :
    b.get q = a.get q := hs.get q fun hm => hps q hm hq

-- ---------------------------------------------------------------------------
-- One step
-- ---------------------------------------------------------------------------

/-- The paths a command at `p` may change. -/
def Site.Owns (p : Site) (q : Path) : Prop := q = p.dir ∨ q = p.dest ∨ ∃ n, q = p.inner n

theorem Change.owns (h : Change c e cmd payload s₀ p op a b) :
    ∃ ps, Same ps a b ∧ ∀ q ∈ ps, p.Owns q := by
  have hinner (n : String) : p.Owns (p.inner n) := .inr (.inr ⟨n, rfl⟩)
  cases h with
  | folder _ h => exact ⟨_, h, by simp [Site.Owns]⟩
  | scratch _ _ h => exact ⟨_, h, by simpa using hinner _⟩
  | empty _ _ _ h => exact ⟨_, h, by simpa using hinner _⟩
  | save _ _ h => exact ⟨_, h, by simpa using ⟨hinner _, hinner _⟩⟩
  | extend _ _ _ _ _ h => exact ⟨_, h, by simpa using hinner _⟩
  | cut _ _ _ h => exact ⟨_, h, by simpa using hinner _⟩
  | touch _ h => exact ⟨_, h, by simpa using hinner _⟩
  | drop _ _ h => exact ⟨_, h, by simpa using hinner _⟩
  | leave _ _ h => exact ⟨_, h, by simp [Site.Owns]⟩
  | publish =>
    exact ⟨_, same_move _ _ _ _, by simpa using ⟨hinner _, .inr (.inl rfl)⟩⟩

/-- A change leaves plain paths alone, or it publishes. -/
theorem Change.plain (hs : Sound c a) (hp : cmd.site c = some p) (h : Change c e cmd payload s₀ p op a b) :
    (∀ q, Plain c q → b.get q = a.get q) ∨ Publishes c cmd p op a b := by
  have hdir := not_plain_dir hp
  have hinner (n : String) : ¬ Plain c (p.inner n) := not_plain_inner hp
  cases h with
  | folder _ h => exact .inl fun q => get_plain h (by simpa using hdir)
  | scratch _ _ h => exact .inl fun q => get_plain h (by simpa using hinner _)
  | empty _ _ _ h => exact .inl fun q => get_plain h (by simpa using hinner _)
  | save _ _ h => exact .inl fun q => get_plain h (by simpa using ⟨hinner _, hinner _⟩)
  | extend _ _ _ _ _ h => exact .inl fun q => get_plain h (by simpa using hinner _)
  | cut _ _ _ h => exact .inl fun q => get_plain h (by simpa using hinner _)
  | touch _ h => exact .inl fun q => get_plain h (by simpa using hinner _)
  | drop _ _ h => exact .inl fun q => get_plain h (by simpa using hinner _)
  | leave _ _ h => exact .inl fun q => get_plain h (by simpa using hdir)
  | publish hcmd _ _ _ hstate _ _ hfull hdata hdig hstamp =>
    have hd := Disk.file?_eq_some.mpr ⟨_, hdata⟩
    have hsound := hs p (Command.site_eq hp).2 _ _ (.inr hstate) hd
    refine .inr ⟨⟨_, _, _, hcmd, _, _, .inr hstate, rfl, hd, Disk.file?_put _ _ _ _, ?_, hdig, hstamp, ?_⟩, ?_⟩
    · exact Nat.le_antisymm hsound.2 (hfull ▸ hsound.1)
    · intro hn
      rw [hn] at hstamp
      exact stampAt_none.mp hstamp
    · intro q h1 h2
      rw [Disk.get_put, if_neg h1, Disk.get_remove, if_neg h2]

/-- A journal that is due describes the data it is saved with. -/
theorem Due.sound (hs : SoundAt c p a) (h : Due c e cmd payload p a j)
    (hd : a.file? (p.inner "data") = some d) : j.offset ≤ d.length ∧ d.length ≤ j.source.length := by
  cases h with
  | initial _ _ _ h =>
    obtain rfl := Option.some.inj (h.symm.trans hd)
    simp
  | advance _ hj _ hne hfit h htake =>
    obtain rfl := Option.some.inj (h.symm.trans hd)
    have hlen := congrArg List.length htake
    have hpos := List.length_pos_iff.mpr hne
    simp only [List.length_take, List.length_drop] at hlen
    exact ⟨by dsimp only; omega, (hs _ _ (.inl hj) h).2⟩
  | @sealed _ _ _ k _ _ hj => exact hs k _ (.inl hj) hd
  | confirm _ _ h =>
    rw [Disk.file?_none h] at hd
    cases hd

/-- The stage a command works on stays sound. -/
theorem Change.soundAt (hc : c.Lawful) (hs : SoundAt c p a) (h : Change c e cmd payload s₀ p op a b) :
    SoundAt c p b := by
  intro j d hj hd
  have hback {ps : List Path} (h : Same ps a b) (hq : p.inner "state.json" ∉ ps) : Holds c a p.dir j :=
    hj.same h.symm hq
  cases h with
  | folder _ h => exact hs j d (hback h (by simp)) (by rw [← h.file? (by simp), hd])
  | scratch hn _ h =>
    simp only [List.mem_cons, List.not_mem_nil, or_false] at hn
    obtain rfl | rfl := hn <;>
      exact hs j d (hback h (by simp)) (by rw [← h.file? (by simp), hd])
  | empty _ _ hn h =>
    obtain ⟨_, hf, -⟩ | hf := hback h (by simp)
    all_goals cases (Disk.file?_none hn).symm.trans hf
  | save hdue _ h _ hstate =>
    obtain rfl := hj.eq_saved hc hstate
    exact hdue.sound hs (by rw [← h.file? (by simp), hd])
  | extend _ hj' _ hfit hold h hnew =>
    obtain rfl := Holds.unique hc (.inl hj') (hback h (by simp))
    obtain rfl := Option.some.inj (hnew.symm.trans hd)
    have := hs _ _ (.inl hj') hold
    rw [length_splice this.1, List.length_take]
    omega
  | cut hj' hold hle h hnew =>
    obtain rfl := hj'.unique hc (hback h (by simp))
    obtain rfl := Option.some.inj (hnew.symm.trans hd)
    have := hs _ _ hj' hold
    rw [List.length_take]
    omega
  | touch hold h hnew =>
    obtain rfl := Option.some.inj (hnew.symm.trans hd)
    exact hs j _ (hback h (by simp)) hold
  | publish =>
    rw [Disk.file?_none (by simp [Disk.get_put, Disk.get_remove])] at hd
    cases hd
  | drop _ hn h hnone =>
    simp only [List.mem_cons, List.not_mem_nil, or_false] at hn
    obtain rfl | rfl | rfl | rfl := hn
    · rw [Disk.file?_none hnone] at hd
      cases hd
    · exact hs j d (hback h (by simp)) (by rw [← h.file? (by simp), hd])
    · obtain ⟨_, hf, -⟩ | hf := hj
      all_goals cases (Disk.file?_none hnone).symm.trans hf
    · exact hs j d (hback h (by simp)) (by rw [← h.file? (by simp), hd])
  | leave _ _ h => exact hs j d (hback h (by simp)) (by rw [← h.file? (by simp), hd])

/-- What holds of every journal that may be saved holds of the one that is there. -/
theorem Change.journals (hc : c.Lawful) {P : Journal → Prop} (hdue : ∀ j, Due c e cmd payload p a j → P j)
    (ha : ∀ j, Holds c a p.dir j → P j) (h : Change c e cmd payload s₀ p op a b)
    (hj : Holds c b p.dir j) : P j := by
  have hback {ps : List Path} (h : Same ps a b) (hq : p.inner "state.json" ∉ ps) : Holds c a p.dir j :=
    hj.same h.symm hq
  cases h with
  | folder _ h | empty _ _ _ h | extend _ _ _ _ _ h | cut _ _ _ h | touch _ h | leave _ _ h =>
    exact ha j (hback h (by simp))
  | scratch hn _ h =>
    simp only [List.mem_cons, List.not_mem_nil, or_false] at hn
    obtain rfl | rfl := hn <;> exact ha j (hback h (by simp))
  | save h _ _ _ hstate => exact hj.eq_saved hc hstate ▸ hdue _ h
  | publish =>
    exact ha j (hback (same_move _ _ _ _) (by simp))
  | drop _ hn h hnone =>
    simp only [List.mem_cons, List.not_mem_nil, or_false] at hn
    obtain rfl | rfl | rfl | rfl := hn
    · exact ha j (hback h (by simp))
    · exact ha j (hback h (by simp))
    · obtain ⟨_, hf, -⟩ | hf := hj
      all_goals cases (Disk.file?_none hnone).symm.trans hf
    · exact ha j (hback h (by simp))

/-- A file of another stage is none of the paths a command may change. -/
theorem not_owns {q : Site} {n : String} (hq : Internal c q.stage) (hne : q.dir ≠ p.dir)
    (hdest : Plain c p.dest) (hp : Internal c p.stage) (hn : n.toList.head? ≠ some '.') :
    ¬ p.Owns (q.inner n) := by
  rintro (h | h | ⟨m, h⟩)
  · obtain ⟨-, h⟩ := List.append_inj' h rfl
    exact not_internal hn (by simpa [List.cons.inj h] using hp)
  · exact hdest q.stage (by rw [← h]; simp [Site.inner, Site.dir]) hq
  · exact hne (List.append_inj' h rfl).1

theorem Change.sound (hc : c.Lawful) (hs : Sound c a) (hcmd : cmd.Plain c) (hp : cmd.site c = some p)
    (h : Change c e cmd payload s₀ p op a b) : Sound c b := by
  intro q hq
  have hstage := (Command.site_eq hp).2
  by_cases hdir : q.dir = p.dir
  · obtain ⟨hparent, hname⟩ := List.append_inj' hdir rfl
    have hsite : SoundAt c q = SoundAt c p := by
      funext t
      simp only [SoundAt, Site.inner, hdir]
    rw [hsite]
    exact h.soundAt hc (hs p hstage)
  · -- The other stages are not touched, and are as sound as they were.
    obtain ⟨ps, hsame, hps⟩ := h.owns
    have hout {n : String} (hn : n.toList.head? ≠ some '.') : q.inner n ∉ ps := fun hm =>
      not_owns hq hdir (hcmd.dest hp) hstage hn (hps _ hm)
    intro j d hj hd
    refine hs q hq j d (hj.same hsame.symm (hout (by decide))) ?_
    rw [← hsame.file? (hout (by decide)), hd]

-- ---------------------------------------------------------------------------
-- Runs
-- ---------------------------------------------------------------------------

theorem Step.sound (hc : c.Lawful) (hs : Sound c a) (hcmd : cmd.Plain c)
    (h : Step c e cmd payload s₀ op a b) : Sound c b := by
  obtain rfl | ⟨p, hp, h⟩ := h
  · exact hs
  · exact h.sound hc hs hcmd hp

theorem Run.sound (hc : c.Lawful) (hs : Sound c s) (h : Run c s t) : Sound c t := by
  induction h with
  | start => exact hs
  | command _ hup hplain hstop ih =>
    refine (dispatch_step _ hup _).stops hstop ih ?_ fun op a b hstep ha => hstep.sound hc ha hplain
    rintro a b rfl ha
    exact ha
  | @others t u _ hkeep ih =>
    intro q hq j d hj hd
    have hsame : ∀ n, u.get (q.inner n) = t.get (q.inner n) := fun n =>
      hkeep _ fun h => h q.stage (by simp [Site.inner, Site.dir]) hq
    have hfile : ∀ n, u.file? (q.inner n) = t.file? (q.inner n) := fun n => by
      rw [Disk.file?, hsame, Disk.file?]
    refine ih q hq j d (hj.imp ?_ fun h => (hfile "state.json").symm.trans h) ((hfile "data").symm.trans hd)
    rintro ⟨b, hb, hj⟩
    exact ⟨b, (hfile "state.json").symm.trans hb, hj⟩

/-- Whatever ran before, and whoever changed what lies outside the staging
directories, no step of an upload command changes a path outside them but the
rename of a `commit`, which publishes complete and verified data. -/
theorem publication_safe (hc : c.Lawful) (hs : Sound c s) (hrun : Run c s t)
    (hup : cmd.isUpload = true) (hplain : cmd.Plain c)
    (hstep : Prog.Occurs machine (dispatch c e cmd payload).run t op a b) :
    (∀ q, Plain c q → b.get q = a.get q) ∨ ∃ p, cmd.site c = some p ∧ Publishes c cmd p op a b := by
  have hsat := dispatch_step (c := c) (e := e) payload hup t
  have ha : Sound c a := by
    refine hsat.occurs_inv hstep (hrun.sound hc hs) ?_ fun op a b h ha => h.sound hc ha hplain
    rintro a b rfl ha
    exact ha
  obtain rfl | ⟨p, hp, h⟩ := hsat.occurs hstep
  · exact .inl fun _ _ => rfl
  · exact (h.plain ha hp).imp id fun h => ⟨p, hp, h⟩

theorem Sound.empty (c : Crates) : Sound c emptyRoot := by
  rintro p - j d - hd
  cases (Disk.file?_none (emptyRoot_get (by simp [Site.inner]))).symm.trans hd

/-- Where the byte goes. -/
def someSite : Site := ⟨[], "a", someStage⟩

theorem someSite_eq (h : cmd.upload = some ("a", someToken)) : cmd.site linked = some someSite := by
  rw [Command.upload_site h]
  decide

theorem plain_a : Plain linked ["a"] := by
  intro n hn
  rw [List.mem_singleton.mp hn]
  exact not_internal (by decide)

theorem Command.plain_a (h : cmd.path = "a") : cmd.Plain linked := by
  intro parts hparts
  have ha : components "a" = .ok ["a"] := by decide
  rw [h, ha] at hparts
  exact Except.ok.inj hparts ▸ Transfer.plain_a

theorem stops_ran (cmd : Command) (payload : Bytes) (s : Disk) :
    Prog.Stops machine (dispatch linked someOwner cmd payload).run s (ran cmd payload s) :=
  Prog.stops_run machine_rely _ _

/-- The step of the commit that publishes the byte. -/
theorem committing_one : ∃ op a b, Prog.StopsAfter machine (dispatch linked someOwner committing []).run
      (ran writing (ascii "x") (ran preparing [] emptyRoot)) op a b b ∧ a.get ["a"] = none ∧
      a.get (someSite.inner "data") ≠ none ∧ b.get (someSite.inner "data") = none ∧
      b.file? ["a"] = some (ascii "x") := by
  rw [ran_preparing, ran_writing]
  obtain ⟨op, a, b, hat, hfiles⟩ : ∃ op a b, Prog.StopsAfter machine (dispatch linked someOwner committing []).run
      (staged 6 someJournal (ascii "x")) op a b b ∧
      decide (a.get ["a"] = none ∧ a.get (someSite.inner "data") ≠ none ∧ b.get (someSite.inner "data") = none ∧
        b.file? ["a"] = some (ascii "x")) = true :=
    Prog.stepAt_any (n := 18) machine_rely (by decide +kernel)
  exact ⟨op, a, b, hat, of_decide_eq_true hfiles⟩

/-- One byte is brought to an empty tree. -/
theorem publication_safe_one : ∃ op a b, a.get ["a"] = none ∧ b.file? ["a"] = some (ascii "x") ∧
    ((∀ q, Plain linked q → b.get q = a.get q) ∨
      ∃ p, committing.site linked = some p ∧ Publishes linked committing p op a b) := by
  have hrun : Run linked emptyRoot (ran writing (ascii "x") (ran preparing [] emptyRoot)) :=
    .command (.command .start rfl (Command.plain_a rfl) (stops_ran preparing [] emptyRoot)) rfl
      (Command.plain_a rfl) (stops_ran writing (ascii "x") _)
  obtain ⟨op, a, b, hat, ha, -, -, hb⟩ := committing_one
  exact ⟨op, a, b, ha, hb,
    publication_safe linked_lawful (.empty _) hrun rfl (Command.plain_a rfl) hat.occurs⟩

/-- A staging directory nobody staged anything in: its data is longer than the
source its journal describes. -/
def forgedJournal : Journal :=
  { owner := "local", path := "a", source := { oneByte with length := 0 }, expected := none, offset := 0,
    digest := none, committed := false }

def forged : Disk :=
  ((emptyRoot.create [someStage] 0o700 .directory).create [someStage, "state.json"] 0o600
    (.file (linked.toJson forgedJournal))).create [someStage, "data"] 0o600 (.file (ascii "x"))

/-- Without `Sound`, what is published need not be what the journal describes. -/
theorem publication_unsound : ¬ ∀ (s t : Disk) (cmd : Command) (payload : Bytes) (op : Op) (a b : Disk),
    Run linked s t → cmd.isUpload = true → cmd.Plain linked →
    Prog.Occurs machine (dispatch linked someOwner cmd payload).run t op a b →
    (∀ q, Plain linked q → b.get q = a.get q) ∨
      ∃ p, cmd.site linked = some p ∧ Publishes linked cmd p op a b := by
  intro h
  obtain ⟨op, a, b, hat, hfiles⟩ : ∃ op a b, Prog.StopsAfter machine (dispatch linked someOwner committing []).run
      forged op a b b ∧ decide (a.get ["a"] = none ∧ b.file? ["a"] = some (ascii "x") ∧
        a.file? [someStage, "state.json"] =
          some (linked.toJson { forgedJournal with digest := some (digestText (ascii "x")) })) = true :=
    Prog.stepAt_any (n := 18) machine_rely (by decide +kernel)
  obtain ⟨ha, hb, hstate⟩ := of_decide_eq_true hfiles
  obtain hkept | ⟨p, hp, hpub⟩ := h _ _ _ _ _ _ _ .start rfl (Command.plain_a rfl) hat.occurs
  · obtain ⟨_, hget⟩ := Disk.file?_eq_some.mp hb
    cases (hkept _ plain_a).symm.trans hget |>.symm.trans ha
  · obtain rfl := Option.some.inj (hp.symm.trans (someSite_eq rfl))
    obtain ⟨_, _, _, -, j, d, hj, -, -, hd, hlen, -⟩ := hpub.ofCommit
    obtain rfl := Option.some.inj (hb.symm.trans hd)
    obtain rfl := hj.eq_saved linked_lawful hstate
    cases hlen

end

end RemoteCodex.Transfer
