import Mathlib.Algebra.Order.Ring.Int
import RemoteCodex.Transfer.Checkpoint
import RemoteCodex.Transfer.Headway

/-!
# After the rename

Once a `commit` has renamed the data onto the destination, the later commands
of the same transfer only ask whether the destination is still the file that
was published. They can do so as long as the journal that was saved just before
the rename fits the 16384 bytes that are read of it.
-/

namespace RemoteCodex.Transfer

open Files Interact
open Wire.Json (ascii)

/-- The later commands of a transfer: its `prepare`, or a `commit`. -/
inductive Follows (path token : String) (src : Stamp) (expected : Option Stamp) : Command → Prop
  | prepare : Follows path token src expected (.prepare path token src expected)
  | commit : Follows path token src expected (.commit path token digest)

/-- The trees such commands of `owner` may lead to, each carried out or stopped
anywhere, while others change what is at the destination. -/
inductive Later (c : Crates) (owner path token : String) (j : Journal) (p : Site) (s : Disk) :
    Disk → Prop
  | start : Later c owner path token j p s s
  | command : Later c owner path token j p s t → Follows path token j.source j.expected cmd →
      Prog.Stops machine (dispatch c ⟨owner, stopped⟩ cmd payload).run t u →
      Later c owner path token j p s u
  | others : Later c owner path token j p s t → u.held = t.held →
      (∀ q, ¬ p.dest <+: q → u.get q = t.get q) → Later c owner path token j p s u

def answer (c : Crates) (owner : String) (cmd : Command) (s : Disk) : Except Fault (Reply × Bytes) :=
  ((dispatch c ⟨owner, false⟩ cmd []).run.run machine s).1

/-- The commands after the rename of the journal `j` leave the destination
alone, and tell whether it is the published file. -/
structure Reconciles (c : Crates) (owner path token : String) (j : Journal) (p : Site) (s : Disk) :
    Prop where
  untouched : Later c owner path token j p s t → Follows path token j.source j.expected cmd →
    Prog.Occurs machine (dispatch c ⟨owner, stopped⟩ cmd payload).run t op a b →
    b.get p.dest = a.get p.dest
  prepare : Later c owner path token j p s t →
    (Good c p j t → ∃ offset, answer c owner (.prepare path token j.source j.expected) t =
      .ok (.ready offset true, [])) ∧
    (¬ Good c p j t → ∃ f, answer c owner (.prepare path token j.source j.expected) t = .error f ∧
      f.code = "TRANSFER_CONFLICT")
  commit : Later c owner path token j p s t → ∀ digest,
    (Good c p j t → answer c owner (.commit path token digest) t = .ok (.done, [])) ∧
    (¬ Good c p j t → ∃ f, answer c owner (.commit path token digest) t = .error f ∧
      f.code = "TRANSFER_CONFLICT")

/-- The stage after the rename: the data is gone, the journal `j` recorded. -/
structure Sealed (c : Crates) (p : Site) (j : Journal) (s : Disk) : Prop where
  entered : Entered p s
  apart : p.dest ≠ p.dir
  data : s.get (p.inner "data") = none
  next : s.free (p.inner "next.json") = true
  state : ∃ done, s.file? (p.inner "state.json") =
    some (c.toJson { j with committed := j.committed || done })

section

variable {c : Crates} {e : Endpoint} {cmd : Command} {payload : Bytes} {p : Site} {s t s₀ a b : Disk}
variable {j : Journal} {owner path token : String} {blocks : List Bytes}

/-- The journal of a sealed stage is the one that was sealed, but for the mark
that the commit is over. -/
theorem Sealed.holds (hc : c.Lawful) (h : Sealed c p j s) (hk : Holds c s p.dir k) :
    ∃ done, k = { j with committed := j.committed || done } := by
  obtain ⟨done, hs⟩ := h.state
  exact ⟨done, hk.eq_saved hc hs⟩

theorem Sealed.congr (h : Sealed c p j s) (he : Entered p t)
    (hget : ∀ n, n ≠ "lock" → t.get (p.inner n) = s.get (p.inner n)) : Sealed c p j t := by
  obtain ⟨done, hs⟩ := h.state
  refine ⟨he, h.apart, by rw [hget _ (by decide), h.data], ?_, done, ?_⟩
  · rw [Disk.free, hget _ (by decide), ← Disk.free, h.next]
  · rw [Disk.file?, hget _ (by decide), ← Disk.file?, hs]

/-- The later commands keep a sealed stage as it is. -/
theorem Change.keepsSealed (hc : c.Lawful) (h : Sealed c p j a)
    (hcmd : Follows path token src expected cmd) (hch : Change c e cmd payload s₀ p op a b) :
    Sealed c p j b ∧ b.get p.dest = a.get p.dest := by
  obtain ⟨done, hstate⟩ := h.state
  have hdata {d} (hd : a.file? (p.inner "data") = some d) : False := by
    cases (Disk.file?_none h.data).symm.trans hd
  have hentered {ps} (hs : Same ps a b) (hps : ∀ q ∈ ps, q = p.dest ∨ ∃ n, n ≠ "lock" ∧ q = p.inner n) :
      Entered p b := h.entered.same hs hps (.inr h.apart)
  cases hch with
  | folder _ hs hd =>
    refine ⟨h.congr ⟨?_, hd, ?_, ?_⟩ fun n _ => hs.get _ (by simp), hs.get _ (by simpa using h.apart)⟩
    · exact h.entered.walks.same hs (by simp)
    · rw [hs.free (by simp), h.entered.lock]
    · rw [hs.held]
      exact h.entered.unlocked
  | scratch hn _ hs hx =>
    refine ⟨?_, hs.get _ (by simp)⟩
    simp only [List.mem_cons, List.not_mem_nil, or_false] at hn
    obtain rfl | rfl := hn
    · refine h.congr ⟨h.entered.walks.same hs (by simp), ?_, Disk.free_of_file hx, ?_⟩
        fun n hn => hs.get _ (by simpa using hn)
      · rw [hs.isDirectory (by simp), h.entered.dir]
      · rw [hs.held]
        exact h.entered.unlocked
    · refine ⟨hentered hs (by simp), h.apart, ?_, Disk.free_of_file hx, done, ?_⟩
      · rw [hs.get _ (by simp), h.data]
      · rw [hs.file? (by simp), hstate]
  | empty _ _ hn => cases (Disk.file?_none hn).symm.trans hstate
  | save hdue _ hs hnext hnew =>
    refine ⟨⟨hentered hs (by simp), h.apart, by rw [hs.get _ (by simp), h.data], Disk.free_of_none hnext, ?_⟩,
      hs.get _ (by simp)⟩
    cases hdue with
    | initial _ _ hn => cases (Disk.file?_none hn).symm.trans hstate
    | advance _ _ _ _ _ hd => exact (hdata hd).elim
    | sealed _ _ _ hd => exact (hdata hd).elim
    | confirm hk =>
      obtain ⟨done, rfl⟩ := h.holds hc hk
      exact ⟨true, by simpa using hnew⟩
  | extend _ _ _ _ hd => exact (hdata hd).elim
  | cut _ hd => exact (hdata hd).elim
  | touch hd => exact (hdata hd).elim
  | publish _ _ _ _ _ _ _ _ hd => cases h.data.symm.trans hd
  | drop hcancel => cases hcmd <;> cases hcancel
  | leave hcancel => cases hcmd <;> cases hcancel

theorem Step.keepsSealed (hc : c.Lawful) (hp : cmd.site c = some p) (h : Sealed c p j a)
    (hcmd : Follows path token src expected cmd) (hst : Step c e cmd payload s₀ op a b) :
    Sealed c p j b ∧ b.get p.dest = a.get p.dest := by
  obtain rfl | ⟨q, hq, hch⟩ := hst
  · exact ⟨h, rfl⟩
  · obtain rfl := Option.some.inj (hq.symm.trans hp)
    exact hch.keepsSealed hc h hcmd

theorem Follows.site (h : Follows path token src expected cmd)
    (hp : (Command.commit path token digest).site c = some p) : cmd.site c = some p := by
  cases h <;> exact hp

theorem Follows.isUpload (h : Follows path token src expected cmd) : cmd.isUpload = true := by
  cases h <;> rfl

/-- Neither the stage nor the way to it is at the destination. -/
theorem Sealed.others (h : Sealed c p j s) (hheld : t.held = s.held)
    (hget : ∀ q, ¬ p.dest <+: q → t.get q = s.get q) : Sealed c p j t := by
  have hdir : ¬ p.dest <+: p.dir := fun hpre => h.apart (hpre.eq_of_length (by simp [Site.dest, Site.dir]))
  have hinner (n : String) : ¬ p.dest <+: p.inner n := fun hpre => by
    refine hdir ((List.prefix_concat_iff.mp hpre).resolve_left fun he => ?_)
    exact Site.dest_ne_inner he
  refine h.congr ⟨h.entered.walks.congr fun q hq => hget q ?_, ?_, ?_, ?_⟩ fun n _ => hget _ (hinner n)
  · intro hpre
    have := hpre.length_le.trans hq.length_le
    simp only [Site.dest, List.nil_append, List.length_append, List.length_singleton] at this
    omega
  · rw [Disk.isDirectory, hget _ hdir, ← Disk.isDirectory, h.entered.dir]
  · rw [Disk.free, hget _ (hinner _), ← Disk.free, h.entered.lock]
  · rw [hheld]
    exact h.entered.unlocked

theorem Later.sealed (hc : c.Lawful) (hp : (Command.commit path token digest).site c = some p)
    (hs : Sealed c p j s) (h : Later c owner path token j p s t) : Sealed c p j t := by
  induction h with
  | start => exact hs
  | command _ hcmd hstop ih =>
    refine (dispatch_step _ hcmd.isUpload _).stops hstop ih ?_ fun op a b hst ha =>
      (hst.keepsSealed hc (hcmd.site hp) ha hcmd).1
    rintro a b rfl ha
    exact ha
  | others _ hheld hget ih => exact ih.others hheld hget

-- ---------------------------------------------------------------------------
-- What the later commands answer
-- ---------------------------------------------------------------------------

/-- The stage as a later command finds it. -/
theorem Sealed.opened (hc : c.Lawful) (h : Sealed c p j s) (hdig : j.digest.isSome = true)
    (ho : Opened c e path p initial s stage u) :
    (∃ done, stage.journal = { j with committed := j.committed || done }) ∧
    Renamed p stage.journal u ∧ (Good c p stage.journal u ↔ Good c p j s) ∧
    u.free (p.inner "next.json") = true := by
  obtain ⟨hr, hs, -⟩ | ⟨-, hn, -⟩ := ho.found
  swap
  · obtain ⟨done, hstate⟩ := h.state
    cases (Disk.file?_none hn).symm.trans hstate
  obtain ⟨done, hj⟩ := h.holds hc (.inl hr)
  refine ⟨⟨done, hj⟩, ⟨by rw [hj]; exact hdig, by rw [hs.get _ (by simp), h.data]⟩, ?_, ?_⟩
  · rw [good_same hs (by simpa using h.apart), hj]
    rfl
  · rw [hs.free (by simp), h.next]

theorem Sealed.openable (hc : c.Lawful) (h : Sealed c p j s) (hfit : (c.toJson j).length ≤ 16384)
    (howner : j.owner = e.owner) (hpath : j.path = path) : Openable c e path p s := by
  obtain ⟨done, hstate⟩ := h.state
  have hlen : (c.toJson { j with committed := j.committed || done }).length ≤ 16384 := by
    cases done with
    | false => simpa using hfit
    | true => simpa using (hc.toJson_committed j).trans hfit
  refine ⟨h.entered, { j with committed := j.committed || done }, ⟨_, hstate, ?_⟩, howner, hpath⟩
  rw [List.take_of_length_le hlen, hc.fromJson_toJson]

theorem answer_cases (owner : String) (cmd : Command) (s : Disk)
    (h : Act.Sat machine G (dispatch c ⟨owner, false⟩ cmd []) s Q E) :
    (∃ r t, answer c owner cmd s = .ok r ∧ Q r t) ∨ ∃ f t, answer c owner cmd s = .error f ∧ E f t := by
  unfold answer
  obtain ⟨r, t, hends, hq⟩ | ⟨f, t, hends, he⟩ := ends_cases h
  · exact .inl ⟨r, t, by rw [hends.eq_run machine_alone], hq⟩
  · exact .inr ⟨f, t, by rw [hends.eq_run machine_alone], he⟩

theorem Sealed.prepare (hc : c.Lawful) (hp : (Command.commit path token digest).site c = some p)
    (h : Sealed c p j s) (hfit : (c.toJson j).length ≤ 16384) (howner : j.owner = owner)
    (hpath : j.path = path) (hkind : j.source.kind = .file) (hdig : j.digest.isSome = true) :
    (Good c p j s → ∃ offset, answer c owner (.prepare path token j.source j.expected) s =
      .ok (.ready offset true, [])) ∧
    (¬ Good c p j s → ∃ f, answer c owner (.prepare path token j.source j.expected) s = .error f ∧
      f.code = "TRANSFER_CONFLICT") := by
  have hopen : Openable c ⟨owner, false⟩ path p s := h.openable hc hfit howner hpath
  obtain ⟨r, t, hr, hpay, q, stage, u, hq, -, -, ho, -, -, hprep⟩ | ⟨f, t, hf, herr⟩ :=
    answer_cases owner (.prepare path token j.source j.expected) s (dispatch_sat rfl prepare_sat)
  · obtain rfl := Option.some.inj (hq.symm.trans hp)
    obtain ⟨-, hren, hgood, -⟩ := h.opened hc hdig ho
    obtain ⟨reply, bytes⟩ := r
    obtain rfl : bytes = [] := hpay
    cases hprep with
    | settled _ hg => exact ⟨fun _ => ⟨_, hr⟩, fun hn => absurd (hgood.mp hg) hn⟩
    | complete hn => exact absurd hren hn
    | resumed hn => exact absurd hren hn
  · obtain h' | h' | h' | h' | ⟨q, stage, u, hq, ho, h'⟩ := herr
    · cases h'
    · cases h'
    · exact absurd hkind h'
    · exact absurd hopen (h' p hp).1
    obtain rfl := Option.some.inj (hq.symm.trans hp)
    obtain ⟨⟨done, hj⟩, hren, hgood, hnext⟩ := h.opened hc hdig ho
    obtain h' | h' | ⟨h', -⟩ | ⟨-, ⟨hcode, hbad⟩ | h'⟩ := h'
    · exact absurd (by rw [hj]) h'
    · exact absurd (by rw [hj]) h'
    · exact absurd hren h'
    · exact ⟨fun hg => absurd (hgood.mpr hg) hbad, fun _ => ⟨f, hf, hcode⟩⟩
    · cases hnext.symm.trans h'

theorem Sealed.commit (hc : c.Lawful) (digest : String)
    (hp : (Command.commit path token digest).site c = some p)
    (h : Sealed c p j s) (hfit : (c.toJson j).length ≤ 16384) (howner : j.owner = owner)
    (hpath : j.path = path) (hdig : j.digest.isSome = true) :
    (Good c p j s → answer c owner (.commit path token digest) s = .ok (.done, [])) ∧
    (¬ Good c p j s → ∃ f, answer c owner (.commit path token digest) s = .error f ∧
      f.code = "TRANSFER_CONFLICT") := by
  have hopen : Openable c ⟨owner, false⟩ path p s := h.openable hc hfit howner hpath
  obtain ⟨r, t, hr, hpay, q, stage, u, hq, -, ho, hdone, hcom⟩ | ⟨f, t, hf, herr⟩ :=
    answer_cases owner (.commit path token digest) s (dispatch_sat rfl commit_sat)
  · obtain rfl := Option.some.inj (hq.symm.trans hp)
    obtain ⟨-, hren, hgood, -⟩ := h.opened hc hdig ho
    obtain ⟨-, hg, -⟩ | ⟨hn, -⟩ := hcom
    · exact ⟨fun _ => hr.trans (congrArg _ (Prod.ext hdone hpay)), fun hn => absurd (hgood.mp hg) hn⟩
    · exact absurd hren hn
  · obtain h' | h' | h' | ⟨q, stage, u, hq, ho, h'⟩ := herr
    · cases h'
    · cases h'
    · exact absurd hopen (h' p hp)
    obtain rfl := Option.some.inj (hq.symm.trans hp)
    obtain ⟨-, hren, hgood, hnext⟩ := h.opened hc hdig ho
    obtain ⟨h', -⟩ | ⟨-, ⟨hcode, hbad⟩ | h'⟩ := h'
    · exact absurd hren h'
    · exact ⟨fun hg => absurd (hgood.mpr hg) hbad, fun _ => ⟨f, hf, hcode⟩⟩
    · cases hnext.symm.trans h'

/-- While its journal can be read back, a sealed stage reconciles. -/
theorem Sealed.reconciles (hc : c.Lawful) (hp : (Command.commit path token digest).site c = some p)
    (h : Sealed c p j s) (hfit : (c.toJson j).length ≤ 16384) (howner : j.owner = owner)
    (hpath : j.path = path) (hkind : j.source.kind = .file) (hdig : j.digest.isSome = true) :
    Reconciles c owner path token j p s := by
  refine ⟨?_, ?_, ?_⟩
  · intro t cmd stopped payload op a b hlater hcmd hocc
    have hsat := dispatch_step (c := c) (e := ⟨owner, stopped⟩) payload hcmd.isUpload t
    have ha : Sealed c p j a := by
      refine hsat.occurs_inv hocc (hlater.sealed hc hp h) ?_ fun op a b hst ha =>
        (hst.keepsSealed hc (hcmd.site hp) ha hcmd).1
      rintro a b rfl ha
      exact ha
    exact (Step.keepsSealed hc (hcmd.site hp) ha hcmd (hsat.occurs hocc)).2
  · exact fun hlater => (hlater.sealed hc hp h).prepare hc hp hfit howner hpath hkind hdig
  · exact fun hlater digest => (hlater.sealed hc hp h).commit hc digest hp hfit howner hpath hdig

-- ---------------------------------------------------------------------------
-- The rename
-- ---------------------------------------------------------------------------

/-- The step of a `commit` that takes the data away seals the stage. -/
theorem Step.seals {digest : String} (hp : (Command.commit path token digest).site c = some p)
    (h : Step c e (.commit path token digest) payload s op a b) (ha : a.get (p.inner "data") ≠ none)
    (hb : b.get (p.inner "data") = none) :
    ∃ j, Reads c s p.dir j ∧ j.owner = e.owner ∧ j.path = path ∧
      Sealed c p { j with digest := some digest } b ∧
      b.file? (p.inner "state.json") = some (c.toJson { j with digest := some digest }) ∧
      (SoundAt c p a → Good c p { j with digest := some digest } b) := by
  obtain rfl | ⟨q, hq, hch⟩ := h
  · exact absurd hb ha
  obtain rfl := Option.some.inj (hq.symm.trans hp)
  have hkept {ps : List Path} (hs : Same ps a b) (hps : q.inner "data" ∉ ps) : False :=
    ha (by rw [← hs.get _ hps, hb])
  have hfile {d : Bytes} (hd : b.file? (q.inner "data") = some d) : False := by
    cases (Disk.file?_none hb).symm.trans hd
  cases hch with
  | folder _ hs => exact (hkept hs (by simp)).elim
  | scratch hn _ hs =>
    simp only [List.mem_cons, List.not_mem_nil, or_false] at hn
    obtain rfl | rfl := hn <;> exact (hkept hs (by simp)).elim
  | empty hcmd => cases hcmd
  | save _ _ hs => exact (hkept hs (by simp)).elim
  | extend hcmd => cases hcmd
  | cut _ _ _ _ hd => exact (hfile hd).elim
  | touch _ _ hd => exact (hfile hd).elim
  | drop hcmd => cases hcmd
  | leave hcmd => cases hcmd
  | @publish _ _ digest' _ j attr d hcmd hent hnext hstart hstate howner hpath hfull hdata hdig _ hdir =>
    obtain ⟨rfl, rfl, rfl⟩ := Command.commit.inj hcmd
    have hne : q.dest ≠ q.dir := fun he => by
      rw [he, hent.dir] at hdir
      cases hdir
    have hsame := same_move a (q.inner "data") q.dest ⟨attr, .file d⟩
    have hnew : ((a.remove (q.inner "data")).put q.dest ⟨attr, .file d⟩).file? (q.inner "state.json") = _ :=
      (hsame.file? (by simp)).trans hstate
    refine ⟨j, hstart, howner, hpath, ⟨hent.same hsame (by simp) (.inr hne), hne, hb, ?_, false, ?_⟩, hnew, ?_⟩
    · rw [hsame.free (by simp), Disk.free_of_none hnext]
    · simpa using hnew
    · intro hs
      have hlen := hs _ _ (.inr hstate) (Disk.file?_eq_some.mpr ⟨_, hdata⟩)
      refine ⟨d, Disk.file?_put _ _ _ _, Nat.le_antisymm hlen.2 (hfull ▸ hlen.1), congrArg some hdig⟩

/-- A journal that does not fit what is read of it is no answer's base. -/
theorem not_reconciles (hc : c.Lawful) {digest : String}
    (hp : (Command.commit path token digest).site c = some p)
    (hstate : s.file? (p.inner "state.json") = some (c.toJson j)) (hlong : 16384 < (c.toJson j).length)
    (hgood : Good c p j s) : ¬ Reconciles c owner path token j p s := by
  intro h
  obtain ⟨offset, hok⟩ := (h.prepare .start).1 hgood
  obtain ⟨r, t, -, -, q, stage, u, hq, -, -, ho, -⟩ | ⟨f, t, hf, -⟩ :=
    answer_cases owner (.prepare path token j.source j.expected) s (dispatch_sat rfl prepare_sat)
  · obtain rfl := Option.some.inj (hq.symm.trans hp)
    obtain ⟨⟨b, hb, hr⟩, -⟩ | ⟨-, hn, -⟩ := ho.found
    · obtain rfl := Option.some.inj (hstate.symm.trans hb)
      exact absurd (hc.fromJson_take hr).2 (by omega)
    · cases (Disk.file?_none hn).symm.trans hstate
  · cases hf.symm.trans hok

/-- The rename of a commit seals the stage of an upload, and leaves a good destination. -/
theorem Upload.seals (hc : c.Lawful) {digest : String} (hup : Upload c p s blocks)
    (hp : (Command.commit path token digest).site c = some p) (hj : journalAt c p s = some j)
    (hren : Prog.Occurs machine (dispatch c e (.commit path token digest) payload).run s op a b)
    (hbefore : a.get (p.inner "data") ≠ none) (hafter : b.get (p.inner "data") = none) :
    j.owner = e.owner ∧ j.path = path ∧ Sealed c p { j with digest := some digest } b ∧
      b.file? (p.inner "state.json") = some (c.toJson { j with digest := some digest }) ∧
      Good c p { j with digest := some digest } b := by
  have hup' : (Command.commit path token digest).isUpload = true := rfl
  have hsat := dispatch_step (c := c) (e := e) payload hup' s
  obtain ⟨k, hk, howner, hpath, hsealed, hstate, hgood⟩ := (hsat.occurs hren).seals hp hbefore hafter
  obtain rfl := hk.unique (journalAt_eq.mp hj)
  have hsound : SoundAt c p a := by
    refine hsat.occurs_inv hren (hup.checkpointed hc).sound ?_ ?_
    · rintro a b rfl ha
      exact ha
    · rintro op a b (rfl | ⟨q, hq, hch⟩) ha
      · exact ha
      · obtain rfl := Option.some.inj (hq.symm.trans hp)
        exact hch.soundAt hc ha
  exact ⟨howner, hpath, hsealed, hstate, hgood hsound⟩

/-- An empty file whose journal fits until it records the digest. -/
theorem unreconciled_of_long (hc : c.Lawful) {src : Stamp}
    (hp : (Command.commit path token (c.digest [])).site c = some p) (hf : Fresh p s) (hne : p.dest ≠ p.dir)
    (hk : src.kind = .file) (hempty : src.length = 0) (hdest : s.get p.dest = none)
    (hj : j = ⟨owner, path, src, none, 0, none, false⟩) (hfit : (c.toJson j).length ≤ 16384)
    (hlong : 16384 < (c.toJson { j with digest := some (c.digest []) }).length) :
    ∃ (s : Disk) (blocks : List Bytes) (op : Op) (a b : Disk), Upload c p s blocks ∧ journalAt c p s = some j ∧
      Prog.StopsAfter machine (dispatch c ⟨owner, false⟩ (.commit path token (c.digest [])) []).run s op a b b ∧
      a.get (p.inner "data") ≠ none ∧ b.get (p.inner "data") = none ∧
      ¬ Reconciles c owner path token { j with digest := some (c.digest []) } p b := by
  subst hj
  have hpp : (Command.prepare path token src none).site c = some p := hp
  obtain ⟨t, hends, hb⟩ :=
    prepare_begins (e := ⟨owner, false⟩) rfl hpp hf hne hk (stampAt_none.mpr hdest)
  have hup : Upload c p t _ := .command (.start hf.absent) ⟨p, hpp, rfl⟩ hends.stops
  have hr : Reads c t p.dir ⟨owner, path, src, none, 0, none, false⟩ :=
    ⟨_, hb.state, by rw [List.take_of_length_le hfit, hc.fromJson_toJson]⟩
  have hdest' : t.get p.dest = none := by rw [hb.same.get _ (by simpa using hne), hdest]
  obtain ⟨u, hcom, hgone, -⟩ := commit_publishes (e := ⟨owner, false⟩) rfl hp ⟨hb.entered, _, hr, rfl, rfl⟩ hr
    hempty.symm (stampAt_none.mpr hdest') hb.data rfl (Disk.free_of_none hb.next)
    (by rw [hb.same.isDirectory (by simp [Site.not_above]), hf.parent]) (by simp [Disk.isDirectory, hdest'])
  have hdata : t.get (p.inner "data") ≠ none := fun hn => by cases (Disk.file?_none hn).symm.trans hb.data
  obtain ⟨op, a, b, hat, hbefore, hafter⟩ :=
    hcom.loses (I := fun s => s.get (p.inner "data") ≠ none) hdata (by simpa using hgone) (by rintro a b rfl h; exact h)
  have hafter : b.get (p.inner "data") = none := by simpa using hafter
  refine ⟨t, _, op, a, b, hup, journalAt_eq.mpr hr, hat.now, hbefore, hafter, ?_⟩
  obtain ⟨-, -, -, hstate, hgood⟩ := hup.seals hc hp (journalAt_eq.mpr hr) hat.occurs hbefore hafter
  exact not_reconciles hc hp hstate hlong hgood

/-- Nothing is at a site but the way to it. -/
theorem fresh_treeTo (p : Site) : Fresh p (treeTo p.parent) := by
  have hdir {q : Path} (hq : q <+: p.parent) : (treeTo p.parent).isDirectory q = true := by
    rw [Disk.isDirectory, treeTo_get, if_pos hq]
    rfl
  refine ⟨.of_directories fun q _ hq => hdir hq, hdir (List.prefix_refl _), fun q hq => ?_, ?_⟩
  · rw [treeTo_get, if_neg]
    intro h
    have := h.length_le
    have := hq.length_le
    simp [Site.dir] at this
    omega
  · rw [treeTo_held]
    exact List.not_mem_nil

theorem treeTo_dest (p : Site) : (treeTo p.parent).get p.dest = none := by
  rw [treeTo_get, if_neg]
  intro h
  have := h.length_le
  simp only [Site.dest, List.length_append, List.length_singleton] at this
  omega

theorem flatMap_intercalate (f : α → List β) (sep : List α) (xs : List (List α)) :
    (sep.intercalate xs).flatMap f = (sep.flatMap f).intercalate (xs.map (·.flatMap f)) := by
  induction xs using List.twoStepInduction with
  | nil => rfl
  | singleton x => simp
  | cons_cons x y xs ih ih' =>
    simp only [List.map_cons, List.intercalate_cons_cons, List.flatMap_append] at ih' ⊢
    rw [ih' y]

theorem length_intercalate (sep x : List α) (xs : List (List α)) :
    (sep.intercalate (x :: xs)).length = x.length + (xs.map fun y => sep.length + y.length).sum := by
  induction xs generalizing x with
  | nil => simp
  | cons y ys ih =>
    rw [List.intercalate_cons_cons, List.length_append, List.length_append, ih, List.map_cons, List.sum_cons]
    omega

/-- Names of control characters; each takes six bytes in the journal. -/
def longNames : List (List Char) :=
  List.replicate 10 (List.replicate 248 '\x01') ++ [List.replicate 215 '\x01']

def longPath : String := String.ofList (['/'].intercalate longNames)

def longSite : Site :=
  ⟨(longNames.map String.ofList).dropLast, String.ofList (List.replicate 215 '\x01'), stageName someToken⟩

/-- The journal of an empty file at `longPath`. -/
def longJournal : Journal :=
  { owner := "local", path := longPath, source := { oneByte with length := 0 }, expected := none, offset := 0,
    digest := none, committed := false }

theorem mem_longNames {cs : List Char} (h : cs ∈ longNames) : ∃ n, cs = '\x01' :: List.replicate n '\x01' := by
  rcases List.mem_append.mp h with h | h
  · exact ⟨247, (List.eq_of_mem_replicate h).trans List.replicate_succ⟩
  · exact ⟨214, (List.mem_singleton.mp h).trans List.replicate_succ⟩

/-- The path, written character by character. -/
theorem length_longNames (f : Char → List β) : ((['/'].intercalate longNames).flatMap f).length =
    2695 * (f '\x01').length + 10 * (f '/').length := by
  have hnames : longNames = List.replicate 248 '\x01' ::
      (List.replicate 9 (List.replicate 248 '\x01') ++ [List.replicate 215 '\x01']) := rfl
  have hname : ∀ n, ((List.replicate n '\x01').flatMap f).length = n * (f '\x01').length := by
    intro n
    rw [List.flatMap_replicate, List.length_flatten, List.map_replicate, List.sum_replicate_nat]
  rw [flatMap_intercalate, hnames, List.map_cons, length_intercalate, hname, List.map_append, List.map_replicate,
    List.map_append, List.map_replicate, List.sum_append_nat, List.sum_replicate_nat]
  simp only [hname, List.map_cons, List.map_nil, List.sum_cons, List.sum_nil, List.flatMap_cons, List.flatMap_nil,
    List.append_nil]
  omega

theorem components_longPath : components longPath = .ok (longNames.map String.ofList) := by
  refine components_of_split ?_ ?_ ?_ ?_
  · rw [longPath, String.toList_ofList, List.splitOn_intercalate _ ?_ (by simp [longNames])]
    intro cs hcs
    obtain ⟨n, rfl⟩ := mem_longNames hcs
    simp [List.mem_replicate]
  · intro cs hcs
    obtain ⟨n, rfl⟩ := mem_longNames hcs
    simp
  · have hnone := length_longNames fun c => if c = '\x00' then ['\x00'] else []
    rw [longPath, String.toList_ofList]
    exact fun h => absurd (List.flatMap_eq_nil_iff.mp (List.length_eq_zero_iff.mp hnone) _ h) (by decide)
  · rw [← Wire.Json.length_utf8, longPath, Wire.Json.utf8_ofList, length_longNames]
    decide

theorem longSite_eq (digest : String) :
    (Command.commit longPath someToken digest).site linked = some longSite := by
  have hplace : place longPath = some (longSite.parent, longSite.target) := by
    rw [place, components_longPath]
    rfl
  have htoken : linked.uuid someToken = some someToken := by decide
  rw [Command.site, hplace, htoken]
  rfl

theorem length_longPath : (Wire.Json.string.put longPath).length = 16182 := by
  rw [Wire.Json.length_string, longPath, Wire.Json.utf8_ofList, List.flatMap_assoc, length_longNames]
  decide

theorem longSite_target : longSite.target ≠ longSite.stage := by
  intro h
  have hhead := congrArg (fun n : String => n.toList.head?) h
  simp only [longSite, stageName_head, String.toList_ofList] at hhead
  cases hhead

end

end RemoteCodex.Transfer
