import RemoteCodex.Transfer.Reconciled

/-!
# Removing a stage

`cancel` asks the journal whose stage it is. Where the directory is there and
the journal is not, it cannot answer, and the directory stays: after a
`prepare` that was stopped before it saved a journal, and after a `cancel` that
was stopped once it had removed it.
-/

namespace RemoteCodex.Transfer

open Files Interact

/-- The trees the commands of one owner on one path and token lead to, each
carried out or stopped anywhere, while others leave the stage alone. -/
inductive Interrupted (c : Crates) (owner path token : String) (p : Site) : Disk → Prop
  | start : (∀ q, p.dir <+: q → s.get q = none) → Interrupted c owner path token p s
  | command : Interrupted c owner path token p s → cmd.upload = some (path, token) →
      Prog.Stops machine (dispatch c ⟨owner, stopped⟩ cmd payload).run s t →
      Interrupted c owner path token p t
  | others : Interrupted c owner path token p s → (∀ q, p.dir <+: q → t.get q = s.get q) →
      Interrupted c owner path token p t

/-- A `cancel` succeeds and leaves nothing of the stage. -/
def Cancels (c : Crates) (owner path token : String) (p : Site) (s : Disk) : Prop :=
  answer c owner (.cancel path token) s = .ok (.done, []) ∧
  ∀ q, p.dir <+: q → ((dispatch c ⟨owner, false⟩ (.cancel path token) []).run.run machine s).2.get q = none

/-- What an owner's commands keep of a stage. -/
structure Kept (c : Crates) (owner path : String) (p : Site) (s : Disk) : Prop where
  clean : Clean p s
  folder : s.get p.dir = none ∨ s.isDirectory p.dir = true
  inside : ∀ n, s.get (p.inner n) ≠ none → s.isDirectory p.dir = true
  journal : ∀ b, s.file? (p.inner "state.json") = some b →
    ∃ j, b = c.toJson j ∧ j.owner = owner ∧ j.path = path

section

variable {c : Crates} {e : Endpoint} {cmd : Command} {payload : Bytes} {p : Site} {s t s₀ a b : Disk}
variable {j : Journal} {owner path token : String}

theorem Kept.start (h : ∀ q, p.dir <+: q → s.get q = none) : Kept c owner path p s := by
  have hinner (n : String) : s.get (p.inner n) = none := h _ (List.prefix_append _ _)
  refine ⟨fun q hq _ hn => absurd (h q hq) hn, .inl (h _ (List.prefix_refl _)),
    fun n hn => absurd (hinner n) hn, fun b hb => ?_⟩
  cases (Disk.file?_none (hinner _)).symm.trans hb

theorem Kept.others (h : Kept c owner path p s) (hkeep : ∀ q, p.dir <+: q → t.get q = s.get q) :
    Kept c owner path p t := by
  have hdir : t.get p.dir = s.get p.dir := hkeep _ (List.prefix_refl _)
  have hisdir : t.isDirectory p.dir = s.isDirectory p.dir := by rw [Disk.isDirectory, hdir, Disk.isDirectory]
  refine ⟨?_, by rw [hdir, hisdir]; exact h.folder, ?_, ?_⟩
  · intro q hq hne hn
    rw [hkeep q hq] at hn
    obtain ⟨n, hn', he, b, hb⟩ := h.clean q hq hne hn
    exact ⟨n, hn', he, b, by rw [Disk.file?, hkeep q hq, ← Disk.file?, hb]⟩
  · intro n hn
    rw [hkeep (p.inner n) (List.prefix_append _ _)] at hn
    rw [hisdir]
    exact h.inside n hn
  · intro b hb
    exact h.journal b ((file_inside hkeep).symm.trans hb)

/-- The files `ns` of a stage change, and remain files. -/
theorem Kept.files (h : Kept c owner path p a) (ns : List String) (hns : ns ⊆ names)
    (hkeep : ∀ q, p.dir <+: q → (∀ n ∈ ns, q ≠ p.inner n) → b.get q = a.get q)
    (hdir : ∀ n ∈ ns, b.get (p.inner n) ≠ none → a.isDirectory p.dir = true)
    (hfree : ∀ n ∈ ns, b.free (p.inner n) = true)
    (hstate : "state.json" ∈ ns → ∀ x, b.file? (p.inner "state.json") = some x →
      ∃ j, x = c.toJson j ∧ j.owner = owner ∧ j.path = path) : Kept c owner path p b := by
  have hd : b.get p.dir = a.get p.dir := hkeep _ (List.prefix_refl _) (by simp)
  have hisdir : b.isDirectory p.dir = a.isDirectory p.dir := by rw [Disk.isDirectory, hd, Disk.isDirectory]
  have hother : ∀ n, n ∉ ns → b.get (p.inner n) = a.get (p.inner n) := fun n hn =>
    hkeep _ (List.prefix_append _ _) fun m hm he => hn (Site.inner_inj.mp he ▸ hm)
  refine ⟨?_, by rw [hd, hisdir]; exact h.folder, ?_, ?_⟩
  · intro q hq hne hget
    by_cases hqn : ∃ n ∈ ns, q = p.inner n
    · obtain ⟨n, hn, rfl⟩ := hqn
      exact ⟨n, hns hn, rfl, (Disk.free_iff.mp (hfree n hn)).resolve_left hget⟩
    · have hq' : b.get q = a.get q := hkeep q hq fun n hn he => hqn ⟨n, hn, he⟩
      rw [hq'] at hget
      obtain ⟨m, hm, he, x, hx⟩ := h.clean q hq hne hget
      exact ⟨m, hm, he, x, by rw [Disk.file?, hq', ← Disk.file?, hx]⟩
  · intro n hget
    rw [hisdir]
    by_cases hn : n ∈ ns
    · exact hdir n hn hget
    · rw [hother n hn] at hget
      exact h.inside n hget
  · intro x hx
    by_cases hn : "state.json" ∈ ns
    · exact hstate hn x hx
    · exact h.journal x (by rw [Disk.file?, ← hother _ hn, ← Disk.file?, hx])

theorem keeps_of_same (p : Site) (ns : List String) (hs : Same (ns.map p.inner) a b) (q : Path)
    (hq : ∀ n ∈ ns, q ≠ p.inner n) : b.get q = a.get q := by
  refine hs.get q fun hm => ?_
  obtain ⟨n, hn, rfl⟩ := List.mem_map.mp hm
  exact hq n hn rfl

theorem Due.owned (hc : c.Lawful) (h : Kept c owner path p a) (howner : e.owner = owner)
    (hcmd : cmd.upload = some (path, token)) (hdue : Due c e cmd payload p a j) :
    j.owner = owner ∧ j.path = path := by
  have hold {k : Journal} (hk : Holds c a p.dir k) : k.owner = owner ∧ k.path = path := by
    have hfile : ∃ x, a.file? (p.inner "state.json") = some x :=
      hk.elim (fun ⟨x, hx, _⟩ => ⟨x, hx⟩) fun hx => ⟨_, hx⟩
    obtain ⟨x, hx⟩ := hfile
    obtain ⟨k', rfl, hown⟩ := h.journal x hx
    exact hk.eq_saved hc hx ▸ hown
  cases hdue with
  | initial hprep =>
    subst hprep
    obtain ⟨rfl, -⟩ := Prod.mk.inj (Option.some.inj hcmd)
    exact ⟨howner, rfl⟩
  | advance _ hr | sealed _ hr => exact (hold (.inl hr) :)
  | confirm hk => exact (hold hk :)

theorem Change.kept (hc : c.Lawful) (h : Kept c owner path p a) (howner : e.owner = owner)
    (hcmd : cmd.upload = some (path, token)) (hch : Change c e cmd payload s₀ p op a b) :
    Kept c owner path p b := by
  have hpresent {d : Bytes} (hd : a.file? (p.inner "data") = some d) : a.isDirectory p.dir = true :=
    h.inside "data" fun hn => by cases (Disk.file?_none hn).symm.trans hd
  have hdata {d : Bytes} (hdir : a.isDirectory p.dir = true) (hs : Same [p.inner "data"] a b)
      (hd : b.file? (p.inner "data") = some d) : Kept c owner path p b :=
    h.files ["data"] (by simp [names]) (fun q _ => keeps_of_same p ["data"] hs q) (fun _ _ _ => hdir)
      (by simpa using Disk.free_of_file hd) (by simp)
  cases hch with
  | folder _ hs hd =>
    refine ⟨?_, .inr hd, fun _ _ => hd, fun x hx => h.journal x (by rw [← hs.file? (by simp), hx])⟩
    intro q hq hne hget
    rw [hs.get q (by simpa using hne)] at hget
    obtain ⟨n, hn, he, x, hx⟩ := h.clean q hq hne hget
    exact ⟨n, hn, he, x, by rwa [hs.file? (by simpa using hne)]⟩
  | @scratch n _ _ _ _ hn hd hs hx =>
    have hn' : n ∈ names ∧ "state.json" ≠ n := by
      simp only [List.mem_cons, List.not_mem_nil, or_false] at hn
      obtain rfl | rfl := hn <;> decide
    exact h.files [n] (by simpa using hn'.1) (fun q _ => keeps_of_same p [n] hs q) (fun _ _ _ => hd)
      (by simpa using Disk.free_of_file hx) (by simpa using fun h => absurd h hn'.2)
  | empty _ hd _ hs hx => exact hdata hd hs hx
  | save hdue hd hs hnext hstate =>
    refine h.files ["next.json", "state.json"] (by simp [names]) (fun q _ => keeps_of_same p ["next.json", "state.json"] hs q)
      (fun _ _ _ => hd) (by simpa using ⟨Disk.free_of_none hnext, Disk.free_of_file hstate⟩) ?_
    intro _ x hx
    obtain rfl := Option.some.inj (hstate.symm.trans hx)
    exact ⟨_, rfl, hdue.owned hc h howner hcmd⟩
  | extend _ _ _ _ hold hs hx => exact hdata (hpresent hold) hs hx
  | cut _ hold _ hs hx => exact hdata (hpresent hold) hs hx
  | touch hold hs hx => exact hdata (hpresent hold) hs hx
  | publish _ hent _ _ _ _ _ _ _ _ _ hdir =>
    refine h.files ["data"] (by simp [names]) ?_ (fun _ _ _ => hent.dir) ?_ (by simp)
    · intro q hq hne
      refine (same_move _ _ _ _).get q ?_
      simp only [List.mem_cons, List.not_mem_nil, or_false, not_or]
      refine ⟨hne "data" (by simp), fun he => ?_⟩
      -- The destination would be the staging directory itself.
      subst he
      rw [← hq.eq_of_length (by simp [Site.dest, Site.dir]), hent.dir] at hdir
      cases hdir
    · simpa using Disk.free_of_none (by simp [Disk.get_put, Disk.get_remove])
  | drop _ hn hs hnone =>
    refine h.files [_] (by simpa [names] using hn) (fun q _ => keeps_of_same p [_] hs q) ?_
      (by simpa using Disk.free_of_none hnone) ?_
    · intro n hn hget
      obtain rfl := List.mem_singleton.mp hn
      exact absurd hnone hget
    · intro hm x hx
      rw [List.mem_singleton.mp hm, Disk.file?_none hnone] at hx
      cases hx
  | leave _ hempty hs hnone =>
    have hgone (q : Path) (hq : p.dir <+: q) : b.get q = none := by
      by_cases hne : q = p.dir
      · rw [hne, hnone]
      · rw [hs.get q (by simpa using hne)]
        by_contra hget
        have : q ∈ a.below p.dir := Disk.mem_below.mpr ⟨hq, hne, by simpa [Option.isSome_iff_ne_none] using hget⟩
        simp [hempty] at this
    exact .start hgone

theorem Interrupted.kept (hc : c.Lawful) (hp : (Command.cancel path token).site c = some p)
    (h : Interrupted c owner path token p s) : Kept c owner path p s := by
  induction h with
  | start hn => exact .start hn
  | command _ hcmd hstop ih =>
    refine (dispatch_step _ (Command.upload_isUpload hcmd) _).stops hstop ih ?_ ?_
    · rintro a b rfl ha
      exact ha
    · rintro op a b (rfl | ⟨q, hq, hch⟩) ha
      · exact ha
      obtain rfl := Option.some.inj ((Command.upload_site hcmd ▸ hq).symm.trans hp)
      exact hch.kept hc ha rfl hcmd
  | others _ hkeep ih => exact ih.others hkeep

/-- Without its directory, a stage is gone. -/
theorem Kept.gone (h : Kept c owner path p s) (hn : s.get p.dir = none) (q : Path) (hq : p.dir <+: q) :
    s.get q = none := by
  by_cases hne : q = p.dir
  · rw [hne, hn]
  · by_contra hget
    obtain ⟨n, -, rfl, -⟩ := h.clean q hq hne hget
    have hdir := h.inside n hget
    simp [Disk.isDirectory, hn] at hdir

theorem Kept.openable {b : Bytes} (hc : c.Lawful) (h : Kept c owner path p s) (hw : Walks s [] p.parent)
    (hlock : p.inner "lock" ∉ s.held) (hb : s.file? (p.inner "state.json") = some b)
    (hlen : b.length ≤ 16384) : Openable c ⟨owner, false⟩ path p s := by
  have hdir : s.isDirectory p.dir = true := h.inside "state.json" fun hn => by
    cases (Disk.file?_none hn).symm.trans hb
  have hfree : s.free (p.inner "lock") = true := by
    rw [Disk.free_iff, or_iff_not_imp_left]
    intro hn
    obtain ⟨_, -, -, hx⟩ := h.clean (p.inner "lock") (List.prefix_append _ _) (by simp) hn
    exact hx
  obtain ⟨j, rfl, hown⟩ := h.journal b hb
  refine ⟨⟨hw, hdir, hfree, hlock⟩, j, ⟨_, hb, ?_⟩, hown⟩
  rw [List.take_of_length_le hlen, hc.fromJson_toJson]

/-- Wherever the commands of a stage were stopped, with the directory of the
destination still there, a `cancel` removes the stage exactly if there is none,
or its journal is there and fits what is read of it. -/
theorem cancels_iff (hc : c.Lawful) (hp : (Command.cancel path token).site c = some p)
    (h : Interrupted c owner path token p s) (hw : Walks s [] p.parent)
    (hlock : p.inner "lock" ∉ s.held) :
    Cancels c owner path token p s ↔
      s.get p.dir = none ∨ ∃ b, s.file? (p.inner "state.json") = some b ∧ b.length ≤ 16384 := by
  have hkept := h.kept hc hp
  have hends := Prog.ends_run machine_rely (dispatch c ⟨owner, false⟩ (.cancel path token) []).run s
  have hafter := (h.command rfl hends.stops).kept hc hp
  have hsat : Act.Sat machine _ (dispatch c ⟨owner, false⟩ (.cancel path token) []) s _ _ :=
    dispatch_sat rfl fun _ => cancel_sat
  unfold Cancels answer
  generalize (dispatch c ⟨owner, false⟩ (.cancel path token) []).run.run machine s = result at hends hafter
  obtain ⟨f | r, t⟩ := result
  · have herr := hsat.fails hends
    simp only [reduceCtorEq, false_and, false_iff, not_or]
    obtain h' | h' | h' := herr
    · cases h'
    · cases h'
    obtain ⟨hdir, hno⟩ := h' p hp hw
    refine ⟨hdir, fun ⟨b, hb, hlen⟩ => ?_⟩
    exact hno.elim (fun h => h (hkept.openable hc hw hlock hb hlen)) fun h => h hkept.clean
  · obtain ⟨hpay, hdone, q, hq, hnone, hwhy⟩ := hsat.ends hends
    obtain rfl := Option.some.inj (hq.symm.trans hp)
    have hr : r = (.done, []) := Prod.ext hdone hpay
    refine iff_of_true ⟨by rw [hr], hafter.gone hnone⟩ (hwhy.imp id fun ho => ?_)
    obtain ⟨j, ⟨b, hb, hj⟩, -⟩ := ho.journal
    obtain ⟨k, rfl, -⟩ := hkept.journal b hb
    exact ⟨_, hb, (hc.fromJson_take hj).2⟩

/-- A stage that was prepared is removed. -/
theorem cancels_prepared : Cancels linked "local" "a" someToken someSite (ran preparing [] emptyRoot) := by
  have hint : Interrupted linked "local" "a" someToken someSite (ran preparing [] emptyRoot) :=
    .command (.start fun q => emptyRoot_free) rfl (stops_ran preparing [] emptyRoot)
  have hlock : someSite.inner "lock" ∉ (ran preparing [] emptyRoot).held := by
    rw [ran_preparing]
    exact List.not_mem_nil
  have hfit : ((ran preparing [] emptyRoot).file? (someSite.inner "state.json")).any
      (fun b => decide (b.length ≤ 16384)) = true := by
    rw [ran_preparing]
    decide +kernel
  obtain ⟨b, hb, hlen⟩ := (Option.any_eq_true _ _).mp hfit
  exact (cancels_iff linked_lawful (someSite_eq rfl) hint trivial hlock).mpr
    (.inr ⟨b, hb, of_decide_eq_true hlen⟩)

/-- After a `prepare` that was stopped once it had made the directory, no
`cancel` removes it. -/
theorem not_cancels : ¬ ∀ s, Interrupted linked "local" "a" someToken someSite s →
    Walks s [] someSite.parent → someSite.inner "lock" ∉ s.held →
    Cancels linked "local" "a" someToken someSite s := by
  intro h
  have hint : Interrupted linked "local" "a" someToken someSite
      ((dispatch linked someOwner preparing []).run.runFor machine 1 emptyRoot) :=
    .command (.start fun q => emptyRoot_free) rfl (Prog.stops_runFor machine_rely 1 _ _)
  have hok := (h _ hint trivial (by decide)).1
  have hmissing : answer linked "local" cancelling
      ((dispatch linked someOwner preparing []).run.runFor machine 1 emptyRoot) =
      .error (fault "TRANSFER_MISSING" "Transfer initialization was interrupted.") := by decide
  cases hmissing.symm.trans hok

end

end RemoteCodex.Transfer
