import RemoteCodex.Transfer.Reconciled

/-!
# Reading a saved journal back

A journal is saved whole, while no more than 16384 bytes are read of it.
-/

namespace RemoteCodex.Transfer

open Files Interact

section

variable {c : Crates} {e : Endpoint} {p : Site} {j : Journal} {s t a b u : Disk} {stage : Stage} {initial : Option Journal}
  {path token : String} {source : Stamp}

/-- What a command opens the stage with: nothing, or the journal of a `prepare`. -/
inductive Initial (owner path : String) : Option Journal → Prop
  | none : Initial owner path none
  | prepare (source : Stamp) (expected : Option Stamp) : source.kind = .file →
      Initial owner path (some ⟨owner, path, source, expected, 0, none, false⟩)

/-- The stage opens, with the journal `j`. -/
def ReadsBack (c : Crates) (e : Endpoint) (path token : String) (j : Journal) (s : Disk) : Prop :=
  ∀ initial, Initial e.owner path initial →
    ∃ stage t, Prog.Ends machine (openStage c e path token initial).run s (.ok stage) t ∧ stage.journal = j

theorem saving_ends (hdir : stage.dir = p.dir) (ha : a.isDirectory p.dir = true)
    (h : Prog.Ends machine (stage.save c).run a (.ok ()) b) :
    b.file? (p.inner "state.json") = some (c.toJson stage.journal) := by
  have hsat : Act.Sat machine (fun _ _ _ => True) (stage.save c) a _ _ :=
    saving_sat (fun _ _ => trivial) stage hdir ha (fun _ _ _ _ _ _ _ => trivial) fun _ _ _ _ _ _ _ _ => trivial
  exact (hsat.ends h).2.2

/-- The command that opens the stage in one of the ways a command does. -/
theorem Initial.command (h : Initial e.owner path initial) (token : String) : ∃ cmd : Command,
    (∀ c, cmd.site c = (Command.cancel path token).site c) ∧
      ∀ j, initial = some j → Begins e cmd j ∧ j.owner = e.owner ∧ j.path = path := by
  cases h with
  | none => exact ⟨.cancel path token, fun _ => rfl, fun _ heq => by cases heq⟩
  | prepare source expected hkind =>
    refine ⟨.prepare path token source expected, fun _ => rfl, fun j heq => ?_⟩
    obtain rfl := Option.some.inj heq
    exact ⟨⟨path, token, source, expected, rfl, hkind, rfl⟩, rfl, rfl⟩

theorem opening_sat (h : Initial e.owner path initial) (hp : (Command.cancel path token).site c = some p) :
    Act.Sat machine (fun _ _ _ => True) (openStage c e path token initial) s
      (fun stage t => Opened c e path p initial s stage t) fun _ _ => Blocked c e path p initial s := by
  obtain ⟨cmd, hcmd, hbegins⟩ := h.command token
  have hcp : cmd.site c = some p := by rw [hcmd, hp]
  have hsat : Act.Sat machine (Step c e cmd [] s) (openStage c e path token initial) s _ _ :=
    openStage_sat cmd (by rw [hcmd]; rfl) hbegins
  refine (hsat.weaken fun _ _ _ _ => trivial).mono ?_ ?_
  · rintro stage t ⟨q, hq, -, hopened⟩
    obtain rfl := Option.some.inj (hq.symm.trans hcp)
    exact hopened
  · exact fun _ _ hblocked => hblocked p hcp

/-- The journal that is there is read back exactly if it fits what is read of it. -/
theorem readsBack_iff (hc : c.Lawful) (hp : (Command.cancel path token).site c = some p) (howner : j.owner = e.owner)
    (hpath : j.path = path) (hent : Entered p u) (hstate : u.file? (p.inner "state.json") = some (c.toJson j)) :
    ReadsBack c e path token j u ↔ (c.toJson j).length ≤ 16384 := by
  constructor
  · intro h
    obtain ⟨stage, t, hends, rfl⟩ := h none .none
    have hsat := opening_sat (s := u) (e := e) Initial.none hp
    obtain ⟨b, hb, hread⟩ := (hsat.ends hends).readsBefore
    obtain rfl := Option.some.inj (hstate.symm.trans hb)
    exact (hc.fromJson_take hread).2
  · intro hfit initial hinitial
    have hreads : Reads c u p.dir j := ⟨_, hstate, by rw [List.take_of_length_le hfit, hc.fromJson_toJson]⟩
    obtain ⟨stage, t, hends, hopened⟩ | ⟨f, t, -, hblocked⟩ := ends_cases (opening_sat hinitial hp)
    · refine ⟨stage, t, hends, ?_⟩
      obtain ⟨hr, -⟩ | ⟨-, hn, -⟩ := hopened.found
      · exact hr.unique hreads
      · cases (Disk.file?_none hn).symm.trans hstate
    · exact absurd ⟨hent, j, hreads, howner, hpath⟩ hblocked.1

/-- Whatever journal of the same owner and path a command saves in a stage it has
opened, a later `stage` of the same path, token and owner finds it exactly if it
fits the bytes that are read. -/
theorem saved_readsBack_iff (hc : c.Lawful) (hp : (Command.cancel path token).site c = some p)
    (hinitial : Initial e.owner path initial)
    (hopen : Prog.Ends machine (openStage c e path token initial).run s (.ok stage) t)
    (howner : j.owner = stage.journal.owner) (hpath : j.path = stage.journal.path) (ha : a.isDirectory p.dir = true)
    (hsave : Prog.Ends machine (Stage.save c { stage with journal := j }).run a (.ok ()) b) (hent : Entered p u)
    (hsame : u.file? (p.inner "state.json") = b.file? (p.inner "state.json")) :
    ReadsBack c e path token j u ↔ (c.toJson j).length ≤ 16384 := by
  have hopened := (opening_sat hinitial hp).ends hopen
  have hdir : Stage.dir { stage with journal := j } = p.dir := hopened.dir
  have hstate : b.file? (p.inner "state.json") = some (c.toJson j) := saving_ends hdir ha hsave
  exact readsBack_iff hc hp (howner.trans hopened.sameOwner) (hpath.trans hopened.samePath) hent (hsame.trans hstate)

/-- In a stage that was just begun, any journal can be saved. -/
theorem begun_saves (hp : (Command.cancel path token).site c = some p) (hf : Fresh p s) (source : Stamp)
    (hkind : source.kind = .file) (j : Journal) : ∃ stage t u,
      Prog.Ends machine (openStage c e path token (some ⟨e.owner, path, source, none, 0, none, false⟩)).run s
        (.ok stage) t ∧ stage.journal = ⟨e.owner, path, source, none, 0, none, false⟩ ∧ t.isDirectory p.dir = true ∧
      Prog.Ends machine (Stage.save c { stage with journal := j }).run t (.ok ()) u ∧ Entered p u := by
  obtain ⟨stage, t, hopen, hopened⟩ | ⟨f, t, -, hblocked⟩ := ends_cases
    (opening_sat (s := s) (Initial.prepare source none hkind) hp)
  · obtain ⟨hjournal, hb⟩ := hopened.begun hf
    obtain ⟨⟨⟩, u, hsave, hsame, -⟩ | ⟨f, u, -, -, hfree | hdir⟩ := ends_cases (saving_sat (c := c) (G := fun _ _ _ => True)
      (fun _ _ => trivial) { stage with journal := j } hopened.dir hb.entered.dir
      (fun _ _ _ _ _ _ _ => trivial) fun _ _ _ _ _ _ _ _ => trivial)
    · exact ⟨stage, t, u, hopen, hjournal, hb.entered.dir, hsave, hb.entered.same hsame (by simp) (.inl (by simp))⟩
    · cases hfree.symm.trans (Disk.free_of_none hb.next)
    · obtain ⟨attr, hget⟩ := Disk.file?_eq_some.mp hb.state
      rw [Disk.isDirectory, hget] at hdir
      cases hdir
  · exact absurd hf (hblocked.2 rfl)

theorem Begun.readsBack_iff (hc : c.Lawful) (hp : (Command.prepare path token source none).site c = some p)
    (hb : Begun c p ⟨e.owner, path, source, none, 0, none, false⟩ s t) :
    ReadsBack c e path token ⟨e.owner, path, source, none, 0, none, false⟩ t ↔
      (c.toJson ⟨e.owner, path, source, none, 0, none, false⟩).length ≤ 16384 :=
  Transfer.readsBack_iff hc hp rfl rfl hb.entered hb.state

/-- A stage that was begun is saved again with another offset, and is read back. -/
theorem saved_readsBack_one : ∃ u, ReadsBack linked someOwner "a" someToken { someJournal with offset := 1 } u := by
  have hp : (Command.cancel "a" someToken).site linked = some someSite := someSite_eq rfl
  obtain ⟨stage, t, u, hopen, hjournal, hdir, hsave, hent⟩ :=
    begun_saves (e := someOwner) hp (fresh_treeTo someSite) oneByte rfl { someJournal with offset := 1 }
  exact ⟨u, (saved_readsBack_iff linked_lawful hp (.prepare oneByte none rfl) hopen (by rw [hjournal]; rfl)
    (by rw [hjournal]; rfl) hdir hsave hent rfl).mpr (by decide +kernel)⟩

/-- The largest stamp there is. -/
def largestStamp : Stamp := ⟨.file, UInt64.size - 1, UInt64.size - 1, UInt64.size - 1, UInt64.size - 1, 0o644⟩

/-- At `longPath` the journal a `prepare` has just saved is too long to be opened again. -/
theorem not_readsBack : ¬ ∀ (path token : String) (source : Stamp) (s t : Disk),
    Prog.Ends machine (dispatch linked someOwner (.prepare path token source none) []).run s
      (.ok (.ready 0 false, [])) t →
    ReadsBack linked someOwner path token ⟨"local", path, source, none, 0, none, false⟩ t := by
  intro h
  have hp : (Command.prepare longPath someToken largestStamp none).site linked = some longSite := longSite_eq ""
  obtain ⟨t, hends, hb⟩ := prepare_begins (e := someOwner) rfl hp (fresh_treeTo longSite) (Site.dest_ne_dir longSite_target)
    rfl (stampAt_none.mpr (treeTo_dest longSite))
  have hfit := (hb.readsBack_iff linked_lawful hp).mp (h _ _ _ _ _ hends)
  have hlen : (linked.toJson { longJournal with source := largestStamp }).length = _ :=
    length_toJson_path { longJournal with source := largestStamp } length_longPath
  rw [show (⟨someOwner.owner, longPath, largestStamp, none, 0, none, false⟩ : Journal) =
    { longJournal with source := largestStamp } from rfl, hlen] at hfit
  exact absurd hfit (by decide +kernel)

end

end RemoteCodex.Transfer
