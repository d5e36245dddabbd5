import RemoteCodex.Engine.Asked

/-!
# What is stored at any time

`Regular` holds of the stored task and its items wherever a turn may be cut
short: the items are taken one after another, what is prepared was permitted,
what is done is at its target, and every stage that may be left belongs to an
item that is stored as prepared.
-/

namespace RemoteCodex.Engine

open Interact Transfer

/-- No run goes on with the task. -/
def Status.ended : Status → Bool
  | .completed => true
  | .cancelled => true
  | _ => false

/-- What an item is, and what it has come to. -/
structure Item.Sound (log : List Asked) (answers : List Answer) (item : Item) : Prop where
  seen : Said log true item.root (.stat item.source) (.stat (some item.stamp))
  choices : ∀ choice, item.choice = some choice → Chose answers choice
  prepared : item.prepared = true →
    Permitted log answers item ∧ item.skipped = false ∧ item.stamp.kind ≠ .unsupported
  finished : item.done = true → item.skipped = true ∨ item.Finished log

/-- The user has seen `old` and chosen to replace it. -/
def Shown (answers : List Answer) (old : Stamp) : Prop :=
  ∃ a ∈ answers, a.choice = .replace ∧ a.conflict.expected = old

/-- An item waits to replace what stands at its target. -/
def Item.Replaces (item : Item) : Prop :=
  item.done = false ∧ item.restart = false ∧ item.choice = some .replace

structure Regular (answers : List Answer) (k : Stored) (log : List Asked) : Prop where
  indexed : Indexed k.items
  parents : ∀ i ∈ k.items, ∀ p, i.parent = some p → p < i.index
  sound : ∀ i ∈ k.items, i.Sound log answers
  placed : ∀ i ∈ k.items, i.done = true ∨ i.target ≠ "" ∨ i.prepared = true → i.Placed log answers k.task.base k.items
  inTurn : ∀ (m n : Nat) (i j : Item), k.items[m]? = some i → k.items[n]? = some j → m < n → i.done = false → j.Untouched
  current : ∀ c, k.task.current = some c → ∀ (m : Nat) (i : Item), k.items[m]? = some i → m < c → i.done = true
  policy : ∀ choice, k.task.policy = some choice → ∃ a ∈ answers, a.choice = choice ∧ a.all = true
  chosen : k.task.cancel = false → ∀ i ∈ k.items, i.Replaces →
    ∃ conflict, k.task.view.conflict = some conflict ∧ Shown answers conflict.expected
  stages : ∀ x ∈ stages log, ∃ i ∈ k.items, i.staged = true ∧ i.stage = x
  unscanned : k.task.scanned = false → k.task.current = none ∧ ∀ i ∈ k.items, i.Untouched
  completed : k.task.view.status = .completed → k.task.scanned = true ∧ ∀ i ∈ k.items, i.done = true
  ended : k.task.view.status.ended = true → Engine.stages log = []

section

variable {answers answers' : List Answer} {k : Stored} {log log' : List Asked} {task : Task} {item : Item}
  {items items' : List Item} {base : String} {n : Nat}

-- ---------------------------------------------------------------------------
-- What grows
-- ---------------------------------------------------------------------------

theorem Consented.mono {old : Stamp} (h : Consented answers old) (hanswers : answers ⊆ answers') :
    Consented answers' old := by
  obtain ⟨a, ha, hchoice⟩ := h
  exact ⟨a, hanswers ha, hchoice⟩

theorem Shown.mono {old : Stamp} (h : Shown answers old) (hanswers : answers ⊆ answers') : Shown answers' old := by
  obtain ⟨a, ha, hchoice⟩ := h
  exact ⟨a, hanswers ha, hchoice⟩

theorem Chose.mono {choice : Choice} (h : Chose answers choice) (hanswers : answers ⊆ answers') : Chose answers' choice := by
  obtain ⟨a, ha, hchoice⟩ := h
  exact ⟨a, hanswers ha, hchoice⟩

theorem Shown.consented {old : Stamp} (h : Shown answers old) : Consented answers old := by
  obtain ⟨a, ha, hchoice, hold⟩ := h
  exact ⟨a, ha, hchoice, .inl hold⟩

theorem Permitted.mono (h : Permitted log answers item) (hlog : log ⊆ log') (hanswers : answers ⊆ answers') :
    Permitted log' answers' item := by
  intro old hold
  obtain ⟨hsaid, hfile⟩ := h old hold
  exact ⟨hsaid.mono hlog, fun hkind => ⟨(hfile hkind).1, (hfile hkind).2.mono hanswers⟩⟩

theorem Item.Finished.mono (h : item.Finished log) (hlog : log ⊆ log') : item.Finished log' := by
  unfold Item.Finished at *
  split at h
  · rcases h with ⟨d, r, hhash, hcommit⟩ | ⟨offset, hprepare⟩
    · exact .inl ⟨d, r, hhash.mono hlog, hcommit.mono hlog⟩
    · exact .inr ⟨offset, hprepare.mono hlog⟩
  · rcases h with ⟨r, hmade⟩ | ⟨stamp, hseen⟩
    · exact .inl ⟨r, hmade.mono hlog⟩
    · exact .inr ⟨stamp, hseen.mono hlog⟩
  · exact h

theorem Item.Sound.mono (h : item.Sound log answers) (hlog : log ⊆ log') (hanswers : answers ⊆ answers') :
    item.Sound log' answers' where
  seen := h.seen.mono hlog
  choices choice hc := (h.choices choice hc).mono hanswers
  prepared hp := ⟨(h.prepared hp).1.mono hlog hanswers, (h.prepared hp).2⟩
  finished hd := (h.finished hd).imp_right fun hf => hf.mono hlog

theorem Item.Placed.mono (h : item.Placed log answers base items) (hlog : log ⊆ log') (hanswers : answers ⊆ answers') :
    item.Placed log' answers' base items where
  __ := h
  skipped hs := by
    rcases h.skipped hs with ⟨stamp, hkind, hsaid⟩ | habove | hchose
    · exact .inl ⟨stamp, hkind, hsaid.mono hlog⟩
    · exact .inr (.inl habove)
    · exact .inr (.inr (hchose.mono hanswers))

/-- More answers take nothing back. -/
theorem Regular.answered (h : Regular answers k log) (hanswers : answers ⊆ answers') : Regular answers' k log where
  __ := h
  sound i hi := (h.sound i hi).mono (List.Subset.refl _) hanswers
  placed i hi hstanding := (h.placed i hi hstanding).mono (List.Subset.refl _) hanswers
  policy choice hp := by
    obtain ⟨a, ha, hchoice⟩ := h.policy choice hp
    exact ⟨a, hanswers ha, hchoice⟩
  chosen hc i hi hr := by
    obtain ⟨conflict, heq, hshown⟩ := h.chosen hc i hi hr
    exact ⟨conflict, heq, hshown.mono hanswers⟩

/-- More commands take nothing back, if each stage that may be left belongs to an item. -/
theorem Regular.grow (h : Regular answers k log) (hlog : log ⊆ log')
    (hstages : ∀ x ∈ Engine.stages log', ∃ i ∈ k.items, i.staged = true ∧ i.stage = x)
    (hended : k.task.view.status.ended = true → Engine.stages log' = []) : Regular answers k log' where
  __ := h
  sound i hi := (h.sound i hi).mono hlog (List.Subset.refl _)
  placed i hi hstanding := (h.placed i hi hstanding).mono hlog (List.Subset.refl _)
  stages := hstages
  ended := hended

theorem Regular.fewer (h : Regular answers k log) (hlog : log ⊆ log')
    (hstages : Engine.stages log' ⊆ Engine.stages log) : Regular answers k log' := by
  refine h.grow hlog (fun x hx => h.stages x (hstages hx)) fun hended => ?_
  have hnone := h.ended hended
  rw [hnone] at hstages
  exact List.subset_nil.mp hstages

/-- A `Prepare` is for an item that is stored as prepared. -/
theorem Regular.staging (h : Regular answers k log) (hitem : item ∈ k.items) (hstaged : item.staged = true)
    (hopen : k.task.view.status.ended = false) (r : Option (Except Remote.ClientError Reply)) :
    Regular answers k (⟨false, item.root, .prepare item.target item.token item.stamp item.expected, r⟩ :: log) := by
  refine h.grow (List.subset_cons_self _ _) (fun x hx => ?_) fun hended => ?_
  · rw [stages_prepare] at hx
    rcases List.mem_cons.mp hx with rfl | hx
    · exact ⟨item, hitem, hstaged, rfl⟩
    · exact h.stages x hx
  · rw [hopen] at hended
    cases hended

/-- What is permitted may be replaced. -/
theorem Permitted.prepare (h : Permitted log answers item) (hkind : item.stamp.kind = .file) {target token : String}
    {stamp old : Stamp}
    (hcommand : Command.prepare item.target item.token item.stamp item.expected = .prepare target token stamp (some old)) :
    stamp.kind = .file ∧ old.kind = .file ∧ Said log false item.root (.stat target) (.stat (some old)) ∧
      Consented answers old := by
  injection hcommand with htarget _ hstamp hexpected
  subst htarget hstamp
  obtain ⟨hsaid, hfile⟩ := h old hexpected
  exact ⟨hkind, (hfile hkind).1, hsaid, (hfile hkind).2⟩

-- ---------------------------------------------------------------------------
-- Places
-- ---------------------------------------------------------------------------

theorem varied_self (base : String) : Varied base base := ⟨[], rfl⟩

theorem Varied.alternate {base target : String} (h : Varied base target) (number : Nat) (directory : Bool) :
    Varied base (Engine.alternate target number directory) := by
  obtain ⟨suffixes, rfl⟩ := h
  exact ⟨suffixes ++ [(number, directory)], by rw [List.foldl_append]; rfl⟩

theorem alternate_ne_empty (path : String) (number : Nat) (directory : Bool) : alternate path number directory ≠ "" := by
  rw [alternate_eq]
  intro hempty
  have hsize := congrArg String.utf8ByteSize hempty
  rw [join_size] at hsize
  have hparen := paren_mem_suffixed directory ((rsplitOnce '/' path).getD ("", path)).2 number
  have hname : suffixed directory ((rsplitOnce '/' path).getD ("", path)).2 number = "" := by
    rw [← String.utf8ByteSize_eq_zero_iff]
    simp only [String.utf8ByteSize_empty] at hsize
    omega
  rw [hname] at hparen
  cases hparen

/-- What has no name was never given another. -/
theorem Varied.of_empty {base : String} (h : Varied base "") : base = "" := by
  obtain ⟨suffixes, hempty⟩ := h
  rcases List.eq_nil_or_concat suffixes with rfl | ⟨front, last, rfl⟩
  · exact hempty.symm
  · rw [List.concat_eq_append, List.foldl_append] at hempty
    exact absurd hempty.symm (alternate_ne_empty _ _ _)

/-- The place of an item is told by what the item it belongs to has come to. -/
theorem Item.Placed.along (h : item.Placed log answers base items) (hparent : ∀ p above, item.parent = some p → items[p]? = some above →
    ∃ above', items'[p]? = some above' ∧ above'.done = above.done ∧ above'.skipped = above.skipped ∧
      above'.target = above.target) : item.Placed log answers base items' where
  root := h.root
  parent p hp := by
    obtain ⟨above, habove, hdone, hskips, hvaried⟩ := h.parent p hp
    obtain ⟨above', habove', hdone', hskipped', htarget'⟩ := hparent p above hp habove
    exact ⟨above', habove', hdone'.trans hdone, fun hs => hskips (hskipped'.symm.trans hs), htarget'.symm ▸ hvaried⟩
  unsupported := h.unsupported
  skipped hs := by
    refine (h.skipped hs).imp_right (Or.imp_left ?_)
    rintro ⟨p, above, hp, habove, hskipped⟩
    obtain ⟨above', habove', -, hskipped', -⟩ := hparent p above hp habove
    exact ⟨p, above', hp, habove', hskipped'.trans hskipped⟩

theorem Item.Placed.congr (h : item.Placed log answers base items)
    (hparent : ∀ p, item.parent = some p → items'[p]? = items[p]?) : item.Placed log answers base items' :=
  h.along fun p above hp habove => ⟨above, (hparent p hp).trans habove, rfl, rfl, rfl⟩

/-- What keeps its parent and its source, and is skipped as before or by choice, keeps its place. -/
theorem Item.Placed.change (h : item.Placed log answers base items) {item' : Item}
    (hparts : item'.parent = item.parent ∧ item'.root = item.root ∧ item'.source = item.source)
    (htarget : ∀ b, Varied b item.target → Varied b item'.target) (hskipped : item.skipped = true → item'.skipped = true)
    (hskips : item'.skipped = true → item.skipped = true ∨ Chose answers .skip)
    (hunsupported : item'.stamp.kind = .unsupported → item'.skipped = true) : item'.Placed log answers base items := by
  obtain ⟨hparent, hroot, hsource⟩ := hparts
  refine ⟨fun hp => ?_, fun p hp => ?_, hunsupported, fun hs => ?_⟩
  · rw [hsource]
    exact htarget _ (h.root (hparent ▸ hp))
  · obtain ⟨above, habove, hdone, hskips, hvaried⟩ := h.parent p (hparent ▸ hp)
    exact ⟨above, habove, hdone, fun hs => hskipped (hskips hs), hsource ▸ htarget _ hvaried⟩
  · rw [hparent, hroot, hsource]
    rcases hskips hs with hold | hchose
    · exact h.skipped hold
    · exact .inr (.inr hchose)

/-- What changes nothing of it keeps its place. -/
theorem Item.Placed.same (h : item.Placed log answers base items) {item' : Item}
    (hparts : item'.parent = item.parent ∧ item'.root = item.root ∧ item'.source = item.source)
    (htarget : item'.target = item.target) (hskipped : item'.skipped = item.skipped)
    (hkind : item'.stamp.kind = item.stamp.kind) : item'.Placed log answers base items :=
  h.change hparts (fun _ hb => htarget.symm ▸ hb) (fun hs => hskipped.trans hs) (fun hs => .inl (hskipped.symm.trans hs))
    fun hu => hskipped.trans (h.unsupported (hkind.symm.trans hu))

theorem Item.Untouched.staged (h : item.Untouched) : item.staged = false := by
  rw [Item.staged, h.prepared, Bool.false_and]

theorem Item.Untouched.replaces (h : item.Untouched) : ¬ item.Replaces := by
  rintro ⟨-, -, hchoice⟩
  rw [h.choice] at hchoice
  cases hchoice

-- ---------------------------------------------------------------------------
-- Saving the task
-- ---------------------------------------------------------------------------

theorem Regular.saveTask (h : Regular answers k log) (hbase : task.base = k.task.base)
    (hcurrent : ∀ c, task.current = some c → ∀ (m : Nat) (i : Item), k.items[m]? = some i → m < c → i.done = true)
    (hpolicy : ∀ choice, task.policy = some choice → ∃ a ∈ answers, a.choice = choice ∧ a.all = true)
    (hchosen : task.cancel = false → ∀ i ∈ k.items, i.Replaces →
      ∃ conflict, task.view.conflict = some conflict ∧ Shown answers conflict.expected)
    (hunscanned : task.scanned = false → task.current = none ∧ ∀ i ∈ k.items, i.Untouched)
    (hcompleted : task.view.status = .completed → task.scanned = true ∧ ∀ i ∈ k.items, i.done = true)
    (hended : task.view.status.ended = true → Engine.stages log = []) : Regular answers (k.saveTask task) log where
  indexed := h.indexed
  parents := h.parents
  sound := h.sound
  placed i hi hplaced := by
    have hold := h.placed i hi hplaced
    rwa [← hbase] at hold
  inTurn := h.inTurn
  current := hcurrent
  policy := hpolicy
  chosen := hchosen
  stages := h.stages
  unscanned := hunscanned
  completed := hcompleted
  ended := hended

/-- What a task in memory may differ in from the stored one is not in here. -/
structure Alike (task task' : Task) : Prop where
  base : task.base = task'.base
  policy : task.policy = task'.policy
  scanned : task.scanned = task'.scanned
  cancel : task.cancel = task'.cancel

theorem Alike.refl (task : Task) : Alike task task := ⟨rfl, rfl, rfl, rfl⟩

/-- A task with the same question and the same item in hand, in a state no further than the stored one. -/
theorem Regular.retask (h : Regular answers k log) (halike : Alike task k.task) (hcurrent : task.current = k.task.current)
    (hconflict : task.view.conflict = k.task.view.conflict)
    (hstatus : task.view.status = k.task.view.status ∨ task.view.status.ended = false) :
    Regular answers (k.saveTask task) log := by
  refine h.saveTask halike.base (hcurrent ▸ h.current) (halike.policy ▸ h.policy)
    (hconflict ▸ halike.cancel ▸ h.chosen) (halike.scanned ▸ hcurrent ▸ h.unscanned) (fun hs => ?_) fun hs => ?_
  · rcases hstatus with heq | hopen
    · exact halike.scanned ▸ h.completed (heq ▸ hs)
    · rw [hs] at hopen
      cases hopen
  · rcases hstatus with heq | hopen
    · exact h.ended (heq ▸ hs)
    · rw [hs] at hopen
      cases hopen

end

end RemoteCodex.Engine
