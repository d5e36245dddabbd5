import RemoteCodex.Engine.Passage

/-!
# A run from one item to the next

`Between` holds before each item of a run. What a run does before its items and
after them, and what `TransferService` does around it, leaves the store regular
as well.
-/

namespace RemoteCodex.Engine

open Interact Transfer
open Remote (ClientError)

/-- The task and the items before the `n`-th item: those before it are done. -/
structure Between (answers : List Answer) (task : Task) (items : List Item) (n : Nat) (k : Stored) (log : List Asked) :
    Prop where
  regular : Regular answers k log
  stored : k.items = items
  before : ∀ (m : Nat) (i : Item), items[m]? = some i → m < n → i.done = true
  working : Working k.task
  workingTask : Working task
  alike : Alike task k.task
  conflict : task.view.conflict = k.task.view.conflict

section

variable {answers : List Answer} {s : Scene × List Asked} {task : Task} {items : List Item} {n : Nat} {item : Item}
  {k : Stored} {log : List Asked}

-- ---------------------------------------------------------------------------
-- An item from its beginning to its end
-- ---------------------------------------------------------------------------

/-- What a copy leaves, whether it went well or not. -/
def Copied (answers : List Answer) (items : List Item) (n : Nat) :
    Except (ClientError × Task × Item) (Task × Item) → Scene × List Asked → Prop
  | .ok r, t => Holding answers r.1 items n r.2 t.1.kept t.2 ∧ r.2.Finished t.2
  | .error e, t => Holding answers e.2.1 items n e.2.2 t.1.kept t.2

theorem copyFile_guards (digest : Files.Bytes → String) (h : Holding answers task items n item s.1.kept s.2)
    (hkind : item.stamp.kind = .file) (hskipped : item.skipped = false) (hpermitted : Permitted s.2 answers item) :
    Guarded answers (copyFile digest task item) s fun r t =>
      ∀ x ∈ r, Holding answers x.1 items n x.2 t.1.kept t.2 ∧ x.2.Finished t.2 := by
  obtain ⟨hitems, hregular⟩ := h.put
  refine Act.Sat.bind ((saveItem_guards h.regular hregular).mono (fun _ _ ht => ht) fun _ _ _ => trivial) ?_
  rintro _ t ⟨hkept, hlog⟩
  have hheld : Holding answers task items n item t.1.kept t.2 := by
    rw [hkept, hlog]
    exact { h with regular := hregular, stored := ⟨item, hitems⟩ }
  refine Act.Sat.bind (Act.Sat.lift (Q := Copied answers items n)
    (file_guards digest hheld hkind hskipped (hlog ▸ hpermitted))) ?_
  rintro (⟨e, task', item'⟩ | ⟨task', item'⟩) u hu
  · replace hu : Holding answers task' items n item' u.1.kept u.2 := hu
    simp only
    split
    · refine Act.Sat.bind (stat_guards hu.regular _ _ _) ?_
      rintro r v ⟨hgrown, -⟩
      have hafter := hu.grown hgrown
      cases r with
      | some stamp =>
        have hasked : Holding answers (askUser task' item' stamp) items n { item' with choice := none } v.1.kept v.2 := by
          refine (hafter.asking stamp).setItem rfl rfl hafter.undone (hafter.placed.same ⟨rfl, rfl, rfl⟩ rfl rfl rfl)
            hafter.seen (fun _ hc => by cases hc) hafter.prepared (fun hr => ?_) fun _ hstaged => ⟨hstaged, rfl⟩
          cases hr.2.2
        refine Act.Sat.bind (hasked.saveItem.mono (fun _ _ hw => hw) fun _ _ _ => trivial) fun _ w hw => ?_
        refine Act.Sat.bind (hw.publish fun hr => ?_) fun _ _ _ => Act.Sat.pure ?_
        · cases hr.2.2
        · exact fun x hx => by cases hx
      | none => exact Act.Sat.throw trivial
    · exact Act.Sat.throw trivial
  · refine Act.Sat.pure fun x hx => ?_
    cases hx
    exact hu

theorem carry_guards (digest : Files.Bytes → String) (h : Holding answers task items n item s.1.kept s.2)
    (hmet : item.skipped = true ∨ Permitted s.2 answers item) :
    Guarded answers (carry digest task item) s fun r t =>
      ∀ x ∈ r, Holding answers x.1 items n x.2 t.1.kept t.2 ∧ (x.2.skipped = true ∨ x.2.Finished t.2) := by
  unfold carry
  split
  · next hskipped =>
    refine Act.Sat.pure fun x hx => ?_
    cases hx
    exact ⟨h, .inl hskipped⟩
  · next hskipped =>
    have hpermitted := hmet.resolve_left hskipped
    replace hskipped : item.skipped = false := by simpa using hskipped
    split
    · next hkind =>
      refine Act.Sat.bind (makeDirectory_guards h hkind hskipped hpermitted) ?_
      rintro item' t ⟨ht, hfinished⟩
      refine Act.Sat.pure fun x hx => ?_
      cases hx
      exact ⟨ht, .inr hfinished⟩
    · next hdirectory =>
      have hkind : item.stamp.kind = .file := by
        cases hk : item.stamp.kind with
        | file => rfl
        | directory => exact absurd hk hdirectory
        | unsupported =>
          have hunsupported := h.placed.unsupported hk
          rw [hskipped] at hunsupported
          cases hunsupported
      refine (copyFile_guards digest h hkind hskipped hpermitted).mono (fun r t ht x hx => ?_) fun _ _ he => he
      exact ⟨(ht x hx).1, .inr (ht x hx).2⟩

/-- An item that is done with. -/
theorem conclude_guards (h : Holding answers task items n item s.1.kept s.2)
    (hfinished : item.skipped = true ∨ item.Finished s.2) :
    Guarded answers (conclude task item) s fun r t =>
      Between answers r.1 (items.set n r.2) (n + 1) t.1.kept t.2 := by
  have hplaced : Item.Placed s.2 answers s.1.kept.task.base items { item with done := true } :=
    h.alike.base ▸ h.placed.same ⟨rfl, rfl, rfl⟩ rfl rfl rfl
  have hsound : Item.Sound s.2 answers { item with done := true } := ⟨h.seen, h.choices, h.prepared, fun _ => hfinished⟩
  have hput : (s.1.kept.saveItem { item with done := true }).items = items.set n { item with done := true } ∧
      Regular answers (s.1.kept.saveItem { item with done := true }) s.2 :=
    h.regular_put h.index h.parent hsound hplaced (fun hr => by cases hr.1) (h.stages_set fun _ hstaged => ⟨hstaged, rfl⟩)
  obtain ⟨hitems, hregular⟩ := hput
  show Guarded answers (do
    saveItem { item with done := true }
    publish (task.concluded item.skipped)
    pure (task.concluded item.skipped, { item with done := true })) s _
  generalize htask : task.concluded item.skipped = task'
  have hparts : Alike task' task ∧ task'.current = task.current ∧ task'.view.conflict = task.view.conflict ∧
      task'.view.status = task.view.status := by
    rw [← htask]
    cases hs : item.skipped <;> exact ⟨⟨rfl, rfl, rfl, rfl⟩, rfl, rfl, rfl⟩
  obtain ⟨halike, hcurrent, hsame, hstatus⟩ := hparts
  have hworking : Working task' :=
    ⟨halike.scanned.trans h.workingTask.scanned, halike.cancel.trans h.workingTask.cancel, hstatus ▸ h.workingTask.running⟩
  have hself : (items.set n { item with done := true })[n]? = some { item with done := true } :=
    List.getElem?_set_self h.lt
  have hdone : ∀ (m : Nat) (i : Item), (items.set n { item with done := true })[m]? = some i → m < n + 1 → i.done = true := by
    intro m i hi hm
    rcases Nat.lt_succ_iff_lt_or_eq.mp hm with hlt | rfl
    · exact h.before m i (h.other hi (Nat.ne_of_lt hlt)).2 hlt
    · rw [hself] at hi
      cases hi
      rfl
  refine Act.Sat.bind ((saveItem_guards h.regular hregular).mono (fun _ _ ht => ht) fun _ _ _ => trivial) ?_
  rintro _ t ⟨hkept, hlog⟩
  have hsaved : t.1.kept.items = items.set n { item with done := true } := by rw [hkept, hitems]
  have hregular' : Regular answers t.1.kept t.2 := by
    rw [hkept, hlog]
    exact hregular
  have hpublished : Regular answers (t.1.kept.saveTask task') t.2 := by
    have hstored : t.1.kept.task = s.1.kept.task := by
      rw [hkept]
      rfl
    refine hregular'.saveTask ?_ ?_ ?_ ?_ ?_ ?_ ?_
    · rw [hstored]
      exact halike.base.trans h.alike.base
    · intro c hc m i hi hm
      have hcn := h.currentTask c (hcurrent ▸ hc)
      rw [hsaved] at hi
      exact hdone m i hi (by omega)
    · intro choice hp
      rw [halike.policy, h.alike.policy] at hp
      exact h.regular.policy choice hp
    · intro _ i hi hreplaces
      rw [hsaved] at hi
      obtain ⟨m, hm⟩ := List.mem_iff_getElem?.mp hi
      by_cases hle : m < n + 1
      · have hd := hdone m i hm hle
        rw [hreplaces.1] at hd
        cases hd
      · exact absurd hreplaces (h.after m i (h.other hm (by omega)).2 (by omega)).replaces
    · intro hscanned
      rw [hworking.scanned] at hscanned
      cases hscanned
    · intro hcompleted
      have hrunning := hworking.running
      rw [hcompleted] at hrunning
      cases hrunning
    · intro hended
      rw [hworking.running] at hended
      cases hended
  refine Act.Sat.bind (publish_guards hregular' hpublished) ?_
  rintro _ u ⟨hkept', hlog'⟩
  refine Act.Sat.pure ?_
  rw [hkept', hlog']
  exact ⟨hpublished, hsaved, hdone, hworking, hworking, .refl task', rfl⟩

-- ---------------------------------------------------------------------------
-- The items one after another
-- ---------------------------------------------------------------------------

/-- The target of an item without one, if it has none yet. -/
theorem place_eq (task : Task) (items : List Item) (item : Item) :
    item.target ≠ "" ∧ place task items item = item ∨ item.target = "" ∧
      place task items item = { item with
        target := join (((item.parent.bind fun p => items[p]?).map Item.target).getD task.base) (lastName item.source)
        skipped := (item.parent.bind fun p => items[p]?).any Item.skipped || item.stamp.kind = .unsupported } := by
  unfold place
  by_cases hempty : item.target.isEmpty = true
  · rw [if_pos hempty]
    exact .inr ⟨String.isEmpty_iff.mp hempty, rfl⟩
  · rw [if_neg hempty]
    exact .inl ⟨fun htarget => hempty (String.isEmpty_iff.mpr htarget), rfl⟩

/-- An item that has its place and is not skipped stays as it is. -/
theorem place_stable (h : item.Placed log answers task.base items) (hskipped : item.skipped = false) (hkind : item.stamp.kind ≠ .unsupported) :
    place task items item = item := by
  rcases place_eq task items item with ⟨-, heq⟩ | ⟨htarget, heq⟩
  · exact heq
  · rw [heq]
    have hroot := h.root
    have habove := h.parent
    obtain ⟨index, parent, root, source, target, stamp, token, expected, prepared, bytes, done, skipped, choice, restart,
      restage⟩ := item
    obtain rfl : target = "" := htarget
    obtain rfl : skipped = false := hskipped
    cases parent with
    | none => simp [(hroot rfl).of_empty, hkind]
    | some p =>
      obtain ⟨above, hp, -, hskips, hvaried⟩ := habove p rfl
      have hnot : above.skipped = false := by simpa using hskips
      simp [hp, hvaried.of_empty, hkind, hnot]

theorem place_placed (h : item.target ≠ "" → item.Placed log answers task.base items)
    (hparent : ∀ p, item.parent = some p → ∃ above, items[p]? = some above ∧ above.done = true)
    (hseen : Said log true item.root (.stat item.source) (.stat (some item.stamp))) :
    (place task items item).Placed log answers task.base items := by
  rcases place_eq task items item with ⟨htarget, heq⟩ | ⟨-, heq⟩
  · rw [heq]
    exact h htarget
  · rw [heq]
    refine ⟨fun hnone => ?_, fun p hp => ?_, fun hkind => ?_, fun hskipped => ?_⟩
    · have hroot : item.parent = none := hnone
      simp only [hroot, Option.bind_none, Option.map_none, Option.getD_none]
      exact varied_self _
    · have hsome : item.parent = some p := hp
      obtain ⟨above, habove, hdone⟩ := hparent p hsome
      refine ⟨above, habove, hdone, ?_, ?_⟩
      · intro hskips
        simp [hsome, habove, hskips]
      · simp only [hsome, Option.bind_some, habove, Option.map_some, Option.getD_some]
        exact varied_self _
    · have hunsupported : item.stamp.kind = .unsupported := hkind
      simp [hunsupported]
    · simp only [Bool.or_eq_true, decide_eq_true_eq] at hskipped
      rcases hskipped with habove | hunsupported
      · obtain ⟨above, hget, hskips⟩ := (Option.any_eq_true _ _).mp habove
        obtain ⟨p, hp, hget⟩ := Option.bind_eq_some_iff.mp hget
        exact .inr (.inl ⟨p, above, hp, hget, hskips⟩)
      · exact .inl ⟨item.stamp, hunsupported, hseen⟩

theorem Between.holding (h : Between answers task items n k log) (hitem : items[n]? = some item)
    (hdone : item.done = false) :
    Holding answers { task with current := some item.index } items n (place task items item) k log := by
  have hmem : item ∈ k.items := h.stored ▸ List.mem_of_getElem? hitem
  have hstored : k.items[n]? = some item := h.stored ▸ hitem
  have hindex : item.index = n := h.regular.indexed n item hstored
  have hbase : task.base = k.task.base := h.alike.base
  obtain ⟨hlt, hget⟩ := List.getElem?_eq_some_iff.mp hitem
  have hset : k.items = items.set n item := by rw [h.stored, ← hget, List.set_getElem_self]
  have hparent : ∀ p, item.parent = some p → p < n := fun p hp => hindex ▸ h.regular.parents item hmem p hp
  have hstays : item.prepared = true → place task items item = item := by
    intro hprepared
    obtain ⟨-, hskipped, hkind⟩ := (h.regular.sound item hmem).prepared hprepared
    have hplaced := h.regular.placed item hmem (.inr (.inr hprepared))
    rw [← hbase, h.stored] at hplaced
    exact place_stable hplaced hskipped hkind
  have hparts : (place task items item).index = item.index ∧ (place task items item).parent = item.parent ∧
      (place task items item).done = item.done ∧ (place task items item).prepared = item.prepared ∧
      (place task items item).restart = item.restart ∧ (place task items item).choice = item.choice := by
    rcases place_eq task items item with ⟨-, heq⟩ | ⟨-, heq⟩ <;> rw [heq] <;> exact ⟨rfl, rfl, rfl, rfl, rfl, rfl⟩
  obtain ⟨hindex', hparent', hdone', hprepared', hrestart', hchoice'⟩ := hparts
  have hcurrent : ∀ c, some item.index = some c → c ≤ n := by
    intro c hc
    cases hc
    exact Nat.le_of_eq hindex
  refine ⟨h.regular, ⟨item, hset⟩, hlt, h.before, ?_, h.working,
    ⟨h.workingTask.scanned, h.workingTask.cancel, h.workingTask.running⟩, ?_, hcurrent,
    ⟨h.alike.base, h.alike.policy, h.alike.scanned, h.alike.cancel⟩, hindex'.trans hindex,
    fun p hp => hparent p (hparent' ▸ hp), hdone'.trans hdone, ?_, ?_, ?_, ?_, ?_, ?_⟩
  · intro m i hi hm
    exact h.regular.inTurn n m item i hstored (h.stored ▸ hi) hm hdone
  · intro c hc
    refine Nat.le_of_not_lt fun hlt => ?_
    rw [h.regular.current c hc n item hstored hlt] at hdone
    cases hdone
  · refine place_placed (fun htarget => ?_) (fun p hp => ?_) (h.regular.sound item hmem).seen
    · have hplaced := h.regular.placed item hmem (.inr (.inl htarget))
      rwa [← hbase, h.stored] at hplaced
    · have hpn := hparent p hp
      have hp' : p < items.length := by omega
      exact ⟨items[p], List.getElem?_eq_getElem hp', h.before p _ (List.getElem?_eq_getElem hp') hpn⟩
  · rcases place_eq task items item with ⟨-, heq⟩ | ⟨-, heq⟩ <;> rw [heq] <;> exact (h.regular.sound item hmem).seen
  · rw [hchoice']
    exact (h.regular.sound item hmem).choices
  · intro hprepared
    rw [hprepared'] at hprepared
    rw [hstays hprepared]
    exact (h.regular.sound item hmem).prepared hprepared
  · rintro ⟨-, hrestart, hchoice⟩
    exact h.regular.chosen h.working.cancel item hmem ⟨hdone, hrestart'.symm.trans hrestart, hchoice'.symm.trans hchoice⟩
  · intro x hx
    obtain ⟨i, hi, hstaged, rfl⟩ := h.regular.stages x hx
    rw [h.stored] at hi
    obtain ⟨m, hm⟩ := List.mem_iff_getElem?.mp hi
    by_cases heq : n = m
    · subst heq
      obtain rfl := Option.some.inj (hitem.symm.trans hm)
      have hprepared : item.prepared = true := by
        rw [Item.staged, Bool.and_eq_true] at hstaged
        exact hstaged.1
      refine ⟨place task items item, List.mem_iff_getElem?.mpr ⟨n, List.getElem?_set_self hlt⟩, ?_⟩
      rw [hstays hprepared]
      exact ⟨hstaged, rfl⟩
    · exact ⟨i, List.mem_iff_getElem?.mpr ⟨m, (List.getElem?_set_ne heq).trans hm⟩, hstaged, rfl⟩

theorem transferItem_guards (digest : Files.Bytes → String) (h : Between answers task items n s.1.kept s.2)
    (hitem : items[n]? = some item) (hdone : item.done = false) :
    Guarded answers (transferItem digest task items item) s fun r t =>
      ∀ x ∈ r, Between answers x.1 (items.set n x.2) (n + 1) t.1.kept t.2 := by
  refine Act.Sat.bind (again_guards (h.holding hitem hdone)) ?_
  rintro ⟨task₁, item₁⟩ t ⟨ht, hrestart, hconflict, hkept⟩
  have hconflict' : task₁.view.conflict = t.1.kept.task.view.conflict := by
    rw [hkept, ← h.conflict]
    exact hconflict
  refine Act.Sat.bind (ht.saveItem.mono (fun _ _ hu => hu) fun _ _ _ => trivial) fun _ u hu => ?_
  refine Act.Sat.bind (hu.publish fun hr => ?_) ?_
  · obtain ⟨conflict, heq, hshown⟩ := ht.chosen hr
    exact ⟨conflict, hconflict'.trans heq, hshown⟩
  rintro _ v ⟨hv, htask⟩
  refine Act.Sat.bind (meet_guards hv.toHolding hrestart (by rw [htask])) ?_
  rintro ⟨task₂, item₂, going⟩ w ⟨hw, hgoing, hasked⟩
  cases going with
  | false =>
    refine Act.Sat.bind (hw.saveItem.mono (fun _ _ hx => hx) fun _ _ _ => trivial) fun _ x hx => ?_
    refine Act.Sat.bind (hx.publish (hasked rfl)) fun _ _ _ => Act.Sat.pure ?_
    intro y hy
    cases hy
  | true =>
    have hclear : Holding answers { task₂ with view := { task₂.view with conflict := none } } items n item₂ w.1.kept w.2 :=
      hw.setTask ⟨rfl, rfl, rfl, rfl⟩ hw.currentTask hw.workingTask.running
    refine Act.Sat.bind (carry_guards digest hclear (hgoing rfl)) fun r x hx => ?_
    cases r with
    | none =>
      refine Act.Sat.pure ?_
      intro y hy
      cases hy
    | some r =>
      obtain ⟨task₃, item₃⟩ := r
      obtain ⟨hheld, hfinished⟩ := hx (task₃, item₃) rfl
      refine Act.Sat.bind (conclude_guards hheld hfinished) fun r y hy => Act.Sat.pure ?_
      intro z hz
      cases hz
      exact hy

theorem Between.skip (h : Between answers task items n k log) (hitem : items[n]? = some item) (hdone : item.done = true) :
    Between answers task items (n + 1) k log where
  __ := h
  before m i hi hm := by
    rcases Nat.lt_succ_iff_lt_or_eq.mp hm with hlt | rfl
    · exact h.before m i hi hlt
    · obtain rfl := Option.some.inj (hitem.symm.trans hi)
      exact hdone

theorem transferItems_guards (digest : Files.Bytes → String) (left : Nat) (h : Between answers task items n s.1.kept s.2)
    (hleft : items.length ≤ n + left) :
    Guarded answers (transferItems digest left task items n) s fun r t =>
      ∀ x ∈ r, ∃ m, Between answers x.1 x.2 m t.1.kept t.2 ∧ x.2.length ≤ m := by
  induction left generalizing s task items n with
  | zero =>
    refine Act.Sat.pure ?_
    intro x hx
    cases hx
    exact ⟨n, h, hleft⟩
  | succ left ih =>
    unfold transferItems
    split
    · next hnone =>
      refine Act.Sat.pure ?_
      intro x hx
      cases hx
      exact ⟨n, h, List.getElem?_eq_none_iff.mp hnone⟩
    · next item hitem =>
      split
      · next hdone => exact ih (h.skip hitem hdone) (by omega)
      · next hdone =>
        refine Act.Sat.bind (transferItem_guards digest h hitem (by simpa using hdone)) fun r t ht => ?_
        cases r with
        | none =>
          refine Act.Sat.pure ?_
          intro x hx
          cases hx
        | some r => exact ih (ht r rfl) (by rw [List.length_set]; omega)

-- ---------------------------------------------------------------------------
-- Removing what is left
-- ---------------------------------------------------------------------------

/-- Nothing but the stage of `item` may be left that was not left before. -/
structure Restaged (answers : List Answer) (item : Item) (s t : Scene × List Asked) : Prop where
  kept : t.1.kept = s.1.kept
  log : s.2 ⊆ t.2
  stages : stages t.2 ⊆ item.stage :: stages s.2
  regular : Regular answers t.1.kept t.2

theorem completeStage_guards (h : Regular answers s.1.kept s.2) (hitem : item ∈ s.1.kept.items)
    (hstaged : item.staged = true) (hopen : s.1.kept.task.view.status.ended = false) :
    Guarded answers (completeStage item) s fun _ t => Restaged answers item s t := by
  have hprepared : item.prepared = true ∧ item.stamp.kind = .file := by simpa [Item.staged] using hstaged
  have hpermitted : Permitted s.2 answers item := ((h.sound item hitem).prepared hprepared.1).1
  have hstaging := h.staging hitem hstaged hopen
  have hsent : ∀ (t : Scene × List Asked) r, t.1.kept = s.1.kept →
      t.2 = ⟨false, item.root, .prepare item.target item.token item.stamp item.expected, r⟩ :: s.2 →
      Restaged answers item s t := by
    intro t r hkept hlog
    refine ⟨hkept, ?_, ?_, ?_⟩
    · rw [hlog]
      exact List.subset_cons_self _ _
    · rw [hlog, stages_prepare]
      exact List.Subset.refl _
    · rw [hkept, hlog]
      exact hstaging r
  refine Act.Sat.bind (R := fun _ t => Restaged answers item s t) (Act.Sat.attempt ?_) fun r t ht => ?_
  · refine (call_guards [] hstaging ?_).mono (fun _ t ht => hsent t _ ht.1 ht.2) fun _ t ht => hsent t _ ht.1 ht.2
    exact fun _ _ _ _ _ hcommand => hpermitted.prepare hprepared.2 hcommand
  · cases r with
    | ok r => exact Act.Sat.pure ht
    | error e =>
      refine guarded_ensure.mono ?_ fun _ _ he => he
      rintro _ t ⟨-, rfl⟩
      exact ht

theorem cleanupItem_guards (h : Regular answers s.1.kept s.2) (hitem : item ∈ s.1.kept.items)
    (hstaged : item.staged = true) (hopen : s.1.kept.task.view.status.ended = false) :
    Guarded answers (cleanupItem item) s fun _ t => Grown s t ∧ item.stage ∉ stages t.2 := by
  refine Act.Sat.bind (R := fun r t => Grown s t ∧ (r.isOk = true → item.stage ∉ stages t.2)) (Act.Sat.attempt ?_) ?_
  · refine (plain_guards h (by nofun) []).mono (fun r t ht => ?_) fun e t ht => ?_
    · refine ⟨grown_cons ht.1 ht.2 (by nofun), fun _ hmem => ?_⟩
      rw [ht.2] at hmem
      exact (mem_stages_cancel.mp hmem).2 rfl
    · exact ⟨grown_cons ht.1 ht.2 (by nofun), by nofun⟩
  · rintro (e | r) t ⟨hgrown, hgone⟩
    · refine Act.Sat.bind guarded_ensure ?_
      rintro _ t ⟨-, rfl⟩
      refine Act.Sat.bind (completeStage_guards (hgrown.regular h) (hgrown.kept ▸ hitem) hstaged (hgrown.kept ▸ hopen)) ?_
      rintro _ u ⟨hkept, hlog, hstages, hregular⟩
      refine (unstage_guards hregular item).mono ?_ fun _ _ he => he
      rintro _ v ⟨hv, hnone⟩
      refine ⟨⟨hv.kept.trans (hkept.trans hgrown.kept), ?_, fun x hx => ?_⟩, hnone⟩
      · exact List.Subset.trans hgrown.log (List.Subset.trans hlog hv.log)
      · rcases List.mem_cons.mp (hstages (hv.stages hx)) with rfl | hold
        · exact absurd hx hnone
        · exact hgrown.stages hold
    · exact Act.Sat.pure ⟨hgrown, hgone rfl⟩

/-- When each item that may have left a stage was taken, no stage is left. -/
theorem cleanup_guards (h : Regular answers s.1.kept s.2) (hitems : ∀ i ∈ items, i ∈ s.1.kept.items)
    (hstages : ∀ x ∈ stages s.2, ∃ i ∈ items, i.staged = true ∧ i.stage = x)
    (hopen : s.1.kept.task.view.status.ended = false) :
    Guarded answers (cleanup items) s fun _ t => Grown s t ∧ stages t.2 = [] := by
  induction items generalizing s with
  | nil =>
    refine Act.Sat.pure ⟨(Still.refl s).grown, List.eq_nil_iff_forall_not_mem.mpr fun x hx => ?_⟩
    obtain ⟨i, hi, -⟩ := hstages x hx
    cases hi
  | cons item items ih =>
    refine Act.Sat.bind (R := fun _ t => Grown s t ∧ (item.staged = true → item.stage ∉ stages t.2)) ?_ ?_
    · refine guarded_provided (fun hstaged => ?_) fun hno => ⟨(Still.refl s).grown, fun hstaged => ?_⟩
      · exact (cleanupItem_guards h (hitems item List.mem_cons_self) hstaged hopen).mono (fun _ _ ht => ⟨ht.1, fun _ => ht.2⟩)
          fun _ _ he => he
      · rw [hno] at hstaged
        cases hstaged
    · rintro _ t ⟨hgrown, hgone⟩
      refine (ih (hgrown.regular h) (fun i hi => ?_) (fun x hx => ?_) (hgrown.kept ▸ hopen)).mono
        (fun _ _ hu => ⟨hgrown.trans hu.1, hu.2⟩) fun _ _ he => he
      · rw [hgrown.kept]
        exact hitems i (List.mem_cons_of_mem _ hi)
      · obtain ⟨i, hi, hstaged, rfl⟩ := hstages x (hgrown.stages hx)
        rcases List.mem_cons.mp hi with rfl | hi
        · exact absurd hx (hgone hstaged)
        · exact ⟨i, hi, hstaged, rfl⟩

theorem metadataItem_guards (h : Regular answers s.1.kept s.2) (item : Item) :
    Guarded answers (metadataItem item) s fun _ t => Grown s t := by
  refine Act.Sat.bind ((plain_guards h (by nofun) []).mono (fun _ _ ht => ht) fun _ _ _ => trivial) ?_
  rintro r t ⟨hkept, hlog⟩
  exact Act.Sat.pure (grown_cons hkept hlog (by nofun))

theorem metadata_guards (h : Regular answers s.1.kept s.2) (items : List Item) :
    Guarded answers (metadata items) s fun _ t => Grown s t := by
  induction items generalizing s with
  | nil => exact Act.Sat.pure (Still.refl s).grown
  | cons item items ih =>
    refine Act.Sat.bind (R := fun _ t => Grown s t) ?_ fun _ t ht => ?_
    · exact guarded_provided (fun _ => metadataItem_guards h item) fun _ => (Still.refl s).grown
    · exact (ih (ht.regular h)).mono (fun _ _ hu => ht.trans hu) fun _ _ he => he

-- ---------------------------------------------------------------------------
-- A run to its end
-- ---------------------------------------------------------------------------

theorem finish_guards (h : Between answers task items n s.1.kept s.2) (hall : items.length ≤ n) :
    Guarded answers (finish task items) s fun _ _ => True := by
  have hdone : ∀ i ∈ items, i.done = true := by
    intro i hi
    obtain ⟨m, hm⟩ := List.mem_iff_getElem?.mp hi
    exact h.before m i hm (Nat.lt_of_lt_of_le (List.getElem?_eq_some_iff.mp hm).1 hall)
  refine Act.Sat.bind (cleanup_guards h.regular (fun i hi => h.stored.symm ▸ hi) (h.stored ▸ h.regular.stages)
    h.working.running) ?_
  rintro _ t ⟨ht, hnone⟩
  refine Act.Sat.bind (metadata_guards (ht.regular h.regular) items.reverse) fun _ u hu => ?_
  have hgrown := ht.trans hu
  have hregular := hgrown.regular h.regular
  have hstored : u.1.kept.items = items := by rw [hgrown.kept, h.stored]
  have hcompleted : Regular answers (u.1.kept.saveTask task.completed) u.2 := by
    refine hregular.saveTask ?_ (fun _ hc => by cases hc) ?_ ?_ ?_
      (fun _ => ⟨h.workingTask.scanned, hstored.symm ▸ hdone⟩) fun _ => ?_
    · rw [hgrown.kept]
      exact h.alike.base
    · exact fun choice hp => h.regular.policy choice (h.alike.policy.symm.trans hp)
    · intro _ i hi hreplaces
      rw [hstored] at hi
      have hd := hreplaces.1
      rw [hdone i hi] at hd
      cases hd
    · intro hscanned
      rw [show task.completed.scanned = true from h.workingTask.scanned] at hscanned
      cases hscanned
    · exact List.subset_nil.mp (hnone ▸ hu.stages)
  exact (publish_guards hregular hcompleted).mono (fun _ _ _ => trivial) fun _ _ he => he

theorem runItems_guards (digest : Files.Bytes → String) (h : Regular answers s.1.kept s.2) (halike : Alike task s.1.kept.task)
    (hcurrent : task.current = s.1.kept.task.current) (hconflict : task.view.conflict = s.1.kept.task.view.conflict)
    (hscanned : task.cancel = false → task.scanned = true) :
    Guarded answers (runItems digest task s.1.kept.items) s fun _ _ => True := by
  generalize hcount : task.count s.1.kept.items = counted
  have hparts : Alike counted task ∧ counted.current = task.current ∧ counted.view.conflict = task.view.conflict ∧
      counted.view.status.ended = false := by
    rw [← hcount]
    exact ⟨⟨rfl, rfl, rfl, rfl⟩, rfl, rfl, rfl⟩
  obtain ⟨hlike, hcurrent', hconflict', hrunning⟩ := hparts
  have hstored : Alike counted s.1.kept.task := ⟨hlike.base.trans halike.base, hlike.policy.trans halike.policy,
    hlike.scanned.trans halike.scanned, hlike.cancel.trans halike.cancel⟩
  have hpublished := h.retask hstored (hcurrent'.trans hcurrent) (hconflict'.trans hconflict) (.inr hrunning)
  unfold runItems
  rw [hcount]
  refine Act.Sat.bind (publish_guards h hpublished) ?_
  rintro _ t ⟨hkept, hlog⟩
  have hregular : Regular answers t.1.kept t.2 := by
    rw [hkept, hlog]
    exact hpublished
  have htask : t.1.kept.task = counted := by rw [hkept]; rfl
  have hitems : t.1.kept.items = s.1.kept.items := by rw [hkept]; rfl
  split
  · next hcancel =>
    refine Act.Sat.bind (cleanup_guards hregular (fun i hi => hitems.symm ▸ hi) (hitems ▸ hregular.stages)
      (htask ▸ hrunning)) ?_
    rintro _ u ⟨hu, hnone⟩
    have htask' : u.1.kept.task = counted := by rw [hu.kept, htask]
    have hafter := hu.regular hregular
    have hcancelled : Regular answers (u.1.kept.saveTask counted.cancelled) u.2 := by
      refine hafter.saveTask ?_ ?_ ?_ ?_ ?_ (fun hc => by cases hc) fun _ => hnone
      · rw [htask']
        rfl
      · exact fun c hc => hafter.current c (htask' ▸ hc)
      · exact fun choice hp => hafter.policy choice (htask' ▸ hp)
      · intro hno
        rw [show counted.cancelled.cancel = true from hlike.cancel.trans hcancel] at hno
        cases hno
      · exact fun hs => htask' ▸ hafter.unscanned (htask' ▸ hs)
    exact (publish_guards hafter hcancelled).mono (fun _ _ _ => trivial) fun _ _ he => he
  · next hgoing =>
    have hcancel : task.cancel = false := by simpa using hgoing
    have hworking : Working counted := ⟨hlike.scanned.trans (hscanned hcancel), hlike.cancel.trans hcancel, hrunning⟩
    have hbetween : Between answers counted s.1.kept.items 0 t.1.kept t.2 := by
      refine ⟨hregular, hitems, fun _ _ _ hm => absurd hm (Nat.not_lt_zero _), htask.symm ▸ hworking, hworking, ?_, ?_⟩
      · exact htask.symm ▸ .refl counted
      · rw [htask]
    refine Act.Sat.bind (transferItems_guards digest _ hbetween (by omega)) fun r u hu => ?_
    cases r with
    | none => exact Act.Sat.pure trivial
    | some r =>
      obtain ⟨m, hm, hall⟩ := hu r rfl
      exact finish_guards hm hall

end

end RemoteCodex.Engine
