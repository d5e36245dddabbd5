import RemoteCodex.Engine.Holding

/-!
# The way of an item

What each part of the engine does with the item in hand, up to the point where
it is done with or left to the user.
-/

namespace RemoteCodex.Engine

open Interact Transfer
open Remote (ClientError)

section

variable {answers : List Answer} {s : Scene × List Asked} {task : Task} {items : List Item} {n : Nat} {item : Item}
  {log : List Asked}

theorem guarded_ensure {b : Bool} {e : ClientError} : Guarded answers (ensure b e) s fun _ t => b = true ∧ t = s :=
  Act.Sat.ensure (fun hb => ⟨hb, rfl⟩) fun _ => trivial

theorem guarded_provided {b : Bool} {x : E Unit} {Q : Unit → Scene × List Asked → Prop}
    (hx : b = true → Guarded answers x s Q) (hno : b = false → Q () s) : Guarded answers (provided b x) s Q := by
  cases b
  · exact Act.Sat.pure (hno rfl)
  · exact hx rfl

theorem guarded_addLength (a b : Nat) : Guarded answers (addLength a b) s fun _ t => t = s := by
  unfold addLength
  split
  · exact Act.Sat.pure rfl
  · exact Act.Sat.throw trivial

-- ---------------------------------------------------------------------------
-- Taking it up again
-- ---------------------------------------------------------------------------

theorem unstage_guards (h : Regular answers s.1.kept s.2) (item : Item) :
    Guarded answers (unstage item) s fun _ t => Grown s t ∧ item.stage ∉ stages t.2 := by
  refine Act.Sat.bind ((plain_guards h (by nofun) []).mono (fun _ _ ht => ht) fun _ _ _ => trivial) ?_
  rintro r t ⟨hkept, hlog⟩
  refine Act.Sat.pure ⟨grown_cons hkept hlog (by nofun), ?_⟩
  rw [hlog]
  exact fun hmem => (mem_stages_cancel.mp hmem).2 rfl

theorem sourceStamp_guards (h : Regular answers s.1.kept s.2) (root : Nat) (path : String) :
    Guarded answers (sourceStamp root path) s fun stamp t => Grown s t ∧ Said t.2 true root (.stat path) (.stat (some stamp)) := by
  refine Act.Sat.bind (stat_guards h true root path) ?_
  rintro r t ht
  cases r with
  | some stamp => exact Act.Sat.pure ht
  | none => exact Act.Sat.throw trivial

/-- The item with the stamp its source has now, if it is restarted. -/
structure Renewed (log : List Asked) (task : Task) (item : Item) (task' : Task) (item' : Item) : Prop where
  alike : Alike task' task
  current : task'.current = task.current
  view : task'.view.status = task.view.status ∧ task'.view.conflict = task.view.conflict
  item : ∃ stamp choice, item' = { item with stamp, choice } ∧ (choice = item.choice ∨ choice = none) ∧
    (item.restart = true → choice = none) ∧ (stamp = item.stamp ∨ stamp.kind = .file) ∧
    (Said log true item.root (.stat item.source) (.stat (some item.stamp)) →
      Said log true item.root (.stat item.source) (.stat (some stamp)))

theorem refresh_guards (h : Regular answers s.1.kept s.2) (task : Task) (item : Item) :
    Guarded answers (refresh task item) s fun r t => Grown s t ∧ Renewed t.2 task item r.1 r.2 := by
  unfold refresh
  split
  · refine Act.Sat.bind (sourceStamp_guards h _ _) ?_
    rintro stamp t ⟨ht, hsaid⟩
    refine Act.Sat.bind guarded_ensure ?_
    rintro _ t ⟨hfile, rfl⟩
    refine Act.Sat.bind (guarded_addLength _ _) ?_
    rintro total t rfl
    exact Act.Sat.pure ⟨ht, ⟨rfl, rfl, rfl, rfl⟩, rfl, ⟨rfl, rfl⟩, stamp, none, rfl, .inr rfl, fun _ => rfl,
      .inr (by simpa using hfile), fun _ => hsaid⟩
  · next hrestart =>
    exact Act.Sat.pure ⟨(Still.refl s).grown, .refl task, rfl, ⟨rfl, rfl⟩, item.stamp, item.choice, rfl, .inl rfl,
      fun hr => absurd hr hrestart, .inl rfl, fun hseen => hseen⟩

theorem again_guards (h : Holding answers task items n item s.1.kept s.2) :
    Guarded answers (again task item) s fun r t => Holding answers r.1 items n r.2 t.1.kept t.2 ∧
      r.2.restart = false ∧ r.1.view.conflict = task.view.conflict ∧ t.1.kept = s.1.kept := by
  unfold again
  split
  · refine Act.Sat.bind (R := fun _ t => Grown s t ∧ (item.prepared = true → item.stage ∉ stages t.2)) ?_ ?_
    · exact guarded_provided (fun _ => (unstage_guards h.regular item).mono (fun _ _ ht => ⟨ht.1, fun _ => ht.2⟩)
        fun _ _ he => he) fun hno => ⟨(Still.refl s).grown, fun hp => by rw [hno] at hp; cases hp⟩
    · rintro _ t ⟨ht, hgone⟩
      refine Act.Sat.bind (refresh_guards (ht.regular h.regular) task item) ?_
      rintro ⟨task', item'⟩ u ⟨hu, halike, hcurrent, hview, stamp, choice, hitem, hchoice, hrestart, hkind, hseen⟩
      refine Act.Sat.bind (quiet_guards ((ht.trans hu).regular h.regular) (fun _ => rfl) fun _ => rfl) ?_
      rintro token v ⟨hv, -⟩
      have hgrown := (ht.trans hu).trans hv.grown
      have hheld : Holding answers { task' with view := { task'.view with bytes := task'.view.bytes - item'.bytes } }
          items n item v.1.kept v.2 :=
        (h.grown hgrown).setTask ⟨halike.base, halike.policy, halike.scanned, halike.cancel⟩
          (fun c hc => h.currentTask c (hcurrent ▸ hc)) ((congrArg Status.ended hview.1).trans h.workingTask.running)
      refine Act.Sat.pure ⟨?_, rfl, hview.2, hgrown.kept⟩
      subst hitem
      refine hheld.setItem rfl rfl h.undone ?_ ?_ ?_ (fun hp => by cases hp) ?_ ?_
      · refine hheld.placed.change ⟨rfl, rfl, rfl⟩ (fun _ hb => hb) id .inl fun hunsupported => ?_
        rcases hkind with rfl | hfile
        · exact h.placed.unsupported hunsupported
        · rw [show stamp.kind = .unsupported from hunsupported] at hfile
          cases hfile
      · exact (hseen (h.seen.mono (ht.trans hu).log)).mono hv.grown.log
      · intro c hc
        rcases hchoice with rfl | rfl
        · exact h.choices c hc
        · cases hc
      · rintro ⟨-, -, hreplace⟩
        obtain rfl : choice = some .replace := hreplace
        refine ⟨h.undone, ?_, ?_⟩
        · cases hr : item.restart with
          | false => rfl
          | true => exact absurd (hrestart hr) (by nofun)
        · rcases hchoice with heq | hnone
          · exact heq.symm
          · cases hnone
      · intro hmem hstaged
        have hprepared : item.prepared = true := by
          rw [Item.staged, Bool.and_eq_true] at hstaged
          exact hstaged.1
        exact absurd ((hu.trans hv.grown).stages hmem) (hgone hprepared)
  · next hno =>
    refine Act.Sat.pure ⟨h, ?_, rfl, rfl⟩
    simp only [Bool.or_eq_true, not_or, Bool.not_eq_true] at hno
    exact hno.1

-- ---------------------------------------------------------------------------
-- The destination
-- ---------------------------------------------------------------------------

/-- An item that is not prepared changes in what `destination` decides. -/
theorem Holding.unprepared (h : Holding answers task items n item s.1.kept s.2) (hprepared : item.prepared = false)
    {item' : Item} (hindex : item'.index = item.index) (hparent : item'.parent = item.parent)
    (hundone : item'.done = false) (hplaced : item'.Placed s.2 answers task.base items)
    (hseen : Said s.2 true item'.root (.stat item'.source) (.stat (some item'.stamp)))
    (hchoices : ∀ choice, item'.choice = some choice → Chose answers choice) (hprepared' : item'.prepared = false)
    (hchosen : item'.Replaces → item.Replaces) : Holding answers task items n item' s.1.kept s.2 := by
  refine h.setItem hindex hparent hundone hplaced hseen hchoices (fun hp => ?_) hchosen fun _ hstaged => ?_
  · rw [hprepared'] at hp
    cases hp
  · rw [Item.staged, hprepared] at hstaged
    cases hstaged

theorem permitted_none (h : item.expected = none) : Permitted log answers item := by
  intro old hold
  rw [h] at hold
  cases hold

/-- What `destination` leaves: an item that is skipped or permitted, or one that is left to the user. -/
structure Met (answers : List Answer) (items : List Item) (n : Nat) (r : Task × Item × Bool)
    (t : Scene × List Asked) : Prop where
  holding : Holding answers r.1 items n r.2.1 t.1.kept t.2
  going : r.2.2 = true → r.2.1.skipped = true ∨ Permitted t.2 answers r.2.1
  asked : r.2.2 = false → r.2.1.Replaces →
    ∃ conflict, r.1.view.conflict = some conflict ∧ Shown answers conflict.expected

theorem unusedName_guards {original : String}
    (h : Holding answers task items n { item with target := original } s.1.kept s.2) (hprepared : item.prepared = false)
    (suffixes : List Nat) :
    Guarded answers (unusedName item original suffixes) s fun item' t =>
      Holding answers task items n item' t.1.kept t.2 ∧ item'.expected = none := by
  induction suffixes generalizing s item with
  | nil => exact Act.Sat.throw trivial
  | cons suffix rest ih =>
    refine Act.Sat.bind (stat_guards h.regular false item.root _) ?_
    rintro r t ⟨hgrown, -⟩
    cases r with
    | none =>
      refine Act.Sat.pure ⟨?_, rfl⟩
      have hheld := h.grown hgrown
      have hvaried : ∀ b, Varied b original → Varied b (alternate original suffix (item.stamp.kind = .directory)) :=
        fun _ hb => hb.alternate suffix _
      refine hheld.unprepared hprepared rfl rfl h.undone ?_ hheld.seen h.choices hprepared fun hr => hr
      exact hheld.placed.change ⟨rfl, rfl, rfl⟩ hvaried id .inl h.placed.unsupported
    | some stamp => exact ih (h.grown hgrown) hprepared

theorem askUser_alike (task : Task) (item : Item) (stamp : Stamp) : Alike (askUser task item stamp) task := ⟨rfl, rfl, rfl, rfl⟩

theorem Holding.asking (h : Holding answers task items n item s.1.kept s.2) (stamp : Stamp) :
    Holding answers (askUser task item stamp) items n item s.1.kept s.2 :=
  h.setTask (askUser_alike task item stamp) h.currentTask rfl

/-- What the choice of the user, or the policy, allows where `stamp` was seen. -/
theorem Holding.consent (h : Holding answers task items n item s.1.kept s.2) (hrestart : item.restart = false)
    (hconflict : task.view.conflict = s.1.kept.task.view.conflict) {stamp : Stamp}
    (hseen : ¬ (item.choice.isSome && task.view.conflict.any fun c => decide (c.expected ≠ stamp)) = true)
    (hchoice : item.choice.or task.policy = some .replace) : Consented answers stamp := by
  cases hitem : item.choice with
  | none =>
    rw [hitem, Option.none_or, h.alike.policy] at hchoice
    obtain ⟨a, ha, hreplace, hall⟩ := h.regular.policy _ hchoice
    exact ⟨a, ha, hreplace, .inr hall⟩
  | some choice =>
    rw [hitem, Option.some_or] at hchoice
    obtain ⟨conflict, heq, hshown⟩ := h.chosen ⟨h.undone, hrestart, hitem.trans hchoice⟩
    rw [← hconflict] at heq
    have hsame : conflict.expected = stamp := by simpa [hitem, heq] using hseen
    exact hsame ▸ hshown.consented

theorem Holding.chose (h : Holding answers task items n item s.1.kept s.2) {choice : Choice}
    (hchoice : item.choice.or task.policy = some choice) : Chose answers choice := by
  cases hitem : item.choice with
  | none =>
    rw [hitem, Option.none_or, h.alike.policy] at hchoice
    obtain ⟨a, ha, hchose, -⟩ := h.regular.policy _ hchoice
    exact ⟨a, ha, hchose⟩
  | some _ =>
    rw [hitem, Option.some_or] at hchoice
    exact h.choices _ (hitem.trans hchoice)

theorem destination_guards (h : Holding answers task items n item s.1.kept s.2) (hrestart : item.restart = false)
    (hconflict : task.view.conflict = s.1.kept.task.view.conflict) :
    Guarded answers (destination task item) s fun r t => Met answers items n r t := by
  unfold destination
  split
  · next hprepared => exact Act.Sat.pure ⟨h, fun _ => .inr (h.prepared hprepared).1, nofun⟩
  · next hprepared =>
    replace hprepared : item.prepared = false := by simpa using hprepared
    refine Act.Sat.bind (stat_guards h.regular _ _ _) ?_
    rintro r t ⟨hgrown, hsaid⟩
    have hheld := h.grown hgrown
    cases r with
    | none =>
      refine Act.Sat.pure ⟨?_, fun _ => .inr (permitted_none rfl), nofun⟩
      exact hheld.unprepared hprepared rfl rfl h.undone (hheld.placed.same ⟨rfl, rfl, rfl⟩ rfl rfl rfl) hheld.seen h.choices
        hprepared fun hr => hr
    | some stamp =>
      have hexpected : Holding answers task items n { item with expected := some stamp } t.1.kept t.2 :=
        hheld.unprepared hprepared rfl rfl h.undone (hheld.placed.same ⟨rfl, rfl, rfl⟩ rfl rfl rfl) hheld.seen h.choices
          hprepared fun hr => hr
      simp only
      split
      · refine Act.Sat.pure ⟨?_, nofun, fun _ hr => ?_⟩
        · exact (hheld.asking stamp).unprepared hprepared rfl rfl h.undone (hheld.placed.same ⟨rfl, rfl, rfl⟩ rfl rfl rfl)
            hheld.seen (fun _ hc => by cases hc) hprepared fun hr => by cases hr.2.2
        · cases hr.2.2
      · next hseen =>
        have hconsent : item.choice.or task.policy = some .replace → Consented answers stamp :=
          hheld.consent hrestart (by rw [hgrown.kept]; exact hconflict) hseen
        split
        · next hskip =>
          refine Act.Sat.pure ⟨?_, fun _ => .inl rfl, nofun⟩
          have hchose : Chose answers .skip := hheld.chose (Option.filter_eq_some_iff.mp hskip).1
          exact hheld.unprepared hprepared rfl rfl h.undone
            (hheld.placed.change ⟨rfl, rfl, rfl⟩ (fun _ hb => hb) (fun _ => rfl) (fun _ => .inr hchose) fun _ => rfl)
            hheld.seen h.choices hprepared fun hr => hr
        · next hreplace =>
          obtain ⟨hchoice, happlies⟩ := Option.filter_eq_some_iff.mp hreplace
          refine Act.Sat.pure ⟨hexpected, fun _ => .inr ?_, nofun⟩
          intro old hold
          obtain rfl := Option.some.inj hold
          have hfile : stamp.kind = .file := by
            simp only [Choice.applies, Bool.and_eq_true, decide_eq_true_eq] at happlies
            exact happlies.1
          exact ⟨hsaid, fun _ => ⟨hfile, hconsent hchoice⟩⟩
        · next hmerge =>
          obtain ⟨-, happlies⟩ := Option.filter_eq_some_iff.mp hmerge
          refine Act.Sat.pure ⟨hexpected, fun _ => .inr ?_, nofun⟩
          intro old hold
          obtain rfl := Option.some.inj hold
          refine ⟨hsaid, fun hkind => ?_⟩
          simp only [Choice.applies, Bool.and_eq_true, decide_eq_true_eq] at happlies
          rw [show item.stamp.kind = .file from hkind] at happlies
          cases happlies.2
        · refine Act.Sat.bind (unusedName_guards hheld hprepared _) ?_
          rintro item' u ⟨hu, hnone⟩
          exact Act.Sat.pure ⟨hu, fun _ => .inr (permitted_none hnone), nofun⟩
        · refine Act.Sat.pure ⟨hheld.asking stamp, nofun, fun _ hr => ?_⟩
          obtain ⟨conflict, heq, hshown⟩ := hheld.chosen hr
          rw [hgrown.kept, ← hconflict] at heq
          have hchoice : item.choice = some .replace := hr.2.2
          have hsame : conflict.expected = stamp := by simpa [hchoice, heq] using hseen
          exact ⟨_, rfl, hsame ▸ hshown⟩

theorem meet_guards (h : Holding answers task items n item s.1.kept s.2) (hrestart : item.restart = false)
    (hconflict : task.view.conflict = s.1.kept.task.view.conflict) :
    Guarded answers (meet task item) s fun r t => Met answers items n r t := by
  unfold meet
  split
  · next hskipped => exact Act.Sat.pure ⟨h, fun _ => .inl hskipped, nofun⟩
  · exact destination_guards h hrestart hconflict

-- ---------------------------------------------------------------------------
-- Directories
-- ---------------------------------------------------------------------------

theorem createDirectory_guards (h : Holding answers task items n item s.1.kept s.2)
    (hkind : item.stamp.kind = .directory) :
    Guarded answers (createDirectory item) s fun item' t =>
      Holding answers task items n item' t.1.kept t.2 ∧ item'.Finished t.2 := by
  refine Act.Sat.bind ((plain_guards h.regular (by nofun) []).mono (fun _ _ ht => ht) fun _ _ _ => trivial) ?_
  rintro r t ⟨hkept, hlog⟩
  refine Act.Sat.pure ⟨h.grown (grown_cons hkept hlog (by nofun)), ?_⟩
  unfold Item.Finished
  rw [hkind, hlog]
  exact .inl ⟨r.1, List.mem_cons_self⟩

theorem makeDirectory_guards (h : Holding answers task items n item s.1.kept s.2)
    (hkind : item.stamp.kind = .directory) (hskipped : item.skipped = false) (hpermitted : Permitted s.2 answers item) :
    Guarded answers (makeDirectory item) s fun item' t =>
      Holding answers task items n item' t.1.kept t.2 ∧ item'.Finished t.2 := by
  unfold makeDirectory
  split
  · have hprepared : Holding answers task items n { item with prepared := true } s.1.kept s.2 := by
      refine h.setItem rfl rfl h.undone (h.placed.same ⟨rfl, rfl, rfl⟩ rfl rfl rfl) h.seen h.choices ?_
        (fun hr => hr) fun _ hstaged => ?_
      · exact fun _ => ⟨hpermitted, hskipped, fun hk => by rw [hkind] at hk; cases hk⟩
      · rw [Item.staged, hkind, Bool.and_eq_true] at hstaged
        cases of_decide_eq_true hstaged.2
    refine Act.Sat.bind (hprepared.saveItem.mono (fun _ _ ht => ht) fun _ _ _ => trivial) fun _ t ht => ?_
    exact createDirectory_guards ht.toHolding hkind
  · next hno =>
    split
    · refine Act.Sat.bind (stat_guards h.regular _ _ _) ?_
      rintro r t ⟨hgrown, hsaid⟩
      cases r with
      | none => exact createDirectory_guards (h.grown hgrown) hkind
      | some stamp =>
        refine Act.Sat.pure ⟨h.grown hgrown, ?_⟩
        unfold Item.Finished
        rw [hkind]
        exact .inr ⟨stamp, hsaid⟩
    · next hprepared =>
      refine Act.Sat.pure ⟨h, ?_⟩
      cases hexpected : item.expected with
      | none => simp [hexpected, hprepared] at hno
      | some old =>
        unfold Item.Finished
        rw [hkind]
        exact .inr ⟨old, (hpermitted old hexpected).1⟩

-- ---------------------------------------------------------------------------
-- Files
-- ---------------------------------------------------------------------------

/-- A part of a copy: where it fails, the item in hand may still be saved. -/
abbrev Copying (answers : List Answer) (items : List Item) (n : Nat) (x : CopyE α) (s : Scene × List Asked)
    (Q : α → Scene × List Asked → Prop) : Prop :=
  Act.Sat recorded (Guards answers) x s Q fun e t => Holding answers e.2.1 items n e.2.2 t.1.kept t.2

theorem leaving_guards {α : Type} {x : E α} {Q : α → Scene × List Asked → Prop}
    {R : ClientError → Scene × List Asked → Prop} (h : Act.Sat recorded (Guards answers) x s Q R)
    (hR : ∀ e t, R e t → Holding answers task items n item t.1.kept t.2) :
    Copying answers items n (leaving task item x) s Q := Act.Sat.adapt h hR

theorem Holding.call (h : Holding answers task items n item s.1.kept s.2) {source : Bool} {command : Command}
    (hplain : source = false → ∀ target token stamp expected, command ≠ .prepare target token stamp expected)
    (bytes : Files.Bytes) :
    Copying answers items n (leaving task item (call source item.root command bytes)) s fun r t =>
      Holding answers task items n item t.1.kept t.2 ∧ s.2 ⊆ t.2 ∧ Said t.2 source item.root command r.1 := by
  refine leaving_guards ((plain_guards h.regular hplain bytes).mono (fun r t ht => ?_) fun _ _ ht => ht) ?_
  · exact ⟨h.grown (grown_cons ht.1 ht.2 hplain), ht.2 ▸ List.subset_cons_self _ _, ht.2 ▸ List.mem_cons_self⟩
  · exact fun _ _ ht => h.grown (grown_cons ht.1 ht.2 hplain)

theorem Holding.save (h : Holding answers task items n item s.1.kept s.2) :
    Copying answers items n (leaving task item (Engine.saveItem item)) s fun _ t =>
      Laid answers task items n item t.1.kept t.2 ∧ t.2 = s.2 := by
  obtain ⟨hitems, hregular⟩ := h.put
  refine leaving_guards ((saveItem_guards h.regular hregular).mono ?_ fun _ _ ht => ht) fun _ _ ht => h.still ht
  rintro _ t ⟨hkept, hlog⟩
  rw [hkept, hlog]
  exact ⟨⟨{ h with regular := hregular, stored := ⟨item, hitems⟩ }, hitems⟩, rfl⟩

theorem Holding.quiet (h : Holding answers task items n item s.1.kept s.2) {op : EngineOp}
    (hquiet : ∀ a, (Scene.exec op a).2 = a) (hnote : ∀ r, note op r = []) :
    Copying answers items n (leaving task item (ask op)) s fun _ t => Still s t :=
  leaving_guards (R := fun _ _ => False) (ask_guards h.regular hquiet hnote) fun _ _ => False.elim

theorem Holding.report (h : Holding answers task items n item s.1.kept s.2) (late : Bool) :
    Copying answers items n (provided late (leaving task item (progress task.view))) s fun _ t => Still s t := by
  cases late
  · exact Act.Sat.pure (.refl s)
  · exact h.quiet (fun _ => rfl) fun _ => rfl

theorem Holding.ensure {b : Bool} {e : ClientError × Task × Item}
    (h : Holding answers e.2.1 items n e.2.2 s.1.kept s.2) :
    Copying answers items n (Interact.ensure b e) s fun _ t => b = true ∧ t = s :=
  Act.Sat.ensure (fun hb => ⟨hb, rfl⟩) fun _ => h

theorem Holding.setBytes (h : Holding answers task items n item s.1.kept s.2) (bytes : Nat) :
    Holding answers task items n { item with bytes } s.1.kept s.2 :=
  h.setItem rfl rfl h.undone (h.placed.same ⟨rfl, rfl, rfl⟩ rfl rfl rfl) h.seen h.choices h.prepared
    (fun hr => hr) fun _ hstaged => ⟨hstaged, rfl⟩

theorem blocks_guards (digest : Files.Bytes → String) (left : Nat) {offset : Nat}
    (h : Holding answers task items n item s.1.kept s.2) :
    Copying answers items n (blocks digest left task item offset) s fun r t =>
      Holding answers r.1 items n r.2 t.1.kept t.2 ∧ r.2.stamp = item.stamp := by
  induction left generalizing s task item offset with
  | zero => exact .pure ⟨h, rfl⟩
  | succ left ih =>
    unfold blocks
    split
    · refine .bind (h.call (by nofun) []) ?_
      rintro ⟨reply, bytes⟩ t ⟨ht, -, -⟩
      cases reply with
      | data d =>
        refine .bind ht.ensure ?_
        rintro _ t ⟨-, rfl⟩
        refine .bind (ht.call (by nofun) bytes) ?_
        rintro ⟨reply, rest⟩ u ⟨hu, -, -⟩
        cases reply with
        | ready confirmed complete =>
          cases complete with
          | false =>
            refine .bind hu.ensure ?_
            rintro _ u ⟨-, rfl⟩
            have hnext : Holding answers { task with view := { task.view with bytes := task.view.bytes + bytes.length } }
                items n { item with bytes := confirmed } u.1.kept u.2 :=
              (hu.setBytes confirmed).setTask ⟨rfl, rfl, rfl, rfl⟩ hu.currentTask hu.workingTask.running
            refine .bind hnext.save ?_
            rintro _ v ⟨hv, -⟩
            refine .bind (hv.toHolding.quiet (fun _ => rfl) fun _ => rfl) fun late w hw => ?_
            have hheld := hv.toHolding.still hw
            exact .bind (hheld.report late) fun _ x hx => ih (hheld.still hx)
          | true => exact .throw hu
        | _ => exact .throw hu
      | _ => exact .throw ht
    · exact .pure ⟨h, rfl⟩

theorem verify_guards (h : Holding answers task items n item s.1.kept s.2) (hkind : item.stamp.kind = .file) :
    Copying answers items n (verify task item) s fun r t =>
      Holding answers r.1 items n r.2 t.1.kept t.2 ∧ r.2.Finished t.2 := by
  have hnamed : Holding answers { task with view := { task.view with message := some ("Verifying " ++ item.target) } }
      items n item s.1.kept s.2 := h.setTask ⟨rfl, rfl, rfl, rfl⟩ h.currentTask h.workingTask.running
  refine .bind (hnamed.quiet (fun _ => rfl) fun _ => rfl) fun _ t ht => ?_
  refine .bind ((hnamed.still ht).call (by nofun) []) ?_
  rintro ⟨reply, bytes⟩ u ⟨hu, -, hhash⟩
  cases reply with
  | hash d =>
    refine .bind (hu.call (by nofun) []) ?_
    rintro ⟨reply, rest⟩ v ⟨hv, hlog, hcommit⟩
    refine .pure ⟨hv.setTask ⟨rfl, rfl, rfl, rfl⟩ hv.currentTask hv.workingTask.running, ?_⟩
    unfold Item.Finished
    rw [hkind]
    exact .inl ⟨d, reply, hhash.mono hlog, hcommit⟩
  | _ => exact .throw hu

/-- A `Prepare` for an item that is stored as prepared. -/
theorem Laid.staging (h : Laid answers task items n item s.1.kept s.2) (hprepared : item.prepared = true)
    (hkind : item.stamp.kind = .file) (r : Option (Except ClientError Reply)) :
    Holding answers task items n item s.1.kept
      (⟨false, item.root, .prepare item.target item.token item.stamp item.expected, r⟩ :: s.2) := by
  have hstaged : item.staged = true := by simp [Item.staged, hprepared, hkind]
  have hmem : item ∈ items.set n item := List.mem_iff_getElem?.mpr ⟨n, List.getElem?_set_self h.lt⟩
  have hregular := h.regular.staging (h.same ▸ hmem) hstaged h.working.running r
  exact { h.toHolding with
    regular := hregular
    placed := h.placed.mono (List.subset_cons_self _ _) (List.Subset.refl _)
    seen := h.seen.mono (List.subset_cons_self _ _)
    prepared := fun hp => ⟨(h.prepared hp).1.mono (List.subset_cons_self _ _) (List.Subset.refl _), (h.prepared hp).2⟩
    stages := h.same ▸ hregular.stages }

theorem prepare_guards (h : Laid answers task items n item s.1.kept s.2) (hprepared : item.prepared = true)
    (hkind : item.stamp.kind = .file) :
    Copying answers items n
      (leaving task item (call false item.root (.prepare item.target item.token item.stamp item.expected))) s fun r t =>
      Holding answers task items n item t.1.kept t.2 ∧
        Said t.2 false item.root (.prepare item.target item.token item.stamp item.expected) r.1 := by
  have hstaging := h.staging hprepared hkind
  refine leaving_guards ((call_guards [] (fun r => (hstaging r).regular) ?_).mono (fun r t ht => ?_) fun _ _ ht => ht) ?_
  · exact fun _ _ _ _ _ hcommand => (h.prepared hprepared).1.prepare hkind hcommand
  · rw [ht.1, ht.2]
    exact ⟨hstaging _, List.mem_cons_self⟩
  · intro e t ht
    rw [ht.1, ht.2]
    exact hstaging _

theorem file_guards (digest : Files.Bytes → String) (h : Holding answers task items n item s.1.kept s.2)
    (hkind : item.stamp.kind = .file) (hskipped : item.skipped = false) (hpermitted : Permitted s.2 answers item) :
    Copying answers items n (file digest task item) s fun r t =>
      Holding answers r.1 items n r.2 t.1.kept t.2 ∧ r.2.Finished t.2 := by
  have hprepared : Holding answers task items n { item with prepared := true } s.1.kept s.2 := by
    refine h.setItem rfl rfl h.undone (h.placed.same ⟨rfl, rfl, rfl⟩ rfl rfl rfl) h.seen h.choices ?_
      (fun hr => hr) fun _ hstaged => ⟨by simp [Item.staged, hkind], rfl⟩
    exact fun _ => ⟨hpermitted, hskipped, fun hk => by rw [hkind] at hk; cases hk⟩
  refine .bind hprepared.save ?_
  rintro _ t ⟨ht, -⟩
  refine .bind (prepare_guards ht rfl hkind) ?_
  rintro ⟨reply, bytes⟩ u ⟨hu, hsaid⟩
  cases reply with
  | ready offset complete =>
    refine .bind hu.ensure ?_
    rintro _ u ⟨-, rfl⟩
    have hoffset : Holding answers
        { task with view := { task.view with bytes := saturatingAdd (task.view.bytes - item.bytes) offset } } items n
        { item with bytes := offset, prepared := true } u.1.kept u.2 :=
      (hu.setBytes offset).setTask ⟨rfl, rfl, rfl, rfl⟩ hu.currentTask hu.workingTask.running
    refine .bind hoffset.save ?_
    rintro _ v ⟨hv, hlog⟩
    cases complete with
    | true =>
      refine .pure ⟨hv.toHolding, ?_⟩
      unfold Item.Finished
      rw [show ({ item with bytes := offset, prepared := true } : Item).stamp.kind = .file from hkind, hlog]
      exact .inr ⟨offset, hsaid⟩
    | false =>
      refine .bind (blocks_guards digest _ hv.toHolding) ?_
      rintro ⟨task', item'⟩ w ⟨hw, hstamp⟩
      exact verify_guards hw ((congrArg Stamp.kind hstamp).trans hkind)
  | _ => exact .throw hu

end

end RemoteCodex.Engine
