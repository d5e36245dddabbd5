import RemoteCodex.Engine.Held

/-!
# The items of a run

Each item is taken up, carried through and concluded with the counters kept in
step; the run then publishes what it has counted.
-/

namespace RemoteCodex.Engine

open Interact Transfer
open Remote (ClientError)

section

variable {C : Scene → Prop} {s : Scene} {task : Task} {items : List Item} {n : Nat} {item : Item} {k : Stored}

-- ---------------------------------------------------------------------------
-- Removing what a run leaves
-- ---------------------------------------------------------------------------

theorem unstage_sat (h : Books s.kept) (item : Item) : Runs C (unstage item) s fun _ t => t.kept = s.kept := by
  refine Act.Sat.bind (Runs.of (call_sat h _ _ _ _) fun _ _ h => h) ?_
  rintro _ t ⟨hkept, -⟩
  exact Act.Sat.pure hkept

/-- A call whose failure is looked at. -/
theorem attempt_sat (h : Books s.kept) (source : Bool) (root : Nat) (command : Command) (bytes : Files.Bytes) :
    Runs C (attempt (call source root command bytes)) s fun _ t => t.kept = s.kept :=
  Act.Sat.attempt ((call_sat h source root command bytes).mono (fun _ _ ht => ht.1) fun _ _ ht => ht)

theorem check_sat {b : Bool} {e : ClientError} : Runs C (ensure b e) s fun _ t => b = true ∧ t = s :=
  Act.Sat.ensure (fun hb => ⟨hb, rfl⟩) fun _ => trivial

theorem completeStage_sat (h : Books s.kept) (item : Item) :
    Runs C (completeStage item) s fun _ t => t.kept = s.kept := by
  refine Act.Sat.bind (attempt_sat h _ _ _ _) fun r t ht => ?_
  cases r with
  | ok r => exact Act.Sat.pure ht
  | error e => exact Runs.of check_sat fun _ _ hu => hu.2 ▸ ht

theorem cleanupItem_sat (h : Books s.kept) (item : Item) :
    Runs C (cleanupItem item) s fun _ t => t.kept = s.kept := by
  refine Act.Sat.bind (attempt_sat h _ _ _ _) fun r t ht => ?_
  cases r with
  | ok r => exact Act.Sat.pure ht
  | error e =>
    refine Act.Sat.bind check_sat ?_
    rintro _ t ⟨-, rfl⟩
    refine Act.Sat.bind (completeStage_sat (ht ▸ h) item) fun _ u hu => ?_
    have hkept : u.kept = s.kept := hu.trans ht
    exact Runs.of (unstage_sat (hkept ▸ h) item) fun _ _ hv => hv.trans hkept

theorem cleanup_sat (h : Books s.kept) (items : List Item) : Runs C (cleanup items) s fun _ t => t.kept = s.kept := by
  induction items generalizing s with
  | nil => exact Act.Sat.pure rfl
  | cons item items ih =>
    refine Act.Sat.bind (R := fun _ t => t.kept = s.kept) ?_ fun _ t ht => ?_
    · exact Runs.provided (fun _ => cleanupItem_sat h item) fun _ => rfl
    · exact Runs.of (ih (ht ▸ h)) fun _ _ hu => hu.trans ht

theorem metadataItem_sat (h : Books s.kept) (item : Item) :
    Runs C (metadataItem item) s fun _ t => t.kept = s.kept := by
  refine Act.Sat.bind (Runs.of (call_sat h _ _ _ _) fun _ _ h => h) ?_
  rintro _ t ⟨hkept, -⟩
  exact Act.Sat.pure hkept

theorem metadata_sat (h : Books s.kept) (items : List Item) : Runs C (metadata items) s fun _ t => t.kept = s.kept := by
  induction items generalizing s with
  | nil => exact Act.Sat.pure rfl
  | cons item items ih =>
    refine Act.Sat.bind (R := fun _ t => t.kept = s.kept) ?_ fun _ t ht => ?_
    · exact Runs.provided (fun _ => metadataItem_sat h item) fun _ => rfl
    · exact Runs.of (ih (ht ▸ h)) fun _ _ hu => hu.trans ht

-- ---------------------------------------------------------------------------
-- Taking an item up
-- ---------------------------------------------------------------------------

/-- A restart of what was not a file, though it had a length, does not find a file. -/
def Steady (C : Scene → Prop) (item : Item) (k : Stored) : Prop :=
  item.restart = true → item.stamp.kind ≠ .file → item.stamp.length ≠ 0 →
    ∀ t : Scene, t.kept = k → C t → ∀ stamp bytes,
      t.around.answer true item.root (.stat item.source) [] = .ok (.stat (some stamp), bytes) → stamp.kind ≠ .file

/-- What another look at the source changes. -/
structure Refreshed (task : Task) (item : Item) (task' : Task) (item' : Item) : Prop where
  counters : task'.view.bytes = task.view.bytes ∧ task'.view.completed = task.view.completed ∧
    task'.view.skipped = task.view.skipped ∧ task'.view.files = task.view.files
  status : task'.view.status = task.view.status
  scanned : task'.scanned = task.scanned
  rest : item'.index = item.index ∧ item'.bytes = item.bytes ∧ item'.done = item.done
  total : task'.view.total + item.size = task.view.total + item'.size
  bound : task'.view.total ≤ U64_MAX
  placed : item'.stamp.kind = .unsupported → item'.skipped = true

theorem refresh_sat (h : Held task items n item s.kept) (hsteady : Steady C item s.kept) :
    Runs C (refresh task item) s fun r t => t.kept = s.kept ∧ Refreshed task item r.1 r.2 := by
  unfold refresh
  split
  · next hrestart =>
    refine Act.Sat.bind (sourceStamp_sat h.books _ _) ?_
    rintro stamp t ⟨ht, hc, bytes, hanswer⟩
    refine Act.Sat.bind check_sat ?_
    rintro _ t ⟨hfile, rfl⟩
    have hkind : stamp.kind = .file := by simpa using hfile
    refine Act.Sat.bind (addLength_sat _ _ (Q := fun total u => u = t ∧
      total = task.view.total - item.stamp.length + stamp.length ∧ total ≤ U64_MAX) fun c hsum hle => ⟨rfl, hsum, hle⟩) ?_
    rintro total u ⟨rfl, htotal, hle⟩
    refine Act.Sat.pure ⟨ht, ⟨rfl, rfl, rfl, rfl⟩, rfl, rfl, ⟨rfl, rfl, rfl⟩, ?_, hle, fun hk => ?_⟩
    · show total + item.size = task.view.total + Item.size { item with stamp, choice := none }
      have hnew : Item.size { item with stamp, choice := none } = stamp.length := by simp [Item.size, hkind]
      rw [hnew, htotal]
      by_cases hold : item.stamp.kind = .file
      · have hsize : item.size = item.stamp.length := by simp [Item.size, hold]
        have hpart : item.size ≤ task.view.total := by
          rw [h.tally.total]
          exact le_sum Item.size (List.mem_iff_getElem?.mpr ⟨_, h.get⟩)
        omega
      · have hsize : item.size = 0 := by simp [Item.size, hold]
        have hzero : item.stamp.length = 0 := by
          by_contra hne
          exact hsteady hrestart hold hne _ ht hc stamp bytes hanswer hkind
        omega
    · have hk' : stamp.kind = .unsupported := hk
      rw [hkind] at hk'
      cases hk'
  · exact Act.Sat.pure ⟨rfl, ⟨rfl, rfl, rfl, rfl⟩, rfl, rfl, ⟨rfl, rfl, rfl⟩, rfl, h.bound, h.placed⟩

/-- A restart or another staging takes the bytes of the item back. -/
theorem restage_sat {task' : Task} {item' : Item} (h : Held task items n item s.kept)
    (hr : Refreshed task item task' item') :
    Runs C (restage task' item') s fun r t => Held r.1 items n r.2 t.kept := by
  refine Act.Sat.bind (newToken_sat h.books) fun token t ht => ?_
  obtain ⟨hbytes, hcompleted, hskipped, hfiles⟩ := hr.counters
  obtain ⟨hindex, hitem, hdone⟩ := hr.rest
  have hpart := (h.room (Nat.zero_le _)).1
  refine Act.Sat.pure ((h.keep ht).change hindex ⟨Nat.zero_le _, fun hk => .inl (hr.placed hk)⟩ hr.placed
    (hdone.trans h.undone) ?_ hcompleted hskipped hr.total hfiles hr.scanned hr.bound (hr.status ▸ h.running))
  show task'.view.bytes - item'.bytes + item.bytes = task.view.bytes + 0
  omega

theorem again_sat (h : Held task items n item s.kept) (hsteady : Steady C item s.kept) :
    Runs C (again task item) s fun r t => Held r.1 items n r.2 t.kept := by
  unfold again
  split
  · refine Act.Sat.bind (R := fun _ t => t.kept = s.kept) ?_ fun _ t ht => ?_
    · exact Runs.provided (fun _ => unstage_sat h.books item) fun _ => rfl
    · refine Act.Sat.bind (refresh_sat (h.keep ht) (ht ▸ hsteady)) ?_
      rintro ⟨task', item'⟩ u ⟨hu, hr⟩
      exact restage_sat (h.keep (hu.trans ht)) hr
  · exact Act.Sat.pure h

-- ---------------------------------------------------------------------------
-- The destination
-- ---------------------------------------------------------------------------

theorem Held.asked (h : Held task items n item k) (stamp : Stamp) : Held (askUser task item stamp) items n item k :=
  h.same rfl rfl rfl h.undone h.placed rfl rfl rfl rfl rfl rfl Status.noConfusion

theorem look_sat (h : Books s.kept) (source : Bool) (root : Nat) (path : String) :
    Runs C (stat source root path) s fun _ t => t.kept = s.kept := Runs.of (stat_sat h source root path) fun _ _ ht => ht.1

theorem unusedName_sat (h : Held task items n item s.kept) (original : String) (suffixes : List Nat) :
    Runs C (unusedName item original suffixes) s fun item' t => Held task items n item' t.kept := by
  induction suffixes generalizing s item with
  | nil => exact Act.Sat.throw trivial
  | cons suffix rest ih =>
    refine Act.Sat.bind (look_sat h.books _ _ _) fun r t ht => ?_
    cases r with
    | none => exact Act.Sat.pure ((h.keep ht).same rfl rfl rfl h.undone h.placed rfl rfl rfl rfl rfl rfl h.running)
    | some stamp => exact ih ((h.keep ht).same rfl rfl rfl h.undone h.placed rfl rfl rfl rfl rfl rfl h.running)

theorem destination_sat (h : Held task items n item s.kept) :
    Runs C (destination task item) s fun r t => Held r.1 items n r.2.1 t.kept := by
  unfold destination
  split
  · exact Act.Sat.pure h
  · refine Act.Sat.bind (look_sat h.books _ _ _) fun r t ht => ?_
    have hheld := h.keep ht
    cases r with
    | none => exact Act.Sat.pure (hheld.same rfl rfl rfl h.undone h.placed rfl rfl rfl rfl rfl rfl h.running)
    | some stamp =>
      simp only
      split
      · exact Act.Sat.pure ((hheld.asked stamp).same rfl rfl rfl h.undone h.placed rfl rfl rfl rfl rfl rfl
          Status.noConfusion)
      · split
        · exact Act.Sat.pure (hheld.same rfl rfl rfl h.undone (fun _ => rfl) rfl rfl rfl rfl rfl rfl h.running)
        · exact Act.Sat.pure (hheld.same rfl rfl rfl h.undone h.placed rfl rfl rfl rfl rfl rfl h.running)
        · exact Act.Sat.pure (hheld.same rfl rfl rfl h.undone h.placed rfl rfl rfl rfl rfl rfl h.running)
        · exact Act.Sat.bind (unusedName_sat hheld item.target _) fun _ _ hu => Act.Sat.pure hu
        · exact Act.Sat.pure (hheld.asked stamp)

theorem meet_sat (h : Held task items n item s.kept) :
    Runs C (meet task item) s fun r t => Held r.1 items n r.2.1 t.kept := by
  unfold meet
  split
  · exact Act.Sat.pure h
  · exact destination_sat h

-- ---------------------------------------------------------------------------
-- Carrying it through
-- ---------------------------------------------------------------------------

theorem createDirectory_sat (h : Held task items n item s.kept) :
    Runs C (createDirectory item) s fun item' t => Held task items n item' t.kept := by
  refine Act.Sat.bind (Runs.of (call_sat h.books _ _ _ _) fun _ _ ht => h.keep ht.1) fun _ _ ht => Act.Sat.pure ht

theorem makeDirectory_sat (h : Held task items n item s.kept) :
    Runs C (makeDirectory item) s fun item' t => Held task items n item' t.kept := by
  unfold makeDirectory
  split
  · have hprepared : Held task items n { item with prepared := true } s.kept :=
      h.same rfl rfl rfl h.undone h.placed rfl rfl rfl rfl rfl rfl h.running
    exact Act.Sat.bind (Runs.of hprepared.saveItem fun _ _ ht => ht.toHeld) fun _ _ ht => createDirectory_sat ht
  · split
    · refine Act.Sat.bind (look_sat h.books _ _ _) fun r t ht => ?_
      cases r with
      | none => exact createDirectory_sat (h.keep ht)
      | some _ => exact Act.Sat.pure (h.keep ht)
    · exact Act.Sat.pure h

theorem lift_sat {α : Type} {x : CopyE α} {Q : Except (ClientError × Task × Item) α → Scene → Prop}
    (h : Act.Sat (machine C) (Guar Counts) x s (fun a => Q (.ok a)) fun e => Q (.error e)) :
    Runs C (ExceptT.lift x.run : Engine.E (Except (ClientError × Task × Item) α)) s Q := by
  unfold Runs Act.Sat at *
  rw [ExceptT.run_lift]
  change Prog.Sat _ _ _ (x.run >>= fun r => Pure.pure (Except.ok r)) s
  refine Prog.Sat.bind (Prog.Sat.mono (fun _ _ _ h => h) ?_ h)
  rintro (e | r) t h <;> exact h

theorem copyFile_sat (digest : Files.Bytes → String) (h : Held task items n item s.kept)
    (hkind : item.stamp.kind = .file) :
    Runs C (copyFile digest task item) s fun r t => ∀ x ∈ r, Held x.1 items n x.2 t.kept := by
  refine Act.Sat.bind (Runs.of h.saveItem fun _ _ ht => ht.toHeld) fun _ t ht => ?_
  refine Act.Sat.bind (lift_sat (Q := fun r u => match r with
    | .ok (task, item) => Held task items n item u.kept
    | .error (_, task, item) => Held task items n item u.kept) ((file_sat digest ht hkind).mono (fun _ _ hr => hr.1)
    fun _ _ he => he)) ?_
  rintro (⟨e, task', item'⟩ | ⟨task', item'⟩) u hu
  · simp only at hu ⊢
    split
    · refine Act.Sat.bind (look_sat hu.books _ _ _) fun r v hv => ?_
      have hheld := hu.keep hv
      cases r with
      | some stamp =>
        have hasked : Held (askUser task' item' stamp) items n { item' with choice := none } v.kept :=
          (hheld.asked stamp).same rfl rfl rfl hheld.undone hheld.placed rfl rfl rfl rfl rfl rfl Status.noConfusion
        refine Act.Sat.bind (Runs.of hasked.saveItem fun _ _ hw => hw) fun _ w hw => ?_
        refine Act.Sat.bind hw.publish fun _ _ _ => Act.Sat.pure ?_
        exact fun x hx => by cases hx
      | none => exact Act.Sat.throw trivial
    · exact Act.Sat.throw trivial
  · refine Act.Sat.pure fun x hx => ?_
    cases hx
    exact hu

theorem carry_sat (digest : Files.Bytes → String) (h : Held task items n item s.kept) :
    Runs C (carry digest task item) s fun r t => ∀ x ∈ r, Held x.1 items n x.2 t.kept := by
  unfold carry
  split
  · refine Act.Sat.pure fun x hx => ?_
    cases hx
    exact h
  · next hskipped =>
    split
    · refine Act.Sat.bind (makeDirectory_sat h) fun item' t ht => Act.Sat.pure fun x hx => ?_
      cases hx
      exact ht
    · next hdirectory =>
      refine copyFile_sat digest h ?_
      cases hk : item.stamp.kind with
      | file => rfl
      | directory => exact absurd hk hdirectory
      | unsupported => exact absurd (h.placed hk) hskipped

-- ---------------------------------------------------------------------------
-- The items one after another
-- ---------------------------------------------------------------------------

/-- The task and the items between two items, of which the first `n` are done with. -/
structure Carried (task : Task) (items : List Item) (n : Nat) (k : Stored) : Prop where
  books : Books k
  scanned : k.task.scanned = true
  taskScanned : task.scanned = true
  stored : k.items = items
  files : task.view.files = items.length
  tally : Tally task.view items
  done : ∀ (m : Nat) (i : Item), items[m]? = some i → m < n → i.done = true
  bound : task.view.total ≤ U64_MAX
  running : task.view.status ≠ .completed

theorem conclude_sat (h : Held task items n item s.kept)
    (hdone : ∀ (m : Nat) (i : Item), items[m]? = some i → m < n → i.done = true) :
    Runs C (conclude task item) s fun r t => Carried r.1 (items.set n r.2) (n + 1) t.kept := by
  have hfine : Item.Fine { item with done := true } := ⟨h.fine.bytes, h.fine.unsupported⟩
  obtain ⟨old, hold⟩ := h.stored
  have hlength : s.kept.items.length = items.length := by rw [hold, List.length_set]
  obtain ⟨hbooks, hitems⟩ := h.books.saveItem h.scanned hfine h.index
    (by rw [hlength]; exact h.lt)
  rw [hold, List.set_set] at hitems
  show Runs C (do
    saveItem { item with done := true }
    publish (task.concluded item.skipped)
    pure (task.concluded item.skipped, { item with done := true })) s _
  generalize htask : task.concluded item.skipped = task'
  have hparts : task'.view.files = task.view.files ∧ task'.view.total = task.view.total ∧
      task'.view.status = task.view.status ∧ task'.view.bytes = task.view.bytes ∧ task'.scanned = task.scanned := by
    rw [← htask]
    cases hs : item.skipped <;> exact ⟨rfl, rfl, rfl, rfl, rfl⟩
  obtain ⟨hfiles, htotal, hstatus, hbytes, hsame⟩ := hparts
  have hscanned : task'.scanned = true := hsame.trans h.taskScanned
  have hcounts : task'.view.completed = task.view.completed + Item.completes { item with done := true } ∧
      task'.view.skipped = task.view.skipped + Item.skips { item with done := true } := by
    rw [← htask]
    cases hs : item.skipped <;> simp [Task.concluded, Item.completes, Item.skips]
  have hnone : item.completes = 0 ∧ item.skips = 0 := by simp [Item.completes, Item.skips, h.undone]
  have htally : Tally task'.view (items.set n { item with done := true }) := by
    have hchange := h.tally.change h.get (w := task'.view) (y := { item with done := true }) (congrArg (· + _) hbytes)
      (by omega) (by omega) (congrArg (· + _) htotal)
    rwa [List.set_set] at hchange
  have hrunning : task'.view.status ≠ .completed := hstatus ▸ h.running
  refine Act.Sat.bind (Runs.of (saveItem_sat h.books hbooks) fun _ _ ht => ht) fun _ t ht => ?_
  have hsaved : t.kept.items = items.set n { item with done := true } := by rw [ht, hitems]
  have hlength' : t.kept.items.length = items.length := by rw [hsaved, List.length_set]
  have htally' : Tally task'.view t.kept.items := hsaved ▸ htally
  have hafter : Books (t.kept.saveTask task') := by
    refine (ht ▸ hbooks : Books t.kept).saveTask htally'.total (fun _ => ?_) (fun hs => ?_) (htotal ▸ h.bound)
    · rw [hfiles, h.files, hlength']
    · rw [hscanned] at hs
      cases hs
  have haccounted : Accounted task'.view t.kept.items := by
    refine htally'.accounted ?_ fun hs => absurd hs hrunning
    rw [hfiles, h.files, ← hlength']
    exact htally'.within
  refine Act.Sat.bind (Runs.of (publish_sat (ht ▸ hbooks) hafter fun _ => haccounted) fun _ _ hu => hu) fun _ u hu => ?_
  refine Act.Sat.pure ⟨hu ▸ hafter, hu ▸ hscanned, hscanned, ?_, ?_, htally, fun m i hi hm => ?_, htotal ▸ h.bound,
    hrunning⟩
  · rw [hu]
    exact hsaved
  · rw [hfiles, h.files, List.length_set]
  · rw [List.getElem?_set] at hi
    split at hi
    · split at hi
      · cases hi
        rfl
      · cases hi
    · exact hdone m i hi (by omega)

theorem place_index (task : Task) (items : List Item) (item : Item) : (place task items item).index = item.index := by
  unfold place
  split <;> rfl

theorem place_same (task : Task) (items : List Item) (item : Item) :
    (place task items item).stamp = item.stamp ∧ (place task items item).bytes = item.bytes ∧
      (place task items item).done = item.done ∧ (place task items item).restart = item.restart ∧
      (place task items item).root = item.root ∧ (place task items item).source = item.source := by
  unfold place
  split <;> exact ⟨rfl, rfl, rfl, rfl, rfl, rfl⟩

theorem place_unsupported (h : item.Fine) (hk : (place task items item).stamp.kind = .unsupported) :
    (place task items item).skipped = true := by
  rw [(place_same task items item).1] at hk
  unfold place
  by_cases hempty : item.target.isEmpty = true
  · rw [if_pos hempty]
    simp [hk]
  · rw [if_neg hempty]
    exact (h.unsupported hk).resolve_right hempty

/-- Whatever is around, a restart of a stored item that was not a file, though it had a length, finds no file. -/
def Calm (s : Scene) : Prop :=
  ∀ i ∈ s.kept.items, i.restart = true → i.done = false → i.stamp.kind ≠ .file → i.stamp.length ≠ 0 →
    ∀ stamp bytes, s.around.answer true i.root (.stat i.source) [] = .ok (.stat (some stamp), bytes) →
      stamp.kind ≠ .file

theorem Carried.held (h : Carried task items n k) (hitem : items[n]? = some item) (hdone : item.done = false) :
    Held { task with current := some item.index } items n (place task items item) k := by
  obtain ⟨hstamp, hbytes, hdone', -, -, -⟩ := place_same task items item
  have hmem : item ∈ k.items := h.stored ▸ List.mem_of_getElem? hitem
  have hfine := h.books.fine item hmem
  have hindex : (place task items item).index = n := by
    rw [place_index]
    exact h.books.indexed n item (h.stored ▸ hitem)
  have hplaced : (place task items item).stamp.kind = .unsupported → (place task items item).skipped = true :=
    place_unsupported hfine
  have hsize : (place task items item).size = item.size := by simp only [Item.size, hstamp]
  refine ⟨h.books, hindex, h.scanned, h.taskScanned, ?_, ⟨item, ?_⟩, h.files, ?_, ?_, ⟨?_, fun hk => .inl (hplaced hk)⟩,
    hplaced, hdone'.trans hdone, h.bound, h.running⟩
  · exact (List.getElem?_eq_some_iff.mp hitem).1
  · obtain ⟨hlt, heq⟩ := List.getElem?_eq_some_iff.mp hitem
    rw [h.stored, ← heq, List.set_getElem_self]
  · have hzero : item.completes = 0 ∧ item.skips = 0 := by simp [Item.completes, Item.skips, hdone]
    have hzero' : (place task items item).completes = 0 ∧ (place task items item).skips = 0 := by
      simp [Item.completes, Item.skips, hdone', hdone]
    refine h.tally.change hitem ?_ ?_ ?_ ?_
    · exact congrArg _ hbytes.symm
    · exact congrArg _ (hzero.1.trans hzero'.1.symm)
    · exact congrArg _ (hzero.2.trans hzero'.2.symm)
    · exact congrArg _ hsize.symm
  · intro m i hi _
    exact h.books.fine i (h.stored ▸ List.mem_of_getElem? hi)
  · rw [hbytes, hsize]
    exact hfine.bytes

theorem transferItem_sat (digest : Files.Bytes → String) (h : Carried task items n s.kept)
    (hitem : items[n]? = some item) (hdone : item.done = false) (hcalm : ∀ t, C t → Calm t) :
    Runs C (transferItem digest task items item) s fun r t =>
      ∀ x ∈ r, Carried x.1 (items.set n x.2) (n + 1) t.kept := by
  obtain ⟨hstamp, -, -, hrestart, hroot, hsource⟩ := place_same task items item
  have hmem : item ∈ s.kept.items := h.stored ▸ List.mem_of_getElem? hitem
  have hsteady : Steady C (place task items item) s.kept := by
    intro hr hk hl t ht hc stamp bytes hanswer
    rw [hroot, hsource] at hanswer
    rw [hstamp] at hk hl
    exact hcalm t hc item (ht ▸ hmem) (hrestart ▸ hr) hdone hk hl stamp bytes hanswer
  refine Act.Sat.bind (again_sat (h.held hitem hdone) hsteady) ?_
  rintro ⟨task₁, item₁⟩ t ht
  refine Act.Sat.bind (Runs.of ht.saveItem fun _ _ hu => hu) fun _ u hu => ?_
  refine Act.Sat.bind hu.publish fun _ v hv => ?_
  refine Act.Sat.bind (meet_sat hv.toHeld) ?_
  rintro ⟨task₂, item₂, going⟩ w hw
  cases going with
  | false =>
    refine Act.Sat.bind (Runs.of hw.saveItem fun _ _ hx => hx) fun _ x hx => ?_
    refine Act.Sat.bind hx.publish fun _ _ _ => Act.Sat.pure ?_
    intro y hy
    cases hy
  | true =>
    have hclear : Held { task₂ with view := { task₂.view with conflict := none } } items n item₂ w.kept :=
      hw.same rfl rfl rfl hw.undone hw.placed rfl rfl rfl rfl rfl rfl hw.running
    refine Act.Sat.bind (carry_sat digest hclear) fun r x hx => ?_
    cases r with
    | none =>
      refine Act.Sat.pure ?_
      intro y hy
      cases hy
    | some r =>
      obtain ⟨task₃, item₃⟩ := r
      refine Act.Sat.bind (conclude_sat (hx (task₃, item₃) rfl) h.done) fun r y hy => Act.Sat.pure ?_
      intro z hz
      cases hz
      exact hy

theorem Carried.skip (h : Carried task items n k) (hitem : items[n]? = some item) (hdone : item.done = true) :
    Carried task items (n + 1) k := by
  refine { h with done := fun m i hi hm => ?_ }
  rcases Nat.lt_succ_iff_lt_or_eq.mp hm with hlt | rfl
  · exact h.done m i hi hlt
  · rw [hitem] at hi
    cases hi
    exact hdone

theorem transferItems_sat (digest : Files.Bytes → String) (left : Nat) (h : Carried task items n s.kept)
    (hleft : items.length ≤ n + left) (hcalm : ∀ t, C t → Calm t) :
    Runs C (transferItems digest left task items n) s fun r t =>
      ∀ x ∈ r, ∃ m, Carried x.1 x.2 m t.kept ∧ x.2.length ≤ m := by
  induction left generalizing s task items n with
  | zero =>
    refine Act.Sat.pure ?_
    intro x hx
    cases hx
    exact ⟨n, h, hleft⟩
  | succ left ih =>
    unfold transferItems
    split
    · next hnone =>
      refine Act.Sat.pure ?_
      intro x hx
      cases hx
      exact ⟨n, h, List.getElem?_eq_none_iff.mp hnone⟩
    · next item hitem =>
      split
      · next hdone => exact ih (h.skip hitem hdone) (by omega)
      · next hdone =>
        refine Act.Sat.bind (transferItem_sat digest h hitem (by simpa using hdone) hcalm) fun r t ht => ?_
        cases r with
        | none =>
          refine Act.Sat.pure ?_
          intro x hx
          cases hx
        | some r => exact ih (ht r rfl) (by rw [List.length_set]; omega)

-- ---------------------------------------------------------------------------
-- A run
-- ---------------------------------------------------------------------------

/-- What a run finds in the store: the files are as long as when the task was saved,
or it will scan again, and no item was to be skipped and is not done. -/
structure Ready (k : Stored) : Prop where
  paid : k.owed = true → k.task.scanned = false ∧ k.task.cancel = false
  skips : ∀ i ∈ k.items, i.skipped = true → i.done = true

/-- An item that is skipped is done, so the skipped ones are counted as they are. -/
theorem skips_eq (h : ∀ i ∈ items, i.skipped = true → i.done = true) :
    (items.map Item.skips).sum = items.countP Item.skipped := by
  have hcongr : items.countP (fun i => i.done && i.skipped) = items.countP Item.skipped := by
    refine List.countP_congr fun i hi => ?_
    rw [Bool.and_eq_true]
    exact ⟨fun hb => hb.2, fun hs => ⟨h i hi hs, hs⟩⟩
  rw [← hcongr, countP_eq_sum]
  rfl

theorem finish_sat (h : Carried task items n s.kept) (hall : items.length ≤ n) :
    Runs C (finish task items) s fun _ _ => True := by
  have hdone : ∀ i ∈ items, i.skipped = true → i.done = true := by
    intro i hi _
    obtain ⟨m, hm⟩ := List.mem_iff_getElem?.mp hi
    exact h.done m i hm (Nat.lt_of_lt_of_le (List.getElem?_eq_some_iff.mp hm).1 hall)
  have hskipped : task.view.skipped = items.countP Item.skipped := h.tally.skipped.trans (skips_eq hdone)
  refine Act.Sat.bind (cleanup_sat h.books items) fun _ t ht => ?_
  refine Act.Sat.bind (metadata_sat (ht ▸ h.books) items.reverse) fun _ u hu => ?_
  have hkept : u.kept = s.kept := hu.trans ht
  have htally : Tally task.completed.view s.kept.items := by
    rw [h.stored]
    exact ⟨h.tally.bytes, h.tally.completed, h.tally.skipped, h.tally.total⟩
  have hafter : Books (s.kept.saveTask task.completed) := by
    refine h.books.saveTask htally.total (fun _ => ?_) (fun hs => ?_) h.bound
    · rw [h.stored]
      exact h.files
    · exact absurd (h.taskScanned.symm.trans hs) Bool.noConfusion
  have haccounted : Accounted task.completed.view u.kept.items := by
    rw [hkept]
    refine htally.accounted ?_ fun _ => ?_
    · have hwithin := h.tally.within
      rwa [← h.files] at hwithin
    · rw [h.stored, ← hskipped]
      rfl
  exact (Runs.of (publish_sat (hkept ▸ h.books) (hkept ▸ hafter) fun _ => haccounted) fun _ _ _ => trivial)

/-- A task as a run has it when it loads the items. -/
structure Loaded (task : Task) (k : Stored) : Prop where
  total : task.view.total = filesLength k.items
  files : task.scanned = true → task.view.files = k.items.length
  scanned : task.scanned = k.task.scanned
  cancel : task.cancel = false → task.scanned = true
  bound : task.view.total ≤ U64_MAX
  skips : ∀ i ∈ k.items, i.skipped = true → i.done = true

theorem count_tally (h : Loaded task k) : Tally (task.count k.items).view k.items where
  bytes := rfl
  completed := countP_eq_sum _ _
  skipped := (skips_eq h.skips).symm
  total := h.total

theorem count_within (h : Loaded task k) (hbooks : Books k) :
    (task.count k.items).view.completed + (task.count k.items).view.skipped ≤ task.view.files := by
  cases hs : task.scanned with
  | true =>
    rw [h.files hs]
    exact (count_tally h).within
  | false =>
    have hfresh := hbooks.fresh (h.scanned.symm.trans hs)
    have hcompleted : (task.count k.items).view.completed = 0 := by
      refine List.countP_eq_zero.mpr fun i hi => ?_
      simp [(hfresh i hi).1]
    have hskipped : (task.count k.items).view.skipped = 0 := by
      refine List.countP_eq_zero.mpr fun i hi => ?_
      simp [(hfresh i hi).2]
    omega

/-- A task that has the counters of the stored items, and is not completed. -/
structure Counted (task : Task) (k : Stored) : Prop where
  tally : Tally task.view k.items
  files : task.scanned = true → task.view.files = k.items.length
  scanned : task.scanned = k.task.scanned
  within : task.view.completed + task.view.skipped ≤ task.view.files
  bound : task.view.total ≤ U64_MAX
  running : task.view.status ≠ .completed

theorem Loaded.counted (h : Loaded task k) (hbooks : Books k) : Counted (task.count k.items) k :=
  ⟨count_tally h, h.files, h.scanned, count_within h hbooks, h.bound, Status.noConfusion⟩

theorem Counted.publish (h : Counted task s.kept) (hbooks : Books s.kept) :
    Runs C (publish task) s fun _ t => t.kept = s.kept.saveTask task ∧ Books t.kept := by
  have hafter : Books (s.kept.saveTask task) :=
    hbooks.saveTask h.tally.total h.files (fun hs => h.scanned.symm.trans hs) h.bound
  have haccounted : Accounted task.view s.kept.items := h.tally.accounted h.within fun hs => absurd hs h.running
  exact Runs.of (publish_sat hbooks hafter fun _ => haccounted) fun _ t ht => ⟨ht, ht ▸ hafter⟩

theorem runItems_sat (digest : Files.Bytes → String) (h : Loaded task s.kept) (hbooks : Books s.kept)
    (hcalm : ∀ t, C t → Calm t) : Runs C (runItems digest task s.kept.items) s fun _ _ => True := by
  have hcounted := h.counted hbooks
  refine Act.Sat.bind (hcounted.publish hbooks) ?_
  rintro _ t ⟨ht, hbooks'⟩
  split
  · refine Act.Sat.bind (cleanup_sat hbooks' s.kept.items) fun _ u hu => ?_
    have hkept : u.kept.items = s.kept.items := by
      rw [hu, ht]
      rfl
    have hstored : u.kept.task.scanned = task.scanned := by
      rw [hu, ht]
      rfl
    have hcancelled : Counted (task.count s.kept.items).cancelled u.kept := by
      refine ⟨?_, ?_, hstored.symm, hcounted.within, hcounted.bound, Status.noConfusion⟩
      · rw [hkept]
        exact ⟨hcounted.tally.bytes, hcounted.tally.completed, hcounted.tally.skipped, hcounted.tally.total⟩
      · rw [hkept]
        exact hcounted.files
    exact Runs.of (hcancelled.publish (hu ▸ hbooks')) fun _ _ _ => trivial
  · next hcancel =>
    have hscanned : task.scanned = true := h.cancel (by simpa using hcancel)
    have hcarried : Carried (task.count s.kept.items) s.kept.items 0 t.kept := by
      refine ⟨hbooks', ?_, hscanned, ?_, h.files hscanned, count_tally h, fun _ _ _ hm => absurd hm (Nat.not_lt_zero _),
        h.bound, Status.noConfusion⟩
      · rw [ht]
        exact hscanned
      · rw [ht]
        rfl
    refine Act.Sat.bind (transferItems_sat digest _ hcarried (by omega) hcalm) fun r u hu => ?_
    cases r with
    | none => exact Act.Sat.pure trivial
    | some r =>
      obtain ⟨m, hm, hall⟩ := hu r rfl
      exact finish_sat hm hall

/-- What opening the task leaves of it. -/
theorem openTask_sat (h : Books s.kept) (remote : ServerIdentity) :
    Runs C (openTask remote) s fun task t => t.kept = s.kept ∧ task.view.total = s.kept.task.view.total ∧
      task.view.files = s.kept.task.view.files ∧ task.scanned = s.kept.task.scanned ∧
      task.cancel = s.kept.task.cancel := by
  refine Act.Sat.bind (Runs.of (loadTask_sat h) fun _ _ ht => ht) ?_
  rintro task t ⟨ht, rfl⟩
  refine Act.Sat.bind check_sat ?_
  rintro _ t ⟨-, rfl⟩
  refine Act.Sat.bind check_sat ?_
  rintro _ t ⟨-, rfl⟩
  refine Act.Sat.bind (Runs.of (openPeers_sat (ht ▸ h) _ _) fun _ _ hu => hu) fun root u hu => ?_
  exact Act.Sat.pure ⟨hu.trans ht, rfl, rfl, rfl, rfl⟩

theorem run_sat (digest : Files.Bytes → String) (pages : Nat) (remote : ServerIdentity) (h : Books s.kept)
    (hready : Ready s.kept) (hcalm : ∀ t, C t → Calm t) : Runs C (run digest pages remote) s fun _ _ => True := by
  refine Act.Sat.bind (openTask_sat h remote) ?_
  rintro task t ⟨ht, htotal, hfiles, hscanned, hcancel⟩
  refine Act.Sat.bind (R := fun task u => Loaded task u.kept ∧ Books u.kept) ?_ ?_
  · unfold scanned
    split
    · next hwanted =>
      simp only [Bool.and_eq_true, Bool.not_eq_true'] at hwanted
      have hno : s.kept.task.scanned = false := hscanned.symm.trans hwanted.1
      refine Runs.of (scan_sat (ht ▸ h) (ht ▸ hno) hwanted.1 pages) ?_
      rintro task' u ⟨hs, htask, howed, hbooks, hskips⟩
      exact ⟨⟨htask ▸ hbooks.paid howed, fun hs => htask ▸ hbooks.files (htask ▸ hs), by rw [htask], fun _ => hs,
        htask ▸ hbooks.bound, hskips⟩, hbooks⟩
    · next hno =>
      have hpaid : s.kept.owed = false := by
        by_contra howed
        obtain ⟨hs, hc⟩ := hready.paid (by simpa using howed)
        exact hno (by simp [hscanned, hs, hcancel, hc])
      refine Act.Sat.pure ⟨⟨?_, ?_, ?_, ?_, ?_, ?_⟩, ht ▸ h⟩
      · rw [ht, htotal, h.paid hpaid]
      · intro hs
        rw [ht, hfiles, h.files (hscanned ▸ hs)]
      · rw [ht, hscanned]
      · intro hc
        by_contra hs
        exact hno (by simpa [hc] using hs)
      · rw [htotal]
        exact h.bound
      · rw [ht]
        exact hready.skips
  · rintro task' u ⟨hloaded, hbooks⟩
    refine Act.Sat.bind (Runs.of (loadItems_sat hbooks) fun _ _ hv => hv) ?_
    rintro items v ⟨hv, rfl⟩
    rw [← hv]
    exact runItems_sat digest (hv ▸ hloaded) (hv ▸ hbooks) hcalm

end

end RemoteCodex.Engine
