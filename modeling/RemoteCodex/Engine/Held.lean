import RemoteCodex.Engine.Accounting

/-!
# An item in hand

Between taking an item and being done with it the run holds the item and the
task in memory, ahead of the store. `Held` says how they belong to the stored
items, whichever version of the item in hand is stored.
-/

namespace RemoteCodex.Engine

open Interact Transfer
open Remote (ClientError)

structure Held (task : Task) (items : List Item) (n : Nat) (item : Item) (k : Stored) : Prop where
  books : Books k
  index : item.index = n
  scanned : k.task.scanned = true
  taskScanned : task.scanned = true
  lt : n < items.length
  stored : ∃ old, k.items = items.set n old
  files : task.view.files = items.length
  tally : Tally task.view (items.set n item)
  others : ∀ (m : Nat) (i : Item), items[m]? = some i → m ≠ n → i.Fine
  fine : item.Fine
  placed : item.stamp.kind = .unsupported → item.skipped = true
  undone : item.done = false
  bound : task.view.total ≤ U64_MAX
  running : task.view.status ≠ .completed

section

variable {C : Scene → Prop} {s : Scene} {task : Task} {items : List Item} {n : Nat} {item : Item} {k : Stored}

theorem Held.get (h : Held task items n item k) : (items.set n item)[n]? = some item :=
  List.getElem?_set_self h.lt

theorem Held.all (h : Held task items n item k) : ∀ i ∈ items.set n item, i.Fine := by
  intro i hi
  obtain ⟨m, hm⟩ := List.mem_iff_getElem?.mp hi
  by_cases heq : m = n
  · subst heq
    rw [h.get] at hm
    cases hm
    exact h.fine
  · rw [List.getElem?_set_ne (Ne.symm heq)] at hm
    exact h.others m i hm heq

/-- The item and the task change together. -/
theorem Held.change (h : Held task items n item k) {task' : Task} {item' : Item} (hindex : item'.index = item.index)
    (hfine : item'.Fine) (hplaced : item'.stamp.kind = .unsupported → item'.skipped = true)
    (hundone : item'.done = false) (hbytes : task'.view.bytes + item.bytes = task.view.bytes + item'.bytes)
    (hcompleted : task'.view.completed = task.view.completed) (hskipped : task'.view.skipped = task.view.skipped)
    (htotal : task'.view.total + item.size = task.view.total + item'.size)
    (hfiles : task'.view.files = task.view.files) (hscanned : task'.scanned = task.scanned)
    (hbound : task'.view.total ≤ U64_MAX) (hrunning : task'.view.status ≠ .completed) : Held task' items n item' k where
  books := h.books
  scanned := h.scanned
  taskScanned := hscanned.trans h.taskScanned
  index := hindex.trans h.index
  lt := h.lt
  stored := h.stored
  files := hfiles.trans h.files
  tally := by
    have hnone : item.completes = 0 ∧ item.skips = 0 := by simp [Item.completes, Item.skips, h.undone]
    have hnone' : item'.completes = 0 ∧ item'.skips = 0 := by simp [Item.completes, Item.skips, hundone]
    have hchange := h.tally.change h.get (w := task'.view) (y := item') hbytes (by omega) (by omega) htotal
    rwa [List.set_set] at hchange
  others := h.others
  fine := hfine
  placed := hplaced
  undone := hundone
  bound := hbound
  running := hrunning

/-- What does not count changes. -/
theorem Held.same (h : Held task items n item k) {task' : Task} {item' : Item} (hindex : item'.index = item.index)
    (hstamp : item'.stamp = item.stamp) (hitem : item'.bytes = item.bytes) (hundone : item'.done = false)
    (hplaced : item'.stamp.kind = .unsupported → item'.skipped = true)
    (hbytes : task'.view.bytes = task.view.bytes) (hcompleted : task'.view.completed = task.view.completed)
    (hskipped : task'.view.skipped = task.view.skipped) (htotal : task'.view.total = task.view.total)
    (hfiles : task'.view.files = task.view.files) (hscanned : task'.scanned = task.scanned)
    (hrunning : task'.view.status ≠ .completed) : Held task' items n item' k := by
  have hsize : item'.size = item.size := by simp only [Item.size, hstamp]
  refine h.change hindex ⟨?_, fun hk => .inl (hplaced hk)⟩ hplaced hundone (by omega) hcompleted hskipped (by omega) hfiles
    hscanned (htotal ▸ h.bound) hrunning
  rw [hitem, hsize]
  exact h.fine.bytes

theorem Held.keep (h : Held task items n item k) {k' : Stored} (hk : k' = k) : Held task items n item k' := hk ▸ h

/-- There is room for the bytes of a file up to its length. -/
theorem Held.room (h : Held task items n item k) {offset : Nat} (ho : offset ≤ item.size) :
    item.bytes ≤ task.view.bytes ∧ task.view.bytes - item.bytes + offset ≤ U64_MAX := by
  have hle : item.bytes ≤ task.view.bytes := by
    rw [h.tally.bytes]
    exact le_sum Item.bytes (List.mem_iff_getElem?.mpr ⟨_, h.get⟩)
  refine ⟨hle, ?_⟩
  have hset := sum_set Item.bytes h.get { item with bytes := offset }
  have hsizes := sum_set Item.size h.get { item with bytes := offset }
  have hfit : (((items.set n item).set n { item with bytes := offset }).map Item.bytes).sum ≤
      (((items.set n item).set n { item with bytes := offset }).map Item.size).sum := by
    refine sum_le_sum fun i hi => ?_
    rcases List.mem_or_eq_of_mem_set hi with hi | rfl
    · exact (h.all i hi).bytes
    · exact ho
  have hbytes := h.tally.bytes
  have htotal := h.tally.total
  have hsame : Item.size { item with bytes := offset } = item.size := rfl
  have hoffset : Item.bytes { item with bytes := offset } = offset := rfl
  have hbound := h.bound
  unfold filesLength at htotal
  omega

-- ---------------------------------------------------------------------------
-- Saving
-- ---------------------------------------------------------------------------

/-- The item in hand is the stored one. -/
structure Saved (task : Task) (items : List Item) (n : Nat) (item : Item) (k : Stored) : Prop extends Held task items n item k where
  same : k.items = items.set n item

theorem Held.saveItem (h : Held task items n item s.kept) :
    Act.Sat (machine C) (Guar Counts) (saveItem item) s (fun _ t => Saved task items n item t.kept)
      (fun _ t => Held task items n item t.kept) := by
  obtain ⟨old, hold⟩ := h.stored
  have hlength : s.kept.items.length = items.length := by rw [hold, List.length_set]
  obtain ⟨hbooks, hitems⟩ := h.books.saveItem h.scanned h.fine h.index (by rw [hlength]; exact h.lt)
  rw [hold, List.set_set] at hitems
  refine (saveItem_sat h.books hbooks).mono (fun _ t ht => ?_) fun _ t ht => h.keep ht
  rw [ht]
  exact ⟨⟨hbooks, h.index, h.scanned, h.taskScanned, h.lt, ⟨item, hitems⟩, h.files, h.tally, h.others, h.fine, h.placed, h.undone,
    h.bound, h.running⟩, hitems⟩

theorem Saved.publish (h : Saved task items n item s.kept) :
    Runs C (publish task) s fun _ t => Saved task items n item t.kept := by
  have htally : Tally task.view s.kept.items := h.same ▸ h.tally
  have hlength : s.kept.items.length = items.length := by rw [h.same, List.length_set]
  have hbooks : Books (s.kept.saveTask task) := by
    refine h.books.saveTask htally.total (fun _ => h.files.trans hlength.symm) (fun hs => ?_) h.bound
    rw [h.taskScanned] at hs
    cases hs
  have haccounted : Accounted task.view s.kept.items := by
    refine htally.accounted ?_ fun hs => absurd hs h.running
    rw [h.files, ← hlength]
    exact htally.within
  refine Runs.of (publish_sat h.books hbooks fun _ => haccounted) fun _ t ht => ?_
  rw [ht]
  exact ⟨⟨hbooks, h.index, h.taskScanned, h.taskScanned, h.lt, ⟨item, h.same⟩, h.files, h.tally, h.others, h.fine, h.placed,
    h.undone, h.bound, h.running⟩, h.same⟩

-- ---------------------------------------------------------------------------
-- Copying
-- ---------------------------------------------------------------------------

/-- A part of a copy: where it fails, what it leaves in hand still belongs to the items. -/
abbrev Copies (C : Scene → Prop) (items : List Item) (n : Nat) (x : CopyE α) (s : Scene) (Q : α → Scene → Prop) : Prop :=
  Act.Sat (machine C) (Guar Counts) x s Q fun e t => Held e.2.1 items n e.2.2 t.kept

theorem adapt_sat {α : Type} {x : Engine.E α} {Q : α → Scene → Prop} {E : ClientError → Scene → Prop}
    (h : Act.Sat (machine C) (Guar Counts) x s Q E) :
    Act.Sat (machine C) (Guar Counts) (leaving task item x) s Q fun e t => E e.1 t ∧ e.2 = (task, item) := by
  unfold Act.Sat at *
  have hrun : (leaving task item x).run = x.run >>= fun r => pure (r.mapError fun e => (e, task, item)) := rfl
  rw [hrun]
  refine Prog.Sat.bind (Prog.Sat.mono (fun _ _ _ h => h) ?_ h)
  rintro (e | r) t ht
  · exact ⟨ht, rfl⟩
  · exact ht

theorem leaving_sat {α : Type} {x : Engine.E α} {Q : α → Scene → Prop} {E : ClientError → Scene → Prop}
    (h : Act.Sat (machine C) (Guar Counts) x s Q E) (hE : ∀ e t, E e t → Held task items n item t.kept) :
    Copies C items n (leaving task item x) s Q := by
  refine (adapt_sat h).mono (fun _ _ hq => hq) ?_
  rintro ⟨e, task', item'⟩ t ⟨he, heq⟩
  cases heq
  exact hE e t he

theorem Held.call (h : Held task items n item s.kept) (source : Bool) (command : Command) (bytes : Files.Bytes) :
    Copies C items n (leaving task item (call source item.root command bytes)) s fun _ t => Held task items n item t.kept :=
  leaving_sat ((call_sat h.books source item.root command bytes).mono (fun _ _ ht => h.keep ht.1) fun _ _ ht => ht)
    fun _ _ ht => h.keep ht

theorem Held.save (h : Held task items n item s.kept) :
    Copies C items n (leaving task item (Engine.saveItem item)) s fun _ t => Held task items n item t.kept :=
  leaving_sat (h.saveItem.mono (fun _ _ ht => ht.toHeld) fun _ _ ht => ht) fun _ _ ht => ht

theorem Held.report (h : Held task items n item s.kept) (late : Bool) :
    Copies C items n (provided late (leaving task item (progress task.view))) s fun _ t => t.kept = s.kept := by
  cases late
  · exact Act.Sat.pure rfl
  · exact leaving_sat (progress_sat h.books task.view) fun _ _ ht => h.keep ht

theorem ensure_sat {b : Bool} {e : ClientError × Task × Item} (h : Held e.2.1 items n e.2.2 s.kept) :
    Copies C items n (ensure b e) s fun _ t => b = true ∧ t = s :=
  Act.Sat.ensure (fun hb => ⟨hb, rfl⟩) fun _ => h

theorem blocks_sat (digest : Files.Bytes → String) (left : Nat) {offset : Nat} (h : Held task items n item s.kept)
    (hkind : item.stamp.kind = .file) (hoffset : item.bytes = offset) :
    Copies C items n (blocks digest left task item offset) s fun r t =>
      Held r.1 items n r.2 t.kept ∧ r.2.skipped = item.skipped := by
  induction left generalizing s task item offset with
  | zero => exact .pure ⟨h, rfl⟩
  | succ left ih =>
    unfold blocks
    split
    · refine .bind (h.call true _ []) ?_
      rintro ⟨reply, bytes⟩ t ht
      cases reply with
      | data d =>
        refine .bind (ensure_sat ht) ?_
        rintro _ t ⟨-, rfl⟩
        refine .bind (ht.call false _ bytes) ?_
        rintro ⟨reply, rest⟩ u hu
        cases reply with
        | ready confirmed complete =>
          cases complete with
          | false =>
            refine .bind (ensure_sat hu) ?_
            rintro _ u ⟨hok, rfl⟩
            simp only [Bool.not_eq_true', Bool.or_eq_false_iff, decide_eq_false_iff_not, not_not, Nat.not_lt] at hok
            obtain ⟨hconfirmed, hle⟩ := hok
            have hnext : Held { task with view := { task.view with bytes := task.view.bytes + bytes.length } } items n
                { item with bytes := confirmed } u.kept := by
              refine hu.change rfl ⟨?_, hu.fine.unsupported⟩ hu.placed hu.undone ?_ rfl rfl rfl rfl rfl hu.bound hu.running
              · show confirmed ≤ Item.size { item with bytes := confirmed }
                simpa [Item.size, hkind] using hle
              · show task.view.bytes + bytes.length + item.bytes = task.view.bytes + confirmed
                omega
            refine .bind hnext.save fun _ v hv => ?_
            refine .bind (leaving_sat (elapsed_sat hv.books) fun _ _ ht => hv.keep ht) fun late w hw => ?_
            have hheld := hv.keep hw
            exact .bind (hheld.report late) fun _ x hx => ih (hheld.keep hx) hkind rfl
          | true => exact .throw hu
        | _ => exact .throw hu
      | _ => exact .throw ht
    · exact .pure ⟨h, rfl⟩

theorem verify_sat (h : Held task items n item s.kept) :
    Copies C items n (verify task item) s fun r t => Held r.1 items n r.2 t.kept ∧ r.2.skipped = item.skipped := by
  have hnamed : Held { task with view := { task.view with message := some ("Verifying " ++ item.target) } } items n item
      s.kept := h.same rfl rfl rfl h.undone h.placed rfl rfl rfl rfl rfl rfl h.running
  refine .bind (leaving_sat (progress_sat hnamed.books _) fun _ _ ht => hnamed.keep ht) fun _ t ht => ?_
  refine .bind ((hnamed.keep ht).call true _ []) ?_
  rintro ⟨reply, bytes⟩ u hu
  cases reply with
  | hash d =>
    refine .bind (hu.call false _ []) fun _ v hv => ?_
    exact .pure ⟨hv.same rfl rfl rfl hv.undone hv.placed rfl rfl rfl rfl rfl rfl hv.running, rfl⟩
  | _ => exact .throw hu

theorem file_sat (digest : Files.Bytes → String) (h : Held task items n item s.kept) (hkind : item.stamp.kind = .file) :
    Copies C items n (file digest task item) s fun r t => Held r.1 items n r.2 t.kept ∧ r.2.skipped = item.skipped := by
  have hprepared : Held task items n { item with prepared := true } s.kept :=
    h.same rfl rfl rfl h.undone h.placed rfl rfl rfl rfl rfl rfl h.running
  refine .bind hprepared.save fun _ t ht => ?_
  refine .bind (ht.call false _ []) ?_
  rintro ⟨reply, bytes⟩ u hu
  cases reply with
  | ready offset complete =>
    refine .bind (ensure_sat hu) ?_
    rintro _ u ⟨hok, rfl⟩
    have hle : offset ≤ item.stamp.length := by simpa using hok
    have hsize : item.size = item.stamp.length := by simp [Item.size, hkind]
    have hfit : offset ≤ item.size := hsize ▸ hle
    obtain ⟨hbytes, hroom⟩ := hu.room hfit
    have hoffset : Held
        { task with view := { task.view with bytes := saturatingAdd (task.view.bytes - item.bytes) offset } } items n
        { item with bytes := offset, prepared := true } u.kept := by
      refine hu.change rfl ⟨?_, hu.fine.unsupported⟩ hu.placed hu.undone ?_ rfl rfl rfl rfl rfl hu.bound hu.running
      · rw [← hsize] at hle
        exact hle
      · have hbytes' : item.bytes ≤ task.view.bytes := hbytes
        have hroom' : task.view.bytes - item.bytes + offset ≤ U64_MAX := hroom
        show saturatingAdd (task.view.bytes - item.bytes) offset + item.bytes = task.view.bytes + offset
        rw [saturatingAdd, Nat.min_eq_left hroom']
        omega
    refine .bind hoffset.save fun _ v hv => ?_
    cases complete with
    | true => exact .pure ⟨hv, rfl⟩
    | false =>
      refine .bind (blocks_sat digest _ hv hkind rfl) ?_
      rintro ⟨task', item'⟩ w ⟨hw, hskipped⟩
      exact (verify_sat hw).mono (fun _ _ hr => ⟨hr.1, hr.2.trans hskipped⟩) fun _ _ he => he
  | _ => exact .throw hu

end

end RemoteCodex.Engine
