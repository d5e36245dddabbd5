import RemoteCodex.Engine.Ledger

/-!
# The counters of a run

A run saves an item before the task that counts it. What the task in hand says
is kept in step with the items as they will be once the item in hand is saved;
so whenever the task is published its counters are those of the stored items.
-/

namespace RemoteCodex.Engine

open Interact Transfer
open Remote (ClientError)

/-- The statuses with which a run publishes a task once it has the items. -/
def Status.counted : Status → Bool
  | .running | .conflict | .completed | .cancelled => true
  | _ => false

def skippedMessage (skipped : Nat) : Option String :=
  if skipped > 0 then some (toString skipped ++ " entries skipped. Open details to review.") else none

structure Accounted (v : View) (items : List Item) : Prop where
  bytes : v.bytes = (items.map Item.bytes).sum
  completed : v.completed = items.countP fun i => i.done && !i.skipped
  skipped : v.skipped = items.countP fun i => i.done && i.skipped
  total : v.total = ((items.filter fun i => i.stamp.kind = .file).map fun i => i.stamp.length).sum
  files : v.completed + v.skipped ≤ v.files
  message : v.status = .completed → v.message = skippedMessage (items.countP Item.skipped)

theorem filesLength_eq (items : List Item) :
    filesLength items = ((items.filter fun i => i.stamp.kind = .file).map fun i => i.stamp.length).sum := by
  induction items with
  | nil => rfl
  | cons i items ih =>
    have hcons : filesLength (i :: items) = i.size + filesLength items := rfl
    rw [hcons, ih, List.filter_cons]
    by_cases hk : i.stamp.kind = .file
    · simp [Item.size, hk]
    · simp [Item.size, hk]

theorem Tally.accounted {v : View} {items : List Item} (h : Tally v items) (hfiles : v.completed + v.skipped ≤ v.files)
    (hmessage : v.status = .completed → v.message = skippedMessage (items.countP Item.skipped)) : Accounted v items where
  bytes := h.bytes
  completed := h.completed.trans (countP_eq_sum _ _).symm
  skipped := h.skipped.trans (countP_eq_sum _ _).symm
  total := h.total.trans (filesLength_eq items)
  files := hfiles
  message := hmessage

/-- A task is done with each of its items once. -/
theorem Tally.within {v : View} {items : List Item} (h : Tally v items) : v.completed + v.skipped ≤ items.length := by
  rw [h.completed, h.skipped]
  clear h
  induction items with
  | nil => exact Nat.le_refl _
  | cons i items ih =>
    have hone : i.completes + i.skips ≤ 1 := by
      simp only [Item.completes, Item.skips]
      cases i.done <;> cases i.skipped <;> simp
    simp only [List.map_cons, List.sum_cons, List.length_cons]
    omega

/-- A task a run publishes once it has the items. -/
def Counts (task : Task) : Prop := task.view.status.counted = true

/-- What a step does: a task of the kind `P` is published as its items are, and the books stay in order. -/
def Guar (P : Task → Prop) (op : EngineOp) (a b : Scene) : Prop :=
  (∀ task, op = .saveTask task → P task → Accounted task.view a.kept.items) ∧ Books b.kept

-- ---------------------------------------------------------------------------
-- Operations
-- ---------------------------------------------------------------------------

section

variable {C : Scene → Prop} {P : Task → Prop} {s : Scene} {task : Task} {item : Item}

theorem whole {op : EngineOp} (a b : Scene) : ¬ (machine C).torn op a b := fun h => h

/-- An operation that leaves the store as it is. -/
theorem quiet_sat {op : EngineOp} {E : ClientError → Scene → Prop} (h : Books s.kept)
    (hquiet : ∀ a, (Scene.exec op a).2 = a) (hop : ∀ task, op ≠ .saveTask task) :
    Act.Sat (machine C) (Guar P) (ask op) s (fun r t => t.kept = s.kept ∧ C t ∧ r = (Scene.exec op t).1) E := by
  refine Act.Sat.whole whole fun a ha => ?_
  obtain ⟨hkept, hc⟩ := ha
  have hafter : ((machine C).exec op a).2 = a := hquiet a
  rw [hafter]
  exact ⟨⟨fun task heq => absurd heq (hop task), hkept ▸ h⟩, hkept, hc, rfl⟩

theorem ofExcept_sat {α : Type} {r : Except ClientError α} {Q : α → Scene → Prop} {E : ClientError → Scene → Prop}
    (hok : ∀ a, r = .ok a → Q a s) (herr : ∀ e, r = .error e → E e s) :
    Act.Sat (machine C) (Guar P) (ofExcept r : Engine.E α) s Q E := Act.Sat.ofExcept hok herr

/-- An answer is as things are around the store when it is asked for. -/
theorem call_sat (h : Books s.kept) (source : Bool) (root : Nat) (command : Command) (bytes : Files.Bytes) :
    Act.Sat (machine C) (Guar P) (call source root command bytes) s
      (fun r t => t.kept = s.kept ∧ C t ∧ t.around.answer source root command bytes = .ok r)
      (fun _ t => t.kept = s.kept) := by
  refine Act.Sat.bind (quiet_sat h (fun _ => rfl) fun _ => EngineOp.noConfusion) ?_
  rintro r t ⟨hkept, hc, rfl⟩
  exact ofExcept_sat (fun a ha => ⟨hkept, hc, ha⟩) fun _ _ => hkept

theorem stat_sat (h : Books s.kept) (source : Bool) (root : Nat) (path : String) :
    Act.Sat (machine C) (Guar P) (stat source root path) s
      (fun r t => t.kept = s.kept ∧ C t ∧ ∃ bytes, t.around.answer source root (.stat path) [] = .ok (.stat r, bytes))
      (fun _ t => t.kept = s.kept) := by
  refine Act.Sat.bind (call_sat h source root (.stat path) []) ?_
  rintro ⟨reply, bytes⟩ t ⟨hkept, hc, hanswer⟩
  cases reply with
  | stat stamp => exact .pure ⟨hkept, hc, bytes, hanswer⟩
  | _ => exact .throw hkept

theorem reads_ok {α : Type} {a b : α} (h : s.reads a = .ok b) : b = a := by
  unfold Scene.reads at h
  cases hf : s.around.fails with
  | none =>
    rw [hf] at h
    exact (Except.ok.inj h).symm
  | some e =>
    rw [hf] at h
    cases h

theorem loadTask_sat (h : Books s.kept) :
    Act.Sat (machine C) (Guar P) loadTask s (fun r t => t.kept = s.kept ∧ r = s.kept.task) (fun _ t => t.kept = s.kept) := by
  refine Act.Sat.bind (quiet_sat h (fun _ => rfl) fun _ => EngineOp.noConfusion) ?_
  rintro r t ⟨hkept, -, rfl⟩
  exact ofExcept_sat (fun a ha => ⟨hkept, hkept ▸ reads_ok ha⟩) fun _ _ => hkept

theorem loadItems_sat (h : Books s.kept) :
    Act.Sat (machine C) (Guar P) loadItems s (fun r t => t.kept = s.kept ∧ r = s.kept.items) (fun _ t => t.kept = s.kept) := by
  refine Act.Sat.bind (quiet_sat h (fun _ => rfl) fun _ => EngineOp.noConfusion) ?_
  rintro r t ⟨hkept, -, rfl⟩
  exact ofExcept_sat (fun a ha => ⟨hkept, hkept ▸ reads_ok ha⟩) fun _ _ => hkept

theorem openPeers_sat (h : Books s.kept) (workspace : String) (expected : Option RootIdentity) :
    Act.Sat (machine C) (Guar P) (openPeers workspace expected) s (fun _ t => t.kept = s.kept) (fun _ t => t.kept = s.kept) := by
  refine Act.Sat.bind (quiet_sat h (fun _ => rfl) fun _ => EngineOp.noConfusion) ?_
  rintro r t ⟨hkept, -, -⟩
  exact ofExcept_sat (fun _ _ => hkept) fun _ _ => hkept

/-- What asks for no more than the operation itself. -/
theorem ask_sat {op : EngineOp} {E : ClientError → Scene → Prop} (h : Books s.kept)
    (hquiet : ∀ a, (Scene.exec op a).2 = a) (hop : ∀ task, op ≠ .saveTask task) :
    Act.Sat (machine C) (Guar P) (ask op) s (fun _ t => t.kept = s.kept) E :=
  (quiet_sat h hquiet hop).mono (fun _ _ ht => ht.1) fun _ _ he => he

theorem newToken_sat {E : ClientError → Scene → Prop} (h : Books s.kept) :
    Act.Sat (machine C) (Guar P) newToken s (fun _ t => t.kept = s.kept) E :=
  ask_sat h (fun _ => rfl) fun _ => EngineOp.noConfusion

theorem progress_sat {E : ClientError → Scene → Prop} (h : Books s.kept) (v : View) :
    Act.Sat (machine C) (Guar P) (progress v) s (fun _ t => t.kept = s.kept) E :=
  ask_sat h (fun _ => rfl) fun _ => EngineOp.noConfusion

theorem elapsed_sat {E : ClientError → Scene → Prop} (h : Books s.kept) :
    Act.Sat (machine C) (Guar P) elapsed s (fun _ t => t.kept = s.kept) E :=
  ask_sat h (fun _ => rfl) fun _ => EngineOp.noConfusion

/-- A transaction was carried out, or not. -/
def Committed (k k' : Stored) (r : Except ClientError Unit) (t : Scene) : Prop :=
  (r = .ok () ∧ t.kept = k') ∨ ((∃ e, r = .error e) ∧ t.kept = k)

theorem committed (s : Scene) (k : Stored) : Committed s.kept k (s.commits k).1 (s.commits k).2 := by
  unfold Scene.commits
  split
  · next e _ => exact .inr ⟨⟨e, rfl⟩, rfl⟩
  · exact .inl ⟨rfl, rfl⟩

theorem Committed.sat {k k' : Stored} {r : Except ClientError Unit} (h : Committed k k' r s) :
    Act.Sat (machine C) (Guar P) (ofExcept r : Engine.E Unit) s (fun _ t => t.kept = k') (fun _ t => t.kept = k) := by
  rcases h with ⟨rfl, hkept⟩ | ⟨⟨e, rfl⟩, hkept⟩
  · exact ofExcept_sat (fun _ _ => hkept) fun _ he => by cases he
  · exact ofExcept_sat (fun _ ha => by cases ha) fun _ _ => hkept

theorem Committed.books {k k' : Stored} {r : Except ClientError Unit} (h : Committed k k' r s) (hk : Books k)
    (hk' : Books k') : Books s.kept := by
  rcases h with ⟨-, hkept⟩ | ⟨-, hkept⟩
  · exact hkept ▸ hk'
  · exact hkept ▸ hk

theorem saveItem_sat (h : Books s.kept) (h' : Books (s.kept.saveItem item)) :
    Act.Sat (machine C) (Guar P) (saveItem item) s (fun _ t => t.kept = s.kept.saveItem item) (fun _ t => t.kept = s.kept) := by
  refine Act.Sat.bind (R := Committed s.kept (s.kept.saveItem item)) (Act.Sat.whole whole fun a ha => ?_)
    fun r t hr => hr.sat
  obtain ⟨hkept, -⟩ := ha
  have hc := committed a (s.kept.saveItem item)
  rw [hkept] at hc
  have hexec : (machine C).exec (.saveItem item) a = a.commits (s.kept.saveItem item) := by rw [← hkept]; rfl
  rw [hexec]
  exact ⟨⟨fun task heq => EngineOp.noConfusion heq, hc.books h h'⟩, hc⟩

theorem resetScan_sat (h : Books s.kept) (h' : Books (s.kept.setItems [])) :
    Act.Sat (machine C) (Guar P) resetScan s (fun _ t => t.kept = s.kept.setItems []) (fun _ t => t.kept = s.kept) := by
  refine Act.Sat.bind (R := Committed s.kept (s.kept.setItems [])) (Act.Sat.whole whole fun a ha => ?_)
    fun r t hr => hr.sat
  obtain ⟨hkept, -⟩ := ha
  have hc := committed a (s.kept.setItems [])
  rw [hkept] at hc
  have hexec : (machine C).exec .resetScan a = a.commits (s.kept.setItems []) := by rw [← hkept]; rfl
  rw [hexec]
  exact ⟨⟨fun task heq => EngineOp.noConfusion heq, hc.books h h'⟩, hc⟩

theorem saveTask_sat (h : Books s.kept) (h' : Books (s.kept.saveTask task))
    (hcounted : P task → Accounted task.view s.kept.items) :
    Act.Sat (machine C) (Guar P) (saveTask task) s (fun _ t => t.kept = s.kept.saveTask task) (fun _ t => t.kept = s.kept) := by
  refine Act.Sat.bind (R := Committed s.kept (s.kept.saveTask task)) (Act.Sat.whole whole fun a ha => ?_)
    fun r t hr => hr.sat
  obtain ⟨hkept, -⟩ := ha
  have hc := committed a (s.kept.saveTask task)
  rw [hkept] at hc
  have hexec : (machine C).exec (.saveTask task) a = a.commits (s.kept.saveTask task) := by rw [← hkept]; rfl
  rw [hexec]
  refine ⟨⟨fun task' heq hs => ?_, hc.books h h'⟩, hc⟩
  cases heq
  rw [hkept]
  exact hcounted hs

theorem publish_sat (h : Books s.kept) (h' : Books (s.kept.saveTask task))
    (hcounted : P task → Accounted task.view s.kept.items) :
    Act.Sat (machine C) (Guar P) (publish task) s (fun _ t => t.kept = s.kept.saveTask task) (fun _ t => t.kept = s.kept) := by
  refine Act.Sat.bind (saveTask_sat h h' hcounted) fun _ t ht => ?_
  exact (progress_sat (ht ▸ h') _).mono (fun _ _ hu => hu.trans ht) fun _ _ he => he

-- ---------------------------------------------------------------------------
-- Scanning
-- ---------------------------------------------------------------------------

theorem listing_sat (h : Books s.kept) (root : Nat) (path : String) (waiting pages : Nat) (after : Option String)
    (children : List String) :
    Act.Sat (machine C) (Guar Counts) (listing root path waiting pages after children) s (fun _ t => t.kept = s.kept)
      (fun _ _ => True) := by
  induction pages generalizing s after children with
  | zero => exact .throw trivial
  | succ pages ih =>
    refine Act.Sat.bind ((call_sat h _ _ _ _).mono (fun _ _ h => h) fun _ _ _ => trivial) ?_
    rintro ⟨reply, bytes⟩ t ⟨hkept, -, -⟩
    cases reply with
    | list page =>
      simp only
      split
      · exact .pure hkept
      · split
        · exact .throw trivial
        · exact (ih (hkept ▸ h) _ _).mono (fun _ _ hu => hu.trans hkept) fun _ _ he => he
    | _ => exact .throw trivial

/-- A scan that has `index` entries. -/
structure Scanning (task : Task) (index : Nat) (k : Stored) : Prop where
  books : Books k
  unscanned : k.task.scanned = false
  scanned : task.scanned = false
  length : k.items.length = index
  files : task.view.files = index
  total : task.view.total = filesLength k.items
  bound : task.view.total ≤ U64_MAX
  status : task.view.status = .preparing

theorem Scanning.publish {index : Nat} (h : Scanning task index s.kept) :
    Act.Sat (machine C) (Guar Counts) (publish task) s (fun _ t => Scanning task index t.kept) (fun _ _ => True) := by
  have hafter : Books (s.kept.saveTask task) := by
    refine h.books.saveTask h.total ?_ (fun _ => h.unscanned) h.bound
    intro hs
    rw [h.scanned] at hs
    cases hs
  refine (publish_sat h.books hafter ?_).mono ?_ fun _ _ _ => trivial
  · intro hs
    rw [Counts, h.status] at hs
    cases hs
  · intro _ t ht
    rw [ht]
    exact ⟨hafter, h.scanned, h.scanned, h.length, h.files, h.total, h.bound, h.status⟩

theorem Scanning.append {index : Nat} {k : Stored} (h : Scanning task index k) (hitem : item.index = index)
    (hfine : item.Fine) (hfresh : item.done = false ∧ item.skipped = false) :
    Books (k.saveItem item) ∧ (k.saveItem item).items = k.items ++ [item] := by
  have hindex : item.index = k.items.length := hitem.trans h.length.symm
  have hput : putItem item k.items = k.items ++ [item] := h.books.indexed.append hindex
  refine ⟨h.books.setItems ?_ ?_ ?_ ?_, hput⟩ <;> rw [hput]
  · exact h.books.indexed.concat hindex
  · intro i hi
    rcases List.mem_append.mp hi with hi | hi
    · exact h.books.fine i hi
    · rw [List.mem_singleton.mp hi]
      exact hfine
  · intro hs
    rw [h.unscanned] at hs
    cases hs
  · intro _ i hi
    rcases List.mem_append.mp hi with hi | hi
    · exact h.books.fresh h.unscanned i hi
    · rw [List.mem_singleton.mp hi]
      exact hfresh

theorem filesLength_append (items : List Item) (item : Item) :
    filesLength (items ++ [item]) = filesLength items + item.size := by
  simp [filesLength]

theorem checkedAdd_some {a b c : Nat} (h : checkedAdd a b = some c) : c = a + b ∧ c ≤ U64_MAX := by
  unfold checkedAdd at h
  split at h
  · next hle =>
    cases h
    exact ⟨rfl, hle⟩
  · cases h

/-- A program that keeps the books; where it fails nothing more is asked. -/
abbrev Runs (C : Scene → Prop) (x : Engine.E α) (s : Scene) (Q : α → Scene → Prop) : Prop :=
  Act.Sat (machine C) (Guar Counts) x s Q fun _ _ => True

theorem Runs.of {α : Type} {x : Engine.E α} {Q R : α → Scene → Prop} {E : ClientError → Scene → Prop}
    (h : Act.Sat (machine C) (Guar Counts) x s R E) (hQ : ∀ r t, R r t → Q r t) : Runs C x s Q := h.mono hQ fun _ _ _ => trivial

theorem Runs.provided {b : Bool} {x : Engine.E Unit} {Q : Unit → Scene → Prop} (hx : b = true → Runs C x s Q)
    (hno : b = false → Q () s) : Runs C (provided b x) s Q := by
  cases b
  · exact Act.Sat.pure (hno rfl)
  · exact hx rfl

theorem addLength_sat {Q : Nat → Scene → Prop} (a b : Nat) (h : ∀ c, c = a + b → c ≤ U64_MAX → Q c s) :
    Runs C (addLength a b) s Q := by
  unfold addLength
  cases hc : checkedAdd a b with
  | none => exact Act.Sat.throw trivial
  | some c =>
    obtain ⟨hsum, hle⟩ := checkedAdd_some hc
    exact Act.Sat.pure (h c hsum hle)

theorem sourceStamp_sat (h : Books s.kept) (root : Nat) (path : String) :
    Runs C (sourceStamp root path) s fun r t => t.kept = s.kept ∧ C t ∧
      ∃ bytes, t.around.answer true root (.stat path) [] = .ok (.stat (some r), bytes) := by
  refine Act.Sat.bind (Runs.of (stat_sat h true root path) fun _ _ h => h) ?_
  rintro r t ⟨hkept, hc, bytes, hanswer⟩
  cases r with
  | some stamp => exact Act.Sat.pure ⟨hkept, hc, bytes, hanswer⟩
  | none => exact Act.Sat.throw trivial

theorem counted_sat (stamp : Stamp) (h : task.view.total ≤ U64_MAX) :
    Runs C (counted task stamp) s fun r t => t = s ∧ r ≤ U64_MAX ∧
      r = task.view.total + if stamp.kind = .file then stamp.length else 0 := by
  unfold counted
  split
  · exact addLength_sat _ _ fun c hsum hle => ⟨rfl, hle, hsum⟩
  · exact Act.Sat.pure ⟨rfl, h, rfl⟩

theorem children_sat (h : Books s.kept) (pages root : Nat) (path : String) (waiting : Nat) (stamp : Stamp) :
    Runs C (children pages root path waiting stamp) s fun _ t => t.kept = s.kept := by
  unfold children
  split
  · exact listing_sat h root path waiting pages none []
  · exact Act.Sat.pure rfl

theorem entries_sat {index : Nat} (h : Scanning task index s.kept) (pages left : Nat)
    (pending : List (Nat × String × Option Nat)) :
    Runs C (entries pages left task index pending) s fun task' t => ∃ index, Scanning task' index t.kept := by
  induction left generalizing s task index pending with
  | zero =>
    cases pending with
    | nil => exact Act.Sat.pure ⟨index, h⟩
    | cons => exact Act.Sat.throw trivial
  | succ left ih =>
    cases pending with
    | nil => exact Act.Sat.pure ⟨index, h⟩
    | cons next pending =>
      obtain ⟨root, path, parent⟩ := next
      refine Act.Sat.bind (sourceStamp_sat h.books root path) ?_
      rintro stamp t ⟨ht, -, -⟩
      refine Act.Sat.bind (newToken_sat (ht ▸ h.books)) fun token u hu => ?_
      have hkept : u.kept = s.kept := hu.trans ht
      have hnew : (Item.mk index parent root path "" stamp token none false 0 false false none false false).Fine :=
        ⟨Nat.zero_le _, fun _ => .inr rfl⟩
      obtain ⟨hbooks, hitems⟩ := h.append rfl hnew ⟨rfl, rfl⟩
      rw [← hkept] at hbooks hitems
      refine Act.Sat.bind (Runs.of (saveItem_sat (hkept ▸ h.books) hbooks) fun _ _ h => h) fun _ v hv => ?_
      refine Act.Sat.bind (counted_sat stamp h.bound) ?_
      rintro total w ⟨rfl, hle, htotal⟩
      have hscan : Scanning { task with view := { task.view with total, files := task.view.files + 1 } } (index + 1)
          w.kept := by
        rw [hv]
        refine ⟨hbooks, ?_, h.scanned, ?_, ?_, ?_, hle, h.status⟩
        · show u.kept.task.scanned = false
          rw [hkept]
          exact h.unscanned
        · rw [hitems, hkept, List.length_append, h.length]
          rfl
        · show task.view.files + 1 = index + 1
          rw [h.files]
        · rw [hitems, hkept, filesLength_append, ← h.total]
          exact htotal
      refine Act.Sat.bind (children_sat hscan.books pages root path pending.length stamp) fun names x hx => ?_
      refine Act.Sat.bind (Runs.provided (Q := fun _ t => Scanning _ (index + 1) t.kept) ?_ ?_) fun _ y hy => ih hy _
      · exact fun _ => Scanning.publish (hx ▸ hscan)
      · exact fun _ => hx ▸ hscan

/-- A task that is scanned, with the counters its items had then. -/
theorem scan_sat (h : Books s.kept) (hscanned : s.kept.task.scanned = false) (htask : task.scanned = false)
    (pages : Nat) :
    Runs C (scan pages task) s fun task' t => task'.scanned = true ∧ t.kept.task = task' ∧ t.kept.owed = false ∧
      Books t.kept ∧ ∀ i ∈ t.kept.items, i.skipped = true → i.done = true := by
  have hreset : Books (s.kept.setItems []) := by
    refine h.setItems (fun n i hi => by cases hi) (fun i hi => by cases hi) ?_ fun _ i hi => by cases hi
    intro hs
    rw [hscanned] at hs
    cases hs
  refine Act.Sat.bind (Runs.of (resetScan_sat h hreset) fun _ _ h => h) fun _ t ht => ?_
  have hstart : Scanning { task with view := { task.view with status := .preparing, total := 0, files := 0 } } 0
      t.kept := by
    rw [ht]
    exact ⟨hreset, hscanned, htask, rfl, rfl, rfl, Nat.zero_le _, rfl⟩
  refine Act.Sat.bind hstart.publish fun _ u hu => ?_
  refine Act.Sat.bind (entries_sat hu _ _ _) ?_
  rintro task' v ⟨index, hv⟩
  have hafter : Books (v.kept.saveTask { task' with scanned := true }) :=
    hv.books.saveTask hv.total (fun _ => hv.files.trans hv.length.symm) (fun _ => hv.unscanned) hv.bound
  refine Act.Sat.bind (Runs.of (publish_sat hv.books hafter ?_) fun _ _ h => h) fun _ w hw => ?_
  · intro hs
    have hs' : task'.view.status.counted = true := hs
    rw [hv.status] at hs'
    cases hs'
  · refine Act.Sat.pure ⟨rfl, hw ▸ rfl, hw ▸ rfl, hw ▸ hafter, fun i hi hs => ?_⟩
    have hmem : i ∈ v.kept.items := by
      rw [hw] at hi
      exact hi
    rw [(hv.books.fresh hv.unscanned i hmem).2] at hs
    cases hs

end

end RemoteCodex.Engine
