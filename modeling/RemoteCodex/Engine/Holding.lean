import RemoteCodex.Engine.Guards

/-!
# One item in hand

Between taking an item and being done with it the run holds the item and the
task in memory, ahead of the store. `Holding` says that it may save the item
whenever it likes.
-/

namespace RemoteCodex.Engine

open Interact Transfer
open Remote (ClientError)

/-- A task that a run works on. -/
structure Working (task : Task) : Prop where
  scanned : task.scanned = true
  cancel : task.cancel = false
  running : task.view.status.ended = false

structure Holding (answers : List Answer) (task : Task) (items : List Item) (n : Nat) (item : Item) (k : Stored)
    (log : List Asked) : Prop where
  regular : Regular answers k log
  stored : ∃ old, k.items = items.set n old
  lt : n < items.length
  before : ∀ (m : Nat) (i : Item), items[m]? = some i → m < n → i.done = true
  after : ∀ (m : Nat) (i : Item), items[m]? = some i → n < m → i.Untouched
  working : Working k.task
  workingTask : Working task
  current : ∀ c, k.task.current = some c → c ≤ n
  currentTask : ∀ c, task.current = some c → c ≤ n
  alike : Alike task k.task
  index : item.index = n
  parent : ∀ p, item.parent = some p → p < n
  undone : item.done = false
  placed : item.Placed log answers task.base items
  seen : Said log true item.root (.stat item.source) (.stat (some item.stamp))
  choices : ∀ choice, item.choice = some choice → Chose answers choice
  prepared : item.prepared = true → Permitted log answers item ∧ item.skipped = false ∧ item.stamp.kind ≠ .unsupported
  chosen : item.Replaces → ∃ conflict, k.task.view.conflict = some conflict ∧ Shown answers conflict.expected
  stages : ∀ x ∈ Engine.stages log, ∃ i ∈ items.set n item, i.staged = true ∧ i.stage = x

section

variable {answers : List Answer} {s t : Scene × List Asked} {task task' : Task} {items : List Item} {n : Nat}
  {item item' : Item} {k : Stored} {log log' : List Asked}

-- ---------------------------------------------------------------------------
-- Changes in memory
-- ---------------------------------------------------------------------------

/-- The commands grow; nothing new may be left at the destination. -/
theorem Holding.grow (h : Holding answers task items n item k log) (hlog : log ⊆ log')
    (hstages : Engine.stages log' ⊆ Engine.stages log) : Holding answers task items n item k log' where
  __ := h
  regular := h.regular.fewer hlog hstages
  placed := h.placed.mono hlog (List.Subset.refl _)
  seen := h.seen.mono hlog
  prepared hp := ⟨(h.prepared hp).1.mono hlog (List.Subset.refl _), (h.prepared hp).2⟩
  stages x hx := h.stages x (hstages hx)

theorem Holding.grown (h : Holding answers task items n item s.1.kept s.2) (hgrown : Grown s t) :
    Holding answers task items n item t.1.kept t.2 := by
  rw [hgrown.kept]
  exact h.grow hgrown.log hgrown.stages

theorem Holding.still (h : Holding answers task items n item s.1.kept s.2) (hstill : Still s t) :
    Holding answers task items n item t.1.kept t.2 := h.grown hstill.grown

/-- The task changes in what nothing here is about. -/
theorem Holding.setTask (h : Holding answers task items n item k log) (halike : Alike task' task)
    (hcurrent : ∀ c, task'.current = some c → c ≤ n) (hrunning : task'.view.status.ended = false) :
    Holding answers task' items n item k log where
  __ := h
  workingTask := ⟨halike.scanned.trans h.workingTask.scanned, halike.cancel.trans h.workingTask.cancel, hrunning⟩
  currentTask := hcurrent
  alike := ⟨halike.base.trans h.alike.base, halike.policy.trans h.alike.policy, halike.scanned.trans h.alike.scanned,
    halike.cancel.trans h.alike.cancel⟩
  placed := halike.base ▸ h.placed

/-- Another item in the place of the one in hand, with the stage it may have left. -/
theorem Holding.stages_set (h : Holding answers task items n item k log)
    (hstages : item.stage ∈ Engine.stages log → item.staged = true → item'.staged = true ∧ item'.stage = item.stage) :
    ∀ x ∈ Engine.stages log, ∃ i ∈ items.set n item', i.staged = true ∧ i.stage = x := by
  intro x hx
  obtain ⟨i, hi, hstaged, rfl⟩ := h.stages x hx
  obtain ⟨m, hm⟩ := List.mem_iff_getElem?.mp hi
  by_cases heq : n = m
  · subst heq
    rw [List.getElem?_set_self h.lt] at hm
    obtain rfl := Option.some.inj hm
    obtain ⟨hstaged', hstage⟩ := hstages hx hstaged
    exact ⟨item', List.mem_iff_getElem?.mpr ⟨n, List.getElem?_set_self h.lt⟩, hstaged', hstage⟩
  · rw [List.getElem?_set_ne heq] at hm
    exact ⟨i, List.mem_iff_getElem?.mpr ⟨m, (List.getElem?_set_ne heq).trans hm⟩, hstaged, rfl⟩

/-- The item changes, but not its place among the others, nor its stage. -/
theorem Holding.setItem (h : Holding answers task items n item k log) (hindex : item'.index = item.index)
    (hparent : item'.parent = item.parent) (hundone : item'.done = false) (hplaced : item'.Placed log answers task.base items)
    (hseen : Said log true item'.root (.stat item'.source) (.stat (some item'.stamp)))
    (hchoices : ∀ choice, item'.choice = some choice → Chose answers choice)
    (hprepared : item'.prepared = true →
      Permitted log answers item' ∧ item'.skipped = false ∧ item'.stamp.kind ≠ .unsupported)
    (hchosen : item'.Replaces → item.Replaces)
    (hstages : item.stage ∈ Engine.stages log → item.staged = true → item'.staged = true ∧ item'.stage = item.stage) :
    Holding answers task items n item' k log where
  __ := h
  index := hindex.trans h.index
  parent p hp := h.parent p (hparent ▸ hp)
  undone := hundone
  placed := hplaced
  seen := hseen
  choices := hchoices
  prepared := hprepared
  chosen hr := h.chosen (hchosen hr)
  stages := h.stages_set hstages

-- ---------------------------------------------------------------------------
-- Saving
-- ---------------------------------------------------------------------------

/-- Another item of the list is what it was in the store. -/
theorem Holding.other (h : Holding answers task items n item k log) {m : Nat} {i : Item}
    (hi : (items.set n item')[m]? = some i) (hm : m ≠ n) : k.items[m]? = some i ∧ items[m]? = some i := by
  rw [List.getElem?_set_ne (Ne.symm hm)] at hi
  obtain ⟨old, hold⟩ := h.stored
  exact ⟨by rw [hold, List.getElem?_set_ne (Ne.symm hm), hi], hi⟩

/-- What may be stored in the place of the item in hand. -/
theorem Holding.regular_put (h : Holding answers task items n item k log) (hindex : item'.index = n)
    (hparent : ∀ p, item'.parent = some p → p < n) (hsound : item'.Sound log answers)
    (hplaced : item'.Placed log answers k.task.base items)
    (hchosen : item'.Replaces → ∃ conflict, k.task.view.conflict = some conflict ∧ Shown answers conflict.expected)
    (hstages : ∀ x ∈ Engine.stages log, ∃ i ∈ items.set n item', i.staged = true ∧ i.stage = x) :
    (k.saveItem item').items = items.set n item' ∧ Regular answers (k.saveItem item') log := by
  obtain ⟨old, hold⟩ := h.stored
  have hput : putItem item' k.items = items.set n item' := by
    have hlt : item'.index < k.items.length := by
      rw [hold, List.length_set, hindex]
      exact h.lt
    rw [h.regular.indexed.put hlt, hold, hindex, List.set_set]
  rw [show k.saveItem item' = k.setItems (items.set n item') from congrArg k.setItems hput]
  refine ⟨rfl, ?_⟩
  have hcases : ∀ i ∈ items.set n item', ∃ m, (items.set n item')[m]? = some i ∧
      (m = n ∧ i = item' ∨ m ≠ n ∧ k.items[m]? = some i ∧ items[m]? = some i) := by
    intro i hi
    obtain ⟨m, hm⟩ := List.mem_iff_getElem?.mp hi
    refine ⟨m, hm, ?_⟩
    by_cases heq : m = n
    · subst heq
      rw [List.getElem?_set_self h.lt] at hm
      exact .inl ⟨rfl, (Option.some.inj hm).symm⟩
    · exact .inr ⟨heq, h.other hm heq⟩
  have hself : (items.set n item')[n]? = some item' := List.getElem?_set_self h.lt
  refine ⟨?_, ?_, ?_, ?_, ?_, ?_, h.regular.policy, ?_, hstages, ?_, ?_, ?_⟩
  · intro m i hi
    by_cases heq : m = n
    · subst heq
      obtain rfl := Option.some.inj (hself.symm.trans hi)
      exact hindex
    · exact h.regular.indexed m i (h.other hi heq).1
  · intro i hi p hp
    obtain ⟨m, -, ⟨rfl, rfl⟩ | ⟨-, hk, -⟩⟩ := hcases i hi
    · rw [hindex]
      exact hparent p hp
    · exact h.regular.parents i (List.mem_of_getElem? hk) p hp
  · intro i hi
    obtain ⟨m, -, ⟨rfl, rfl⟩ | ⟨-, hk, -⟩⟩ := hcases i hi
    · exact hsound
    · exact h.regular.sound i (List.mem_of_getElem? hk)
  · intro i hi hstanding
    obtain ⟨m, -, ⟨rfl, rfl⟩ | ⟨hne, hk, hm⟩⟩ := hcases i hi
    · show Item.Placed log answers k.task.base (items.set m i) i
      refine hplaced.congr fun p hp => ?_
      rw [List.getElem?_set_ne (Nat.ne_of_gt (hparent p hp))]
    · have hlt : m < n := by
        refine Nat.lt_of_le_of_ne (Nat.le_of_not_lt fun hgt => ?_) hne
        have huntouched := h.after m i hm hgt
        rcases hstanding with hd | ht | hp
        · rw [huntouched.done] at hd
          cases hd
        · exact ht huntouched.target
        · rw [huntouched.prepared] at hp
          cases hp
      have hplace := h.regular.placed i (List.mem_of_getElem? hk) hstanding
      refine hplace.congr fun p hp => ?_
      have hpm := h.regular.parents i (List.mem_of_getElem? hk) p hp
      rw [h.regular.indexed m i hk] at hpm
      show (items.set n item')[p]? = k.items[p]?
      rw [hold, List.getElem?_set_ne (by omega), List.getElem?_set_ne (by omega)]
  · intro m m' i j hi hj hlt hundone
    by_cases hm : m < n
    · have hdone := h.before m i (h.other hi (Nat.ne_of_lt hm)).2 hm
      rw [hdone] at hundone
      cases hundone
    · have hm' : n < m' := by omega
      exact h.after m' j (h.other hj (Nat.ne_of_gt hm')).2 hm'
  · intro c hc m i hi hm
    have hcn := h.current c hc
    have hmn : m < n := by omega
    exact h.before m i (h.other hi (Nat.ne_of_lt hmn)).2 hmn
  · intro _ i hi hreplaces
    obtain ⟨m, -, ⟨rfl, rfl⟩ | ⟨hne, hk, hm⟩⟩ := hcases i hi
    · exact hchosen hreplaces
    · exact h.regular.chosen h.working.cancel i (List.mem_of_getElem? hk) hreplaces
  · intro hscanned
    have hworking : k.task.scanned = true := h.working.scanned
    rw [show (k.setItems (items.set n item')).task.scanned = k.task.scanned from rfl, hworking] at hscanned
    cases hscanned
  · intro hcompleted
    have hrunning := h.working.running
    rw [show k.task.view.status = .completed from hcompleted] at hrunning
    cases hrunning
  · intro hended
    have hrunning := h.working.running
    rw [show k.task.view.status.ended = true from hended] at hrunning
    cases hrunning

/-- The item in hand is the stored one. -/
structure Laid (answers : List Answer) (task : Task) (items : List Item) (n : Nat) (item : Item) (k : Stored)
    (log : List Asked) : Prop extends Holding answers task items n item k log where
  same : k.items = items.set n item

theorem Holding.put (h : Holding answers task items n item k log) :
    (k.saveItem item).items = items.set n item ∧ Regular answers (k.saveItem item) log := by
  refine h.regular_put h.index h.parent ⟨h.seen, h.choices, h.prepared, fun hd => ?_⟩ (h.alike.base ▸ h.placed) h.chosen h.stages
  rw [h.undone] at hd
  cases hd

theorem Holding.saveItem (h : Holding answers task items n item s.1.kept s.2) :
    Act.Sat recorded (Guards answers) (saveItem item) s (fun _ t => Laid answers task items n item t.1.kept t.2)
      (fun _ t => Holding answers task items n item t.1.kept t.2) := by
  obtain ⟨hitems, hregular⟩ := h.put
  refine (saveItem_guards h.regular hregular).mono ?_ fun _ t ht => h.still ht
  rintro _ t ⟨hkept, hlog⟩
  rw [hkept, hlog]
  exact ⟨{ h with regular := hregular, stored := ⟨item, hitems⟩ }, hitems⟩

/-- A task may be stored if the question it asks is one the item may be an answer to. -/
theorem Laid.publish (h : Laid answers task items n item s.1.kept s.2)
    (hchosen : item.Replaces → ∃ conflict, task.view.conflict = some conflict ∧ Shown answers conflict.expected) :
    Guarded answers (publish task) s fun _ t => Laid answers task items n item t.1.kept t.2 ∧ t.1.kept.task = task := by
  have hregular : Regular answers (s.1.kept.saveTask task) s.2 := by
    refine h.regular.saveTask h.alike.base ?_ (h.alike.policy ▸ h.regular.policy) ?_ ?_ ?_ ?_
    · intro c hc m i hi hm
      have hcn := h.currentTask c hc
      have hmn : m < n := by omega
      rw [h.same] at hi
      exact h.before m i (h.other hi (Nat.ne_of_lt hmn)).2 hmn
    · intro _ i hi hreplaces
      rw [h.same] at hi
      obtain ⟨m, hm⟩ := List.mem_iff_getElem?.mp hi
      rcases Nat.lt_trichotomy m n with hlt | rfl | hgt
      · have hdone := h.before m i (h.other hm (Nat.ne_of_lt hlt)).2 hlt
        rw [hreplaces.1] at hdone
        cases hdone
      · rw [List.getElem?_set_self h.lt] at hm
        obtain rfl := Option.some.inj hm
        exact hchosen hreplaces
      · exact absurd hreplaces (h.after m i (h.other hm (Nat.ne_of_gt hgt)).2 hgt).replaces
    · intro hscanned
      rw [h.workingTask.scanned] at hscanned
      cases hscanned
    · intro hcompleted
      have hrunning := h.workingTask.running
      rw [hcompleted] at hrunning
      cases hrunning
    · intro hended
      rw [h.workingTask.running] at hended
      cases hended
  refine (publish_guards h.regular hregular).mono ?_ fun _ _ he => he
  rintro _ t ⟨hkept, hlog⟩
  rw [hkept, hlog]
  refine ⟨⟨{ h.toHolding with
    regular := hregular
    stored := ⟨item, h.same⟩
    working := h.workingTask
    current := h.currentTask
    alike := .refl task
    chosen := hchosen }, h.same⟩, rfl⟩

end

end RemoteCodex.Engine
