import RemoteCodex.Engine.Service
import RemoteCodex.Interact.Steps

/-!
# The stored counters of a transfer

The store has the task in one record and each item in another, so they are saved
one after the other. `owed` tells when the length of the files has changed since
the task was saved: a run that stops there leaves a total that is not theirs.
-/

namespace RemoteCodex.Engine

open Interact Transfer
open Remote (ClientError)

/-- The items under their index, in its order. -/
def putItem (item : Item) : List Item → List Item
  | [] => [item]
  | i :: rest =>
    if i.index = item.index then item :: rest
    else if item.index < i.index then item :: i :: rest
    else i :: putItem item rest

/-- What counts of an item in the total. -/
def Item.size (i : Item) : Nat := if i.stamp.kind = .file then i.stamp.length else 0

def filesLength (items : List Item) : Nat := (items.map Item.size).sum

structure Stored where
  task : Task
  items : List Item := []
  owed : Bool := false
  deriving DecidableEq

namespace Stored

def saveTask (k : Stored) (task : Task) : Stored := { k with task, owed := false }

def setItems (k : Stored) (items : List Item) : Stored :=
  { k with items, owed := k.owed || filesLength items ≠ filesLength k.items }

def saveItem (k : Stored) (item : Item) : Stored := k.setItems (putItem item k.items)

def progress (k : Stored) : Nat × Nat × Nat :=
  ((k.items.map Item.bytes).sum, k.items.countP fun i => i.done && !i.skipped, k.items.countP Item.skipped)

end Stored

/-- How the next operations will be answered: what the store fails with, how the
ends of the transfer are opened and what they answer. -/
structure Around where
  fails : Option ClientError := none
  opens : Except ClientError RootIdentity
  answer : Bool → Nat → Command → Files.Bytes → Except ClientError (Reply × Files.Bytes)
  token : String
  late : Bool := false

structure Scene where
  kept : Stored
  around : Around

namespace Scene

def reads (s : Scene) (a : α) : Except ClientError α := s.around.fails.elim (.ok a) .error

def commits (s : Scene) (k : Stored) : Except ClientError Unit × Scene :=
  match s.around.fails with
  | some e => (.error e, s)
  | none => (.ok (), { s with kept := k })

def exec : (op : EngineOp) → Scene → EngineAns op × Scene
  | .loadTask, s => (s.reads s.kept.task, s)
  | .loadItems, s => (s.reads s.kept.items, s)
  | .loadProgress, s => (s.reads s.kept.progress, s)
  | .saveTask task, s => s.commits (s.kept.saveTask task)
  | .saveItem item, s => s.commits (s.kept.saveItem item)
  | .resetScan, s => s.commits (s.kept.setItems [])
  | .openPeers _ _, s => (s.around.opens, s)
  | .call source root command bytes, s => (s.around.answer source root command bytes, s)
  | .token, s => (s.around.token, s)
  | .progress _, s => ((), s)
  | .elapsed, s => (s.around.late, s)

end Scene

/-- A transaction is carried out or not at all. `C` limits how things may be
around the store whenever it, or an end of the transfer, is asked. -/
def machine (C : Scene → Prop) : Machine EngineOp EngineAns Scene where
  exec := Scene.exec
  torn _ _ _ := False
  rely s t := t.kept = s.kept ∧ C t

-- ---------------------------------------------------------------------------
-- Sums over the items
-- ---------------------------------------------------------------------------

def Item.completes (i : Item) : Nat := (i.done && !i.skipped).toNat

def Item.skips (i : Item) : Nat := (i.done && i.skipped).toNat

/-- The counters are those of the items. -/
structure Tally (v : View) (items : List Item) : Prop where
  bytes : v.bytes = (items.map Item.bytes).sum
  completed : v.completed = (items.map Item.completes).sum
  skipped : v.skipped = (items.map Item.skips).sum
  total : v.total = filesLength items

theorem countP_eq_sum (p : Item → Bool) (items : List Item) :
    items.countP p = (items.map fun i => (p i).toNat).sum := by
  induction items with
  | nil => rfl
  | cons i items ih =>
    rw [List.countP_cons, ih, List.map_cons, List.sum_cons, Nat.add_comm]
    cases p i <;> rfl

theorem sum_set {α : Type} (f : α → Nat) {l : List α} {n : Nat} {x : α} (hx : l[n]? = some x) (y : α) :
    ((l.set n y).map f).sum + f x = (l.map f).sum + f y := by
  induction l generalizing n with
  | nil => cases hx
  | cons z l ih =>
    cases n with
    | zero =>
      cases hx
      simp only [List.set_cons_zero, List.map_cons, List.sum_cons]
      omega
    | succ n =>
      have hrest := ih hx
      simp only [List.set_cons_succ, List.map_cons, List.sum_cons]
      omega

theorem le_sum {α : Type} (f : α → Nat) {l : List α} {x : α} (hx : x ∈ l) : f x ≤ (l.map f).sum := by
  induction l with
  | nil => cases hx
  | cons y l ih =>
    rw [List.map_cons, List.sum_cons]
    rcases List.mem_cons.mp hx with rfl | hx
    · exact Nat.le_add_right _ _
    · exact Nat.le_trans (ih hx) (Nat.le_add_left _ _)

theorem sum_le_sum {α : Type} {f g : α → Nat} {l : List α} (h : ∀ x ∈ l, f x ≤ g x) :
    (l.map f).sum ≤ (l.map g).sum := by
  induction l with
  | nil => exact Nat.le_refl _
  | cons x l ih =>
    have hrest := ih fun y hy => h y (List.mem_cons_of_mem _ hy)
    have hhead := h x List.mem_cons_self
    simp only [List.map_cons, List.sum_cons]
    omega

/-- One item changes, and the counters with it. -/
theorem Tally.change {v w : View} {l : List Item} {n : Nat} {x y : Item} (h : Tally v l) (hx : l[n]? = some x)
    (hbytes : w.bytes + x.bytes = v.bytes + y.bytes) (hcompleted : w.completed + x.completes = v.completed + y.completes)
    (hskipped : w.skipped + x.skips = v.skipped + y.skips) (htotal : w.total + x.size = v.total + y.size) :
    Tally w (l.set n y) where
  bytes := by
    have hsum := sum_set Item.bytes hx y
    have hold := h.bytes
    omega
  completed := by
    have hsum := sum_set Item.completes hx y
    have hold := h.completed
    omega
  skipped := by
    have hsum := sum_set Item.skips hx y
    have hold := h.skipped
    omega
  total := by
    have hsum := sum_set Item.size hx y
    have hold := h.total
    unfold filesLength at hold ⊢
    omega

-- ---------------------------------------------------------------------------
-- What is stored
-- ---------------------------------------------------------------------------

/-- Nothing but files has bytes, and an item of no known kind is skipped once it has a target. -/
structure Item.Fine (i : Item) : Prop where
  bytes : i.bytes ≤ i.size
  unsupported : i.stamp.kind = .unsupported → i.skipped = true ∨ i.target.isEmpty = true

def Indexed (items : List Item) : Prop := ∀ (n : Nat) (i : Item), items[n]? = some i → i.index = n

structure Books (k : Stored) : Prop where
  indexed : Indexed k.items
  fine : ∀ i ∈ k.items, i.Fine
  paid : k.owed = false → k.task.view.total = filesLength k.items
  files : k.task.scanned = true → k.task.view.files = k.items.length
  fresh : k.task.scanned = false → ∀ i ∈ k.items, i.done = false ∧ i.skipped = false
  bound : k.task.view.total ≤ U64_MAX

theorem putItem_set {l : List Item} {item : Item} {b n : Nat}
    (h : ∀ (m : Nat) (i : Item), l[m]? = some i → i.index = b + m)
    (hn : n < l.length) (hindex : item.index = b + n) : putItem item l = l.set n item := by
  induction l generalizing n b with
  | nil => simp at hn
  | cons i l ih =>
    have hi : i.index = b + 0 := h 0 i rfl
    cases n with
    | zero => simp [putItem, hi, hindex]
    | succ n =>
      have hrest := ih (b := b + 1) (n := n) (fun m j hj => by rw [h (m + 1) j hj]; omega) (by simpa using hn)
        (by omega)
      rw [putItem, if_neg (by omega), if_neg (by omega), hrest, List.set_cons_succ]

theorem putItem_append {l : List Item} {item : Item} {b : Nat}
    (h : ∀ (m : Nat) (i : Item), l[m]? = some i → i.index = b + m)
    (hindex : item.index = b + l.length) : putItem item l = l ++ [item] := by
  induction l generalizing b with
  | nil => rfl
  | cons i l ih =>
    have hi : i.index = b + 0 := h 0 i rfl
    have hlen : (i :: l).length = l.length + 1 := rfl
    rw [putItem, if_neg (by omega), if_neg (by omega), ih (b := b + 1) (fun m j hj => by rw [h (m + 1) j hj]; omega) (by omega)]
    rfl

theorem Indexed.put {items : List Item} {item : Item} (h : Indexed items) (hn : item.index < items.length) :
    putItem item items = items.set item.index item := by
  refine putItem_set (b := 0) (fun m i hi => ?_) hn (Nat.zero_add _).symm
  rw [h m i hi, Nat.zero_add]

theorem Indexed.append {items : List Item} {item : Item} (h : Indexed items) (hn : item.index = items.length) :
    putItem item items = items ++ [item] := by
  refine putItem_append (b := 0) (fun m i hi => ?_) (by rw [hn, Nat.zero_add])
  rw [h m i hi, Nat.zero_add]

theorem Indexed.set {items : List Item} {item : Item} (h : Indexed items) (n : Nat) (hindex : item.index = n) :
    Indexed (items.set n item) := by
  intro m i hi
  rw [List.getElem?_set] at hi
  split at hi
  · next heq =>
    split at hi
    · cases hi
      rw [hindex, heq]
    · cases hi
  · exact h m i hi

theorem Indexed.concat {items : List Item} {item : Item} (h : Indexed items) (hindex : item.index = items.length) :
    Indexed (items ++ [item]) := by
  intro m i hi
  rw [List.getElem?_append] at hi
  split at hi
  · exact h m i hi
  · next hm =>
    rw [List.getElem?_singleton] at hi
    split at hi
    · cases hi
      omega
    · cases hi

section

variable {k : Stored} {task : Task} {item : Item}

theorem Books.saveTask (h : Books k) (htotal : task.view.total = filesLength k.items)
    (hfiles : task.scanned = true → task.view.files = k.items.length)
    (hfresh : task.scanned = false → k.task.scanned = false) (hbound : task.view.total ≤ U64_MAX) :
    Books (k.saveTask task) :=
  ⟨h.indexed, h.fine, fun _ => htotal, hfiles, fun hs => h.fresh (hfresh hs), hbound⟩

theorem Books.setItems {items : List Item} (h : Books k) (hindexed : Indexed items) (hfine : ∀ i ∈ items, i.Fine)
    (hfiles : k.task.scanned = true → items.length = k.items.length)
    (hfresh : k.task.scanned = false → ∀ i ∈ items, i.done = false ∧ i.skipped = false) : Books (k.setItems items) where
  indexed := hindexed
  fine := hfine
  paid howed := by
    obtain ⟨hold, hsame⟩ : k.owed = false ∧ filesLength items = filesLength k.items := by
      simpa [Stored.setItems] using howed
    exact (h.paid hold).trans hsame.symm
  files hs := (h.files hs).trans (hfiles hs).symm
  fresh := hfresh
  bound := h.bound

/-- An item takes the place of the one with its index. -/
theorem Books.saveItem {n : Nat} (h : Books k) (hscanned : k.task.scanned = true) (hfine : item.Fine)
    (hindex : item.index = n) (hn : n < k.items.length) :
    Books (k.saveItem item) ∧ (k.saveItem item).items = k.items.set n item := by
  have hput : putItem item k.items = k.items.set n item := by
    subst hindex
    exact h.indexed.put hn
  refine ⟨h.setItems ?_ ?_ ?_ ?_, hput⟩ <;> rw [hput]
  · exact h.indexed.set n hindex
  · intro i hi
    rcases List.mem_or_eq_of_mem_set hi with hi | rfl
    · exact h.fine i hi
    · exact hfine
  · exact fun _ => List.length_set
  · intro hs
    rw [hscanned] at hs
    cases hs

end

end RemoteCodex.Engine
