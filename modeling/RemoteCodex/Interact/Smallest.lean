import Mathlib.Order.Lattice
import Mathlib.Data.List.Sort

/-!
# The smallest of many

An ordered set that is kept to a size drops its largest element whenever it
grows beyond it; in whatever order the elements come, the smallest ones remain.
Pages of that size, each behind the last element of the one before, are the
set in its order.
-/

namespace RemoteCodex.Interact.Smallest

variable {α : Type} [LinearOrder α] {x y : α} {xs ys : List α}

def Ascending (xs : List α) : Prop := xs.Pairwise (· < ·)

/-- `x` at its place, if it is not there already. -/
def place (x : α) : List α → List α
  | [] => [x]
  | y :: ys => if x < y then x :: y :: ys else if x = y then y :: ys else y :: place x ys

/-- The elements in their order, each once. -/
def sorted (xs : List α) : List α := xs.foldr place []

/-- A bounded set takes another element. -/
def keep (size : Nat) (x : α) (xs : List α) : List α :=
  let all := if x ∈ xs then xs else xs.orderedInsert (· ≤ ·) x
  if all.length > size then all.dropLast else all

theorem mem_place : y ∈ place x xs ↔ y = x ∨ y ∈ xs := by
  induction xs with
  | nil => simp [place]
  | cons z zs ih =>
    unfold place
    split
    · simp
    · split
      · next heq => simp [heq]
      · simp only [List.mem_cons, ih]
        tauto

theorem place_ascending (h : Ascending xs) (x : α) : Ascending (place x xs) := by
  induction xs with
  | nil => exact List.pairwise_singleton _ _
  | cons z zs ih =>
    obtain ⟨hhead, hrest⟩ := List.pairwise_cons.mp h
    unfold place
    split
    · next hlt =>
      refine List.pairwise_cons.mpr ⟨fun y hy => ?_, h⟩
      rcases List.mem_cons.mp hy with rfl | hy
      · exact hlt
      · exact lt_trans hlt (hhead y hy)
    · next hge =>
      split
      · exact h
      · next hne =>
        refine List.pairwise_cons.mpr ⟨fun y hy => ?_, ih hrest⟩
        rcases mem_place.mp hy with rfl | hy
        · exact lt_of_le_of_ne (not_lt.mp hge) (Ne.symm hne)
        · exact hhead y hy

theorem place_of_mem (h : Ascending xs) (hx : x ∈ xs) : place x xs = xs := by
  induction xs with
  | nil => cases hx
  | cons z zs ih =>
    obtain ⟨hhead, hrest⟩ := List.pairwise_cons.mp h
    unfold place
    rcases List.mem_cons.mp hx with rfl | hx
    · rw [if_neg (lt_irrefl _), if_pos rfl]
    · have hlt := hhead x hx
      rw [if_neg (not_lt.mpr hlt.le), if_neg hlt.ne', ih hrest hx]

theorem orderedInsert_eq_place (hx : x ∉ xs) : xs.orderedInsert (· ≤ ·) x = place x xs := by
  induction xs with
  | nil => rfl
  | cons z zs ih =>
    rw [List.mem_cons, not_or] at hx
    unfold place
    rw [List.orderedInsert_cons, ih hx.2, if_neg hx.1]
    exact if_congr (le_iff_lt_or_eq.trans (or_iff_left hx.1)) rfl rfl

theorem length_place_le (x : α) (xs : List α) : (place x xs).length ≤ xs.length + 1 := by
  induction xs with
  | nil => exact Nat.le_refl _
  | cons z zs ih =>
    unfold place
    split
    · exact Nat.le_refl _
    · split
      · exact Nat.le_succ _
      · exact Nat.succ_le_succ ih

/-- What is beyond the size never comes back. -/
theorem take_place_take (x : α) (xs : List α) (n : Nat) : (place x (xs.take n)).take n = (place x xs).take n := by
  induction xs generalizing n with
  | nil => rw [List.take_nil]
  | cons z zs ih =>
    cases n with
    | zero => rw [List.take_zero, List.take_zero]
    | succ n =>
      rw [List.take_succ_cons]
      unfold place
      split
      · rw [← List.take_succ_cons, List.take_succ_cons, List.take_take, Nat.min_eq_left (Nat.le_succ n),
          List.take_succ_cons]
      · split
        · rw [← List.take_succ_cons, List.take_take, Nat.min_self]
        · rw [List.take_succ_cons, List.take_succ_cons, ih]

/-- A bounded set that has the smallest of `xs` has the smallest with `x` as well. -/
theorem keep_take (h : Ascending xs) (size : Nat) (x : α) : keep size x (xs.take size) = (place x xs).take size := by
  have hall : (if x ∈ xs.take size then xs.take size else (xs.take size).orderedInsert (· ≤ ·) x) =
      place x (xs.take size) := by
    split
    · next hx => exact (place_of_mem (h.sublist (List.take_sublist _ _)) hx).symm
    · next hx => exact orderedInsert_eq_place hx
  have hlength : (place x (xs.take size)).length ≤ size + 1 :=
    (length_place_le _ _).trans (Nat.succ_le_succ (List.length_take_le _ _))
  unfold keep
  rw [hall, ← take_place_take]
  dsimp only
  split
  · next hlong =>
    rw [List.dropLast_eq_take]
    congr 1
    omega
  · next hfits => exact (List.take_of_length_le (Nat.le_of_not_lt hfits)).symm

theorem mem_sorted : y ∈ sorted xs ↔ y ∈ xs := by
  induction xs with
  | nil => exact Iff.rfl
  | cons z zs ih =>
    show y ∈ place z (sorted zs) ↔ _
    rw [mem_place, ih, List.mem_cons]

theorem sorted_ascending (xs : List α) : Ascending (sorted xs) := by
  induction xs with
  | nil => exact .nil
  | cons z zs ih => exact place_ascending ih z

/-- Sets with the same elements are the same list. -/
theorem Ascending.ext (hx : Ascending xs) (hy : Ascending ys) (h : ∀ z, z ∈ xs ↔ z ∈ ys) : xs = ys := by
  have hperm : xs.Perm ys := (List.perm_ext_iff_of_nodup (hx.imp ne_of_lt) (hy.imp ne_of_lt)).mpr h
  refine hperm.eq_of_pairwise ?_ hx hy
  intro a b _ _ hab hba
  exact absurd (lt_trans hab hba) (lt_irrefl _)

-- ---------------------------------------------------------------------------
-- Pages
-- ---------------------------------------------------------------------------

/-- What comes after a cursor. -/
def behind (after : Option α) (xs : List α) : List α := xs.filter fun x => after.all fun a => a < x

/-- The cursor of a page, if there is more than fits in it. -/
def cursor (size : Nat) (rows : List α) : Option α := if rows.length > size then (rows.take size).getLast? else none

variable {after : Option α} {last : α} {size : Nat}

theorem behind_none (xs : List α) : behind none xs = xs := List.filter_eq_self.mpr fun _ _ => rfl

theorem behind_ascending (h : Ascending xs) (after : Option α) : Ascending (behind after xs) := h.filter _

omit [LinearOrder α] in
/-- The last page has all there is. -/
theorem cursor_none (hsize : 0 < size) (h : cursor size xs = none) : xs.length ≤ size := by
  unfold cursor at h
  split at h
  · next hlong =>
    rw [List.getLast?_eq_none_iff] at h
    have hlength := congrArg List.length h
    rw [List.length_take, List.length_nil] at hlength
    omega
  · next hfits => exact Nat.le_of_not_lt hfits

omit [LinearOrder α] in
theorem cursor_some (h : cursor size xs = some last) : size < xs.length ∧ (xs.take size).getLast? = some last := by
  unfold cursor at h
  split at h
  · next hlong => exact ⟨hlong, h⟩
  · cases h

/-- The next page goes on where this one ends. -/
theorem behind_cursor (h : Ascending xs) (hcursor : cursor size (behind after xs) = some last) :
    behind (some last) xs = (behind after xs).drop size := by
  obtain ⟨-, hlast⟩ := cursor_some hcursor
  have hascending := behind_ascending h after
  have hmem : last ∈ behind after xs := List.mem_of_mem_take (List.mem_of_getLast? hlast)
  have hafter : (after.all fun a => decide (a < last)) = true := (List.mem_filter.mp hmem).2
  have hagain : behind (some last) xs = behind (some last) (behind after xs) := by
    unfold behind
    rw [List.filter_filter]
    refine List.filter_congr fun y _ => ?_
    cases after with
    | none => simp
    | some a =>
      simp only [Option.all_some, decide_eq_true_eq] at hafter ⊢
      rw [← Bool.decide_and, decide_eq_decide]
      exact ⟨fun hlt => ⟨hlt, lt_trans hafter hlt⟩, And.left⟩
  rw [hagain]
  clear hagain hafter hmem
  generalize behind after xs = rows at hlast hascending
  obtain ⟨front, hfront⟩ := List.getLast?_eq_some_iff.mp hlast
  have hsplit : (front ++ [last]) ++ rows.drop size = rows := by rw [← hfront, List.take_append_drop]
  rw [← hsplit] at hascending
  obtain ⟨hchunk, -, hcross⟩ := List.pairwise_append.mp hascending
  have hdrop : (front ++ [last]).filter (fun y => (some last).all fun a => a < y) = [] := by
    refine List.filter_eq_nil_iff.mpr fun y hy => ?_
    simp only [Option.all_some, decide_eq_true_eq, not_lt]
    rcases List.mem_append.mp hy with hy | hy
    · exact ((List.pairwise_append.mp hchunk).2.2 y hy last (List.mem_singleton_self _)).le
    · exact (List.mem_singleton.mp hy).le
  have hkeep : (rows.drop size).filter (fun y => (some last).all fun a => a < y) = rows.drop size := by
    refine List.filter_eq_self.mpr fun y hy => ?_
    simpa using hcross last (List.mem_append_right _ (List.mem_singleton_self _)) y hy
  unfold behind
  conv_lhs => rw [← hsplit]
  rw [List.filter_append, hdrop, hkeep, List.nil_append]

end RemoteCodex.Interact.Smallest
