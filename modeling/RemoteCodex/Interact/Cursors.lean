import Mathlib.Data.List.Basic

/-!
# Lists behind cursors

A list that grows at its front is served a page at a time, from the front. A
cursor stands for how many rows are left behind it, so rows that come in later
do not move it.
-/

namespace RemoteCodex.Interact.Cursors

variable {α : Type} {places : String → Option Nat} {rows newer data : List α} {next : Option String} {cursor : String}
variable {limit n m : Nat}

/-- The last `n` rows. -/
def behind (rows : List α) (n : Nat) : List α := rows.drop (rows.length - n)

/-- What is asked for: everything, or what a cursor leaves. -/
def Leaves (places : String → Option Nat) (rows : List α) (cursor : Option String) (rest : List α) : Prop :=
  match cursor with
  | none => rest = rows
  | some cursor => ∃ n, places cursor = some n ∧ n ≤ rows.length ∧ rest = behind rows n

/-- A page of `rows`, and the cursor behind it unless nothing is left. -/
structure Serves (places : String → Option Nat) (rows : List α) (limit : Nat) (data : List α) (next : Option String) :
    Prop where
  front : data <+: rows
  bounded : data.length ≤ limit
  progress : data = [] → rows = []
  done : next = none → data = rows
  more : ∀ cursor, next = some cursor → data.length < rows.length
  place : ∀ cursor, next = some cursor → places cursor = some (rows.length - data.length)

theorem length_behind (h : n ≤ rows.length) : (behind rows n).length = n := by
  rw [behind, List.length_drop]
  omega

theorem behind_append (newer : List α) (h : n ≤ rows.length) : behind (newer ++ rows) n = behind rows n := by
  have hlength : (newer ++ rows).length - n = newer.length + (rows.length - n) := by
    rw [List.length_append]
    omega
  rw [behind, hlength, List.drop_append, behind, Nat.add_sub_cancel_left, List.drop_eq_nil_of_le (by omega),
    List.nil_append]

theorem behind_behind (hn : n ≤ m) (hm : m ≤ rows.length) : behind (behind rows m) n = behind rows n := by
  have hlength := length_behind hm
  unfold behind at hlength ⊢
  rw [List.drop_drop, hlength]
  congr 1
  omega

/-- Rows that have come in later are not behind a cursor. -/
theorem Leaves.grow {rest : List α} (h : Leaves places rows (some cursor) rest) (newer : List α) :
    Leaves places (newer ++ rows) (some cursor) rest := by
  obtain ⟨n, hplace, hn, rfl⟩ := h
  exact ⟨n, hplace, by rw [List.length_append]; omega, (behind_append newer hn).symm⟩

theorem Leaves.suffix {c : Option String} {rest : List α} (h : Leaves places rows c rest) : rest <:+ rows := by
  cases c with
  | none => exact h ▸ List.suffix_rfl
  | some cursor =>
    obtain ⟨n, -, -, rfl⟩ := h
    exact List.drop_suffix _ rows

namespace Serves

/-- The rows fit on one page. -/
theorem all (h : rows.length ≤ limit) : Serves places rows limit rows none where
  front := List.prefix_rfl
  bounded := h
  progress hnil := hnil
  done _ := rfl
  more _ hnone := by cases hnone
  place _ hnone := by cases hnone

/-- What is left behind a page, and the cursor for it. -/
theorem rest {c : Option String} {left : List α} (h : Serves places left limit data (some cursor))
    (hleft : Leaves places rows c left) :
    ∃ rest, left = data ++ rest ∧ Leaves places rows (some cursor) rest ∧ rest.length < left.length ∧ rest ≠ [] := by
  obtain ⟨rest, rfl⟩ := h.front
  have hplace := h.place cursor rfl
  have hmore := h.more cursor rfl
  have hdata : data ≠ [] := fun hnil => by
    have hboth := h.progress hnil
    rw [hboth] at hmore
    exact Nat.not_lt_zero _ hmore
  have hpos : 0 < data.length := List.length_pos_iff.mpr hdata
  rw [List.length_append] at hmore hplace
  rw [Nat.add_sub_cancel_left] at hplace
  obtain ⟨front, rfl⟩ := hleft.suffix
  refine ⟨rest, rfl, ⟨rest.length, hplace, ?_, ?_⟩, ?_, ?_⟩
  · rw [List.length_append, List.length_append]
    omega
  · rw [behind_append _ (by rw [List.length_append]; omega), behind_append _ (Nat.le_refl _), behind, Nat.sub_self]
    rfl
  · rw [List.length_append]
    omega
  · exact List.length_pos_iff.mp (by omega)

end Serves

end RemoteCodex.Interact.Cursors
