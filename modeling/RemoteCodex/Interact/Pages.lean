import Mathlib.Data.List.Basic

/-!
# Reading rows page by page

Rows stand in the order of their cursors. A reader asks for what lies behind
its cursor, gets the first rows of that, and goes on from the last one it got.
-/

namespace RemoteCodex.Interact.Pages

variable {α : Type} (cursor : α → Int)

/-- The rows in the order of their cursors, no cursor twice. -/
def Ascending (rows : List α) : Prop := rows.Pairwise fun a b => cursor a < cursor b

def rest (rows : List α) (after : Int) : List α := rows.filter fun row => after < cursor row

/-- Where a reader is that has got `chunk`. -/
def advance (after : Int) (chunk : List α) : Int := (chunk.getLast?.map cursor).getD after

/-- The pages a reader gets in `n` calls, and its cursor after each of them. -/
def drain (page : List α → List α) (rows : List α) : Nat → Int → List (List α × Int)
  | 0, _ => []
  | n + 1, after =>
    let chunk := page (rest cursor rows after)
    (chunk, advance cursor after chunk) :: drain page rows n (advance cursor after chunk)

variable {cursor} {rows chunk : List α} {after : Int} {page : List α → List α}

theorem Ascending.le_last {last : α} (h : Ascending cursor rows) (hlast : rows.getLast? = some last) :
    ∀ row ∈ rows, cursor row ≤ cursor last := by
  obtain ⟨front, rfl⟩ := List.getLast?_eq_some_iff.mp hlast
  intro row hrow
  rcases List.mem_append.mp hrow with hrow | hrow
  · exact Int.le_of_lt ((List.pairwise_append.mp h).2.2 row hrow last (List.mem_singleton_self last))
  · exact Int.le_of_eq (congrArg cursor (List.mem_singleton.mp hrow))

/-- What is left behind the rows that a reader got. -/
theorem rest_advance (h : Ascending cursor rows) {left : List α} (hsplit : rest cursor rows after = chunk ++ left) :
    rest cursor rows (advance cursor after chunk) = left := by
  cases hlast : chunk.getLast? with
  | none =>
    rw [List.getLast?_eq_none_iff.mp hlast, List.nil_append] at hsplit
    rw [advance, hlast]
    exact hsplit
  | some last =>
    have hmem : last ∈ rest cursor rows after := by
      rw [hsplit]
      exact List.mem_append_left left (List.mem_of_getLast? hlast)
    have hafter : after < cursor last := of_decide_eq_true (List.mem_filter.mp hmem).2
    have hbehind : rest cursor rows (cursor last) =
        (rest cursor rows after).filter fun row => cursor last < cursor row := by
      unfold rest
      rw [List.filter_filter]
      refine List.filter_congr fun row _ => ?_
      rw [← Bool.decide_and, decide_eq_decide]
      exact ⟨fun hlt => ⟨hlt, Int.lt_trans hafter hlt⟩, And.left⟩
    have hsorted : Ascending cursor (chunk ++ left) := hsplit ▸ h.filter _
    obtain ⟨hchunk, -, hcross⟩ := List.pairwise_append.mp hsorted
    rw [advance, hlast]
    show rest cursor rows (cursor last) = left
    rw [hbehind, hsplit, List.filter_append, List.filter_eq_nil_iff.mpr, List.filter_eq_self.mpr, List.nil_append]
    · intro row hrow
      exact decide_eq_true (hcross last (List.mem_of_getLast? hlast) row hrow)
    · intro row hrow hlt
      have := Ascending.le_last hchunk hlast row hrow
      exact absurd (of_decide_eq_true hlt) (Int.not_lt.mpr this)

/-- Pages that are never empty while there are rows deliver each of them once,
in order, in as many calls as there are rows. -/
theorem drain_all (h : Ascending cursor rows) (hpage : ∀ rows, page rows <+: rows)
    (hmove : ∀ rows, page rows = [] → rows = []) {n : Nat} (hn : (rest cursor rows after).length ≤ n) :
    ((drain cursor page rows n after).map Prod.fst).flatten = rest cursor rows after := by
  induction n generalizing after with
  | zero => exact (List.length_eq_zero_iff.mp (Nat.le_zero.mp hn)).symm
  | succ n ih =>
    obtain ⟨left, hsplit⟩ := hpage (rest cursor rows after)
    have hleft := rest_advance h hsplit.symm
    rw [drain, List.map_cons, List.flatten_cons, ih, hleft, hsplit]
    rw [hleft]
    cases hchunk : page (rest cursor rows after) with
    | nil =>
      have hnil := hmove _ hchunk
      rw [hchunk, hnil] at hsplit
      rw [List.append_eq_nil_iff.mp hsplit |>.2]
      exact Nat.zero_le n
    | cons row chunk =>
      rw [← hsplit, hchunk, List.length_append, List.length_cons] at hn
      omega

/-- Once there is nothing left, the pages are empty and the cursor stays. -/
theorem drain_nil (hpage : ∀ rows, page rows <+: rows) (hnil : rest cursor rows after = []) (n : Nat) :
    drain cursor page rows n after = List.replicate n ([], after) := by
  induction n with
  | zero => rfl
  | succ n ih =>
    have hchunk : page (rest cursor rows after) = [] := List.prefix_nil.mp (hnil ▸ hpage _)
    rw [drain, hchunk, List.replicate_succ]
    exact congrArg _ ih

/-- Where a reader is after `n` calls. -/
def position (page : List α → List α) (cursor : α → Int) (rows : List α) (n : Nat) (after : Int) : Int :=
  ((drain cursor page rows n after).getLast?.map Prod.snd).getD after

theorem drain_append (n m : Nat) (after : Int) :
    drain cursor page rows (n + m) after =
      drain cursor page rows n after ++ drain cursor page rows m (position page cursor rows n after) := by
  induction n generalizing after with
  | zero => rw [Nat.zero_add]; rfl
  | succ n ih =>
    rw [Nat.add_right_comm, drain, drain, ih, List.cons_append]
    congr 3
    unfold position
    rw [drain]
    cases hlast : (drain cursor page rows n
        (advance cursor after (page (rest cursor rows after)))).getLast? with
    | none =>
      rw [List.getLast?_eq_none_iff.mp hlast]
      rfl
    | some last =>
      rw [List.getLast?_cons, hlast]
      rfl

theorem rest_position (h : Ascending cursor rows) (hpage : ∀ rows, page rows <+: rows)
    (hmove : ∀ rows, page rows = [] → rows = []) {n : Nat} (hn : (rest cursor rows after).length ≤ n) :
    rest cursor rows (position page cursor rows n after) = [] := by
  have hall : ((drain cursor page rows (n + 1) after).map Prod.fst).flatten = rest cursor rows after :=
    drain_all h hpage hmove (by omega)
  rw [drain_append, List.map_append, List.flatten_append, drain_all h hpage hmove hn, drain, drain] at hall
  have hnil : page (rest cursor rows (position page cursor rows n after)) = [] := by simpa using hall
  exact hmove _ hnil

end RemoteCodex.Interact.Pages
