import Mathlib.Data.List.Basic

/-!
# A stream in pieces

What a transport still has to deliver, in the pieces in which it will. A reader
looks at the first piece and takes as much of it as it wants.
-/

namespace RemoteCodex.Wire

variable {α : Type}

structure Pieces (α : Type) where
  pieces : List (List α)
  nonempty : [] ∉ pieces
  deriving DecidableEq, Repr

namespace Pieces

def all (p : Pieces α) : List α := p.pieces.flatten

/-- `fill_buf`: the first piece, nothing at the end of the stream. -/
def fill (p : Pieces α) : List α := p.pieces.headD []

def done : Pieces α := ⟨[], List.not_mem_nil⟩

def cons (piece : List α) (h : piece ≠ []) (p : Pieces α) : Pieces α :=
  ⟨piece :: p.pieces, fun hmem => (List.mem_cons.mp hmem).elim (fun heq => h heq.symm) p.nonempty⟩

/-- `consume`: the first `n` are taken from the first piece. -/
def consume (n : Nat) : Pieces α → Pieces α
  | ⟨[], _⟩ => done
  | ⟨piece :: rest, h⟩ =>
    if hn : n < piece.length then
      cons (piece.drop n) (by simpa using hn) ⟨rest, fun hmem => h (List.mem_cons_of_mem _ hmem)⟩
    else ⟨rest, fun hmem => h (List.mem_cons_of_mem _ hmem)⟩

@[simp] theorem all_done : (done : Pieces α).all = [] := rfl

@[simp] theorem all_cons {piece : List α} (h : piece ≠ []) (p : Pieces α) : (cons piece h p).all = piece ++ p.all := rfl

@[simp] theorem fill_cons {piece : List α} (h : piece ≠ []) (p : Pieces α) : (cons piece h p).fill = piece := rfl

theorem fill_eq_nil (p : Pieces α) : p.fill = [] ↔ p.all = [] := by
  obtain ⟨pieces, h⟩ := p
  cases pieces with
  | nil => exact Iff.rfl
  | cons piece rest =>
    have hne : piece ≠ [] := fun heq => h (heq ▸ List.mem_cons_self)
    simp [fill, all, hne]

/-- What is left behind the first piece. -/
theorem all_eq (p : Pieces α) : ∃ rest, p.all = p.fill ++ rest := by
  obtain ⟨pieces, h⟩ := p
  cases pieces with
  | nil => exact ⟨[], rfl⟩
  | cons piece rest => exact ⟨rest.flatten, rfl⟩

theorem all_consume_min (p : Pieces α) (n : Nat) : (p.consume n).all = p.all.drop (min n p.fill.length) := by
  obtain ⟨pieces, h⟩ := p
  cases pieces with
  | nil => exact List.drop_nil.symm
  | cons piece rest =>
    show _ = (piece ++ rest.flatten).drop (min n piece.length)
    rw [consume]
    split
    · next hlt =>
      rw [all_cons, Nat.min_eq_left (Nat.le_of_lt hlt), List.drop_append_of_le_length (Nat.le_of_lt hlt)]
      rfl
    · next hlt =>
      rw [Nat.min_eq_right (by omega), List.drop_left]
      rfl

theorem all_consume {p : Pieces α} {n : Nat} (hn : n ≤ p.fill.length) : (p.consume n).all = p.all.drop n := by
  rw [all_consume_min, Nat.min_eq_left hn]

theorem length_consume_le (p : Pieces α) (n : Nat) : (p.consume n).all.length ≤ p.all.length := by
  rw [all_consume_min, List.length_drop]
  exact Nat.sub_le _ _

-- ---------------------------------------------------------------------------
-- Reading a number of bytes
-- ---------------------------------------------------------------------------

/-- `read_exact`: pieces are taken until `n` are there; nothing is given back
where the stream ends before. -/
def readExactFrom : Nat → (pieces : List (List α)) → [] ∉ pieces → Option (List α) × Pieces α
  | 0, pieces, h => (some [], ⟨pieces, h⟩)
  | _ + 1, [], _ => (none, done)
  | n + 1, piece :: rest, h =>
    have hrest : [] ∉ rest := fun hmem => h (List.mem_cons_of_mem _ hmem)
    if hn : n + 1 < piece.length then
      (some (piece.take (n + 1)), cons (piece.drop (n + 1)) (by simpa using hn) ⟨rest, hrest⟩)
    else
      match readExactFrom (n + 1 - piece.length) rest hrest with
      | (found, p) => (found.map (piece ++ ·), p)

def readExact (n : Nat) (p : Pieces α) : Option (List α) × Pieces α := readExactFrom n p.pieces p.nonempty

theorem readExactFrom_eq (n : Nat) (pieces : List (List α)) (h : [] ∉ pieces) :
    (readExactFrom n pieces h).1 = (if n ≤ pieces.flatten.length then some (pieces.flatten.take n) else none) ∧
      (readExactFrom n pieces h).2.all = pieces.flatten.drop n := by
  induction pieces generalizing n with
  | nil => cases n <;> simp [readExactFrom, all, done]
  | cons piece rest ih =>
    cases n with
    | zero => simp [readExactFrom, all]
    | succ n =>
      rw [readExactFrom, List.flatten_cons]
      split
      · next hlt =>
        have hle : n + 1 ≤ piece.length := Nat.le_of_lt hlt
        refine ⟨?_, ?_⟩
        · rw [if_pos (by rw [List.length_append]; omega), List.take_append_of_le_length hle]
        · rw [all_cons, List.drop_append_of_le_length hle]
          rfl
      · next hlt =>
        obtain ⟨hfound, hleft⟩ := ih (n + 1 - piece.length) fun hmem => h (List.mem_cons_of_mem _ hmem)
        have htake : (piece ++ rest.flatten).take (n + 1) = piece ++ rest.flatten.take (n + 1 - piece.length) := by
          rw [List.take_append, List.take_of_length_le (by omega)]
        have hdrop : (piece ++ rest.flatten).drop (n + 1) = rest.flatten.drop (n + 1 - piece.length) := by
          rw [List.drop_append, List.drop_of_length_le (by omega), List.nil_append]
        refine ⟨?_, hleft.trans hdrop.symm⟩
        simp only [hfound, htake, List.length_append]
        split
        · rw [if_pos (by omega)]
          rfl
        · rw [if_neg (by omega)]
          rfl

theorem readExact_fst (n : Nat) (p : Pieces α) :
    (p.readExact n).1 = if n ≤ p.all.length then some (p.all.take n) else none :=
  (readExactFrom_eq n p.pieces p.nonempty).1

theorem readExact_all (n : Nat) (p : Pieces α) : (p.readExact n).2.all = p.all.drop n :=
  (readExactFrom_eq n p.pieces p.nonempty).2

end Pieces

end RemoteCodex.Wire
