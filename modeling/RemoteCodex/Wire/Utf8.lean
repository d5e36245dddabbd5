import Mathlib.Data.List.Basic
import Mathlib.Algebra.BigOperators.Group.List.Basic
import Mathlib.Algebra.Order.Ring.Int

/-!
# Places in a text

A text is cut at positions that count bytes. Those between two characters are
its boundaries; a cut anywhere else would split a character.
-/

namespace RemoteCodex.Wire.Utf8

def size (cs : List Char) : Nat := (cs.map Char.utf8Size).sum

@[simp] theorem size_nil : size [] = 0 := rfl

@[simp] theorem size_cons (c : Char) (cs : List Char) : size (c :: cs) = c.utf8Size + size cs := rfl

@[simp] theorem size_append (cs ds : List Char) : size (cs ++ ds) = size cs + size ds := by simp [size]

theorem size_toList (text : String) : size text.toList = text.utf8ByteSize := by
  conv_rhs => rw [← String.ofList_toList (s := text)]
  induction text.toList with
  | nil => rfl
  | cons c cs ih => rw [size_cons, ih, String.ofList_cons, String.utf8ByteSize_append, String.utf8ByteSize_singleton]

theorem size_pos {cs : List Char} (h : cs ≠ []) : 0 < size cs := by
  cases cs with
  | nil => exact absurd rfl h
  | cons c cs => exact Nat.add_pos_left c.utf8Size_pos _

/-- `n` bytes are whole characters. -/
def boundary : List Char → Nat → Bool
  | [], n => n = 0
  | c :: cs, n => n = 0 || (c.utf8Size ≤ n && boundary cs (n - c.utf8Size))

/-- The last boundary that is not behind `n`. -/
def floor (cs : List Char) : Nat → Nat
  | 0 => 0
  | n + 1 => if boundary cs (n + 1) then n + 1 else floor cs n

/-- The characters before the boundary `n`. -/
def before : List Char → Nat → List Char
  | [], _ => []
  | c :: cs, n => if n = 0 then [] else c :: before cs (n - c.utf8Size)

/-- The characters from the boundary `n` on. -/
def after : List Char → Nat → List Char
  | [], _ => []
  | c :: cs, n => if n = 0 then c :: cs else after cs (n - c.utf8Size)

/-- The characters between two boundaries. -/
def slice (cs : List Char) (start stop : Nat) : List Char := before (after cs start) (stop - start)

variable {cs pre mid post : List Char} {n b : Nat}

-- ---------------------------------------------------------------------------
-- Boundaries
-- ---------------------------------------------------------------------------

theorem boundary_zero (cs : List Char) : boundary cs 0 = true := by cases cs <;> rfl

theorem boundary_append (pre post : List Char) : boundary (pre ++ post) (size pre) = true := by
  induction pre with
  | nil => exact boundary_zero post
  | cons c pre ih =>
    rw [List.cons_append, boundary, size_cons, Nat.add_sub_cancel_left, ih]
    simp

theorem boundary_size (cs : List Char) : boundary cs (size cs) = true := by
  have h := boundary_append cs []
  rwa [List.append_nil] at h

/-- At a boundary the text falls into two. -/
theorem boundary_iff : boundary cs n = true ↔ ∃ pre post, cs = pre ++ post ∧ size pre = n := by
  constructor
  · intro h
    induction cs generalizing n with
    | nil => exact ⟨[], [], rfl, (of_decide_eq_true h).symm⟩
    | cons c cs ih =>
      rw [boundary, Bool.or_eq_true, Bool.and_eq_true, decide_eq_true_eq, decide_eq_true_eq] at h
      rcases h with hzero | ⟨hle, hrest⟩
      · exact ⟨[], c :: cs, rfl, hzero.symm⟩
      · obtain ⟨pre, post, rfl, hsize⟩ := ih hrest
        refine ⟨c :: pre, post, rfl, ?_⟩
        rw [size_cons]
        omega
  · rintro ⟨pre, post, rfl, rfl⟩
    exact boundary_append pre post

theorem le_size_of_boundary (h : boundary cs n = true) : n ≤ size cs := by
  obtain ⟨pre, post, rfl, rfl⟩ := boundary_iff.mp h
  rw [size_append]
  omega

theorem boundary_floor (cs : List Char) (n : Nat) : boundary cs (floor cs n) = true := by
  induction n with
  | zero => exact boundary_zero cs
  | succ n ih =>
    unfold floor
    split
    · assumption
    · exact ih

theorem floor_le (cs : List Char) (n : Nat) : floor cs n ≤ n := by
  induction n with
  | zero => exact Nat.le_refl 0
  | succ n ih =>
    unfold floor
    split
    · exact Nat.le_refl _
    · omega

theorem floor_of_boundary (h : boundary cs n = true) : floor cs n = n := by
  cases n with
  | zero => rfl
  | succ n => rw [floor, if_pos h]

theorem le_floor (h : boundary cs b = true) (hb : b ≤ n) : b ≤ floor cs n := by
  induction n with
  | zero => exact hb
  | succ n ih =>
    rcases Nat.lt_or_eq_of_le hb with hlt | rfl
    · unfold floor
      split
      · exact hb
      · exact ih (Nat.lt_succ_iff.mp hlt)
    · exact Nat.le_of_eq (floor_of_boundary h).symm

/-- A character takes at most four bytes. -/
theorem exists_boundary (hn : n ≤ size cs) : ∃ b, boundary cs b = true ∧ b ≤ n ∧ n < b + 4 := by
  induction cs generalizing n with
  | nil => exact ⟨0, rfl, Nat.zero_le n, by simp at hn; omega⟩
  | cons c cs ih =>
    by_cases hfit : c.utf8Size ≤ n
    · obtain ⟨b, hb, hle, hlt⟩ := ih (n := n - c.utf8Size) (by rw [size_cons] at hn; omega)
      refine ⟨c.utf8Size + b, ?_, by omega, by omega⟩
      rw [boundary, Nat.add_sub_cancel_left, hb]
      simp
    · have := c.utf8Size_le_four
      exact ⟨0, boundary_zero _, Nat.zero_le n, by omega⟩

theorem floor_gap (hn : n ≤ size cs) : n < floor cs n + 4 := by
  obtain ⟨b, hb, hle, hlt⟩ := exists_boundary hn
  have := le_floor hb hle
  omega

-- ---------------------------------------------------------------------------
-- Slices
-- ---------------------------------------------------------------------------

theorem before_append (pre post : List Char) : before (pre ++ post) (size pre) = pre := by
  induction pre with
  | nil => cases post <;> rfl
  | cons c pre ih =>
    have hpos : c.utf8Size + size pre ≠ 0 := Nat.ne_of_gt (Nat.add_pos_left c.utf8Size_pos _)
    rw [List.cons_append, before, size_cons, if_neg hpos, Nat.add_sub_cancel_left, ih]

theorem after_append (pre post : List Char) : after (pre ++ post) (size pre) = post := by
  induction pre with
  | nil => cases post <;> rfl
  | cons c pre ih =>
    have hpos : c.utf8Size + size pre ≠ 0 := Nat.ne_of_gt (Nat.add_pos_left c.utf8Size_pos _)
    rw [List.cons_append, after, size_cons, if_neg hpos, Nat.add_sub_cancel_left, ih]

/-- A text falls into two in one way at each boundary. -/
theorem append_inj {pre' post' : List Char} (h : pre ++ post = pre' ++ post') (hsize : size pre = size pre') :
    pre = pre' ∧ post = post' := by
  have hpre : pre = pre' := by rw [← before_append pre post, h, hsize, before_append]
  exact ⟨hpre, List.append_cancel_left (hpre ▸ h)⟩

theorem slice_append (pre mid post : List Char) :
    slice (pre ++ (mid ++ post)) (size pre) (size pre + size mid) = mid := by
  rw [slice, after_append, Nat.add_sub_cancel_left, before_append]

/-- Two boundaries cut a text into three. -/
theorem parts (hb : boundary cs b = true) (hn : boundary cs n = true) (hle : b ≤ n) :
    ∃ pre mid post, cs = pre ++ (mid ++ post) ∧ size pre = b ∧ size pre + size mid = n := by
  obtain ⟨pre, rest, rfl, rfl⟩ := boundary_iff.mp hb
  clear hb
  induction pre generalizing n with
  | nil =>
    obtain ⟨mid, post, hcs, hmid⟩ := boundary_iff.mp hn
    exact ⟨[], mid, post, hcs, rfl, by simpa using hmid⟩
  | cons c pre ih =>
    rw [size_cons] at hle
    rw [List.cons_append, boundary, Bool.or_eq_true, Bool.and_eq_true, decide_eq_true_eq, decide_eq_true_eq] at hn
    have hpos := c.utf8Size_pos
    rcases hn with hzero | ⟨-, hrest⟩
    · omega
    · obtain ⟨pre', mid, post, hcs, hpre, hmid⟩ := ih hrest (by omega)
      refine ⟨c :: pre', mid, post, by rw [List.cons_append, hcs, List.cons_append], ?_, ?_⟩
      · rw [size_cons, size_cons, hpre]
      · rw [size_cons]
        omega

end RemoteCodex.Wire.Utf8
