import Mathlib.Data.List.Sort

/-!
# Places in a list

Elements are compared by where they are in a list without repetition. What is in
this order is the part of the list with these elements, and a stable sort keeps
what it does not tell apart as it was.
-/

namespace RemoteCodex.Interact

open scoped List

variable {α : Type}

section

variable [DecidableEq α] {l fragment xs : List α} {a b c : α}

/-- `a` is before `b` in `l`. -/
def Comes (l : List α) (a b : α) : Prop := l.idxOf a < l.idxOf b

instance (l : List α) (a b : α) : Decidable (Comes l a b) := inferInstanceAs (Decidable (_ < _))

theorem Comes.trans (hab : Comes l a b) (hbc : Comes l b c) : Comes l a c := Nat.lt_trans hab hbc

theorem Comes.asymm (h : Comes l a b) : ¬ Comes l b a := Nat.not_lt_of_lt h

theorem Comes.ne (h : Comes l a b) : a ≠ b := by
  rintro rfl
  exact Nat.lt_irrefl _ h

theorem comes_or (ha : a ∈ l) (hne : a ≠ b) : Comes l a b ∨ Comes l b a := by
  refine Nat.lt_or_gt_of_ne fun heq => hne ?_
  exact (List.idxOf_inj ha).mp heq

theorem pairwise_comes (h : l.Nodup) : l.Pairwise (Comes l) := by
  refine List.pairwise_iff_getElem.mpr fun i j hi hj hij => ?_
  rw [Comes, h.idxOf_getElem, h.idxOf_getElem]
  exact hij

theorem pairwise_of_comes {r : α → α → Prop} (h : l.Pairwise r) (ha : a ∈ l) (hb : b ∈ l) (hab : Comes l a b) : r a b := by
  have hr := List.pairwise_iff_getElem.mp h _ _ (List.idxOf_lt_length_of_mem ha) (List.idxOf_lt_length_of_mem hb) hab
  rwa [List.getElem_idxOf, List.getElem_idxOf] at hr

theorem pairwise_comes_sublist (h : l.Nodup) (hxs : xs <+ l) : xs.Pairwise (Comes l) := (pairwise_comes h).sublist hxs

/-- What comes between two elements of a fragment is in the fragment. -/
theorem mem_fragment (h : l.Nodup) (hfragment : fragment <:+: l) (ha : a ∈ fragment) (hc : c ∈ fragment) (hb : b ∈ l)
    (hab : Comes l a b) (hbc : Comes l b c) : b ∈ fragment := by
  obtain ⟨front, back, rfl⟩ := hfragment
  have horder := pairwise_comes h
  rw [List.pairwise_append, List.pairwise_append] at horder
  obtain ⟨⟨-, -, hfront⟩, -, hback⟩ := horder
  rcases List.mem_append.mp hb with hb | hb
  · rcases List.mem_append.mp hb with hb | hb
    · exact absurd hab (hfront b hb a ha).asymm
    · exact hb
  · exact absurd hbc (hback c (List.mem_append_right _ hc) b hb).asymm

/-- What is in order is a part of the list. -/
theorem eq_filter_of_pairwise (h : l.Nodup) (hxs : xs.Pairwise (Comes l)) {p : α → Prop} [DecidablePred p]
    (hmem : ∀ x, x ∈ xs ↔ x ∈ l ∧ p x) : xs = l.filter p := by
  have hfilter : (l.filter p).Pairwise (Comes l) := pairwise_comes_sublist h List.filter_sublist
  have hperm : xs.Perm (l.filter p) :=
    (List.perm_ext_iff_of_nodup (hxs.imp Comes.ne) (h.filter _)).mpr fun x => by
      rw [hmem, List.mem_filter, decide_eq_true_iff]
  exact hperm.eq_of_pairwise (fun a b _ _ hab hba => absurd hba hab.asymm) hxs hfilter

end

/-- Those that satisfy `p` first. -/
theorem filter_append_filter_not {l : List α} {p : α → Bool} (h : l.Pairwise fun a b => p b = true → p a = true) :
    l.filter p ++ l.filter (fun a => !p a) = l := by
  induction l with
  | nil => rfl
  | cons a l ih =>
    obtain ⟨ha, hl⟩ := List.pairwise_cons.mp h
    by_cases hpa : p a = true
    · rw [List.filter_cons_of_pos hpa, List.filter_cons_of_neg (by simp [hpa]), List.cons_append, ih hl]
    · have hnone : l.filter p = [] := List.filter_eq_nil_iff.mpr fun b hb hpb => hpa (ha b hb hpb)
      have hall : l.filter (fun a => !p a) = l :=
        List.filter_eq_self.mpr fun b hb => by simpa using fun hpb => hpa (ha b hb hpb)
      rw [List.filter_cons_of_neg hpa, List.filter_cons_of_pos (by simpa using hpa), hnone, hall, List.nil_append]

/-- A sort keeps elements as they were that it does not tell apart. -/
theorem filter_insertionSort {r : α → α → Prop} [DecidableRel r] [Std.Total r] [IsTrans α r] {l : List α} {p : α → Bool}
    (h : (l.filter p).Pairwise r) : (l.insertionSort r).filter p = l.filter p := by
  have hsublist : l.filter p <+ (l.insertionSort r).filter p := by
    have hfilter := (List.sublist_insertionSort h List.filter_sublist).filter p
    simpa only [List.filter_filter, Bool.and_self] using hfilter
  exact (hsublist.eq_of_length ((List.perm_insertionSort r l).filter p).length_eq.symm).symm

end RemoteCodex.Interact
