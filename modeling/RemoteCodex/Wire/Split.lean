import Mathlib.Data.String.Basic

/-!
# Splitting a text

`String.splitOn` on the list of the characters: the pieces between the
occurrences of a separator, which are found from the left and do not overlap.
-/

namespace RemoteCodex.Wire

open String

section

variable {α : Type} [DecidableEq α]

/-- The pieces of a list; `piece` is what has been read of the first one, after
`skip` elements of a separator that are still to be passed over. -/
def pieces (sep : List α) : Nat → List α → List α → List (List α)
  | _, piece, [] => [piece]
  | skip + 1, piece, _ :: rest => pieces sep skip piece rest
  | 0, piece, c :: rest =>
    if sep <+: c :: rest then piece :: pieces sep (sep.length - 1) [] rest else pieces sep 0 (piece ++ [c]) rest

variable {sep piece rest : List α}

theorem pieces_skip (skip : Nat) (sep piece rest : List α) :
    pieces sep skip piece rest = pieces sep 0 piece (rest.drop skip) := by
  induction rest generalizing skip with
  | nil => cases skip <;> rfl
  | cons c rest ih =>
    cases skip with
    | zero => rfl
    | succ skip => exact ih skip

theorem pieces_ne_nil (skip : Nat) (sep piece rest : List α) : pieces sep skip piece rest ≠ [] := by
  induction rest generalizing skip piece with
  | nil => cases skip <;> exact List.cons_ne_nil _ _
  | cons c rest ih =>
    cases skip with
    | zero =>
      unfold pieces
      split
      · exact List.cons_ne_nil _ _
      · exact ih 0 (piece ++ [c])
    | succ skip => exact ih skip piece

/-- A text that is shorter than the separator is one piece. -/
theorem pieces_short (h : rest.length < sep.length) : pieces sep 0 piece rest = [piece ++ rest] := by
  induction rest generalizing piece with
  | nil => simp [pieces]
  | cons c rest ih =>
    have hnot : ¬ sep <+: c :: rest := fun hp => absurd hp.length_le (Nat.not_le.mpr h)
    rw [pieces, if_neg hnot, ih (Nat.lt_of_succ_lt h), List.append_assoc]
    rfl

/-- The separator is next. -/
theorem pieces_append (h : sep ≠ []) : pieces sep 0 piece (sep ++ rest) = piece :: pieces sep 0 [] rest := by
  obtain ⟨c, cs, rfl⟩ := List.exists_cons_of_ne_nil h
  rw [List.cons_append, pieces, if_pos ⟨rest, rfl⟩, pieces_skip]
  simp

/-- The first piece ends at an occurrence of the separator, or is everything. -/
theorem pieces_head (sep piece rest : List α) :
    ∃ first, (pieces sep 0 piece rest).head? = some (piece ++ first) ∧
      (first = rest ∨ ∃ more, rest = first ++ sep ++ more) := by
  induction rest generalizing piece with
  | nil => exact ⟨[], by simp [pieces], .inl rfl⟩
  | cons c rest ih =>
    rw [pieces]
    split
    · next hp =>
      obtain ⟨more, hmore⟩ := hp
      exact ⟨[], by simp, .inr ⟨more, by simpa using hmore.symm⟩⟩
    · obtain ⟨first, hhead, hfirst⟩ := ih (piece ++ [c])
      refine ⟨c :: first, by simpa using hhead, ?_⟩
      rcases hfirst with rfl | ⟨more, rfl⟩
      · exact .inl rfl
      · exact .inr ⟨more, rfl⟩

/-- A text before the first occurrence of the separator is the first piece. -/
theorem pieces_first {first : List α} (h : ∀ l, l ≠ [] → l <:+ first → ¬ sep <+: l ++ sep ++ rest) (hne : sep ≠ []) :
    pieces sep 0 piece (first ++ sep ++ rest) = (piece ++ first) :: pieces sep 0 [] rest := by
  induction first generalizing piece with
  | nil => simpa using pieces_append hne
  | cons c first ih =>
    have hnot := h (c :: first) (List.cons_ne_nil _ _) (List.suffix_refl _)
    simp only [List.cons_append] at hnot ⊢
    rw [pieces, if_neg hnot, ih]
    · simp
    · intro l hl hsuffix
      exact h l hl (hsuffix.trans (List.suffix_cons c first))

end

-- ---------------------------------------------------------------------------
-- The function on strings
-- ---------------------------------------------------------------------------

/-- `m` has been read of the piece that starts behind `l`, then `p` of the
separator. -/
theorem splitOnAux_of_valid (l m p r q : List Char) (hq : q ≠ []) (acc : List String) :
    splitOnAux (ofList (l ++ m ++ p ++ r)) (ofList (p ++ q)) ⟨utf8Len l⟩ ⟨utf8Len (l ++ m ++ p)⟩ ⟨utf8Len p⟩ acc =
      acc.reverse ++ (pieces (p ++ q) 0 m (p ++ r)).map ofList := by
  match r, q, hq with
  | [], q, hq =>
    have hshort : p.length < (p ++ q).length := by
      have := List.length_pos_iff.mpr hq
      rw [List.length_append]
      omega
    have hextract := extract_of_valid l (m ++ p) []
    unfold splitOnAux
    rw [if_pos ((atEnd_of_valid (l ++ m ++ p) []).mpr rfl), List.append_nil p, pieces_short hshort]
    simp only [List.append_assoc, List.append_nil, utf8Len_append] at hextract ⊢
    rw [hextract]
    simp
  | c :: r, d :: q, _ =>
    have hnot : ¬ Pos.Raw.atEnd (ofList (l ++ m ++ p ++ c :: r)) ⟨utf8Len (l ++ m ++ p)⟩ = true := by
      rw [atEnd_of_valid]
      exact List.cons_ne_nil _ _
    unfold splitOnAux
    rw [if_neg hnot, get_of_valid (l ++ m ++ p) (c :: r), get_of_valid p (d :: q), next_of_valid (l ++ m ++ p) c r,
      next_of_valid p d q]
    simp only [List.headD_cons, beq_iff_eq]
    have hsep := atEnd_of_valid (p ++ [d]) q
    rw [List.append_assoc, List.singleton_append] at hsep
    split
    · next heq =>
      subst heq
      have hunoffset : Pos.Raw.unoffsetBy ⟨utf8Len (l ++ m ++ p) + c.utf8Size⟩ ⟨utf8Len p + c.utf8Size⟩ =
          ⟨utf8Len l + utf8Len m⟩ := by
        simp only [Pos.Raw.unoffsetBy, utf8Len_append]
        congr 1
        omega
      simp only [utf8Len_append, utf8Len_cons, utf8Len_nil, Nat.zero_add] at hsep
      rw [hunoffset]
      split
      · next hend =>
        -- the whole separator has been found
        obtain rfl := hsep.mp hend
        have hextract := extract_of_valid l m (p ++ c :: r)
        have ih := splitOnAux_of_valid (l ++ m ++ (p ++ [c])) [] [] r (p ++ [c]) (by simp) (ofList m :: acc)
        have hfound : pieces (p ++ [c]) 0 m (p ++ [c] ++ r) = m :: pieces (p ++ [c]) 0 [] r := pieces_append (by simp)
        rw [List.append_assoc p [c] r, List.singleton_append] at hfound
        rw [hfound]
        simp only [List.append_assoc, List.singleton_append, List.nil_append, List.append_nil, utf8Len_append, utf8Len_cons,
          utf8Len_nil, Nat.zero_add, Nat.add_assoc] at ih hextract ⊢
        rw [hextract]
        refine ih.trans ?_
        simp
      · next hmore =>
        have ih := splitOnAux_of_valid l m (p ++ [c]) r q (fun h => hmore (hsep.mpr h)) acc
        simp only [List.append_assoc, List.singleton_append, utf8Len_append, utf8Len_cons, utf8Len_nil, Nat.zero_add,
          Nat.add_assoc] at ih ⊢
        exact ih
    · next hne =>
      have hnot : ¬ p ++ d :: q <+: p ++ c :: r := by
        rw [List.prefix_append_right_inj]
        intro h
        exact hne (List.cons_prefix_cons.mp h).1.symm
      have hstart : Pos.Raw.unoffsetBy ⟨utf8Len (l ++ m ++ p)⟩ ⟨utf8Len p⟩ = ⟨utf8Len (l ++ m)⟩ := by
        simp only [Pos.Raw.unoffsetBy, utf8Len_append, Nat.add_sub_cancel]
      cases p with
      | nil =>
        have ih := splitOnAux_of_valid l (m ++ [c]) [] r (d :: q) (by simp) acc
        have hnext := next_of_valid (l ++ m) c r
        rw [List.nil_append, List.nil_append] at hnot
        rw [List.nil_append, List.nil_append, pieces, if_neg hnot, hstart]
        simp only [List.append_assoc, List.singleton_append, List.nil_append, List.append_nil, utf8Len_append, utf8Len_cons,
          utf8Len_nil, Nat.zero_add, Nat.add_assoc] at ih hnext ⊢
        rw [hnext]
        exact ih
      | cons a p =>
        have ih := splitOnAux_of_valid l (m ++ [a]) [] (p ++ c :: r) (a :: p ++ d :: q) (by simp) acc
        have hnext := next_of_valid (l ++ m) a (p ++ c :: r)
        rw [List.cons_append, List.cons_append] at hnot
        rw [List.cons_append, List.cons_append, pieces, if_neg hnot, hstart]
        simp only [List.append_assoc, List.cons_append, List.nil_append, List.append_nil, utf8Len_append,
          utf8Len_cons, utf8Len_nil, Nat.zero_add, Nat.add_assoc] at ih hnext ⊢
        rw [hnext]
        exact ih
termination_by ((p ++ r).length, q.length)
decreasing_by
  · exact .left _ _ (by simp)
  · exact .left _ _ (by simp)
  · exact .right' _ (by simp) (by simp)
  · exact .left _ _ (by simp; omega)

theorem splitOn_eq (s sep : String) (h : sep.toList ≠ []) :
    s.splitOn sep = (pieces sep.toList 0 [] s.toList).map ofList := by
  have hne : (sep == "") = false := by
    apply beq_false_of_ne
    rintro rfl
    exact h rfl
  have hall := splitOnAux_of_valid [] [] [] s.toList sep.toList h []
  simp only [List.nil_append, ofList_toList, utf8Len_nil, List.reverse_nil] at hall
  unfold splitOn
  rw [hne]
  exact hall

end RemoteCodex.Wire
