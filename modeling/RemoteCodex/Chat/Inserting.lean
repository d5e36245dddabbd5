import RemoteCodex.Chat.Native

/-!
# Where missing items go

An item that is missing is put before the next item of its turn that is there, or
behind the one before it, or at the end it was asked from. In each case the
messages of its turn stay in native order.
-/

namespace RemoteCodex.Chat

open Interact Protocol
open scoped List

/-- Messages of one turn are in native order. -/
def Kept (l : List Seat) (a b : Message) : Prop := a.seat.2 ≠ none → a.seat.2 = b.seat.2 → Comes l a.seat b.seat

/-- What is known of the messages of a page in native order. -/
structure Sequence (l : List Seat) (all : List Message) : Prop where
  ordered : all.Pairwise fun a b => Comes l a.seat b.seat
  distinct : all.Pairwise fun a b => a.id ≠ b.id
  seated : ∀ x ∈ all, x.seat ∈ l ∧ x.turn.value = x.seat.2 ∧ x.seat.2 ≠ none
  between : ∀ a ∈ all, ∀ b ∈ all, a.seat.2 = b.seat.2 → ∀ s ∈ l, Comes l a.seat s → Comes l s b.seat → ∃ c ∈ all, c.seat = s

/-- The messages while the items of `rest` are still to be put in. -/
structure Inserting (l : List Seat) (older : Bool) (done rest messages : List Message) : Prop where
  kept : messages.Pairwise (Kept l)
  known : ∀ m ∈ messages, m.seat.2 ≠ none → m.seat ∈ l
  same : ∀ m ∈ messages, ∀ x ∈ done ++ rest, m.id = x.id → m.seat = x.seat
  there : ∀ x ∈ done, ∃ m ∈ messages, m.id = x.id
  fits : ∀ x ∈ rest, (∃ y ∈ done ++ rest, y.seat.2 = x.seat.2 ∧ ∃ m ∈ messages, m.id = y.id) ∨
    ∀ m ∈ messages, m.seat.2 = x.seat.2 → if older then Comes l x.seat m.seat else Comes l m.seat x.seat

variable {l : List Seat} {older : Bool} {done rest messages : List Message} {x : Message}

/-- The first element that is looked for. -/
theorem findIdx_split {α : Type} {l : List α} {p : α → Bool} (h : ∃ a ∈ l, p a = true) : ∃ front a back,
    l = front ++ a :: back ∧ p a = true ∧ l.findIdx p = front.length ∧ l.findIdx? p = some front.length := by
  induction l with
  | nil =>
    obtain ⟨a, ha, -⟩ := h
    cases ha
  | cons b l ih =>
    by_cases hb : p b = true
    · exact ⟨[], b, l, rfl, hb, by rw [List.findIdx_cons, hb]; rfl, by rw [List.findIdx?_cons, if_pos hb]; rfl⟩
    · obtain ⟨a, ha, hpa⟩ := h
      have hrest : ∃ a ∈ l, p a = true := by
        rcases List.mem_cons.mp ha with rfl | ha
        · exact absurd hpa hb
        · exact ⟨a, ha, hpa⟩
      obtain ⟨front, a, back, rfl, hpa, hidx, hidx'⟩ := ih hrest
      refine ⟨b :: front, a, back, rfl, hpa, ?_, ?_⟩
      · rw [List.findIdx_cons, Bool.eq_false_of_not_eq_true hb, cond_false, hidx, List.length_cons]
      · rw [List.findIdx?_cons, if_neg hb, hidx', Option.map_some, List.length_cons]

theorem exists_of_any {c : Message} (h : (messages.any fun m => m.id = c.id) = true) : ∃ m ∈ messages, m.id = c.id := by
  obtain ⟨m, hm, hid⟩ := List.any_eq_true.mp h
  exact ⟨m, hm, of_decide_eq_true hid⟩

variable (hturns : ∀ s ∈ l, ∀ s' ∈ l, ∀ r ∈ l, s.2 = s'.2 → Comes l s r → Comes l r s' → r.2 = s.2)

/-- What comes before `x` natively and is not behind the next item of its turn that is there. -/
theorem comes_of_next {r₁ r₂ : List Message} {c a : Message} (hseq : Sequence l (done ++ x :: (r₁ ++ c :: r₂)))
    (hskipped : ∀ y ∈ r₁, ¬ (y.turn.value = x.turn.value ∧ ∃ m ∈ messages, m.id = y.id)) (hturn : c.seat.2 = x.seat.2)
    (ha : a ∈ messages) (hal : a.seat ∈ l) (hax : a.seat.2 = x.seat.2) (hne : a.seat ≠ x.seat)
    (hac : Comes l a.seat c.seat) : Comes l a.seat x.seat := by
  have hordered := hseq.ordered
  rw [List.pairwise_append, List.pairwise_cons, List.pairwise_append, List.pairwise_cons] at hordered
  obtain ⟨-, ⟨hx, -, ⟨hc, -⟩, -⟩, hdone⟩ := hordered
  refine (comes_or hal hne).resolve_right fun hxa => ?_
  obtain ⟨y, hy, hseat⟩ := hseq.between x (by simp) c (by simp) hturn.symm a.seat hal hxa hac
  rcases List.mem_append.mp hy with hy | hy
  · exact (hseat ▸ hdone y hy x List.mem_cons_self).asymm hxa
  rcases List.mem_cons.mp hy with rfl | hy
  · exact hne hseat.symm
  rcases List.mem_append.mp hy with hy | hy
  · refine hskipped y hy ⟨?_, a, ha, congrArg Prod.fst hseat.symm⟩
    rw [(hseq.seated y (by simp [hy])).2.1, (hseq.seated x (by simp)).2.1, hseat, hax]
  rcases List.mem_cons.mp hy with rfl | hy
  · exact hac.ne hseat.symm
  · exact (hseat ▸ hc y hy).asymm hac

/-- What comes behind the item before `x` comes behind `x`. -/
theorem comes_of_previous {p b : Message} (hseq : Sequence l (done ++ p :: x :: rest)) (hturn : p.seat.2 = x.seat.2)
    (hbl : b.seat ∈ l) (hne : b.seat ≠ x.seat) (hpb : Comes l p.seat b.seat) : Comes l x.seat b.seat := by
  have hordered := hseq.ordered
  rw [List.pairwise_append, List.pairwise_cons, List.pairwise_cons] at hordered
  obtain ⟨-, ⟨-, hx, -⟩, hdone⟩ := hordered
  refine (comes_or hbl hne).resolve_left fun hbx => ?_
  obtain ⟨y, hy, hseat⟩ := hseq.between p (by simp) x (by simp) hturn b.seat hbl hpb hbx
  rcases List.mem_append.mp hy with hy | hy
  · exact (hseat ▸ hdone y hy p List.mem_cons_self).asymm hpb
  rcases List.mem_cons.mp hy with rfl | hy
  · exact hpb.ne hseat
  rcases List.mem_cons.mp hy with rfl | hy
  · exact hne hseat.symm
  · exact (hseat ▸ hx y hy).asymm hbx

include hturns in
/-- The first item of its turn, no item of which is there. -/
theorem fits_first (hseq : Sequence l (done ++ x :: rest)) (hstate : Inserting l older done (x :: rest) messages)
    (hmissing : ∀ m ∈ messages, m.id ≠ x.id)
    (hnext : ∀ y ∈ rest, ¬ (y.turn.value = x.turn.value ∧ ∃ m ∈ messages, m.id = y.id))
    (hprevious : ∀ p, done.getLast? = some p → p.turn.value ≠ x.turn.value) :
    ∀ m ∈ messages, m.seat.2 = x.seat.2 → if older then Comes l x.seat m.seat else Comes l m.seat x.seat := by
  refine (hstate.fits x List.mem_cons_self).resolve_left ?_
  rintro ⟨y, hy, hturn, m, hm, hid⟩
  have hvalue : ∀ z ∈ done ++ x :: rest, z.seat.2 = x.seat.2 → z.turn.value = x.turn.value := by
    intro z hz hzx
    rw [(hseq.seated z hz).2.1, (hseq.seated x (by simp)).2.1, hzx]
  rcases List.mem_append.mp hy with hdone | hrest
  · obtain ⟨front, p, rfl⟩ := List.eq_nil_or_concat done |>.resolve_left (List.ne_nil_of_mem hdone)
    rw [List.concat_eq_append] at *
    have hp : p.turn.value ≠ x.turn.value := hprevious p (by simp)
    have hordered := hseq.ordered
    rw [List.append_assoc, List.singleton_append, List.pairwise_append, List.pairwise_cons] at hordered
    obtain ⟨-, ⟨hpx, -⟩, hfront⟩ := hordered
    rcases List.mem_append.mp hdone with hfrom | hlast
    · have hsame := hturns y.seat (hseq.seated y hy).1 x.seat (hseq.seated x (by simp)).1 p.seat
        (hseq.seated p (by simp)).1 hturn (hfront y hfrom p List.mem_cons_self) (hpx x List.mem_cons_self)
      exact hp (hvalue p (by simp) (hsame.trans hturn))
    · rw [List.mem_singleton.mp hlast] at hturn
      exact hp (hvalue p (by simp) hturn)
  · rcases List.mem_cons.mp hrest with rfl | hrest
    · exact hmissing m hm hid
    · exact hnext y hrest ⟨hvalue y hy hturn, m, hm, hid⟩

include hturns in
/-- An item goes between those of its turn that come before it and those that come behind it. -/
theorem placeOf_kept (hseq : Sequence l (done ++ x :: rest)) (hstate : Inserting l older done (x :: rest) messages)
    (hmissing : ∀ m ∈ messages, m.id ≠ x.id) :
    (∀ a ∈ messages.take (placeOf older messages done.getLast? x rest), Kept l a x) ∧
      ∀ b ∈ messages.drop (placeOf older messages done.getLast? x rest), Kept l x b := by
  have hne : ∀ m ∈ messages, m.seat ≠ x.seat := fun m hm heq => hmissing m hm (congrArg Prod.fst heq)
  have hvalue : ∀ {y}, y ∈ done ++ x :: rest → y.turn.value = x.turn.value → y.seat.2 = x.seat.2 := by
    intro y hy hturn
    rw [← (hseq.seated y hy).2.1, hturn, (hseq.seated x (by simp)).2.1]
  unfold placeOf
  dsimp only
  split
  · next c hfind =>
    obtain ⟨hfound, r₁, r₂, rfl, hskipped⟩ := List.find?_eq_some_iff_append.mp hfind
    rw [Bool.and_eq_true, decide_eq_true_eq] at hfound
    obtain ⟨hcx, hany⟩ := hfound
    have hturn := hvalue (by simp) hcx
    have hfirst : ∃ m ∈ messages, (decide (m.id = c.id)) = true := List.any_eq_true.mp hany
    obtain ⟨front, m, back, rfl, hm, hidx, -⟩ := findIdx_split hfirst
    have hseat : m.seat = c.seat := hstate.same m (by simp) c (by simp) (of_decide_eq_true hm)
    have hkept := hstate.kept
    rw [List.pairwise_append, List.pairwise_cons] at hkept
    obtain ⟨-, ⟨hback, -⟩, hfront⟩ := hkept
    have hordered := hseq.ordered
    rw [List.pairwise_append, List.pairwise_cons] at hordered
    have hxc : Comes l x.seat c.seat := hordered.2.1.1 c (by simp)
    rw [hidx, List.take_left, List.drop_left]
    refine ⟨fun a ha hsome hax => ?_, fun b hb hsome hxb => ?_⟩
    · have hac := hfront a ha m List.mem_cons_self hsome (by rw [hax, hseat, hturn])
      have hmem : a ∈ front ++ m :: back := List.mem_append_left _ ha
      refine comes_of_next hseq (fun y hy hboth => ?_) hturn hmem (hstate.known a hmem hsome) hax (hne a hmem) (hseat ▸ hac)
      obtain ⟨hyx, z, hz, hid⟩ := hboth
      have hskip := hskipped y hy
      rw [Bool.not_eq_true', Bool.and_eq_false_iff] at hskip
      rcases hskip with hskip | hskip
      · exact of_decide_eq_false hskip hyx
      · exact List.any_eq_false.mp hskip z hz (decide_eq_true hid)
    · rcases List.mem_cons.mp hb with rfl | hb
      · rw [hseat]
        exact hxc
      · refine hxc.trans ?_
        rw [← hseat]
        exact hback b hb (by rw [hseat, hturn]; exact hsome) (by rw [hseat, hturn, hxb])
  · next hnone =>
    have hnext : ∀ y ∈ rest, ¬ (y.turn.value = x.turn.value ∧ ∃ m ∈ messages, m.id = y.id) := by
      rintro y hy ⟨hturn, m, hm, hid⟩
      have hnot := List.find?_eq_none.mp hnone y hy
      rw [Bool.and_eq_true, decide_eq_true_eq] at hnot
      exact hnot ⟨hturn, List.any_eq_true.mpr ⟨m, hm, decide_eq_true hid⟩⟩
    split
    · next p hp =>
      obtain ⟨hlast, hpx⟩ := Option.filter_eq_some_iff.mp hp
      rw [decide_eq_true_eq] at hpx
      obtain ⟨front', rfl⟩ := List.getLast?_eq_some_iff.mp hlast
      have hturn := hvalue (by simp) hpx
      have hfirst : ∃ m ∈ messages, (decide (m.id = p.id)) = true := by
        obtain ⟨m, hm, hid⟩ := hstate.there p (by simp)
        exact ⟨m, hm, decide_eq_true hid⟩
      obtain ⟨front, m, back, rfl, hm, -, hidx⟩ := findIdx_split hfirst
      have hseat : m.seat = p.seat := hstate.same m (by simp) p (by simp) (of_decide_eq_true hm)
      have hkept := hstate.kept
      rw [List.pairwise_append, List.pairwise_cons] at hkept
      obtain ⟨-, ⟨hback, -⟩, hfront⟩ := hkept
      have hseq' : Sequence l (front' ++ p :: x :: rest) := by simpa using hseq
      have hordered := hseq'.ordered
      rw [List.pairwise_append, List.pairwise_cons] at hordered
      have hpx : Comes l p.seat x.seat := hordered.2.1.1 x List.mem_cons_self
      have hsplit : front ++ m :: back = (front ++ [m]) ++ back := by simp
      have hplace : (Option.elim (some front.length) 0 (· + 1) : Nat) = (front ++ [m]).length := by simp
      rw [hidx, hplace, hsplit, List.take_left, List.drop_left]
      refine ⟨fun a ha hsome hax => ?_, fun b hb hsome hxb => ?_⟩
      · rcases List.mem_append.mp ha with ha | ha
        · refine Comes.trans ?_ hpx
          rw [← hseat]
          exact hfront a ha m List.mem_cons_self hsome (by rw [hax, hseat, hturn])
        · rw [List.mem_singleton.mp ha, hseat]
          exact hpx
      · have hmem : b ∈ front ++ m :: back := List.mem_append_right _ (List.mem_cons_of_mem _ hb)
        have hpb := hback b hb (by rw [hseat, hturn]; exact hsome) (by rw [hseat, hturn, hxb])
        exact comes_of_previous hseq' hturn (hstate.known b hmem (hxb ▸ hsome)) (hne b hmem) (hseat ▸ hpb)
    · next hfilter =>
      have hfirst := fits_first hturns hseq hstate hmissing hnext fun p hp hturn => by
        rw [hp] at hfilter
        exact Option.filter_eq_none_iff.mp hfilter p rfl (decide_eq_true hturn)
      cases older with
      | true =>
        rw [if_pos rfl, List.take_zero, List.drop_zero]
        exact ⟨by simp, fun b hb _ hxb => hfirst b hb hxb.symm⟩
      | false =>
        rw [if_neg Bool.false_ne_true, List.take_length, List.drop_length]
        exact ⟨fun a ha _ hax => hfirst a ha hax, by simp⟩

include hturns in
theorem Inserting.step (hseq : Sequence l (done ++ x :: rest)) (hstate : Inserting l older done (x :: rest) messages)
    (hmissing : ∀ m ∈ messages, m.id ≠ x.id) : Inserting l older (done ++ [x]) rest
      (messages.take (placeOf older messages done.getLast? x rest) ++ x ::
        messages.drop (placeOf older messages done.getLast? x rest)) := by
  obtain ⟨hbefore, hbehind⟩ := placeOf_kept hturns hseq hstate hmissing
  have hmem : ∀ {m}, m ∈ messages.take (placeOf older messages done.getLast? x rest) ++ x ::
      messages.drop (placeOf older messages done.getLast? x rest) ↔ m = x ∨ m ∈ messages := by
    intro m
    refine List.perm_middle.mem_iff.trans ?_
    rw [List.take_append_drop, List.mem_cons]
  have hall : ∀ {y}, y ∈ done ++ [x] ++ rest → y ∈ done ++ x :: rest := fun hy => by simpa using hy
  refine ⟨?_, fun m hm hsome => ?_, fun m hm y hy hid => ?_, fun y hy => ?_, fun y hy => ?_⟩
  · have hkept := hstate.kept
    rw [← List.take_append_drop (placeOf older messages done.getLast? x rest) messages, List.pairwise_append] at hkept
    refine List.pairwise_append.mpr ⟨hkept.1, List.pairwise_cons.mpr ⟨hbehind, hkept.2.1⟩, fun a ha b hb => ?_⟩
    rcases List.mem_cons.mp hb with rfl | hb
    · exact hbefore a ha
    · exact hkept.2.2 a ha b hb
  · rcases hmem.mp hm with rfl | hm
    · exact (hseq.seated m (by simp)).1
    · exact hstate.known m hm hsome
  · rcases hmem.mp hm with rfl | hm
    · have hdistinct := hseq.distinct
      rw [List.pairwise_append, List.pairwise_cons] at hdistinct
      rcases List.mem_append.mp (hall hy) with hy | hy
      · exact absurd hid.symm (hdistinct.2.2 y hy m List.mem_cons_self)
      rcases List.mem_cons.mp hy with rfl | hy
      · rfl
      · exact absurd hid (hdistinct.2.1.1 y hy)
    · exact hstate.same m hm y (hall hy) hid
  · rcases List.mem_append.mp hy with hy | hy
    · obtain ⟨m, hm, hid⟩ := hstate.there y hy
      exact ⟨m, hmem.mpr (.inr hm), hid⟩
    · rw [List.mem_singleton.mp hy]
      exact ⟨x, hmem.mpr (.inl rfl), rfl⟩
  · by_cases hturn : x.seat.2 = y.seat.2
    · exact .inl ⟨x, by simp, hturn, x, hmem.mpr (.inl rfl), rfl⟩
    · rcases hstate.fits y (List.mem_cons_of_mem _ hy) with ⟨z, hz, hzturn, m, hm, hid⟩ | hfits
      · exact .inl ⟨z, by simpa using hz, hzturn, m, hmem.mpr (.inr hm), hid⟩
      · refine .inr fun m hm hmturn => ?_
        rcases hmem.mp hm with rfl | hm
        · exact absurd hmturn hturn
        · exact hfits m hm hmturn

include hturns in
/-- The messages of each turn are in native order when every item is there. -/
theorem insertMissing_kept (hseq : Sequence l (done ++ rest)) (hstate : Inserting l older done rest messages) :
    (insertMissing older messages done.getLast? rest).Pairwise (Kept l) := by
  induction rest generalizing done messages with
  | nil => exact hstate.kept
  | cons x rest ih =>
    have hseq' : Sequence l (done ++ [x] ++ rest) := by simpa using hseq
    have hlast : (done ++ [x]).getLast? = some x := by simp
    rw [insertMissing]
    split
    · next hany =>
      have hnext : Inserting l older (done ++ [x]) rest messages := by
        refine ⟨hstate.kept, hstate.known, fun m hm y hy => hstate.same m hm y (by simpa using hy), fun y hy => ?_,
          fun y hy => ?_⟩
        · rcases List.mem_append.mp hy with hy | hy
          · exact hstate.there y hy
          · rw [List.mem_singleton.mp hy]
            exact exists_of_any hany
        · have hfits := hstate.fits y (List.mem_cons_of_mem _ hy)
          simpa using hfits
      rw [← hlast]
      exact ih hseq' hnext
    · next hany =>
      have hmissing : ∀ m ∈ messages, m.id ≠ x.id := fun m hm hid =>
        hany (List.any_eq_true.mpr ⟨m, hm, decide_eq_true hid⟩)
      rw [← hlast]
      exact ih hseq' (hstate.step hturns hseq hmissing)

end RemoteCodex.Chat
