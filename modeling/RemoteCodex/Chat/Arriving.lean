import RemoteCodex.Chat.Arrival

/-!
# A page that arrives

After a merge each turn has what was loaded of it and what the page has, in
native order, exactly if the messages of no turn that stand for items of the page
are settled by it. Where every page does so, it does not matter in which order
the pages arrive.
-/

namespace RemoteCodex.Chat

open Interact Protocol
open scoped List

variable {before : String → String → Bool} {history : List NativeTurn} {page : HistoryPage} {older : Bool}
variable {messages items more result last : List Message} {a b h h' m m' x : Message} {t : NativeTurn} {l : List Seat}

theorem before_of_pending (hb : b.seat.2 = none) : Message.Before before a b := by
  unfold Message.Before
  have hturn : truthy b.turn.value = none := hb
  rw [hturn]
  cases truthy a.turn.value <;> trivial

theorem before_of_same (hordered : Ordered before) (hturn : a.seat.2 = b.seat.2) : Message.Before before a b := by
  unfold Message.Before
  have hsame : truthy a.turn.value = truthy b.turn.value := hturn
  rw [hsame]
  cases truthy b.turn.value with
  | none => trivial
  | some t => exact (hordered.total t t).elim id id

theorem seated_of_before (hab : Message.Before before a b) (hb : b.seat.2.isSome = true) : a.seat.2.isSome = true := by
  unfold Message.Before at hab
  cases ha : truthy a.turn.value with
  | some t => rw [Message.seat, ha]; rfl
  | none =>
    obtain ⟨u, hu⟩ := Option.isSome_iff_exists.mp hb
    have hturn : truthy b.turn.value = some u := hu
    rw [ha, hturn] at hab
    exact hab.elim

/-- The sort leaves the messages of a turn as they are. -/
theorem kept_insertionSort (hordered : Ordered before) (hkept : messages.Pairwise (Kept l)) :
    (messages.insertionSort (Message.Before before)).Pairwise (Kept l) := by
  have htotal := hordered.total_before
  have htrans := hordered.trans_before
  refine List.pairwise_iff_forall_sublist.mpr fun {a b} hab hsome hturn => ?_
  have hsame : ((messages.filter fun m => m.seat.2 = a.seat.2).Pairwise (Message.Before before)) :=
    List.pairwise_of_forall_mem_list fun x hx y hy => before_of_same hordered
      ((of_decide_eq_true (List.mem_filter.mp hx).2).trans (of_decide_eq_true (List.mem_filter.mp hy).2).symm)
  have hpair := hab.filter fun m => decide (m.seat.2 = a.seat.2)
  rw [filter_insertionSort hsame, List.filter_eq_self.mpr] at hpair
  · exact List.pairwise_pair.mp (hkept.sublist (hpair.trans List.filter_sublist)) hsome hturn
  · intro m hm
    simp only [List.mem_cons, List.not_mem_nil, or_false] at hm
    rcases hm with rfl | rfl
    · exact decide_eq_true rfl
    · exact decide_eq_true hturn.symm

theorem insertMissing_filter {p : Message → Bool} {previous : Option Message} {rest : List Message}
    (hrest : ∀ x ∈ rest, p x = false) : (insertMissing older messages previous rest).filter p = messages.filter p := by
  induction rest generalizing messages previous with
  | nil => rfl
  | cons x rest ih =>
    have hlater := fun y hy => hrest y (List.mem_cons_of_mem _ hy)
    rw [insertMissing]
    split
    · exact ih hlater
    · rw [ih hlater, List.filter_append, List.filter_cons_of_neg (by simp [hrest x List.mem_cons_self]), ← List.filter_append,
        List.take_append_drop]

theorem sublist_insertMissing {previous : Option Message} {rest : List Message} :
    messages <+ insertMissing older messages previous rest := by
  induction rest generalizing messages previous with
  | nil => exact .refl _
  | cons x rest ih =>
    rw [insertMissing]
    split
    · exact ih
    · refine .trans ?_ ih
      conv_lhs => rw [← List.take_append_drop (placeOf older messages previous x rest) messages]
      exact (List.Sublist.refl _).append (List.sublist_cons_self _ _)

-- ---------------------------------------------------------------------------
-- One page
-- ---------------------------------------------------------------------------

section

variable (hordered : Ordered before) (hnative : Native before history) (hloaded : Loaded history messages)
variable (harrives : Arrives history messages page older)

include hordered hnative hloaded harrives

/-- What waits for its turn stays as it is. -/
theorem Settled.waiting (hsettled : Settled history messages (historyMessages before page)) :
    (mergeMessages before messages page older).filter (fun m => !m.seat.2.isSome) =
      messages.filter fun m => Waits (historyMessages before page) m := by
  have hjoins := hsettled.joins hordered hnative hloaded harrives.fragments
  have htotal := hordered.total_before
  have htrans := hordered.trans_before
  have hpending : ∀ {m : Message}, (!m.seat.2.isSome) = true ↔ m.seat.2 = none := by simp
  have hrest : ∀ x ∈ (historyMessages before page).map (renew messages), (!x.seat.2.isSome) = false := by
    intro x hx
    have hseq := hsettled.sequence hordered hnative hloaded harrives.fragments
    simpa [Option.isSome_iff_ne_none] using (hseq.seated x hx).2.2
  rw [mergeMessages_eq, filter_insertionSort, insertMissing_filter hrest, List.filter_map]
  · have hwaits : messages.filter ((fun m => !m.seat.2.isSome) ∘ replaced messages (historyMessages before page)) =
        messages.filter fun m => Waits (historyMessages before page) m := by
      refine List.filter_congr fun m hm => Bool.eq_iff_iff.mpr ?_
      rw [Function.comp_apply, hpending, decide_eq_true_iff, Waits]
      rcases replaced_cases hjoins hm with ⟨h, hh, hmeets, heq⟩ | ⟨hnone, heq⟩
      · rw [heq, hsettled.turned.seat_renew hnative hloaded harrives.fragments hh]
        obtain ⟨t, -, hturn⟩ := seat_some (harrives.fragments.seat_mem hnative hh)
        exact iff_of_false (by simp [hturn]) fun hwaits => hwaits.2 h hh hmeets
      · rw [heq, and_iff_left hnone]
    rw [hwaits]
    conv_rhs => rw [← List.map_id (messages.filter _)]
    refine List.map_congr_left fun m hm => ?_
    obtain ⟨hm, hwaits⟩ := List.mem_filter.mp hm
    rcases replaced_cases hjoins hm with ⟨h, hh, hmeets, -⟩ | ⟨-, heq⟩
    · exact absurd hmeets ((of_decide_eq_true hwaits).2 h hh)
    · exact heq
  · exact List.pairwise_of_forall_mem_list fun x _ y hy => before_of_pending (hpending.mp (List.mem_filter.mp hy).2)

/-- What a page that settles the waiting messages makes of a chat. -/
theorem Settled.inOrder (hsettled : Settled history messages (historyMessages before page)) :
    InOrder history messages (historyMessages before page) (mergeMessages before messages page older) := by
  have hpage := harrives.fragments
  have hjoins := hsettled.joins hordered hnative hloaded hpage
  have hmerged : Merged messages (historyMessages before page) (mergeMessages before messages page older) :=
    mergeMessages_merged hjoins
  have hkept : (mergeMessages before messages page older).Pairwise (Kept (seats history)) := by
    rw [mergeMessages_eq]
    refine kept_insertionSort hordered ?_
    exact insertMissing_kept (fun s hs s' hs' r hr => hnative.same_turn hs hs' hr)
      (hsettled.sequence hordered hnative hloaded hpage) (hsettled.inserting hordered hnative hloaded hpage harrives)
  have hsorted : (mergeMessages before messages page older).Pairwise (Message.Before before) :=
    hordered.pairwise_insertionSort _
  have hstored : ∀ m ∈ messages, (∀ h ∈ historyMessages before page, Apart h m) → m ∈ mergeMessages before messages page older := by
    intro m hm hnone
    rw [mergeMessages_eq, (List.perm_insertionSort _ _).mem_iff]
    refine sublist_insertMissing.subset (List.mem_map.mpr ⟨m, hm, ?_⟩)
    rcases replaced_cases hjoins hm with ⟨h, hh, hmeets, -⟩ | ⟨-, heq⟩
    · exact absurd hmeets (hnone h hh)
    · exact heq
  have hwaiting := hsettled.waiting hordered hnative hloaded harrives
  generalize mergeMessages before messages page older = result at hmerged hkept hsorted hstored hwaiting ⊢
  have hseat : ∀ x ∈ result, x.seat.2.isSome = true → x.seat ∈ seats history := by
    intro x hx hsome
    rcases hmerged.only x hx with ⟨h, hh, rfl⟩ | ⟨hx, -⟩
    · rw [hsettled.turned.seat_renew hnative hloaded hpage hh]
      exact hpage.seat_mem hnative hh
    · exact hloaded.seated x hx (Option.isSome_iff_ne_none.mp hsome)
  refine ⟨result.filter fun m => m.seat.2.isSome, ?_, ?_⟩
  · rw [← hwaiting]
    exact (filter_append_filter_not (hsorted.imp fun {a b} hab hb => seated_of_before hab hb)).symm
  · refine eq_filter_of_pairwise hnative.nodup ?_ fun s => ?_
    · refine List.pairwise_map.mpr (((hkept.and hsorted).filter _).imp_of_mem fun {a b} ha hb hab => ?_)
      obtain ⟨ha, hasome⟩ := List.mem_filter.mp ha
      obtain ⟨hb, hbsome⟩ := List.mem_filter.mp hb
      by_cases hturn : a.seat.2 = b.seat.2
      · exact hab.1 (Option.isSome_iff_ne_none.mp hasome) hturn
      · obtain ⟨t, ht⟩ := Option.isSome_iff_exists.mp hasome
        obtain ⟨u, hu⟩ := Option.isSome_iff_exists.mp hbsome
        have hbefore : before t u = true := by
          have hab := hab.2
          unfold Message.Before at hab
          have ht' : truthy a.turn.value = some t := ht
          have hu' : truthy b.turn.value = some u := hu
          rwa [ht', hu'] at hab
        exact hnative.comes (hseat a ha hasome) (hseat b hb hbsome) ht hu (fun heq => hturn (by rw [ht, hu, heq])) hbefore
    · rw [List.mem_map]
      constructor
      · rintro ⟨x, hx, rfl⟩
        obtain ⟨hx, hsome⟩ := List.mem_filter.mp hx
        refine ⟨hseat x hx hsome, ?_⟩
        rcases hmerged.only x hx with ⟨h, hh, rfl⟩ | ⟨hx, -⟩
        · rw [hsettled.turned.seat_renew hnative hloaded hpage hh]
          exact .inr (List.mem_map_of_mem hh)
        · exact .inl (List.mem_map_of_mem hx)
      · rintro ⟨hs, hshown⟩
        obtain ⟨t, -, hturn⟩ := seat_some hs
        have hsome : s.2.isSome = true := by rw [hturn]; rfl
        have hitem : ∀ h ∈ historyMessages before page, h.seat = s →
            ∃ x ∈ result.filter (fun m => m.seat.2.isSome), x.seat = s := by
          intro h hh heq
          have hrenew := (hsettled.turned.seat_renew hnative hloaded hpage hh).trans heq
          exact ⟨renew messages h, List.mem_filter.mpr ⟨hmerged.renewed h hh, by rw [hrenew]; exact hsome⟩, hrenew⟩
        rcases hshown with hshown | hshown
        · obtain ⟨m, hm, rfl⟩ := List.mem_map.mp hshown
          by_cases hany : ∃ h ∈ historyMessages before page, Meets h m
          · obtain ⟨h, hh, hmeets⟩ := hany
            exact hitem h hh (hloaded.seat_eq hnative hpage hm (Option.isSome_iff_ne_none.mp hsome) hh hmeets)
          · exact ⟨m, List.mem_filter.mpr ⟨hstored m hm fun h hh hmeets => hany ⟨h, hh, hmeets⟩, hsome⟩, rfl⟩
        · obtain ⟨h, hh, heq⟩ := List.mem_map.mp hshown
          exact hitem h hh heq

omit hordered harrives in
theorem InOrder.nodup (hinorder : InOrder history messages items result) : (result.map Message.id).Nodup := by
  obtain ⟨front, rfl, hfront⟩ := hinorder
  have hmem : ∀ a ∈ front, a.seat ∈ (seats history).filter fun s => s ∈ messages.map Message.seat ∨ s ∈ items.map Message.seat :=
    fun a ha => hfront ▸ List.mem_map_of_mem ha
  rw [List.map_append, List.nodup_append]
  refine ⟨?_, ?_, fun i hi j hj hij => ?_⟩
  · have hids : front.map Message.id = (front.map Message.seat).map Prod.fst := by
      rw [List.map_map]
      rfl
    rw [hids, hfront]
    exact hnative.nodup_fst.sublist (List.filter_sublist.map _)
  · exact List.pairwise_map.mpr ((hloaded.apart.filter _).imp fun {a b} hab hid => hab (meets_of_id hid))
  · obtain ⟨a, ha, rfl⟩ := List.mem_map.mp hi
    obtain ⟨b, hb, rfl⟩ := List.mem_map.mp hj
    obtain ⟨hb, hwaits⟩ := List.mem_filter.mp hb
    obtain ⟨hpending, hnone⟩ := of_decide_eq_true hwaits
    obtain ⟨hseat, hshown⟩ := List.mem_filter.mp (hmem a ha)
    rcases of_decide_eq_true hshown with hshown | hshown
    · obtain ⟨m, hm, heq⟩ := List.mem_map.mp hshown
      have hid : m.id = a.id := congrArg (fun s : Seat => s.1) heq
      obtain rfl := eq_of_meets hloaded.apart hm hb (meets_of_id (hid.trans hij))
      obtain ⟨t, -, hturn⟩ := seat_some hseat
      rw [← heq, hpending] at hturn
      cases hturn
    · obtain ⟨h, hh, heq⟩ := List.mem_map.mp hshown
      have hid : h.id = a.id := congrArg (fun s : Seat => s.1) heq
      exact hnone h hh (meets_of_id (hid.trans hij))

omit hordered hnative hloaded harrives in
/-- A message of no turn that is still there waits. -/
theorem InOrder.waits (hinorder : InOrder history messages items result) (hx : x ∈ result) (hpending : x.seat.2 = none) :
    x ∈ messages ∧ ∀ h ∈ items, Apart h x := by
  obtain ⟨front, rfl, hfront⟩ := hinorder
  rcases List.mem_append.mp hx with hx | hx
  · have hmem := hfront ▸ List.mem_map_of_mem (f := Message.seat) hx
    obtain ⟨t, -, hturn⟩ := seat_some (List.mem_filter.mp hmem).1
    rw [hpending] at hturn
    cases hturn
  · obtain ⟨hx, hwaits⟩ := List.mem_filter.mp hx
    exact ⟨hx, (of_decide_eq_true hwaits).2⟩

omit hordered hnative hloaded harrives in
theorem InOrder.map_seat (hinorder : InOrder history messages items result) : result.map Message.seat =
    ((seats history).filter fun s => s ∈ messages.map Message.seat ∨ s ∈ items.map Message.seat) ++
      (messages.filter fun m => Waits items m).map Message.seat := by
  obtain ⟨front, rfl, hfront⟩ := hinorder
  rw [List.map_append, hfront]

omit hordered hnative hloaded harrives in
theorem InOrder.filter_sublist (hinorder : InOrder history messages items result) (turn : String) :
    (result.map Message.seat).filter (fun s => s.2 = some turn) <+ (seats history).filter fun s => s.2 = some turn := by
  have hnone : ((messages.filter fun m => Waits items m).map Message.seat).filter (fun s => s.2 = some turn) = [] := by
    refine List.filter_eq_nil_iff.mpr fun s hs hturn => ?_
    obtain ⟨m, hm, rfl⟩ := List.mem_map.mp hs
    have hpending := (of_decide_eq_true (List.mem_filter.mp hm).2).1
    rw [decide_eq_true_eq, hpending] at hturn
    cases hturn
  rw [hinorder.map_seat, List.filter_append, hnone, List.append_nil]
  exact List.filter_sublist.filter _

/-- No item of the page is stood for twice. -/
theorem InOrder.joins (hinorder : InOrder history messages (historyMessages before page)
    (mergeMessages before messages page older)) : Joins messages (historyMessages before page) := by
  have hpage := harrives.fragments
  have hids : ((historyMessages before page).map (renew messages)).Pairwise fun a b => a.id ≠ b.id := by
    refine List.pairwise_map.mpr ((hpage.apart hordered hnative).imp fun {a b} hab hid => hab (meets_of_id ?_))
    rwa [renew_id, renew_id] at hid
  have hsublist : messages.map (replaced messages (historyMessages before page)) <+~ mergeMessages before messages page older := by
    rw [mergeMessages_eq]
    exact sublist_insertMissing.subperm.trans (List.perm_insertionSort _ _).symm.subperm
  have hnodup : ((messages.map (replaced messages (historyMessages before page))).map Message.id).Nodup := by
    obtain ⟨part, hperm, hpart⟩ := hsublist
    exact (hperm.map _).nodup_iff.mp ((hinorder.nodup hnative hloaded).sublist (hpart.map _))
  rw [List.map_map] at hnodup
  have hid : ∀ {h}, h ∈ historyMessages before page → ∀ {m}, m ∈ messages → Meets h m →
      (replaced messages (historyMessages before page) m).id = h.id := by
    intro h hh m hm hmeets
    cases hcounterpart : counterpart ((historyMessages before page).map (renew messages)) m with
    | some found =>
      obtain ⟨hfound, hmeets'⟩ := counterpart_some hcounterpart
      obtain ⟨h', hh', rfl⟩ := List.mem_map.mp hfound
      rw [replaced, hcounterpart, Option.getD_some, renew_id, hloaded.item_eq hordered hnative hpage hm hh' hh
        (renew_meets hloaded.apart hm hmeets'.symm) hmeets]
    | none =>
      have hsame : replaced messages (historyMessages before page) m = m := by
        rw [replaced, hcounterpart, Option.getD_none]
      rw [hsame]
      by_cases hturn : m.seat.2 = none
      · have hmem := hsublist.subset (List.mem_map_of_mem hm)
        rw [hsame] at hmem
        exact absurd hmeets ((hinorder.waits hmem hturn).2 h hh)
      · exact (congrArg (fun s : Seat => s.1) (hloaded.seat_eq hnative hpage hm hturn hh hmeets)).symm
  refine hloaded.joins hordered hnative hpage fun h hh m hm m' hm' hmeets hmeets' => ?_
  rw [List.inj_on_of_nodup_map hnodup hm hm' ((hid hh hm hmeets).trans (hid hh hm' hmeets').symm)]

/-- A page that leaves a chat in order settles the waiting messages. -/
theorem InOrder.settled (hinorder : InOrder history messages (historyMessages before page)
    (mergeMessages before messages page older)) : Settled history messages (historyMessages before page) := by
  have hpage := harrives.fragments
  have hjoins := hinorder.joins hordered hnative hloaded harrives
  have hmerged : Merged messages (historyMessages before page) (mergeMessages before messages page older) :=
    mergeMessages_merged hjoins
  have hturned : Turned messages (historyMessages before page) := by
    intro h hh m hcounterpart hpending
    by_contra hnot
    rw [not_or, not_or] at hnot
    have hturn : (renew messages h).turn = Option.or m.turn h.turn := by
      rw [renew, hcounterpart]
      show (source m h).turn = _
      rw [source, if_neg (by simpa using ⟨hnot.1, Nat.le_of_not_lt hnot.2.1⟩)]
      rfl
    have hlost : (renew messages h).seat.2 = none := by
      rw [Message.seat, hturn, or_of_isSome (Option.isSome_iff_ne_none.mpr hnot.2.2)]
      exact hpending
    exact (hinorder.waits (hmerged.renewed h hh) hlost).2 h hh (meets_of_id renew_id.symm)
  refine ⟨hturned, fun t ht => ?_⟩
  have htotal := hordered.total_before
  have htrans := hordered.trans_before
  have hseats : messages.map (taken (historyMessages before page)) =
      (messages.map (replaced messages (historyMessages before page))).map Message.seat := by
    rw [List.map_map]
    exact List.map_congr_left fun m hm => (hturned.seat_replaced hordered hnative hloaded hpage hjoins hm).symm
  have hstable : (mergeMessages before messages page older).filter (fun m => m.seat.2 = some t.id) =
      (insertMissing older (messages.map (replaced messages (historyMessages before page))) none
        ((historyMessages before page).map (renew messages))).filter fun m => m.seat.2 = some t.id := by
    rw [mergeMessages_eq]
    exact filter_insertionSort (List.pairwise_of_forall_mem_list fun x hx y hy => before_of_same hordered
      ((of_decide_eq_true (List.mem_filter.mp hx).2).trans (of_decide_eq_true (List.mem_filter.mp hy).2).symm))
  have hresult : ((mergeMessages before messages page older).map Message.seat).filter (fun s => s.2 = some t.id) <+ t.seats := by
    rw [← hnative.filter_seats ht]
    exact hinorder.filter_sublist t.id
  rw [hseats]
  refine .trans ?_ hresult
  have hfilter : ((mergeMessages before messages page older).map Message.seat).filter (fun s => s.2 = some t.id) =
      ((insertMissing older (messages.map (replaced messages (historyMessages before page))) none
        ((historyMessages before page).map (renew messages))).filter fun m => m.seat.2 = some t.id).map Message.seat := by
    rw [← hstable, List.filter_map]
    rfl
  rw [hfilter, List.filter_map]
  exact (sublist_insertMissing.filter _).map _

/-- The messages of a chat after a page. -/
theorem Settled.loaded (hsettled : Settled history messages (historyMessages before page)) :
    Loaded history (mergeMessages before messages page older) := by
  have hpage := harrives.fragments
  have hjoins := hsettled.joins hordered hnative hloaded hpage
  have hmerged : Merged messages (historyMessages before page) (mergeMessages before messages page older) :=
    mergeMessages_merged hjoins
  have hinorder : InOrder history messages (historyMessages before page) (mergeMessages before messages page older) :=
    hsettled.inOrder hordered hnative hloaded harrives
  generalize mergeMessages before messages page older = result at hmerged hinorder
  -- What a message of the page stands for is the item it is, and that is all.
  have hrenewed : ∀ h ∈ historyMessages before page, ∀ i ∈ nativeItems history, StandsFor (renew messages h) i → i = h.label := by
    rintro h hh i hi ⟨k, hki, hk⟩
    rcases mem_keys_renew hk with hk | ⟨m, hm, hmeets, hk⟩
    · exact hnative.label_eq hi (hpage.label_mem hh) hki hk
    · exact hloaded.single m hm i hi _ (hpage.label_mem hh) ⟨k, hki, hk⟩ hmeets
  refine ⟨hmerged.apart, fun x hx hturn => ?_, fun t ht => ?_, fun x hx i hi hstands => ?_, fun x hx i hi j hj hstands hstands' => ?_⟩
  · rcases hmerged.only x hx with ⟨h, hh, rfl⟩ | ⟨hx, -⟩
    · rw [hsettled.turned.seat_renew hnative hloaded hpage hh]
      exact hpage.seat_mem hnative hh
    · exact hloaded.seated x hx hturn
  · rw [← hnative.filter_seats ht]
    exact hinorder.filter_sublist t.id
  · rcases hmerged.only x hx with ⟨h, hh, rfl⟩ | ⟨hx, -⟩
    · rw [hrenewed h hh i hi hstands]
      exact .inl renew_id.symm
    · exact hloaded.straight x hx i hi hstands
  · rcases hmerged.only x hx with ⟨h, hh, rfl⟩ | ⟨hx, -⟩
    · rw [hrenewed h hh i hi hstands, hrenewed h hh j hj hstands']
    · exact hloaded.single x hx i hi j hj hstands hstands'

end

end RemoteCodex.Chat
