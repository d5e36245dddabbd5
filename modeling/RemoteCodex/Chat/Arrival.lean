import RemoteCodex.Chat.Inserting

/-!
# Pages in native order

A chat shows, of each turn, some of its items in native order. A page that is
merged adds its items where they belong, as long as the messages of no turn that
stand for items of the page get their turn from it and stand where these belong.
-/

namespace RemoteCodex.Chat

open Interact Protocol
open scoped List

/-- The message is this item, or is taken for it. -/
def StandsFor (m : Message) (i : Label) : Prop := ∃ k ∈ i.keys, k ∈ keys m

instance (m : Message) (i : Label) : Decidable (StandsFor m i) := inferInstanceAs (Decidable (∃ _ ∈ _, _))

def SameName (m : Message) (i : Label) : Prop := i.1 = m.id ∨ ∃ client ∈ truthy i.2, m.clientId.value = some client

instance (m : Message) (i : Label) : Decidable (SameName m i) := inferInstanceAs (Decidable (_ ∨ ∃ _ ∈ _, _))

/-- A chat whose messages of each turn are items of that turn in native order. -/
structure Loaded (history : List NativeTurn) (messages : List Message) : Prop where
  apart : messages.Pairwise Apart
  seated : ∀ m ∈ messages, m.seat.2 ≠ none → m.seat ∈ seats history
  ordered : ∀ t ∈ history, (messages.map Message.seat).filter (fun s => s.2 = some t.id) <+ t.seats
  /-- An identity is not taken for a client identity. -/
  straight : ∀ m ∈ messages, ∀ i ∈ nativeItems history, StandsFor m i → SameName m i
  single : ∀ m ∈ messages, ∀ i ∈ nativeItems history, ∀ j ∈ nativeItems history, StandsFor m i → StandsFor m j → i = j

/-- A fragment has a loaded item, or is before those loaded of its turn (`older`) or behind them. -/
def Fits (messages : List Message) (older : Bool) (t : NativeTurn) (fragment : List Label) : Prop :=
  (∃ i ∈ fragment, (i.1, some t.id) ∈ messages.map Message.seat) ∨
    ∃ front back, t.items = front ++ fragment ++ back ∧
      ∀ i ∈ t.items, (i.1, some t.id) ∈ messages.map Message.seat → i ∈ if older then back else front

/-- A page of the history that fits what is loaded. -/
structure Arrives (history : List NativeTurn) (messages : List Message) (page : HistoryPage) (older : Bool) : Prop where
  fragments : PageOf history page
  fits : ∀ turn ∈ page.turns, ∀ t ∈ history, t.id = turn.id → Fits messages older t turn.labels

/-- The item a message stands for, with its turn. -/
def taken (items : List Message) (m : Message) : Seat :=
  match counterpart items m with
  | some h => h.seat
  | none => m.seat

/-- The messages of no turn that stand for items of a page get their turns from it. -/
def Turned (messages items : List Message) : Prop :=
  ∀ h ∈ items, ∀ m, counterpart messages h = some m → m.seat.2 = none →
    h.complete.value = some true ∨ m.text.length < h.text.length ∨ m.turn = none

/-- And they are where these items belong. -/
structure Settled (history : List NativeTurn) (messages items : List Message) : Prop where
  turned : Turned messages items
  ordered : ∀ t ∈ history, (messages.map (taken items)).filter (fun s => s.2 = some t.id) <+ t.seats

/-- A message of no turn that stands for no item of the page. -/
def Waits (items : List Message) (m : Message) : Prop := m.seat.2 = none ∧ ∀ h ∈ items, Apart h m

instance (items : List Message) (m : Message) : Decidable (Waits items m) := inferInstanceAs (Decidable (_ ∧ _))

/-- What was loaded and what the page has, in native order, and then what waits for its turn. -/
def InOrder (history : List NativeTurn) (messages items result : List Message) : Prop :=
  ∃ front, result = front ++ messages.filter (fun m => Waits items m) ∧ front.map Message.seat =
    (seats history).filter fun s => s ∈ messages.map Message.seat ∨ s ∈ items.map Message.seat

variable {before : String → String → Bool} {history : List NativeTurn} {page : HistoryPage} {older : Bool}
variable {messages items result : List Message} {a b h h' m m' x : Message} {t : NativeTurn}

theorem value_of_seat (h : m.seat.2 ≠ none) : m.turn.value = m.seat.2 := by
  cases hvalue : m.turn.value with
  | none => exact absurd (by rw [Message.seat, hvalue]; rfl) h
  | some t =>
    have hseat : m.seat.2 = (some t).filter (· ≠ "") := by rw [Message.seat, hvalue]; rfl
    rw [hseat] at h ⊢
    rw [Option.filter_some] at h ⊢
    split at h
    · next hne => rw [if_pos hne]
    · exact absurd rfl h

theorem Native.filter_seats (hnative : Native before history) (ht : t ∈ history) :
    (seats history).filter (fun s => s.2 = some t.id) = t.seats := by
  have hsublist : t.seats <+ (seats history).filter fun s => s.2 = some t.id := by
    have hfilter := ((seats_part ht).sublist.filter fun s => decide (s.2 = some t.id))
    rwa [List.filter_eq_self.mpr] at hfilter
    intro s hs
    obtain ⟨i, -, rfl⟩ := List.mem_map.mp hs
    exact decide_eq_true rfl
  refine (hsublist.eq_of_length_le ?_).symm
  refine List.Subperm.length_le (List.subperm_of_subset (hnative.nodup.filter _) fun s hs => ?_)
  obtain ⟨hs, hturn⟩ := List.mem_filter.mp hs
  obtain ⟨u, hu, i, hi, rfl⟩ := mem_seats.mp hs
  obtain rfl := hnative.turn_eq hu ht (Option.some.inj (of_decide_eq_true hturn))
  exact List.mem_map_of_mem hi

theorem seat_some (hs : s ∈ seats history) : ∃ t ∈ history, s.2 = some t.id := by
  obtain ⟨t, ht, i, -, rfl⟩ := mem_seats.mp hs
  exact ⟨t, ht, rfl⟩

section

variable (hordered : Ordered before) (hnative : Native before history) (hloaded : Loaded history messages)
variable (hpage : PageOf history page)

include hordered hnative hloaded hpage

/-- A message stands for one item of a page. -/
theorem Loaded.item_eq (hm : m ∈ messages) (hh : h ∈ historyMessages before page) (hh' : h' ∈ historyMessages before page)
    (hmeets : Meets h m) (hmeets' : Meets h' m) : h = h' := by
  have hlabel : h.label = h'.label :=
    hloaded.single m hm _ (hpage.label_mem hh) _ (hpage.label_mem hh') hmeets hmeets'
  exact eq_of_meets (hpage.apart hordered hnative) hh hh' (meets_of_id (congrArg (fun i : Label => i.1) hlabel))

theorem Loaded.counterpart_eq (hm : m ∈ messages) (hh : h ∈ historyMessages before page) (hmeets : Meets h m) :
    counterpart (historyMessages before page) m = some h :=
  Chat.counterpart_eq hh hmeets.symm fun _ hh' hmeets' =>
    hloaded.item_eq hordered hnative hpage hm hh' hh hmeets'.symm hmeets

theorem Loaded.taken_eq (hm : m ∈ messages) (hh : h ∈ historyMessages before page) (hmeets : Meets h m) :
    taken (historyMessages before page) m = h.seat := by
  rw [taken, hloaded.counterpart_eq hordered hnative hpage hm hh hmeets]

omit hordered in
/-- A message of a turn is the item it stands for. -/
theorem Loaded.seat_eq (hm : m ∈ messages) (hturn : m.seat.2 ≠ none) (hh : h ∈ historyMessages before page)
    (hmeets : Meets h m) : h.seat = m.seat := by
  have hseat := hloaded.seated m hm hturn
  have hfst : m.id ∈ (nativeItems history).map Prod.fst := by
    rw [← map_fst_seats]
    exact List.mem_map_of_mem (f := Prod.fst) hseat
  obtain ⟨i, hi, hid⟩ := List.mem_map.mp hfst
  have hstands : StandsFor m i := ⟨i.1, List.mem_cons_self, hid ▸ List.mem_cons_self⟩
  have hlabel : h.label = i := hloaded.single m hm _ (hpage.label_mem hh) i hi hmeets hstands
  refine hnative.seat_eq (hpage.seat_mem hnative hh) hseat ?_
  show h.id = m.id
  rw [← hid, ← hlabel]
  rfl

/-- Where nothing is stood for twice. -/
theorem Loaded.joins (hone : ∀ h ∈ historyMessages before page, ∀ m ∈ messages, ∀ m' ∈ messages, Meets h m → Meets h m' →
    m.id = m'.id) : Joins messages (historyMessages before page) where
  stored := hloaded.apart
  paged := hpage.apart hordered hnative
  straight h hh m hm hmeets := by
    rcases hloaded.straight m hm _ (hpage.label_mem hh) hmeets with hid | ⟨client, hclient, hvalue⟩
    · exact .inl hid.symm
    · exact .inr ⟨client, hclient, hvalue⟩
  oneMessage := hone
  oneItem m hm h hh h' hh' hmeets hmeets' := by rw [hloaded.item_eq hordered hnative hpage hm hh hh' hmeets hmeets']
  named h hh := hnative.clients _ (hpage.label_mem hh)

theorem Settled.joins (hsettled : Settled history messages (historyMessages before page)) :
    Joins messages (historyMessages before page) := by
  refine hloaded.joins hordered hnative hpage fun h hh m hm m' hm' hmeets hmeets' => ?_
  obtain ⟨t, ht, hturn⟩ := seat_some (hpage.seat_mem hnative hh)
  have hseat := hloaded.taken_eq hordered hnative hpage hm hh hmeets
  have hseat' := hloaded.taken_eq hordered hnative hpage hm' hh hmeets'
  have hnodup := (hsettled.ordered t ht).nodup (hnative.nodup.sublist (seats_part ht).sublist)
  rw [List.filter_map] at hnodup
  have hmem : ∀ {m}, m ∈ messages → taken (historyMessages before page) m = h.seat → m ∈ messages.filter
      ((fun s : Seat => decide (s.2 = some t.id)) ∘ taken (historyMessages before page)) := by
    intro m hm hseat
    exact List.mem_filter.mpr ⟨hm, by rw [Function.comp_apply, hseat]; exact decide_eq_true hturn⟩
  exact congrArg Message.id (List.inj_on_of_nodup_map hnodup (hmem hm hseat) (hmem hm' hseat') (hseat.trans hseat'.symm))

omit hordered in
/-- An item keeps its turn when it is taken in. -/
theorem Turned.seat_renew (hturned : Turned messages (historyMessages before page))
    (hh : h ∈ historyMessages before page) : (renew messages h).seat = h.seat := by
  have hwhole := historyMessages_whole hh
  unfold renew
  split
  · next m hcounterpart =>
    obtain ⟨hm, hmeets⟩ := counterpart_some hcounterpart
    have hturn : (refresh m h).turn = (source m h).turn := rfl
    have hitem : ∀ f : Field String, Option.or h.turn f = h.turn := fun f => or_of_isSome hwhole.turn
    have hseat : truthy (source m h).turn.value = h.seat.2 := by
      unfold source
      split
      · show truthy (Field.value (Option.or h.turn m.turn)) = _
        rw [hitem]
        rfl
      · next hshort =>
        show truthy (Field.value (Option.or m.turn h.turn)) = _
        rw [Bool.or_eq_true, decide_eq_true_eq, decide_eq_true_eq, not_or] at hshort
        by_cases hsome : m.seat.2 = none
        · rcases hturned h hh m hcounterpart hsome with hcomplete | hlength | hnone
          · exact absurd hcomplete hshort.1
          · exact absurd hlength hshort.2
          · rw [hnone]
            rfl
        · have hmseat := hloaded.seat_eq hnative hpage hm hsome hh hmeets
          cases hmturn : m.turn with
          | none => rfl
          | some f =>
            rw [hmseat, Message.seat, hmturn]
            rfl
    exact Prod.ext rfl hseat
  · rfl

theorem Turned.seat_replaced (hturned : Turned messages (historyMessages before page))
    (hjoins : Joins messages (historyMessages before page)) (hm : m ∈ messages) :
    (replaced messages (historyMessages before page) m).seat = taken (historyMessages before page) m := by
  rcases replaced_cases hjoins hm with ⟨h, hh, hmeets, heq⟩ | ⟨hnone, heq⟩
  · rw [heq, hturned.seat_renew hnative hloaded hpage hh, hloaded.taken_eq hordered hnative hpage hm hh hmeets]
  · have hcounterpart : counterpart (historyMessages before page) m = none := by
      cases hcounterpart : counterpart (historyMessages before page) m with
      | none => rfl
      | some h =>
        obtain ⟨hh, hmeets⟩ := counterpart_some hcounterpart
        exact absurd hmeets.symm (hnone h hh)
    rw [heq, taken, hcounterpart]

/-- The page as it is taken in. -/
theorem Settled.sequence (hsettled : Settled history messages (historyMessages before page)) :
    Sequence (seats history) ((historyMessages before page).map (renew messages)) where
  ordered := by
    refine List.pairwise_map.mpr ((List.pairwise_map.mp (hpage.pairwise hordered hnative)).imp_of_mem fun {a b} ha hb hab => ?_)
    rw [hsettled.turned.seat_renew hnative hloaded hpage ha, hsettled.turned.seat_renew hnative hloaded hpage hb]
    exact hab
  distinct := by
    refine List.pairwise_map.mpr ((hpage.apart hordered hnative).imp fun {a b} hab hid => hab (meets_of_id ?_))
    rwa [renew_id, renew_id] at hid
  seated := by
    intro x hx
    obtain ⟨h, hh, rfl⟩ := List.mem_map.mp hx
    have hseat := hsettled.turned.seat_renew hnative hloaded hpage hh
    have hmem := hpage.seat_mem hnative hh
    obtain ⟨t, -, hturn⟩ := seat_some hmem
    have hsome : (renew messages h).seat.2 ≠ none := by
      rw [hseat, hturn]
      exact Option.some_ne_none _
    exact ⟨hseat ▸ hmem, value_of_seat hsome, hsome⟩
  between := by
    intro a ha b hb hturn s hs has hsb
    obtain ⟨h, hh, rfl⟩ := List.mem_map.mp ha
    obtain ⟨h', hh', rfl⟩ := List.mem_map.mp hb
    rw [hsettled.turned.seat_renew hnative hloaded hpage hh] at hturn has
    rw [hsettled.turned.seat_renew hnative hloaded hpage hh'] at hturn hsb
    obtain ⟨c, hc, hseat⟩ := hpage.between hnative hh hh' hturn hs has hsb
    exact ⟨renew messages c, List.mem_map_of_mem hc,
      (hsettled.turned.seat_renew hnative hloaded hpage hc).trans hseat⟩

theorem Settled.kept (hsettled : Settled history messages (historyMessages before page)) :
    (messages.map (replaced messages (historyMessages before page))).Pairwise (Kept (seats history)) := by
  have hseats : (messages.map (replaced messages (historyMessages before page))).map Message.seat =
      messages.map (taken (historyMessages before page)) := by
    rw [List.map_map]
    exact List.map_congr_left fun m hm => hsettled.turned.seat_replaced hordered hnative hloaded hpage
      (hsettled.joins hordered hnative hloaded hpage) hm
  refine List.pairwise_iff_forall_sublist.mpr fun {a b} hab hsome hturn => ?_
  obtain ⟨m, hm, rfl⟩ := List.mem_map.mp (hab.subset List.mem_cons_self)
  have hmem : (replaced messages (historyMessages before page) m).seat ∈ seats history := by
    rcases replaced_cases (hsettled.joins hordered hnative hloaded hpage) hm with ⟨h, hh, -, heq⟩ | ⟨-, heq⟩
    · rw [heq, hsettled.turned.seat_renew hnative hloaded hpage hh]
      exact hpage.seat_mem hnative hh
    · rw [heq] at hsome ⊢
      exact hloaded.seated m hm hsome
  obtain ⟨t, ht, heq⟩ := seat_some hmem
  have hpair := ((hab.map Message.seat).filter fun s => decide (s.2 = some t.id))
  rw [hseats, List.filter_eq_self.mpr] at hpair
  · have hcomes := pairwise_comes_sublist hnative.nodup
      ((hpair.trans (hsettled.ordered t ht)).trans (seats_part ht).sublist)
    exact (List.pairwise_pair.mp hcomes)
  · intro s hs
    simp only [List.map_cons, List.map_nil, List.mem_cons, List.not_mem_nil, or_false] at hs
    rcases hs with rfl | rfl
    · exact decide_eq_true heq
    · exact decide_eq_true (hturn ▸ heq)

/-- Before the items of the page are put in. -/
theorem Settled.inserting (harrives : Arrives history messages page older)
    (hsettled : Settled history messages (historyMessages before page)) :
    Inserting (seats history) older [] ((historyMessages before page).map (renew messages))
      (messages.map (replaced messages (historyMessages before page))) := by
  have hjoins := hsettled.joins hordered hnative hloaded hpage
  have hrenew : ∀ {h}, h ∈ historyMessages before page → (renew messages h).seat = h.seat :=
    fun hh => hsettled.turned.seat_renew hnative hloaded hpage hh
  refine ⟨hsettled.kept hordered hnative hloaded hpage, fun m' hm' hsome => ?_, fun m' hm' x hx hid => ?_, by simp, fun x hx => ?_⟩
  · obtain ⟨m, hm, rfl⟩ := List.mem_map.mp hm'
    rcases replaced_cases hjoins hm with ⟨h, hh, -, heq⟩ | ⟨-, heq⟩
    · rw [heq, hrenew hh]
      exact hpage.seat_mem hnative hh
    · rw [heq] at hsome ⊢
      exact hloaded.seated m hm hsome
  · obtain ⟨m, hm, rfl⟩ := List.mem_map.mp hm'
    obtain ⟨h', hh', rfl⟩ := List.mem_map.mp hx
    rw [renew_id] at hid
    rcases replaced_cases hjoins hm with ⟨h, hh, -, heq⟩ | ⟨hnone, heq⟩
    · rw [heq, renew_id] at hid
      rw [heq, eq_of_meets hjoins.paged hh hh' (meets_of_id hid)]
    · rw [heq] at hid
      exact absurd (meets_of_id hid.symm) (hnone h' hh')
  · obtain ⟨h, hh, rfl⟩ := List.mem_map.mp hx
    rw [hrenew hh]
    obtain ⟨turn, hturn, hlabel, hseat⟩ := hpage.turn_of hnative hh
    obtain ⟨t, ht, hid, -⟩ := hpage.fragment turn hturn
    -- Is anything of the fragment there, be it in the place of a message of no turn?
    by_cases hany : ∃ y ∈ historyMessages before page, y.seat.2 = h.seat.2 ∧ ∃ m ∈ messages, Meets y m
    · obtain ⟨y, hy, hyturn, m, hm, hmeets⟩ := hany
      refine .inl ⟨renew messages y, by simpa using ⟨y, hy, rfl⟩, (hrenew hy).symm ▸ hyturn,
        replaced messages (historyMessages before page) m, List.mem_map_of_mem hm, ?_⟩
      rcases replaced_cases hjoins hm with ⟨h', hh', hmeets', heq⟩ | ⟨hnone, -⟩
      · rw [heq, hloaded.item_eq hordered hnative hpage hm hh' hy hmeets' hmeets]
      · exact absurd hmeets (hnone y hy)
    · refine .inr fun m' hm' hturn' => ?_
      obtain ⟨m, hm, rfl⟩ := List.mem_map.mp hm'
      rcases replaced_cases hjoins hm with ⟨h', hh', hmeets, heq⟩ | ⟨hnone, heq⟩
      · rw [heq, hrenew hh'] at hturn'
        exact absurd ⟨h', hh', hturn', m, hm, hmeets⟩ hany
      rw [heq] at hturn' ⊢
      have hmturn : m.seat.2 = some t.id := by rw [hturn', hseat, hid]
      rcases harrives.fits turn hturn t ht hid with ⟨i, hi, hloadedi⟩ | ⟨front, back, hitems, hloadedi⟩
      · obtain ⟨y, hy, hyseat⟩ := hpage.exists_of_label hnative hturn hi
        obtain ⟨m₂, hm₂, hm₂seat⟩ := List.mem_map.mp hloadedi
        have hid₂ : y.id = m₂.id := by
          rw [hid, ← hyseat] at hm₂seat
          exact (congrArg (fun s : Seat => s.1) hm₂seat).symm
        exact absurd ⟨y, hy, by rw [hyseat, hseat], m₂, hm₂, meets_of_id hid₂⟩ hany
      · have hmseats : m.seat ∈ t.seats := by
          rw [← hnative.filter_seats ht]
          exact List.mem_filter.mpr ⟨hloaded.seated m hm (by simp [hmturn]), decide_eq_true hmturn⟩
        obtain ⟨i, hi, hmi⟩ := List.mem_map.mp hmseats
        have hside := hloadedi i hi (hmi ▸ List.mem_map_of_mem hm)
        have hhi : h.seat = (h.label.1, some t.id) := Prod.ext rfl (by rw [hseat, hid])
        have horder := pairwise_comes_sublist hnative.nodup (seats_part ht).sublist
        rw [NativeTurn.seats, hitems, List.map_append, List.map_append, List.append_assoc, List.pairwise_append,
          List.pairwise_append] at horder
        rw [← hmi, hhi]
        cases older with
        | true => exact horder.2.1.2.2 _ (List.mem_map_of_mem hlabel) _ (List.mem_map_of_mem hside)
        | false => exact horder.2.2 _ (List.mem_map_of_mem hside) _ (List.mem_append_left _ (List.mem_map_of_mem hlabel))

end

end RemoteCodex.Chat
