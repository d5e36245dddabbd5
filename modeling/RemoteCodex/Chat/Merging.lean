import RemoteCodex.Chat.Distinct
import RemoteCodex.Chat.Refresh

/-!
# Merged pages and distinct messages

A page is merged by the identities and the client identities of its messages,
which are the keys of one map. Where each message of the page stands for at most
one stored message and the other way round, the merge keeps the messages
distinct, and a second merge of the page changes nothing.
-/

namespace RemoteCodex.Chat

open Interact Protocol

/-- What a map holds a message under. -/
def keys (m : Message) : List String := m.id :: (truthy m.clientId.value).toList

def Meets (a b : Message) : Prop := ∃ k ∈ keys a, k ∈ keys b

instance (a b : Message) : Decidable (Meets a b) := inferInstanceAs (Decidable (∃ _ ∈ _, _))

def Apart (a b : Message) : Prop := ¬ Meets a b

instance (a b : Message) : Decidable (Apart a b) := inferInstanceAs (Decidable (¬ _))

variable {a b m m' h h' item x : Message} {messages items : List Message}

theorem Meets.symm (hab : Meets a b) : Meets b a := by
  obtain ⟨k, ha, hb⟩ := hab
  exact ⟨k, hb, ha⟩

instance : Std.Symm Apart := ⟨fun _ _ hab hba => hab hba.symm⟩

theorem meets_of_id (hid : a.id = b.id) : Meets a b := ⟨a.id, List.mem_cons_self, hid ▸ List.mem_cons_self⟩

theorem mem_keys {k : String} : k ∈ keys m ↔ m.id = k ∨ truthy m.clientId.value = some k := by
  rw [keys, List.mem_cons, Option.mem_toList, eq_comm]

theorem eq_of_meets (hapart : messages.Pairwise Apart) (hm : m ∈ messages) (hm' : m' ∈ messages) (hmeets : Meets m m') :
    m = m' := by
  by_contra hne
  exact hapart.forall hm hm' hne hmeets

/-- The messages of a page that stand for stored messages. -/
structure Joins (messages items : List Message) : Prop where
  stored : messages.Pairwise Apart
  paged : items.Pairwise Apart
  /-- An identity is not taken for a client identity. -/
  straight : ∀ h ∈ items, ∀ m ∈ messages, Meets h m → h.Matches m
  oneMessage : ∀ h ∈ items, ∀ m ∈ messages, ∀ m' ∈ messages, Meets h m → Meets h m' → m.id = m'.id
  oneItem : ∀ m ∈ messages, ∀ h ∈ items, ∀ h' ∈ items, Meets h m → Meets h' m → h.id = h'.id
  named : ∀ h ∈ items, h.clientId.value ≠ some ""

instance (messages items : List Message) : Decidable (Joins messages items) :=
  decidable_of_iff (messages.Pairwise Apart ∧ items.Pairwise Apart ∧ (∀ h ∈ items, ∀ m ∈ messages, Meets h m → h.Matches m) ∧
      (∀ h ∈ items, ∀ m ∈ messages, ∀ m' ∈ messages, Meets h m → Meets h m' → m.id = m'.id) ∧
      (∀ m ∈ messages, ∀ h ∈ items, ∀ h' ∈ items, Meets h m → Meets h' m → h.id = h'.id) ∧
      ∀ h ∈ items, h.clientId.value ≠ some "")
    ⟨fun ⟨h₁, h₂, h₃, h₄, h₅, h₆⟩ => ⟨h₁, h₂, h₃, h₄, h₅, h₆⟩, fun ⟨h₁, h₂, h₃, h₄, h₅, h₆⟩ => ⟨h₁, h₂, h₃, h₄, h₅, h₆⟩⟩

theorem Joins.message_eq (hjoins : Joins messages items) (hh : h ∈ items) (hm : m ∈ messages) (hm' : m' ∈ messages)
    (hmeets : Meets h m) (hmeets' : Meets h m') : m = m' :=
  eq_of_meets hjoins.stored hm hm' (meets_of_id (hjoins.oneMessage h hh m hm m' hm' hmeets hmeets'))

theorem Joins.item_eq (hjoins : Joins messages items) (hm : m ∈ messages) (hh : h ∈ items) (hh' : h' ∈ items)
    (hmeets : Meets h m) (hmeets' : Meets h' m) : h = h' :=
  eq_of_meets hjoins.paged hh hh' (meets_of_id (hjoins.oneItem m hm h hh h' hh' hmeets hmeets'))

-- ---------------------------------------------------------------------------
-- The map
-- ---------------------------------------------------------------------------

theorem named_some {key : String} (hnamed : named messages key = some m) : m ∈ messages ∧ key ∈ keys m := by
  refine ⟨List.mem_reverse.mp (List.mem_of_find?_eq_some hnamed), mem_keys.mpr ?_⟩
  simpa using List.find?_some hnamed

theorem named_none {key : String} (hnamed : named messages key = none) (hm : m ∈ messages) : key ∉ keys m := by
  intro hkey
  have hnot := List.find?_eq_none.mp hnamed m (List.mem_reverse.mpr hm)
  rw [mem_keys] at hkey
  simp_all

theorem counterpart_some (hcounterpart : counterpart messages item = some m) : m ∈ messages ∧ Meets item m := by
  rcases Option.or_eq_some_iff.mp hcounterpart with hnamed | ⟨-, hnamed⟩
  · obtain ⟨hm, hkey⟩ := named_some hnamed
    exact ⟨hm, item.id, List.mem_cons_self, hkey⟩
  · obtain ⟨client, hclient, hnamed⟩ := Option.bind_eq_some_iff.mp hnamed
    obtain ⟨hm, hkey⟩ := named_some hnamed
    exact ⟨hm, client, mem_keys.mpr (.inr hclient), hkey⟩

theorem counterpart_none (hcounterpart : counterpart messages item = none) (hm : m ∈ messages) : Apart item m := by
  rintro ⟨key, hkey, hm'⟩
  obtain ⟨hid, hclient⟩ := Option.or_eq_none_iff.mp hcounterpart
  rcases mem_keys.mp hkey with rfl | heq
  · exact named_none hid hm hm'
  · rw [heq] at hclient
    exact named_none hclient hm hm'

/-- The only one there is. -/
theorem counterpart_eq (hm : m ∈ messages) (hmeets : Meets item m)
    (hone : ∀ m' ∈ messages, Meets item m' → m' = m) : counterpart messages item = some m := by
  cases hcounterpart : counterpart messages item with
  | none => exact absurd hmeets (counterpart_none hcounterpart hm)
  | some found =>
    obtain ⟨hfound, hmeets'⟩ := counterpart_some hcounterpart
    rw [hone found hfound hmeets']

/-- What a message of a page becomes. -/
def renew (messages : List Message) (item : Message) : Message :=
  match counterpart messages item with
  | some current => refresh current item
  | none => item

theorem renew_id : (renew messages item).id = item.id := by
  unfold renew
  split <;> rfl

/-- The client identity of a message that was taken in is its own or that of the stored one. -/
theorem renew_client (messages : List Message) (item : Message) : (renew messages item).clientId.value = item.clientId.value ∨
    ∃ m ∈ messages, Meets item m ∧ (renew messages item).clientId.value = m.clientId.value := by
  unfold renew
  split
  · next m hcounterpart =>
    obtain ⟨hm, hmeets⟩ := counterpart_some hcounterpart
    have hor : ∀ f g : Field String, Field.value (Option.or f g) = f.value ∨ Field.value (Option.or f g) = g.value := by
      intro f g
      cases f with
      | none => exact .inr rfl
      | some f => exact .inl rfl
    have hsource : (refresh m item).clientId.value = item.clientId.value ∨
        (refresh m item).clientId.value = m.clientId.value := by
      show (source m item).clientId.value = _ ∨ (source m item).clientId.value = _
      unfold source
      split
      · exact hor item.clientId m.clientId
      · exact (hor m.clientId item.clientId).symm
    rcases hsource with hclient | hclient
    · exact .inl hclient
    · exact .inr ⟨m, hm, hmeets, hclient⟩
  · exact .inl rfl

theorem mem_keys_renew {k : String} (hk : k ∈ keys (renew messages item)) :
    k ∈ keys item ∨ ∃ m ∈ messages, Meets item m ∧ k ∈ keys m := by
  rcases mem_keys.mp hk with rfl | hclient
  · rw [renew_id]
    exact .inl List.mem_cons_self
  · rcases renew_client messages item with heq | ⟨m, hm, hmeets, heq⟩
    · exact .inl (mem_keys.mpr (.inr (heq ▸ hclient)))
    · exact .inr ⟨m, hm, hmeets, mem_keys.mpr (.inr (heq ▸ hclient))⟩

theorem renew_meets (hstored : messages.Pairwise Apart) (hm : m ∈ messages) :
    Meets (renew messages h) m → Meets h m := by
  rintro ⟨k, hk, hkm⟩
  rcases mem_keys_renew hk with hk | ⟨m', hm', hmeets, hk⟩
  · exact ⟨k, hk, hkm⟩
  · obtain rfl := eq_of_meets hstored hm' hm ⟨k, hk, hkm⟩
    exact hmeets

theorem meets_renew (hjoins : Joins messages items) (hh : h ∈ items) (hm : m ∈ messages) (hmeets : Meets h m) :
    Meets (renew messages h) m := by
  rcases hjoins.straight h hh m hm hmeets with hid | ⟨client, hclient, hmclient⟩
  · exact meets_of_id (renew_id.trans hid.symm)
  · obtain ⟨-, hne⟩ := Option.filter_eq_some_iff.mp hclient
    have htruthy : truthy m.clientId.value = some client := by
      rw [hmclient]
      exact Option.filter_some_pos hne
    refine ⟨client, mem_keys.mpr (.inr ?_), mem_keys.mpr (.inr htruthy)⟩
    rcases renew_client messages h with heq | ⟨m', hm', hmeets', heq⟩
    · rw [heq, hclient]
    · rw [heq, hjoins.message_eq hh hm' hm hmeets' hmeets, htruthy]

theorem renew_apart (hjoins : Joins messages items) (hh : h ∈ items) (hh' : h' ∈ items)
    (hmeets : Meets (renew messages h) (renew messages h')) : h = h' := by
  obtain ⟨k, hk, hk'⟩ := hmeets
  rcases mem_keys_renew hk with hk | ⟨m, hm, hmeets, hk⟩
  · rcases mem_keys_renew hk' with hk' | ⟨m', hm', hmeets', hk'⟩
    · exact eq_of_meets hjoins.paged hh hh' ⟨k, hk, hk'⟩
    · exact hjoins.item_eq hm' hh hh' ⟨k, hk, hk'⟩ hmeets'
  · rcases mem_keys_renew hk' with hk' | ⟨m', hm', hmeets', hk'⟩
    · exact hjoins.item_eq hm hh hh' hmeets ⟨k, hk', hk⟩
    · obtain rfl := eq_of_meets hjoins.stored hm hm' ⟨k, hk, hk'⟩
      exact hjoins.item_eq hm hh hh' hmeets hmeets'

-- ---------------------------------------------------------------------------
-- The merge
-- ---------------------------------------------------------------------------

/-- What a stored message becomes. -/
def replaced (messages items : List Message) (m : Message) : Message :=
  (counterpart (items.map (renew messages)) m).getD m

theorem mergeMessages_eq (before : String → String → Bool) (messages : List Message) (page : HistoryPage) (older : Bool) :
    mergeMessages before messages page older =
      (insertMissing older (messages.map (replaced messages (historyMessages before page))) none
        ((historyMessages before page).map (renew messages))).insertionSort (Message.Before before) := rfl

theorem replaced_cases (hjoins : Joins messages items) (hm : m ∈ messages) :
    (∃ h ∈ items, Meets h m ∧ replaced messages items m = renew messages h) ∨
      (∀ h ∈ items, Apart h m) ∧ replaced messages items m = m := by
  unfold replaced
  cases hcounterpart : counterpart (items.map (renew messages)) m with
  | some found =>
    obtain ⟨hfound, hmeets⟩ := counterpart_some hcounterpart
    obtain ⟨h, hh, rfl⟩ := List.mem_map.mp hfound
    exact .inl ⟨h, hh, renew_meets hjoins.stored hm hmeets.symm, rfl⟩
  | none =>
    refine .inr ⟨fun h hh hmeets => ?_, rfl⟩
    exact counterpart_none hcounterpart (List.mem_map_of_mem hh) (meets_renew hjoins hh hm hmeets).symm

theorem insertMissing_perm {older : Bool} {previous : Option Message} {history : List Message}
    (hids : history.Pairwise fun a b => a.id ≠ b.id) : (insertMissing older messages previous history).Perm
      (messages ++ history.filter fun h => !messages.any fun m => m.id = h.id) := by
  induction history generalizing messages previous with
  | nil => simp [insertMissing]
  | cons item rest ih =>
    obtain ⟨hitem, hrest⟩ := List.pairwise_cons.mp hids
    simp only [insertMissing]
    split
    · next hany =>
      rw [List.filter_cons_of_neg (by simp [hany])]
      exact ih hrest
    · next hany =>
      generalize placeOf older messages previous item rest = place
      have hperm : (messages.take place ++ item :: messages.drop place).Perm (item :: messages) := by
        refine List.perm_middle.trans ?_
        rw [List.take_append_drop]
      refine (ih hrest).trans ?_
      rw [List.filter_cons_of_pos (by simp [hany])]
      have hfilter : (rest.filter fun h => !(messages.take place ++ item :: messages.drop place).any fun m => m.id = h.id) =
          rest.filter fun h => !messages.any fun m => m.id = h.id := by
        refine List.filter_congr fun h hh => ?_
        rw [hperm.any_eq, List.any_cons, decide_eq_false (hitem h hh), Bool.false_or]
      rw [hfilter]
      exact (hperm.append_right _).trans List.perm_middle.symm

/-- Everything is there already. -/
theorem insertMissing_all {older : Bool} {previous : Option Message} {history : List Message}
    (hall : ∀ h ∈ history, (messages.any fun m => m.id = h.id) = true) :
    insertMissing older messages previous history = messages := by
  induction history generalizing previous with
  | nil => rfl
  | cons item rest ih =>
    rw [insertMissing, if_pos (hall item List.mem_cons_self)]
    exact ih fun h hh => hall h (List.mem_cons_of_mem _ hh)

/-- What a merge leaves: each message of the page as it was renewed, and the
stored messages that none of them stands for. -/
structure Merged (messages items result : List Message) : Prop where
  apart : result.Pairwise Apart
  renewed : ∀ h ∈ items, renew messages h ∈ result
  only : ∀ x ∈ result, (∃ h ∈ items, x = renew messages h) ∨ x ∈ messages ∧ ∀ h ∈ items, Apart h x

variable {before : String → String → Bool} {page : HistoryPage} {older older' : Bool}

theorem pairwise_renew (hjoins : Joins messages items) : (items.map (renew messages)).Pairwise Apart :=
  List.pairwise_map.mpr (hjoins.paged.imp_of_mem fun {a b} ha hb hab hmeets => by
    obtain rfl := renew_apart hjoins ha hb hmeets
    exact hab (meets_of_id rfl))

theorem pairwise_replaced (hjoins : Joins messages items) : (messages.map (replaced messages items)).Pairwise Apart := by
  refine List.pairwise_map.mpr (hjoins.stored.imp_of_mem fun {a b} ha hb hab hmeets => ?_)
  rcases replaced_cases hjoins ha with ⟨h, hh, hha, heq⟩ | ⟨hnone, heq⟩ <;> rw [heq] at hmeets
  · rcases replaced_cases hjoins hb with ⟨h', hh', hhb, heq'⟩ | ⟨hnone', heq'⟩ <;> rw [heq'] at hmeets
    · obtain rfl := renew_apart hjoins hh hh' hmeets
      obtain rfl := hjoins.message_eq hh ha hb hha hhb
      exact hab (meets_of_id rfl)
    · exact hnone' h hh (renew_meets hjoins.stored hb hmeets)
  · rcases replaced_cases hjoins hb with ⟨h', hh', hhb, heq'⟩ | ⟨hnone', heq'⟩ <;> rw [heq'] at hmeets
    · exact hnone h' hh' (renew_meets hjoins.stored ha hmeets.symm)
    · exact hab hmeets

theorem mergeMessages_merged (hjoins : Joins messages (historyMessages before page)) :
    Merged messages (historyMessages before page) (mergeMessages before messages page older) := by
  rw [mergeMessages_eq]
  generalize historyMessages before page = items at hjoins
  have hids : (items.map (renew messages)).Pairwise fun a b => a.id ≠ b.id :=
    (pairwise_renew hjoins).imp fun hab hid => hab (meets_of_id hid)
  have hinserted : (insertMissing older (messages.map (replaced messages items)) none (items.map (renew messages))).Perm
      (messages.map (replaced messages items) ++ (items.map (renew messages)).filter fun h =>
        !(messages.map (replaced messages items)).any fun m => m.id = h.id) := insertMissing_perm hids
  have hperm := (List.perm_insertionSort (Message.Before before) _).trans hinserted
  refine ⟨(hperm.pairwise_iff fun {a b} hab hba => hab hba.symm).mpr (List.pairwise_append.mpr
    ⟨pairwise_replaced hjoins, (pairwise_renew hjoins).filter _, fun a ha b hb hmeets => ?_⟩), fun h hh => ?_, fun x hx => ?_⟩
  · obtain ⟨m, hm, rfl⟩ := List.mem_map.mp ha
    obtain ⟨hb, hmissing⟩ := List.mem_filter.mp hb
    obtain ⟨h, hh, rfl⟩ := List.mem_map.mp hb
    rcases replaced_cases hjoins hm with ⟨h', hh', -, heq⟩ | ⟨hnone, heq⟩ <;> rw [heq] at hmeets
    · obtain rfl := renew_apart hjoins hh' hh hmeets
      rw [Bool.not_eq_true', List.any_eq_false] at hmissing
      exact hmissing _ (List.mem_map_of_mem hm) (decide_eq_true (by rw [heq]))
    · exact hnone h hh (renew_meets hjoins.stored hm hmeets.symm)
  · rw [hperm.mem_iff, List.mem_append]
    by_cases hany : ((messages.map (replaced messages items)).any fun m => m.id = (renew messages h).id) = true
    · obtain ⟨x, hx, hid⟩ := List.any_eq_true.mp hany
      obtain ⟨m, hm, rfl⟩ := List.mem_map.mp hx
      rw [decide_eq_true_eq] at hid
      rcases replaced_cases hjoins hm with ⟨h', hh', -, heq⟩ | ⟨hnone, heq⟩ <;> rw [heq] at hid
      · obtain rfl := renew_apart hjoins hh' hh (meets_of_id hid)
        exact .inl (heq ▸ hx)
      · exact absurd (meets_of_id (hid.trans renew_id).symm) (hnone h hh)
    · exact .inr (List.mem_filter.mpr ⟨List.mem_map_of_mem hh, by simpa using hany⟩)
  · rcases List.mem_append.mp (hperm.mem_iff.mp hx) with hx | hx
    · obtain ⟨m, hm, rfl⟩ := List.mem_map.mp hx
      rcases replaced_cases hjoins hm with ⟨h, hh, -, heq⟩ | ⟨hnone, heq⟩ <;> rw [heq]
      · exact .inl ⟨h, hh, rfl⟩
      · exact .inr ⟨hm, hnone⟩
    · obtain ⟨h, hh, rfl⟩ := List.mem_map.mp (List.mem_filter.mp hx).1
      exact .inl ⟨h, hh, rfl⟩

/-- The only message of the result that a message of the page meets. -/
theorem Merged.meets (hjoins : Joins messages items) {result : List Message} (hmerged : Merged messages items result)
    (hh : h ∈ items) (hx : x ∈ result) (hmeets : Meets h x) : x = renew messages h := by
  rcases hmerged.only x hx with ⟨h', hh', rfl⟩ | ⟨-, hnone⟩
  · obtain ⟨k, hk, hk'⟩ := hmeets
    rcases mem_keys_renew hk' with hk' | ⟨m, hm, hmeets', hk'⟩
    · rw [eq_of_meets hjoins.paged hh hh' ⟨k, hk, hk'⟩]
    · rw [hjoins.item_eq hm hh hh' ⟨k, hk, hk'⟩ hmeets']
  · exact absurd hmeets (hnone h hh)

theorem Merged.distinct (hdistinct : Distinct messages) (hjoins : Joins messages items) {result : List Message}
    (hmerged : Merged messages items result) : Distinct result := by
  have hnamed : ∀ x ∈ result, x.clientId.value ≠ some "" := by
    intro x hx
    rcases hmerged.only x hx with ⟨h, hh, rfl⟩ | ⟨hx, -⟩
    · rcases renew_client messages h with heq | ⟨m, hm, -, heq⟩ <;> rw [heq]
      · exact hjoins.named h hh
      · exact hdistinct.named m hm
    · exact hdistinct.named x hx
  refine ⟨hmerged.apart.imp_of_mem fun {a b} ha _ hab => ⟨fun hid => hab (meets_of_id hid), fun client hca hcb => ?_⟩, hnamed⟩
  have hne : client ≠ "" := by
    rintro rfl
    exact hnamed a ha hca
  have htruthy : ∀ {m : Message}, m.clientId.value = some client → client ∈ keys m := by
    intro m hclient
    refine mem_keys.mpr (.inr ?_)
    rw [hclient]
    exact Option.filter_some_pos (decide_eq_true hne)
  exact hab ⟨client, htruthy hca, htruthy hcb⟩

theorem Merged.renew_again (hjoins : Joins messages items) {result : List Message} (hmerged : Merged messages items result)
    (hwhole : ∀ h ∈ items, h.Whole) (hh : h ∈ items) : renew result h = renew messages h := by
  have hcounterpart : counterpart result h = some (renew messages h) :=
    counterpart_eq (hmerged.renewed h hh) (meets_of_id renew_id.symm) fun x hx => hmerged.meets hjoins hh hx
  rw [renew, hcounterpart]
  show refresh (renew messages h) h = renew messages h
  unfold renew
  cases counterpart messages h with
  | some m => exact refresh_again (hwhole h hh)
  | none => exact refresh_self (hwhole h hh)

theorem Merged.replaced_again (hjoins : Joins messages items) {result : List Message} (hmerged : Merged messages items result)
    (hwhole : ∀ h ∈ items, h.Whole) (hx : x ∈ result) : replaced result items x = x := by
  have hmap : items.map (renew result) = items.map (renew messages) :=
    List.map_congr_left fun h hh => hmerged.renew_again hjoins hwhole hh
  unfold replaced
  rw [hmap]
  cases hcounterpart : counterpart (items.map (renew messages)) x with
  | none => rfl
  | some found =>
    obtain ⟨hfound, hmeets⟩ := counterpart_some hcounterpart
    obtain ⟨h, hh, rfl⟩ := List.mem_map.mp hfound
    exact (eq_of_meets hmerged.apart hx (hmerged.renewed h hh) hmeets).symm

/-- The order of the identities. -/
structure Ordered (before : String → String → Bool) : Prop where
  total : ∀ a b, before a b = true ∨ before b a = true
  trans : ∀ a b c, before a b = true → before b c = true → before a c = true

theorem Ordered.total_before (hordered : Ordered before) : Std.Total (Message.Before before) := ⟨fun a b => by
  unfold Message.Before
  cases truthy a.turn.value with
  | none => cases truthy b.turn.value <;> simp
  | some t =>
    cases truthy b.turn.value with
    | none => simp
    | some u => simpa using hordered.total t u⟩

theorem Ordered.trans_before (hordered : Ordered before) : IsTrans Message (Message.Before before) := ⟨fun a b c hab hbc => by
  unfold Message.Before at *
  cases ha : truthy a.turn.value <;> cases hb : truthy b.turn.value <;> cases hc : truthy c.turn.value <;>
    simp only [ha, hb, hc] at hab hbc ⊢
  exact hordered.trans _ _ _ hab hbc⟩

theorem Ordered.pairwise_insertionSort (hordered : Ordered before) (messages : List Message) :
    (messages.insertionSort (Message.Before before)).Pairwise (Message.Before before) := by
  have htotal := hordered.total_before
  have htrans := hordered.trans_before
  exact List.pairwise_insertionSort _ _

/-- A page that is merged once more. -/
theorem mergeMessages_again (hordered : Ordered before) (hjoins : Joins messages (historyMessages before page)) :
    mergeMessages before (mergeMessages before messages page older) page older' =
      mergeMessages before messages page older := by
  have hmerged : Merged messages (historyMessages before page) (mergeMessages before messages page older) :=
    mergeMessages_merged hjoins
  have hsorted : (mergeMessages before messages page older).Pairwise (Message.Before before) :=
    hordered.pairwise_insertionSort _
  generalize mergeMessages before messages page older = result at hmerged hsorted
  have hwhole : ∀ h ∈ historyMessages before page, h.Whole := fun h hh => historyMessages_whole hh
  have hsame : result.map (replaced result (historyMessages before page)) = result := by
    conv_rhs => rw [← List.map_id result]
    exact List.map_congr_left fun x hx => hmerged.replaced_again hjoins hwhole hx
  rw [mergeMessages_eq, hsame, insertMissing_all, hsorted.insertionSort_eq]
  intro x hx
  obtain ⟨h, hh, rfl⟩ := List.mem_map.mp hx
  exact List.any_eq_true.mpr ⟨_, hmerged.renewed h hh, decide_eq_true (renew_id.trans renew_id.symm)⟩

end RemoteCodex.Chat
