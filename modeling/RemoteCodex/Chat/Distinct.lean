import RemoteCodex.Chat.State

/-!
# Distinct messages

A message is known by its identity and, where it was sent from here, by its
client identity. What an event, a submission, a receipt and a failure do to
messages of which no two are known by the same.
-/

namespace RemoteCodex.Chat

open Interact Protocol

/-- Neither the same identity nor the same defined client identity. -/
def Differ (a b : Message) : Prop :=
  a.id ≠ b.id ∧ ∀ client, a.clientId.value = some client → b.clientId.value ≠ some client

theorem Differ.symm {a b : Message} (h : Differ a b) : Differ b a :=
  ⟨h.1.symm, fun client hb ha => h.2 client ha hb⟩

instance : Std.Symm Differ := ⟨fun _ _ => Differ.symm⟩

structure Distinct (messages : List Message) : Prop where
  differ : messages.Pairwise Differ
  named : ∀ m ∈ messages, m.clientId.value ≠ some ""

namespace ChatState

/-- What is shown of a message before its session has it. -/
def submit (chat : ChatState) (clientId : String) (text : Text) (sentAt : Int) (turn : Option String) : ChatState :=
  { chat with
    messages := chat.messages ++
      [{ id := clientId
         clientId := some (some clientId)
         role := .user
         text
         sentAt := some (some sentAt)
         turn := some turn }] }

def receipt (chat : ChatState) (clientId : String) (turnId : Option String) (sentAt : Option Int) : ChatState :=
  { chat with
    messages := chat.messages.map fun item =>
      if item.clientId.value = some clientId then
        { item with
          turn := some (turnId.or item.turn.value)
          sentAt := some (sentAt.or item.sentAt.value) }
      else item }

def failed (chat : ChatState) (clientId : String) : ChatState :=
  { chat with messages := chat.messages.filter fun item => item.id ≠ clientId }

end ChatState

variable {messages : List Message} {m m' message : Message}

theorem distinct_nil : Distinct [] := ⟨.nil, by simp⟩

theorem Distinct.eq_of_not_differ (h : Distinct messages) (hm : m ∈ messages) (hm' : m' ∈ messages) (hsame : ¬ Differ m m') :
    m = m' := by
  by_contra hne
  exact hsame (h.differ.forall hm hm' hne)

theorem Distinct.eq_of_id (h : Distinct messages) (hm : m ∈ messages) (hm' : m' ∈ messages) (hid : m.id = m'.id) : m = m' :=
  h.eq_of_not_differ hm hm' fun hdiffer => hdiffer.1 hid

theorem Distinct.eq_of_client {client : String} (h : Distinct messages) (hm : m ∈ messages) (hm' : m' ∈ messages)
    (hc : m.clientId.value = some client) (hc' : m'.clientId.value = some client) : m = m' :=
  h.eq_of_not_differ hm hm' fun hdiffer => hdiffer.2 client hc hc'

theorem Distinct.map {f : Message → Message} (h : Distinct messages) (hid : ∀ m, (f m).id = m.id)
    (hclient : ∀ m, (f m).clientId = m.clientId) : Distinct (messages.map f) where
  differ := by
    refine List.pairwise_map.mpr (h.differ.imp fun {a b} hab => ⟨?_, fun client ha => ?_⟩)
    · rw [hid, hid]
      exact hab.1
    · rw [hclient] at ha ⊢
      exact hab.2 client ha
  named := by
    intro m hm
    obtain ⟨m, hmem, rfl⟩ := List.mem_map.mp hm
    rw [hclient]
    exact h.named m hmem

theorem Distinct.filter (h : Distinct messages) (p : Message → Bool) : Distinct (messages.filter p) :=
  ⟨h.differ.filter p, fun m hm => h.named m (List.mem_filter.mp hm).1⟩

theorem Distinct.append (h : Distinct messages) (hdiffer : ∀ m ∈ messages, Differ m message)
    (hnamed : message.clientId.value ≠ some "") : Distinct (messages ++ [message]) where
  differ := by
    refine List.pairwise_append.mpr ⟨h.differ, List.pairwise_singleton _ _, fun m hm m' hm' => ?_⟩
    obtain rfl := List.mem_singleton.mp hm'
    exact hdiffer m hm
  named := by
    intro m hm
    rcases List.mem_append.mp hm with hm | hm
    · exact h.named m hm
    · obtain rfl := List.mem_singleton.mp hm
      exact hnamed

theorem differ_of_not_matches (hnamed : message.clientId.value ≠ some "") (h : ¬ message.Matches m) : Differ message m := by
  refine ⟨fun hid => h (.inl hid.symm), fun client hclient hm => h (.inr ⟨client, ?_, hm⟩)⟩
  rw [truthy, hclient]
  refine Option.filter_some_pos (decide_eq_true ?_)
  rintro rfl
  exact hnamed hclient

/-- A message that is stored where at most one is known by the same. -/
theorem Distinct.upsert (h : Distinct messages) (hnamed : message.clientId.value ≠ some "")
    (hone : ∀ m ∈ messages, ∀ m' ∈ messages, message.Matches m → message.Matches m' → m = m') :
    Distinct (upsert messages message) := by
  unfold Chat.upsert
  split
  · refine ⟨List.pairwise_map.mpr (h.differ.imp_of_mem fun {a b} ha hb hab => ?_), fun m hm => ?_⟩
    · have hspread : ∀ {m m' : Message}, message.Matches m → ¬ message.Matches m' → Differ m m' →
          Differ (m.spread message) m' := by
        intro m m' _ hm' hdiffer
        have hother := differ_of_not_matches hnamed hm'
        refine ⟨hother.1, fun client hclient => ?_⟩
        cases hfield : message.clientId with
        | none =>
          simp only [Message.spread, hfield, Option.none_or] at hclient
          exact hdiffer.2 client hclient
        | some value =>
          simp only [Message.spread, hfield, Option.some_or] at hclient
          exact hother.2 client (by rwa [hfield])
      split
      · next hma =>
        split
        · next hmb =>
          obtain rfl := hone a ha b hb hma hmb
          exact absurd rfl hab.1
        · next hmb => exact hspread hma hmb hab
      · next hma =>
        split
        · next hmb => exact (hspread hmb hma hab.symm).symm
        · exact hab
    · obtain ⟨m, hmem, rfl⟩ := List.mem_map.mp hm
      split
      · cases hfield : message.clientId with
        | none =>
          simp only [Message.spread, hfield, Option.none_or]
          exact h.named m hmem
        | some value =>
          simp only [Message.spread, hfield, Option.some_or]
          rwa [hfield] at hnamed
      · exact h.named m hmem
  · next hnone =>
    refine h.append (fun m hm => (differ_of_not_matches hnamed fun hmatches => hnone ?_).symm) hnamed
    exact List.any_eq_true.mpr ⟨m, hm, decide_eq_true hmatches⟩

/-- Two stored messages that a message is known by become one and the same. -/
theorem matches_of_upsert (h : (upsert messages message).Pairwise Differ) (hm : m ∈ messages) (hm' : m' ∈ messages)
    (hmatches : message.Matches m) (hmatches' : message.Matches m') : m.id = m'.id := by
  by_contra hne
  rw [Chat.upsert, if_pos (List.any_eq_true.mpr ⟨m, hm, decide_eq_true hmatches⟩), List.pairwise_map] at h
  have : Std.Symm fun a b => Differ (if message.Matches a then a.spread message else a)
      (if message.Matches b then b.spread message else b) := ⟨fun _ _ => Differ.symm⟩
  have hdiffer := h.forall hm hm' fun heq => hne (congrArg Message.id heq)
  rw [if_pos hmatches, if_pos hmatches'] at hdiffer
  exact hdiffer.1 rfl

/-- What is stored under its own identity, with the client identity it had. -/
theorem Distinct.upsert_found (h : Distinct messages)
    (hclient : message.clientId.value = none ∨ ∃ p ∈ messages, p.id = message.id ∧ message.clientId.value = p.clientId.value) :
    Distinct (Chat.upsert messages message) := by
  rcases hclient with hnone | ⟨p, hp, hid, hclient⟩
  · refine h.upsert (by rw [hnone]; simp) fun m hm m' hm' hmatches hmatches' => ?_
    have hsame : ∀ {m : Message}, message.Matches m → m.id = message.id := by
      rintro m (hid | ⟨client, hc, -⟩)
      · exact hid
      · rw [hnone] at hc
        cases hc
    exact h.eq_of_id hm hm' ((hsame hmatches).trans (hsame hmatches').symm)
  · refine h.upsert (by rw [hclient]; exact h.named p hp) fun m hm m' hm' hmatches hmatches' => ?_
    have hsame : ∀ {m : Message}, m ∈ messages → message.Matches m → m = p := by
      rintro m hm (hid' | ⟨client, hc, hmc⟩)
      · exact h.eq_of_id hm hp (hid'.trans hid.symm)
      · rw [hclient] at hc
        exact h.eq_of_client hm hp hmc (Option.eq_some_of_filter_eq_some hc)
    exact (hsame hm hmatches).trans (hsame hm' hmatches').symm

/-- A message of the user is known by at most one of the stored messages. -/
def FitsEvent (messages : List Message) : SessionEvent → Prop
  | .userMessage itemId clientId _ text =>
    clientId ≠ some "" ∧ ∀ m ∈ messages, ∀ m' ∈ messages,
      Message.Matches { id := itemId, clientId := some clientId, role := .user, text } m →
      Message.Matches { id := itemId, clientId := some clientId, role := .user, text } m' → m.id = m'.id
  | _ => True

variable {chat : ChatState}

theorem found_client {itemId : String} {found : Option Message} {base : Message}
    (hfound : chat.messages.find? (fun m => m.id = itemId) = found) (hnone : base.clientId = none) :
    (found.getD base).clientId.value = none ∨
      ∃ p ∈ chat.messages, p.id = itemId ∧ (found.getD base).clientId.value = p.clientId.value := by
  cases found with
  | none =>
    left
    rw [Option.getD_none, hnone]
    rfl
  | some p =>
    right
    exact ⟨p, List.mem_of_find?_eq_some hfound, by simpa using List.find?_some hfound, rfl⟩

theorem Distinct.applyEvent (h : Distinct chat.messages) {event : SessionEvent} (hfits : FitsEvent chat.messages event) :
    Distinct (chat.applyEvent event).messages := by
  cases event with
  | userMessage itemId clientId turnId text =>
    refine h.upsert ?_ fun m hm m' hm' hmatches hmatches' => h.eq_of_id hm hm' (hfits.2 m hm m' hm' hmatches hmatches')
    exact hfits.1
  | planMessage => exact h.upsert_found (found_client rfl rfl)
  | message => exact h.upsert_found (found_client rfl rfl)
  | toolOutput => exact h.upsert_found (found_client rfl rfl)
  | toolChanged => exact h.upsert_found (.inl rfl)
  | _ => exact h

theorem Distinct.reduceEvent (h : Distinct chat.messages) {event : SessionEvent} (hfits : FitsEvent chat.messages event) :
    Distinct (chat.reduceEvent event).messages := by
  unfold ChatState.reduceEvent
  split
  · exact h
  · exact h.applyEvent hfits

/-- No stored message is known by `clientId`. -/
def FitsSubmission (messages : List Message) (clientId : String) : Prop :=
  clientId ≠ "" ∧ ∀ m ∈ messages, m.id ≠ clientId ∧ m.clientId.value ≠ some clientId

theorem Distinct.submit (h : Distinct chat.messages) {clientId : String} (hfits : FitsSubmission chat.messages clientId)
    (text : Text) (sentAt : Int) (turn : Option String) : Distinct (chat.submit clientId text sentAt turn).messages := by
  refine h.append (fun m hm => ⟨(hfits.2 m hm).1, ?_⟩) fun heq => hfits.1 (Option.some.inj heq)
  rintro client hclient heq
  obtain rfl := Option.some.inj heq
  exact (hfits.2 m hm).2 hclient

theorem Distinct.receipt (h : Distinct chat.messages) (clientId : String) (turnId : Option String) (sentAt : Option Int) :
    Distinct (chat.receipt clientId turnId sentAt).messages := by
  refine h.map (fun m => ?_) fun m => ?_
  · split <;> rfl
  · split <;> rfl

theorem Distinct.failed (h : Distinct chat.messages) (clientId : String) : Distinct (chat.failed clientId).messages :=
  h.filter _

end RemoteCodex.Chat
