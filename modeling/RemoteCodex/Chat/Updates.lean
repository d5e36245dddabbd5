import RemoteCodex.Chat.Merging
import RemoteCodex.Chat.Reverts

/-!
# The messages of a chat

Events, submissions with their receipts and failures, and pages of the history,
one after another. The messages stay distinct as long as no update is known by
two of the stored messages.
-/

namespace RemoteCodex.Chat

open Interact Protocol

inductive Update where
  | event (event : SessionEvent)
  | submit (clientId : String) (text : Text) (sentAt : Int) (turn : Option String)
  | receipt (clientId : String) (turnId : Option String) (sentAt : Option Int)
  | failed (clientId : String)
  | page (page : HistoryPage) (older : Bool)
  | replace (page : HistoryPage) (removed : List String)

variable (before : String → String → Bool)

def update (chat : ChatState) : Update → Option ChatState
  | .event event => some (chat.reduceEvent event)
  | .submit clientId text sentAt turn => some (chat.submit clientId text sentAt turn)
  | .receipt clientId turnId sentAt => some (chat.receipt clientId turnId sentAt)
  | .failed clientId => some (chat.failed clientId)
  | .page page older => some (mergeHistory before chat page older)
  | .replace page removed => some (replaceHistory before chat page removed)

def FitsUpdate (chat : ChatState) : Update → Prop
  | .event event => chat.discards event.turnId = true ∨ FitsEvent chat.messages event
  | .submit clientId .. => FitsSubmission chat.messages clientId
  | .page page _ => Joins chat.messages (historyMessages before page)
  | .replace page _ => Joins [] (historyMessages before page)
  | .receipt .. | .failed .. => True

variable {before} {chat chat' : ChatState}

theorem distinct_update (hdistinct : Distinct chat.messages) {u : Update} (hfits : FitsUpdate before chat u)
    (hupdate : update before chat u = some chat') : Distinct chat'.messages := by
  cases u with
  | event event =>
    obtain rfl := Option.some.inj hupdate
    rcases hfits with hdiscarded | hfits
    · rwa [ChatState.reduceEvent, if_pos hdiscarded]
    · exact hdistinct.reduceEvent hfits
  | submit clientId text sentAt turn =>
    obtain rfl := Option.some.inj hupdate
    exact hdistinct.submit hfits text sentAt turn
  | receipt clientId turnId sentAt =>
    obtain rfl := Option.some.inj hupdate
    exact hdistinct.receipt clientId turnId sentAt
  | failed clientId =>
    obtain rfl := Option.some.inj hupdate
    exact hdistinct.failed clientId
  | page page older =>
    obtain rfl := Option.some.inj hupdate
    exact (mergeMessages_merged hfits).distinct hdistinct hfits
  | replace page removed =>
    obtain rfl := Option.some.inj hupdate
    exact (mergeMessages_merged hfits).distinct distinct_nil hfits

theorem run_messages {us : List Update} (hrun : Run (update before) (FitsUpdate before) initialChat us chat) :
    Distinct chat.messages :=
  hrun.invariant (I := fun chat => Distinct chat.messages) distinct_nil fun _ _ _ h hfits hupdate =>
    distinct_update h hfits hupdate

def SessionEvent.clientId : SessionEvent → Option String
  | .userMessage _ clientId _ _ => clientId
  | _ => none

theorem fitsEvent_of_differ {event : SessionEvent} (hnamed : event.clientId ≠ some "")
    (h : (chat.applyEvent event).messages.Pairwise Differ) : FitsEvent chat.messages event := by
  cases event with
  | userMessage itemId clientId turnId text =>
    exact ⟨hnamed, fun m hm m' hm' hmatches hmatches' => matches_of_upsert h hm hm' hmatches hmatches'⟩
  | _ => trivial

theorem fitsSubmission_of_differ {clientId : String} {text : Text} {sentAt : Int} {turn : Option String}
    (hnamed : clientId ≠ "") (h : (chat.submit clientId text sentAt turn).messages.Pairwise Differ) :
    FitsSubmission chat.messages clientId := by
  refine ⟨hnamed, fun m hm => ?_⟩
  obtain ⟨hid, hclient⟩ := (List.pairwise_append.mp h).2.2 m hm _ (List.mem_singleton_self _)
  exact ⟨hid, fun hm' => hclient clientId hm' rfl⟩

/-- The messages stay distinct, a page merged twice is a page merged once, and
events and submissions that do not fit are those that leave two messages known
by the same. -/
theorem messages_distinct (hordered : Ordered before) {us : List Update}
    (hrun : Run (update before) (FitsUpdate before) initialChat us chat) :
    chat.messages.Pairwise Differ ∧
      (∀ page older older', Joins chat.messages (historyMessages before page) →
        (mergeHistory before (mergeHistory before chat page older) page older').messages =
          (mergeHistory before chat page older).messages) ∧
      (∀ event, event.clientId ≠ some "" →
        ((chat.reduceEvent event).messages.Pairwise Differ ↔ FitsUpdate before chat (.event event))) ∧
      ∀ clientId text sentAt turn, clientId ≠ "" →
        ((chat.submit clientId text sentAt turn).messages.Pairwise Differ ↔
          FitsUpdate before chat (.submit clientId text sentAt turn)) := by
  have hdistinct := run_messages hrun
  refine ⟨hdistinct.differ, fun page older older' hjoins => mergeMessages_again hordered hjoins,
    fun event hnamed => ⟨fun h => ?_, fun hfits => (distinct_update hdistinct hfits rfl).differ⟩,
    fun clientId text sentAt turn hnamed =>
      ⟨fitsSubmission_of_differ hnamed, fun hfits => (hdistinct.submit hfits text sentAt turn).differ⟩⟩
  by_cases hdiscarded : chat.discards event.turnId = true
  · exact .inl hdiscarded
  · rw [ChatState.reduceEvent, if_neg hdiscarded] at h
    exact .inr (fitsEvent_of_differ hnamed h)

theorem ordered_byName : Ordered byName where
  total a b := by simpa [byName] using String.le_total a b
  trans a b c hab hbc := by
    unfold byName at *
    exact decide_eq_true (String.le_trans (of_decide_eq_true hab) (of_decide_eq_true hbc))

instance (messages : List Message) (event : SessionEvent) : Decidable (FitsEvent messages event) := by
  unfold FitsEvent
  split <;> infer_instance

instance (messages : List Message) (clientId : String) : Decidable (FitsSubmission messages clientId) :=
  inferInstanceAs (Decidable (_ ∧ _))

instance (chat : ChatState) (u : Update) : Decidable (FitsUpdate before chat u) := by
  unfold FitsUpdate
  split <;> infer_instance

def answerPage (clientId : Option String) : HistoryPage where
  turns := [⟨"t", "completed", .empty, false,
    [⟨"n", "userMessage", [104, 105], none, clientId, none, none, none, none⟩,
     ⟨"r", "agentMessage", [104, 111], none, none, none, none, none, none⟩]⟩]
  nextCursor := none

/-- A message that is sent, shown by its session, and read again in a page. -/
def answered : List Update :=
  [.submit "x" [104, 105] 1 none, .event (.userMessage "n" (some "x") "t" [104, 105]), .receipt "x" (some "t") (some 2),
   .event (.message "r" "t" none [104, 111] true none none), .page (answerPage (some "x")) false]

theorem messages_distinct_answered : ∃ chat, Run (update byName) (FitsUpdate byName) initialChat answered.reverse chat ∧
    chat.messages.map Message.id = ["n", "r"] ∧ chat.messages.Pairwise Differ := by
  obtain ⟨chat, hplay, hids⟩ : ∃ chat, play (update byName) (FitsUpdate byName) initialChat answered = some chat ∧
      chat.messages.map Message.id = ["n", "r"] := by
    decide
  have hrun := run_of_play_list hplay
  exact ⟨chat, hrun, hids, (messages_distinct ordered_byName hrun).1⟩

/-- The page is read without the client identity before the session shows the message. -/
def readFirst : List Update :=
  [.submit "x" [104, 105] 1 none, .page (answerPage none) false, .event (.userMessage "n" (some "x") "t" [104, 105])]

theorem message_shown_twice : ∃ chat, Run (update byName) Free initialChat readFirst.reverse chat ∧
    chat.messages.map Message.id = ["n", "r", "n"] ∧ ¬ chat.messages.Pairwise Differ := by
  obtain ⟨chat, hplay, hids⟩ : ∃ chat, play (update byName) Free initialChat readFirst = some chat ∧
      chat.messages.map Message.id = ["n", "r", "n"] := by
    decide
  refine ⟨chat, run_of_play_list hplay, hids, fun hdiffer => ?_⟩
  have hnodup : (chat.messages.map Message.id).Nodup := List.pairwise_map.mpr (hdiffer.imp And.left)
  rw [hids] at hnodup
  exact absurd hnodup (by decide)

end RemoteCodex.Chat
