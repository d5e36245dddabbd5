import RemoteCodex.Chat.Arriving
import RemoteCodex.Chat.Updates

/-!
# Pages one after the other
-/

namespace RemoteCodex.Chat

open Interact Protocol
open scoped List

variable {before : String → String → Bool} {history : List NativeTurn} {page : HistoryPage} {older : Bool}
variable {messages items items' more result result' last : List Message} {chat : ChatState} {pages pages' : List (HistoryPage × Bool)}

def receive (before : String → String → Bool) (chat : ChatState) (pages : List (HistoryPage × Bool)) : ChatState :=
  pages.foldl (fun chat p => mergeHistory before chat p.1 p.2) chat

/-- Each page fits what is loaded when it arrives, and settles the messages that wait. -/
def Receives (before : String → String → Bool) (history : List NativeTurn) : ChatState → List (HistoryPage × Bool) → Prop
  | _, [] => True
  | chat, (page, older) :: pages =>
    Arrives history chat.messages page older ∧ Settled history chat.messages (historyMessages before page) ∧
      Receives before history (mergeHistory before chat page older) pages

def shownBy (before : String → String → Bool) (pages : List (HistoryPage × Bool)) : List Message :=
  pages.flatMap fun p => historyMessages before p.1

theorem not_waits_of_seated {m : Message} (hm : m.seat ∈ seats history) : ¬ Waits items m := by
  rintro ⟨hpending, -⟩
  obtain ⟨t, -, hturn⟩ := seat_some hm
  rw [hpending] at hturn
  cases hturn

theorem InOrder.mem_seats (hinorder : InOrder history messages items result) {s : Seat} (hs : s ∈ seats history) :
    s ∈ result.map Message.seat ↔ s ∈ messages.map Message.seat ∨ s ∈ items.map Message.seat := by
  rw [hinorder.map_seat, List.mem_append, List.mem_filter, decide_eq_true_eq]
  refine ⟨fun h => ?_, fun h => .inl ⟨hs, h⟩⟩
  rcases h with ⟨-, h⟩ | h
  · exact h
  · obtain ⟨m, hm, rfl⟩ := List.mem_map.mp h
    exact absurd (of_decide_eq_true (List.mem_filter.mp hm).2) (not_waits_of_seated hs)

theorem InOrder.trans (hinorder : InOrder history messages items result) (hlater : InOrder history result more last) :
    InOrder history messages (items ++ more) last := by
  have hseats := fun s (hs : s ∈ seats history) => hinorder.mem_seats hs
  obtain ⟨front, rfl, hfront⟩ := hinorder
  obtain ⟨next, rfl, hnext⟩ := hlater
  have hnone : front.filter (fun m => Waits more m) = [] := by
    refine List.filter_eq_nil_iff.mpr fun m hm hwaits => ?_
    have hmem := hfront ▸ List.mem_map_of_mem (f := Message.seat) hm
    exact not_waits_of_seated (List.mem_filter.mp hmem).1 (of_decide_eq_true hwaits)
  refine ⟨next, ?_, ?_⟩
  · rw [List.filter_append, hnone, List.nil_append, List.filter_filter]
    refine congrArg (next ++ ·) (List.filter_congr fun m _ => Bool.eq_iff_iff.mpr ?_)
    rw [Bool.and_eq_true, decide_eq_true_iff, decide_eq_true_iff, decide_eq_true_iff]
    simp only [Waits, List.mem_append]
    constructor
    · rintro ⟨⟨hp, hmore⟩, -, hitems⟩
      exact ⟨hp, fun h hh => hh.elim (hitems h) (hmore h)⟩
    · rintro ⟨hp, hall⟩
      exact ⟨⟨hp, fun h hh => hall h (.inr hh)⟩, hp, fun h hh => hall h (.inl hh)⟩
  · rw [hnext]
    refine List.filter_congr fun s hs => Bool.eq_iff_iff.mpr ?_
    rw [decide_eq_true_eq, decide_eq_true_eq, hseats s hs, List.map_append, List.mem_append, or_assoc]

theorem InOrder.map_seat_eq (hinorder : InOrder history messages items result)
    (hinorder' : InOrder history messages items' result') (hsame : ∀ x, x ∈ items ↔ x ∈ items') :
    result.map Message.seat = result'.map Message.seat := by
  rw [hinorder.map_seat, hinorder'.map_seat]
  congr 1
  · refine List.filter_congr fun s _ => Bool.eq_iff_iff.mpr ?_
    simp only [decide_eq_true_eq, List.mem_map, hsame]
  · refine congrArg _ (List.filter_congr fun m _ => Bool.eq_iff_iff.mpr ?_)
    rw [decide_eq_true_iff, decide_eq_true_iff]
    simp only [Waits, hsame]

/-- What a chat shows after some pages. -/
theorem receive_inOrder (hordered : Ordered before) (hnative : Native before history) (hloaded : Loaded history chat.messages)
    (hreceives : Receives before history chat pages) (hpages : pages ≠ []) :
    InOrder history chat.messages (shownBy before pages) (receive before chat pages).messages := by
  induction pages generalizing chat with
  | nil => exact absurd rfl hpages
  | cons p pages ih =>
    obtain ⟨page, older⟩ := p
    obtain ⟨harrives, hsettled, hrest⟩ := hreceives
    have hinorder : InOrder history chat.messages (historyMessages before page) (mergeHistory before chat page older).messages :=
      hsettled.inOrder hordered hnative hloaded harrives
    have hnext : Loaded history (mergeHistory before chat page older).messages :=
      hsettled.loaded hordered hnative hloaded harrives
    cases pages with
    | nil =>
      have hitems : shownBy before [(page, older)] = historyMessages before page := List.append_nil _
      rw [hitems]
      exact hinorder
    | cons q pages => exact hinorder.trans (ih hnext hrest (List.cons_ne_nil q pages))

/-- A page that fits leaves a chat in native order exactly if it settles the messages that wait, and where every page
does, the order in which they arrive does not matter. -/
theorem mergeHistory_inOrder (hordered : Ordered before) (hnative : Native before history)
    (hloaded : Loaded history chat.messages) :
    (∀ page older, Arrives history chat.messages page older →
      (InOrder history chat.messages (historyMessages before page) (mergeHistory before chat page older).messages ↔
        Settled history chat.messages (historyMessages before page))) ∧
    ∀ pages pages', Receives before history chat pages → Receives before history chat pages' →
      (pages.map Prod.fst).Perm (pages'.map Prod.fst) →
        (receive before chat pages).messages.map Message.seat = (receive before chat pages').messages.map Message.seat := by
  refine ⟨fun page older harrives => ⟨fun hinorder => hinorder.settled hordered hnative hloaded harrives,
    fun hsettled => hsettled.inOrder hordered hnative hloaded harrives⟩, fun pages pages' hreceives hreceives' hperm => ?_⟩
  cases pages with
  | nil =>
    obtain rfl : pages' = [] := List.map_eq_nil_iff.mp (List.nil_perm.mp hperm)
    rfl
  | cons p pages =>
    have hne : pages' ≠ [] := by
      rintro rfl
      cases List.perm_nil.mp hperm
    refine (receive_inOrder hordered hnative hloaded hreceives (List.cons_ne_nil p pages)).map_seat_eq
      (receive_inOrder hordered hnative hloaded hreceives' hne) fun x => ?_
    have hshown : ∀ ps : List (HistoryPage × Bool), shownBy before ps = (ps.map Prod.fst).flatMap (historyMessages before) :=
      fun ps => (List.flatMap_map ..).symm
    rw [hshown, hshown]
    exact (hperm.flatMap_right _).mem_iff

-- A message is sent and its turn has begun to answer it; the chat has not been told that it is of this turn.

def asked : ChatState :=
  { initialChat with
    messages := [
      { id := "a", role := .user, text := [104, 105], turn := some (some "s") },
      { id := "c", clientId := some (some "c"), role := .user, text := [104, 111], turn := some none },
      { id := "r", role := .assistant, text := [111, 107], turn := some (some "t") }] }

def answeredTurns : List NativeTurn := [⟨"s", [("a", none), ("b", none)]⟩, ⟨"t", [("u", some "c"), ("r", none)]⟩]

def message (id kind : String) (clientId : Option String) (text : Text) : HistoryItem :=
  ⟨id, kind, text, none, clientId, none, none, none, none⟩

def refreshed (status : String) : HistoryPage where
  turns := [
    ⟨"t", status, .empty, false, [message "u" "userMessage" (some "c") [104, 111], message "r" "agentMessage" none [111, 107]]⟩,
    ⟨"s", "completed", .empty, true, [message "b" "agentMessage" none [104, 111]]⟩]
  nextCursor := none

theorem native_answered : Native byName answeredTurns := by decide

theorem loaded_asked : Loaded answeredTurns asked.messages where
  apart := by decide
  seated := by decide
  ordered := by decide
  straight := by decide
  single := by decide

theorem arrives_refreshed (status : String) : Arrives answeredTurns asked.messages (refreshed status) false where
  fragments := by
    have hids : (["t", "s"] : List String).Nodup := by decide
    refine ⟨hids, fun turn hturn => ?_, fun turn hturn => ?_⟩
    · rcases List.mem_pair.mp hturn with rfl | rfl
      · exact ⟨⟨"t", [("u", some "c"), ("r", none)]⟩, by decide, rfl, [], [], rfl⟩
      · exact ⟨⟨"s", [("a", none), ("b", none)]⟩, by decide, rfl, [("a", none)], [], rfl⟩
    · rcases List.mem_pair.mp hturn with rfl | rfl <;> exact fun item hitem => by
        simp only [List.mem_cons, List.not_mem_nil, or_false] at hitem
        rcases hitem with rfl | rfl <;> rfl
  fits := by
    intro turn hturn t ht hid
    rcases List.mem_pair.mp hturn with rfl | rfl <;> rcases List.mem_pair.mp ht with rfl | rfl
    · exact absurd hid (show ¬ ("s" = "t") by decide)
    · exact .inl ⟨("r", none), .tail _ (.head _), by decide⟩
    · exact .inr ⟨[("a", none)], [], rfl, by decide⟩
    · exact absurd hid (show ¬ ("t" = "s") by decide)

theorem mergeHistory_inOrder_completed :
    InOrder answeredTurns asked.messages (historyMessages byName (refreshed "completed"))
      (mergeHistory byName asked (refreshed "completed") false).messages := by
  refine ((mergeHistory_inOrder ordered_byName native_answered loaded_asked).1 (refreshed "completed") false
    (arrives_refreshed "completed")).mpr ⟨fun h hh m _ _ => .inl ?_, by decide⟩
  have hcomplete : ∀ h ∈ historyMessages byName (refreshed "completed"), h.complete.value = some true := by decide
  exact hcomplete h hh

/-- While the turn is running its answer is shown before the question. -/
theorem question_behind_answer : Native byName answeredTurns ∧ Loaded answeredTurns asked.messages ∧
    Arrives answeredTurns asked.messages (refreshed "inProgress") false ∧
    ¬ InOrder answeredTurns asked.messages (historyMessages byName (refreshed "inProgress"))
      (mergeHistory byName asked (refreshed "inProgress") false).messages := by
  refine ⟨native_answered, loaded_asked, arrives_refreshed "inProgress", fun hinorder => ?_⟩
  exact absurd hinorder.map_seat (by decide)

end RemoteCodex.Chat
