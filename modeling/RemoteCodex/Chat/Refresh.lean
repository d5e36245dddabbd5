import RemoteCodex.Chat.History

/-!
# Refreshed messages

A message of a page carries every property. What it makes of the stored message
it stands for is the same when it is taken in once more.
-/

namespace RemoteCodex.Chat

open Interact Protocol

/-- The parts of two states of a tool, those of `current` where it has them. -/
def joinTool (current other : ToolItem) (output : Text) : ToolItem :=
  { current with
    status := if current.status = "" then other.status else current.status
    output
    outputSource := current.outputSource.or (if output.isEmpty then other.outputSource else none)
    input := current.input.or other.input
    links := if current.links.all List.isEmpty then other.links else current.links
    changes := if current.changes.isEmpty then other.changes else current.changes }

variable {previous incoming : ToolItem}

theorem mergeTool_older (hended : ended previous.status = true) (hincoming : ended incoming.status = false) :
    mergeTool (some previous) incoming =
      joinTool previous incoming (if previous.output.isEmpty then incoming.output else previous.output) := by
  simp [mergeTool, joinTool, hended, hincoming]

theorem mergeTool_newer (h : ended previous.status = true → ended incoming.status = true) :
    mergeTool (some previous) incoming = joinTool incoming previous
      (if ended incoming.status then (if incoming.output.isEmpty then previous.output else incoming.output)
        else if incoming.output.length ≥ previous.output.length then incoming.output else previous.output) := by
  have holder : (ended previous.status && !ended incoming.status) = false := by
    cases hprevious : ended previous.status with
    | false => rfl
    | true => simp [h hprevious]
  simp [mergeTool, joinTool, holder]

theorem joinTool_again_current (current other : ToolItem) (output : Text) :
    joinTool current (joinTool current other output) output = joinTool current other output := by
  unfold joinTool
  congr 1 <;> grind

theorem joinTool_again_other (current other : ToolItem) (output : Text) :
    joinTool (joinTool current other output) other output = joinTool current other output := by
  unfold joinTool
  congr 1 <;> grind

theorem ended_ne {status : String} (h : ended status = true) : status ≠ "" := by
  rintro rfl
  exact absurd h (by decide)

/-- What is merged in again changes nothing. -/
theorem mergeTool_again (previous : Option ToolItem) (incoming : ToolItem) :
    mergeTool (some (mergeTool previous incoming)) incoming = mergeTool previous incoming := by
  cases previous with
  | none =>
    show mergeTool (some incoming) incoming = incoming
    rw [mergeTool_newer id]
    simp only [ge_iff_le, Nat.le_refl, ite_self]
    unfold joinTool
    congr 1 <;> grind
  | some previous =>
    by_cases h : ended previous.status = true → ended incoming.status = true
    · rw [mergeTool_newer h, mergeTool_newer]
      · generalize hout : (if ended incoming.status then _ else _ : Text) = output
        have hagain : (if ended incoming.status = true then
            (if incoming.output.isEmpty = true then (joinTool incoming previous output).output else incoming.output)
            else if incoming.output.length ≥ (joinTool incoming previous output).output.length then incoming.output
              else (joinTool incoming previous output).output) = output := by
          show (if ended incoming.status = true then (if incoming.output.isEmpty = true then output else incoming.output)
            else if incoming.output.length ≥ output.length then incoming.output else output) = output
          grind
        rw [hagain, joinTool_again_current]
      · intro hended
        unfold joinTool at hended
        dsimp only at hended
        grind
    · push Not at h
      obtain ⟨hprevious, hincoming⟩ := h
      rw [Ne, Bool.not_eq_true] at hincoming
      rw [mergeTool_older hprevious hincoming]
      generalize hout : (if previous.output.isEmpty then incoming.output else previous.output) = output
      have hended : ended (joinTool previous incoming output).status = true := by
        unfold joinTool
        dsimp only
        rwa [if_neg (ended_ne hprevious)]
      have hagain : (if (joinTool previous incoming output).output.isEmpty = true then incoming.output
          else (joinTool previous incoming output).output) = output := by
        show (if output.isEmpty = true then incoming.output else output) = output
        grind
      rw [mergeTool_older hended hincoming, hagain, joinTool_again_other]
/-- Every property is there. -/
structure Message.Whole (m : Message) : Prop where
  clientId : m.clientId.isSome = true
  delivery : m.delivery.isSome = true
  questions : m.questions.isSome = true
  turn : m.turn.isSome = true
  sentAt : m.sentAt.isSome = true
  phase : m.phase.isSome = true
  tool : m.tool.isSome = true
  plan : m.plan.isSome = true
  complete : m.complete.isSome = true
  canEdit : m.canEdit.isSome = true

theorem or_of_isSome {α : Type} {a b : Option α} (h : a.isSome = true) : a.or b = a := by
  cases a with
  | none => cases h
  | some a => rfl

variable {a b m item : Message}

theorem Message.spread_whole (h : b.Whole) : a.spread b = b := by
  unfold Message.spread
  rw [or_of_isSome h.clientId, or_of_isSome h.delivery, or_of_isSome h.questions, or_of_isSome h.turn,
    or_of_isSome h.sentAt, or_of_isSome h.phase, or_of_isSome h.tool, or_of_isSome h.plan, or_of_isSome h.complete,
    or_of_isSome h.canEdit]

theorem Message.Whole.spread (h : a.Whole) : (a.spread b).Whole := by
  constructor <;> simp [Message.spread, h.clientId, h.delivery, h.questions, h.turn, h.sentAt, h.phase, h.tool, h.plan,
    h.complete, h.canEdit]

/-- What `refresh` starts from. -/
def source (current item : Message) : Message :=
  if item.complete.value = some true || item.text.length > current.text.length then current.spread item
  else item.spread current

theorem source_whole (h : item.Whole) : (source m item).Whole := by
  unfold source
  split
  · rw [Message.spread_whole h]
    exact h
  · exact h.spread

theorem refresh_whole (h : item.Whole) : (refresh m item).Whole := by
  have hsource := source_whole (m := m) h
  refine { hsource with sentAt := rfl, tool := ?_ }
  unfold refresh
  cases item.tool.value <;> rfl

theorem refresh_id (m item : Message) : (refresh m item).id = item.id := rfl

theorem refresh_text (m item : Message) : (refresh m item).text = (source m item).text := rfl

theorem whole_field {α : Type} {f : Field α} (h : f.isSome = true) : some f.value = f := by
  cases f with
  | none => cases h
  | some v => rfl

theorem source_complete (h : item.Whole) (hcomplete : item.complete.value = some true) : source m item = item := by
  unfold source
  rw [if_pos (by simp [hcomplete]), Message.spread_whole h]

/-- What has been taken in is at least as long as the item. -/
theorem source_incomplete (h : item.Whole) (hcomplete : item.complete.value ≠ some true) :
    source (refresh m item) item = refresh m item := by
  have hlength : item.text.length ≤ (refresh m item).text.length := by
    rw [refresh_text, source]
    split
    · rw [Message.spread_whole h]
    · next hshort =>
      simp only [hcomplete, decide_false, Bool.false_or, decide_eq_true_eq, Nat.not_lt] at hshort
      exact hshort
  unfold source
  rw [if_neg (by simp [hcomplete, hlength]), Message.spread_whole (refresh_whole h)]

theorem refresh_sentAt (m item : Message) : (refresh m item).sentAt = some (m.sentAt.value.or item.sentAt.value) := rfl

theorem refresh_sentAt_again (m item : Message) : (refresh (refresh m item) item).sentAt = (refresh m item).sentAt := by
  rw [refresh_sentAt, refresh_sentAt]
  show some ((m.sentAt.value.or item.sentAt.value).or item.sentAt.value) = _
  cases m.sentAt.value with
  | none => rw [Option.none_or, Option.or_self]
  | some _ => rfl

theorem refresh_tool_some {tool : ToolItem} (h : item.tool.value = some tool) :
    (refresh m item).tool = some (some (mergeTool m.tool.value tool)) := by
  unfold refresh
  rw [h]

theorem refresh_tool_none (h : item.tool.value = none) : (refresh m item).tool = some (source m item).tool.value := by
  unfold refresh
  rw [h]
  rfl

theorem refresh_tool_again (h : item.Whole) : (refresh (refresh m item) item).tool = (refresh m item).tool := by
  cases htool : item.tool.value with
  | some tool =>
    rw [refresh_tool_some htool, refresh_tool_some htool]
    exact congrArg _ (congrArg _ (mergeTool_again _ _))
  | none =>
    rw [refresh_tool_none htool]
    by_cases hcomplete : item.complete.value = some true
    · rw [refresh_tool_none htool, source_complete h hcomplete, source_complete h hcomplete]
    · rw [source_incomplete h hcomplete, whole_field (refresh_whole h).tool]

/-- A message of a page that is taken in again. -/
theorem refresh_again (h : item.Whole) : refresh (refresh m item) item = refresh m item := by
  have hfields : ∀ current : Message, refresh current item =
      { source current item with
        id := item.id, sentAt := (refresh current item).sentAt, tool := (refresh current item).tool } := fun _ => rfl
  rw [hfields (refresh m item), refresh_sentAt_again, refresh_tool_again h]
  by_cases hcomplete : item.complete.value = some true
  · rw [hfields m, source_complete h hcomplete, source_complete h hcomplete]
  · rw [source_incomplete h hcomplete]
    rfl

/-- A message of a page that is there as it is. -/
theorem refresh_self (h : item.Whole) : refresh item item = item := by
  have hsource : source item item = item := by
    unfold source
    split <;> exact Message.spread_whole h
  have hsentAt : (refresh item item).sentAt = item.sentAt := by
    rw [refresh_sentAt, Option.or_self, whole_field h.sentAt]
  have htool : (refresh item item).tool = item.tool := by
    cases htool : item.tool.value with
    | some tool =>
      have hself : mergeTool (some tool) tool = tool := mergeTool_again none tool
      rw [refresh_tool_some htool, htool, hself, ← whole_field h.tool, htool]
    | none => rw [refresh_tool_none htool, hsource, whole_field h.tool]
  have hfields : refresh item item =
      { source item item with
        id := item.id, sentAt := (refresh item item).sentAt, tool := (refresh item item).tool } := rfl
  rw [hfields, hsource, hsentAt, htool]

theorem turnMessages_whole {turn : HistoryTurn} {firstUser : Bool} {items : List HistoryItem}
    (h : m ∈ turnMessages turn firstUser items) : m.Whole := by
  induction items generalizing firstUser with
  | nil => cases h
  | cons item items ih =>
    rcases List.mem_cons.mp h with rfl | h
    · constructor <;> rfl
    · exact ih h

theorem historyMessages_whole {before : String → String → Bool} {page : HistoryPage}
    (h : m ∈ historyMessages before page) : m.Whole := by
  obtain ⟨turn, -, hm⟩ := List.mem_flatMap.mp (List.mem_filter.mp h).1
  exact turnMessages_whole hm

end RemoteCodex.Chat
