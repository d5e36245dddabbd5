import RemoteCodex.Chat.History
import RemoteCodex.Interact.Runs

/-!
# Reverted turns

A chat follows its session's events while it reads pages of history, takes
snapshots and reverts. A revert and a reload replace the history; a page read
later is merged unless a newer read or a replacement was called in between.

The epoch moves when a revert is called, not when it is applied. A read that
was called in between is current afterwards, and nothing compares its page with
the turns that were discarded.
-/

namespace RemoteCodex.Chat

open Interact Protocol

/-- A call of the chat and, once the session has served it, its result. -/
inductive Request where
  | history (cursor : Option String) (epoch : Nat) (page : Option HistoryPage)
  | revert (turn : String) (result : Option (HistoryPage × SessionSnapshot))
  | reloadPage (page : Option HistoryPage)
  | reloadSnapshot (page : HistoryPage) (snapshot : Option SessionSnapshot)
  | snapshot (snapshot : Option SessionSnapshot)

/-- What the session answers. -/
inductive Reply where
  | page (page : HistoryPage)
  | reverted (page : HistoryPage) (snapshot : SessionSnapshot)
  | snapshot (snapshot : SessionSnapshot)

structure State where
  /-- The turns of the native history. -/
  native : List String
  /-- The turns there have been. -/
  used : List String
  chat : ChatState
  epoch : Nat
  requests : List Request

def State.fresh : State where
  native := []
  used := []
  chat := initialChat
  epoch := 0
  requests := []

inductive Event where
  /-- A turn joins the native history. -/
  | turn (id : String)
  | event (event : SessionEvent)
  | startEdit (id clientId : String)
  | cancelEdit
  | uncertain
  | load (cursor : Option String)
  | revert (turn : String)
  | reload
  | snapshot
  /-- The session serves a call. -/
  | serve (call : Nat) (reply : Reply)
  /-- The result of a call arrives; `active`: it is still wanted. -/
  | settle (call : Nat) (active : Bool)
  /-- A call fails, served or not. -/
  | fail (call : Nat) (active : Bool) (code message : String)

def HistoryPage.within (page : HistoryPage) (turns : List String) : Bool :=
  page.turns.all fun turn => turns.contains turn.id

namespace State

variable (before : String → String → Bool)

def load (s : State) (cursor : Option String) : State :=
  let existing := s.requests.any fun
    | .history cursor' epoch _ => cursor' = cursor && epoch = s.epoch
    | _ => false
  if existing then s
  else
    -- A refreshed tail supersedes an older in-flight page and its cursor.
    let epoch := if cursor = none then s.epoch + 1 else s.epoch
    { s with
      epoch
      chat := { s.chat with historyLoading := true, historyError := none }
      requests := s.requests ++ [.history cursor epoch none] }

/-- A page shows turns of the history as it is when the call is served. -/
def serve (s : State) (call : Nat) (reply : Reply) : Option State :=
  match s.requests[call]?, reply with
  | some (.history cursor epoch none), .page page =>
    if page.within s.native then some { s with requests := s.requests.set call (.history cursor epoch (some page)) }
    else none
  | some (.revert turn none), .reverted page snapshot =>
    let native := s.native.takeWhile (· ≠ turn)
    if turn ∈ s.native ∧ page.within native then
      some { s with native, requests := s.requests.set call (.revert turn (some (page, snapshot))) }
    else none
  | some (.reloadPage none), .page page =>
    if page.within s.native then some { s with requests := s.requests.set call (.reloadPage (some page)) } else none
  | some (.reloadSnapshot page none), .snapshot snapshot =>
    some { s with requests := s.requests.set call (.reloadSnapshot page (some snapshot)) }
  | some (.snapshot none), .snapshot snapshot =>
    some { s with requests := s.requests.set call (.snapshot (some snapshot)) }
  | _, _ => none

/-- The turns an edit removes, if there is one. -/
def removed (chat : ChatState) : List String := (chat.edit.map MessageEdit.removedTurns).getD []

def applyRead (chat : ChatState) (page : HistoryPage) (cursor : Option String) : ChatState :=
  { mergeHistory before chat page cursor.isSome with historyReady := cursor.isNone || chat.historyReady }

def applyRevert (chat : ChatState) (page : HistoryPage) (snapshot : SessionSnapshot) : ChatState :=
  { (replaceHistory before chat page (removed chat)).applySnapshot snapshot with
    edit := chat.edit.map fun edit => { edit with reverted := true, uncertain := false } }

/-- Whether the page of a reload no longer has a turn of the edit. -/
def pageReverted (chat : ChatState) (page : HistoryPage) : Bool :=
  !page.turns.any fun turn => (removed chat).contains turn.id

def pageSubmitted (chat : ChatState) (page : HistoryPage) : Bool :=
  page.turns.any fun turn => turn.items.any fun item =>
    item.clientId.isSome && item.clientId = chat.edit.map MessageEdit.clientId

def applyReload (chat : ChatState) (page : HistoryPage) (snapshot : SessionSnapshot) : ChatState :=
  let reverted := pageReverted chat page
  { (replaceHistory before chat page (if reverted then removed chat else [])).applySnapshot snapshot with
    edit := if pageSubmitted chat page then none
      else chat.edit.map fun edit => { edit with reverted, uncertain := false } }

def stopLoading (s : State) (epoch : Nat) : State :=
  if s.epoch = epoch then { s with chat := { s.chat with historyLoading := false } } else s

def settle (s : State) (call : Nat) (active : Bool) : Option State :=
  let requests := s.requests.eraseIdx call
  match s.requests[call]? with
  | some (.history cursor epoch (some page)) =>
    let chat := if active ∧ s.epoch = epoch then applyRead before s.chat page cursor else s.chat
    some ({ s with requests, chat }.stopLoading epoch)
  | some (.revert _ (some (page, snapshot))) =>
    some { s with requests, chat := applyRevert before s.chat page snapshot }
  | some (.reloadPage (some page)) => some { s with requests := requests ++ [.reloadSnapshot page none] }
  | some (.reloadSnapshot page (some snapshot)) =>
    some { s with requests, chat := applyReload before s.chat page snapshot }
  | some (.snapshot (some snapshot)) => some { s with requests, chat := s.chat.applySnapshot snapshot }
  | _ => none

def fail (s : State) (call : Nat) (active : Bool) (code message : String) : Option State :=
  let requests := s.requests.eraseIdx call
  match s.requests[call]? with
  | some (.history cursor epoch _) =>
    let chat :=
      if active ∧ code ≠ "OPERATION_CANCELLED" ∧ s.epoch = epoch then
        { s.chat with historyError := some (message, cursor) }
      else s.chat
    some ({ s with requests, chat }.stopLoading epoch)
  | some _ => some { s with requests }
  | none => none

def next (s : State) : Event → Option State
  | .turn id => if id ∈ s.used then none else some { s with native := s.native ++ [id], used := id :: s.used }
  | .event event => some { s with chat := s.chat.reduceEvent event }
  | .startEdit id clientId => some { s with chat := s.chat.startEdit id clientId }
  | .cancelEdit => some { s with chat := { s.chat with edit := none } }
  | .uncertain =>
    some { s with chat := { s.chat with edit := s.chat.edit.map fun edit => { edit with uncertain := true } } }
  | .load cursor => some (s.load cursor)
  | .revert turn => some { s with epoch := s.epoch + 1, requests := s.requests ++ [.revert turn none] }
  | .reload => some { s with epoch := s.epoch + 1, requests := s.requests ++ [.reloadPage none] }
  | .snapshot => some { s with requests := s.requests ++ [.snapshot none] }
  | .serve call reply => s.serve call reply
  | .settle call active => s.settle before call active
  | .fail call active code message => s.fail call active code message

end State

-- ---------------------------------------------------------------------------
-- Discarded turns
-- ---------------------------------------------------------------------------

/-- No message and no turn state of a discarded turn is there. -/
def ChatState.Rid (chat : ChatState) : Prop :=
  (∀ m ∈ chat.messages, ∀ t ∈ chat.discardedTurns, m.turn.value ≠ some t) ∧
    ∀ t ∈ chat.discardedTurns, chat.turns.lookup t = none

/-- With what keeps it so: the running turn is not discarded, and turns have a name. -/
structure Clean (chat : ChatState) : Prop where
  messages : ∀ m ∈ chat.messages, ∀ t ∈ chat.discardedTurns, m.turn.value ≠ some t
  turns : ∀ t ∈ chat.discardedTurns, chat.turns.lookup t = none
  running : ∀ t ∈ chat.discardedTurns, chat.turn ≠ some t
  names : "" ∉ chat.discardedTurns
  edit : ∀ edit, chat.edit = some edit → "" ∉ edit.removedTurns

theorem Clean.rid {chat : ChatState} (h : Clean chat) : chat.Rid := ⟨h.messages, h.turns⟩

variable {chat : ChatState} {t : String} {before : String → String → Bool}

theorem truthy_some {o : Option String} : truthy o = some t ↔ o = some t ∧ t ≠ "" := by
  cases o with
  | none => simp [truthy]
  | some u =>
    simp only [truthy, Option.filter_some, Option.some.injEq]
    split
    · next h =>
      have hne : u ≠ "" := of_decide_eq_true h
      constructor
      · rintro ⟨rfl⟩
        exact ⟨rfl, hne⟩
      · rintro ⟨rfl, -⟩
        rfl
    · next h =>
      have heq : u = "" := by simpa using h
      simp only [heq, reduceCtorEq, false_iff, not_and, not_not]
      exact fun h => h.symm

/-- An event that is not filtered is of a turn that is not discarded. -/
theorem not_discards {turnId : String} (h : chat.discards (some turnId) = false) (hn : "" ∉ chat.discardedTurns) :
    turnId ∉ chat.discardedTurns := by
  intro hmem
  by_cases hne : turnId = ""
  · exact hn (hne ▸ hmem)
  · simp only [ChatState.discards, truthy_some.mpr ⟨rfl, hne⟩, List.contains_eq_mem, decide_eq_false_iff_not] at h
    exact h hmem

/-- The turn of a message that is put into the list is the turn it names. -/
theorem mem_upsert {messages : List Message} {message m : Message} {turn : Option String}
    (hturn : message.turn = some turn) (h : m ∈ upsert messages message) : m ∈ messages ∨ m.turn.value = turn := by
  unfold upsert at h
  split at h
  · obtain ⟨old, hold, rfl⟩ := List.mem_map.mp h
    split
    · right
      simp only [Message.spread, hturn, Option.some_or]
      rfl
    · exact .inl hold
  · rcases List.mem_append.mp h with h | h
    · exact .inl h
    · obtain rfl := List.mem_singleton.mp h
      rw [hturn]
      exact .inr rfl

/-- A message goes into the list under a turn that is not discarded. -/
theorem Clean.upsert (hc : Clean chat) {message : Message} {turn : Option String} (hturn : message.turn = some turn)
    (h : ∀ t ∈ chat.discardedTurns, turn ≠ some t) :
    Clean { chat with messages := upsert chat.messages message } where
  messages m hm t ht := by
    rcases mem_upsert hturn hm with hm | hm
    · exact hc.messages m hm t ht
    · rw [hm]
      exact h t ht
  turns := hc.turns
  running := hc.running
  names := hc.names
  edit := hc.edit

theorem turnOf_kept (hc : Clean chat) {turnId : String} (hid : turnId ∉ chat.discardedTurns)
    {previous : Option Message} (hp : ∀ m, previous = some m → m ∈ chat.messages) :
    ∀ t ∈ chat.discardedTurns, chat.turnOf turnId previous ≠ some t := by
  intro t ht h
  simp only [ChatState.turnOf, Option.or_eq_some_iff, truthy_some, Option.bind_eq_some_iff] at h
  rcases h with ⟨h, -⟩ | ⟨-, ⟨⟨m, hm, hturn⟩, -⟩ | ⟨-, hturn, -⟩⟩
  · obtain rfl := Option.some.inj h
    exact hid ht
  · exact hc.messages m (hp m hm) t ht hturn
  · exact hc.running t ht hturn

/-- A turn that is not discarded gets a state. -/
theorem Clean.insertTurn (hc : Clean chat) {id : String} (hid : id ∉ chat.discardedTurns) (state : TurnState) :
    ∀ t ∈ chat.discardedTurns, (chat.turns.insert id state).lookup t = none := by
  intro t ht
  rw [Table.lookup_insert_if, if_neg]
  · exact hc.turns t ht
  · rintro rfl
    exact hid ht

theorem Clean.applyEvent (hc : Clean chat) {event : SessionEvent} (h : chat.discards event.turnId = false) :
    Clean (chat.applyEvent event) := by
  have hfound : ∀ {p : Message → Bool} m, chat.messages.find? p = some m → m ∈ chat.messages :=
    fun m hm => List.mem_of_find?_eq_some hm
  cases event with
  | userMessage itemId clientId turnId text =>
    apply hc.upsert rfl
    rintro t ht heq
    obtain rfl := Option.some.inj heq
    exact not_discards h hc.names ht
  | planChanged plan => exact ⟨hc.messages, hc.turns, hc.running, hc.names, hc.edit⟩
  | planMessage itemId turnId text complete =>
    exact hc.upsert rfl (turnOf_kept hc (not_discards h hc.names) hfound)
  | message itemId turnId phase text complete delivery questions =>
    exact hc.upsert rfl (turnOf_kept hc (not_discards h hc.names) hfound)
  | toolOutput itemId turnId text =>
    have hkept : ∀ t ∈ chat.discardedTurns, chat.turnOf turnId none ≠ some t :=
      turnOf_kept hc (not_discards h hc.names) (by simp)
    exact hc.upsert rfl hkept
  | toolChanged item turnId =>
    have hkept : ∀ t ∈ chat.discardedTurns, chat.turnOf turnId none ≠ some t :=
      turnOf_kept hc (not_discards h hc.names) (by simp)
    exact hc.upsert rfl hkept
  | approvalRequested requestId description => exact ⟨hc.messages, hc.turns, hc.running, hc.names, hc.edit⟩
  | interactionRequested requestId interaction => exact ⟨hc.messages, hc.turns, hc.running, hc.names, hc.edit⟩
  | interactionResolved requestId => exact ⟨hc.messages, hc.turns, hc.running, hc.names, hc.edit⟩
  | turnStarted id timing =>
    have hid := not_discards h hc.names
    refine ⟨hc.messages, hc.insertTurn hid _, ?_, hc.names, hc.edit⟩
    rintro t ht heq
    obtain rfl := Option.some.inj heq
    exact hid ht
  | turnCompleted id timing status =>
    refine ⟨hc.messages, hc.insertTurn (not_discards h hc.names) _, ?_, hc.names, hc.edit⟩
    intro t ht heq
    simp only [ChatState.applyEvent, ChatState.turnCompleted] at heq
    split at heq
    · cases heq
    · exact hc.running t ht heq
  | closed => exact ⟨hc.messages, hc.turns, nofun, hc.names, hc.edit⟩
  | other => exact hc

theorem applyEvent_discarded (chat : ChatState) (event : SessionEvent) :
    (chat.applyEvent event).discardedTurns = chat.discardedTurns := by
  cases event <;> rfl

theorem Clean.reduceEvent (hc : Clean chat) (event : SessionEvent) : Clean (chat.reduceEvent event) := by
  unfold ChatState.reduceEvent
  split
  · exact hc
  · next h => exact hc.applyEvent (eq_false_of_ne_true h)

theorem Clean.foldl (hc : Clean chat) (events : List SessionEvent) :
    Clean (events.foldl ChatState.reduceEvent chat) := by
  induction events generalizing chat with
  | nil => exact hc
  | cons event events ih => exact ih (hc.reduceEvent event)

theorem Clean.applySnapshot (hc : Clean chat) (snapshot : SessionSnapshot) : Clean (chat.applySnapshot snapshot) := by
  apply Clean.foldl
  refine ⟨hc.messages, ?_, ?_, hc.names, hc.edit⟩
  · split
    · next turn hturn =>
      obtain ⟨-, hkept⟩ := Option.filter_eq_some_iff.mp hturn
      exact hc.insertTurn (by simpa using hkept) turn
    · exact hc.turns
  · intro t ht heq
    obtain ⟨-, hkept⟩ := Option.filter_eq_some_iff.mp heq
    simp [ht] at hkept

theorem Clean.withEdit (hc : Clean chat) {edit : Option MessageEdit}
    (h : ∀ e, edit = some e → "" ∉ e.removedTurns) : Clean { chat with edit } :=
  ⟨hc.messages, hc.turns, hc.running, hc.names, h⟩

theorem Clean.startEdit (hc : Clean chat) (id clientId : String) : Clean (chat.startEdit id clientId) := by
  unfold ChatState.startEdit
  split
  · exact hc
  · split
    · exact hc
    · apply hc.withEdit
      rintro e he hmem
      obtain rfl := Option.some.inj he
      have hmem := List.mem_eraseDups.mp (List.dropWhile_sublist _ |>.subset hmem)
      obtain ⟨m, -, hm⟩ := List.mem_filterMap.mp hmem
      exact (truthy_some.mp hm).2 rfl

-- ---------------------------------------------------------------------------
-- Pages
-- ---------------------------------------------------------------------------

theorem turnMessages_turn {turn : HistoryTurn} {firstUser : Bool} {items : List HistoryItem} {m : Message}
    (h : m ∈ turnMessages turn firstUser items) : m.turn.value = some turn.id := by
  induction items generalizing firstUser with
  | nil => cases h
  | cons item items ih =>
    rcases List.mem_cons.mp h with rfl | h
    · rfl
    · exact ih h

theorem historyMessages_turn {page : HistoryPage} {m : Message} (h : m ∈ historyMessages before page) :
    ∃ turn ∈ page.turns, m.turn.value = some turn.id := by
  obtain ⟨turn, hturn, hm⟩ := List.mem_flatMap.mp (List.mem_filter.mp h).1
  exact ⟨turn, (List.perm_insertionSort _ _).mem_iff.mp hturn, turnMessages_turn hm⟩

theorem mem_of_counterpart {messages : List Message} {m found : Message} (h : counterpart messages m = some found) :
    found ∈ messages := by
  have hnamed : ∀ {key}, named messages key = some found → found ∈ messages :=
    fun h => List.mem_reverse.mp (List.mem_of_find?_eq_some h)
  rcases Option.or_eq_some_iff.mp h with h | ⟨-, h⟩
  · exact hnamed h
  · obtain ⟨key, -, h⟩ := Option.bind_eq_some_iff.mp h
    exact hnamed h

/-- A refreshed message is of the turn of one of the two. -/
theorem refresh_turn (current item : Message) :
    (refresh current item).turn.value = current.turn.value ∨ (refresh current item).turn.value = item.turn.value := by
  have hor : ∀ a b : Field String, Field.value (Option.or a b) = a.value ∨ Field.value (Option.or a b) = b.value := by
    intro a b
    cases a with
    | none => exact .inr rfl
    | some a => exact .inl rfl
  simp only [refresh]
  split
  · exact (hor item.turn current.turn).symm
  · exact hor current.turn item.turn

theorem mem_insertMissing {older : Bool} {messages history : List Message} {previous : Option Message} {m : Message}
    (h : m ∈ insertMissing older messages previous history) : m ∈ messages ∨ m ∈ history := by
  induction history generalizing messages previous with
  | nil => exact .inl h
  | cons item rest ih =>
    simp only [insertMissing] at h
    split at h
    · rcases ih h with h | h
      · exact .inl h
      · exact .inr (List.mem_cons_of_mem _ h)
    · rcases ih h with h | h
      · rcases List.mem_append.mp h with h | h
        · exact .inl (List.mem_of_mem_take h)
        · rcases List.mem_cons.mp h with rfl | h
          · exact .inr List.mem_cons_self
          · exact .inl (List.mem_of_mem_drop h)
      · exact .inr (List.mem_cons_of_mem _ h)

/-- What holds of every message and every item of a page holds after the merge. -/
theorem mergeMessages_turn {messages : List Message} {page : HistoryPage} {older : Bool} {P : Option String → Prop}
    (hmessages : ∀ m ∈ messages, P m.turn.value) (hpage : ∀ turn ∈ page.turns, P (some turn.id)) :
    ∀ m ∈ mergeMessages before messages page older, P m.turn.value := by
  intro m hm
  unfold mergeMessages at hm
  generalize hmap : List.map _ (historyMessages before page) = history at hm
  have hhistory : ∀ m ∈ history, P m.turn.value := by
    intro m hm
    obtain ⟨item, hitem, rfl⟩ := List.mem_map.mp (hmap ▸ hm)
    obtain ⟨turn, hturn, heq⟩ := historyMessages_turn hitem
    have hP : P item.turn.value := heq ▸ hpage turn hturn
    split
    · next current hcurrent =>
      rcases refresh_turn current item with h | h
      · rw [h]
        exact hmessages current (mem_of_counterpart hcurrent)
      · rw [h]
        exact hP
    · exact hP
  rcases mem_insertMissing ((List.perm_insertionSort _ _).mem_iff.mp hm) with hm | hm
  · obtain ⟨old, hold, rfl⟩ := List.mem_map.mp hm
    cases hc : counterpart _ old with
    | none => exact hmessages old hold
    | some found => exact hhistory found (mem_of_counterpart hc)
  · exact hhistory m hm

theorem lookup_mergeTurns (known : Table String TurnState) (page : List HistoryTurn) (t : String) :
    ((∃ turn ∈ page, turn.id = t) → (mergeTurns known page).lookup t ≠ none) ∧
      ((∀ turn ∈ page, turn.id ≠ t) → (mergeTurns known page).lookup t = known.lookup t) := by
  have hfold : ∀ merged : Table String TurnState,
      (((∃ turn ∈ page, turn.id = t) ∨ merged.lookup t ≠ none) →
        (page.foldl (fun merged turn => merged.insert turn.id (turnState known turn)) merged).lookup t ≠ none) ∧
      ((∀ turn ∈ page, turn.id ≠ t) →
        (page.foldl (fun merged turn => merged.insert turn.id (turnState known turn)) merged).lookup t =
          merged.lookup t) := by
    induction page with
    | nil => simp
    | cons turn page ih =>
      intro merged
      obtain ⟨hin, hout⟩ := ih (merged.insert turn.id (turnState known turn))
      constructor
      · intro h
        apply hin
        by_cases heq : turn.id = t
        · right
          rw [Table.lookup_insert_if, if_pos heq.symm]
          simp
        · rcases h with ⟨other, hmem, hid⟩ | h
          · rcases List.mem_cons.mp hmem with rfl | hmem
            · exact absurd hid heq
            · exact .inl ⟨other, hmem, hid⟩
          · right
            rwa [Table.lookup_insert_if, if_neg (Ne.symm heq)]
      · intro h
        have hne := h turn List.mem_cons_self
        refine (hout fun other hmem => h other (List.mem_cons_of_mem _ hmem)).trans ?_
        rw [Table.lookup_insert_if, if_neg (Ne.symm hne)]
  exact ⟨fun h => (hfold known).1 (.inl h), (hfold known).2⟩

/-- A page carries no turn of the list. -/
def HistoryPage.Without (page : HistoryPage) (turns : List String) : Prop := ∀ turn ∈ page.turns, turn.id ∉ turns

instance (page : HistoryPage) (turns : List String) : Decidable (page.Without turns) :=
  inferInstanceAs (Decidable (∀ turn ∈ page.turns, turn.id ∉ turns))

theorem Clean.mergeHistory (hc : Clean chat) {page : HistoryPage} (hpage : page.Without chat.discardedTurns)
    (older : Bool) : Clean (mergeHistory before chat page older) where
  messages m hm t ht := by
    refine mergeMessages_turn (P := fun turn => turn ≠ some t) (fun m hm => hc.messages m hm t ht) ?_ m hm
    rintro turn hturn heq
    obtain rfl := Option.some.inj heq
    exact hpage turn hturn ht
  turns t ht := by
    refine ((lookup_mergeTurns chat.turns page.turns t).2 ?_).trans (hc.turns t ht)
    rintro turn hturn rfl
    exact hpage turn hturn ht
  running := hc.running
  names := hc.names
  edit := hc.edit

theorem without_eraseDups {page : HistoryPage} {turns : List String} :
    page.Without turns.eraseDups ↔ page.Without turns := by
  simp only [HistoryPage.Without, List.mem_eraseDups]

theorem Clean.replaceHistory (hc : Clean chat) {page : HistoryPage} {removed : List String}
    (hremoved : "" ∉ removed) (hpage : page.Without (chat.discardedTurns ++ removed)) :
    Clean (replaceHistory before chat page removed) := by
  unfold RemoteCodex.Chat.replaceHistory
  apply Clean.mergeHistory
  · constructor
    · intro m hm
      cases hm
    · intro t _
      exact AList.lookup_empty t
    · intro t _ h
      cases h
    · intro hmem
      rcases List.mem_append.mp (List.mem_eraseDups.mp hmem) with hmem | hmem
      · exact hc.names hmem
      · exact hremoved hmem
    · exact hc.edit
  · exact without_eraseDups.mpr hpage

theorem reduceEvent_discarded (chat : ChatState) (event : SessionEvent) :
    (chat.reduceEvent event).discardedTurns = chat.discardedTurns := by
  unfold ChatState.reduceEvent
  split
  · rfl
  · exact applyEvent_discarded chat event

/-- An event takes no turn's state away. -/
theorem reduceEvent_turns {event : SessionEvent} (h : chat.turns.lookup t ≠ none) :
    (chat.reduceEvent event).turns.lookup t ≠ none := by
  have hinsert : ∀ id state, (chat.turns.insert id state).lookup t ≠ none := by
    intro id state
    rw [Table.lookup_insert_if]
    split
    · simp
    · exact h
  unfold ChatState.reduceEvent
  split
  · exact h
  · cases event with
    | turnStarted id timing => exact hinsert id _
    | turnCompleted id timing status => exact hinsert id _
    | _ => exact h

theorem applySnapshot_discarded (chat : ChatState) (snapshot : SessionSnapshot) :
    (chat.applySnapshot snapshot).discardedTurns = chat.discardedTurns := by
  have hfold : ∀ (events : List SessionEvent) (chat : ChatState),
      (events.foldl ChatState.reduceEvent chat).discardedTurns = chat.discardedTurns := by
    intro events
    induction events with
    | nil => exact fun _ => rfl
    | cons event events ih => exact fun chat => (ih _).trans (reduceEvent_discarded chat event)
  unfold ChatState.applySnapshot
  rw [hfold]

theorem applySnapshot_turns {snapshot : SessionSnapshot} (h : chat.turns.lookup t ≠ none) :
    (chat.applySnapshot snapshot).turns.lookup t ≠ none := by
  have hfold : ∀ (events : List SessionEvent) (chat : ChatState), chat.turns.lookup t ≠ none →
      (events.foldl ChatState.reduceEvent chat).turns.lookup t ≠ none := by
    intro events
    induction events with
    | nil => exact fun _ h => h
    | cons event events ih => exact fun chat h => ih _ (reduceEvent_turns h)
  unfold ChatState.applySnapshot
  apply hfold
  split
  · next turn _ =>
    rw [Table.lookup_insert_if]
    split
    · simp
    · exact h
  · exact h

-- ---------------------------------------------------------------------------
-- Runs
-- ---------------------------------------------------------------------------

/-- A page that is taken into the chat was read after its discarded turns were
gone, those it discards itself included. -/
def Timely (s : State) : Event → Prop
  | .settle call active =>
    match s.requests[call]? with
    | some (.history _ epoch (some page)) => active ∧ s.epoch = epoch → page.Without s.chat.discardedTurns
    | some (.revert _ (some (page, _))) => page.Without (s.chat.discardedTurns ++ State.removed s.chat)
    | some (.reloadSnapshot page (some _)) => page.Without s.chat.discardedTurns
    | _ => True
  | _ => True

theorem removed_named (hc : Clean chat) : "" ∉ State.removed chat := by
  cases h : chat.edit with
  | none => simp [State.removed, h]
  | some edit => simpa [State.removed, h] using hc.edit edit h

theorem edit_flags (hc : Clean chat) {f : MessageEdit → MessageEdit} (hf : ∀ e, (f e).removedTurns = e.removedTurns) :
    ∀ e, chat.edit.map f = some e → "" ∉ e.removedTurns := by
  intro e he
  obtain ⟨old, hold, rfl⟩ := Option.map_eq_some_iff.mp he
  rw [hf]
  exact hc.edit old hold

theorem pageReverted_without {page : HistoryPage} (h : State.pageReverted chat page = true) :
    page.Without (State.removed chat) := by
  intro turn hturn hmem
  simp only [State.pageReverted, Bool.not_eq_true', List.any_eq_false, List.contains_eq_mem, decide_eq_true_eq] at h
  exact h turn hturn hmem

/-- What a replacement by a page shows, if it brings back no turn of the page. -/
theorem replaced_rid {page : HistoryPage} {removed : List String} {snapshot : SessionSnapshot}
    {edit : Option MessageEdit}
    (h : ChatState.Rid { (replaceHistory before chat page removed).applySnapshot snapshot with edit }) :
    page.Without (chat.discardedTurns ++ removed) := by
  intro turn hturn hmem
  have hdiscarded : ((replaceHistory before chat page removed).applySnapshot snapshot).discardedTurns =
      (chat.discardedTurns ++ removed).eraseDups := applySnapshot_discarded _ _
  have hlook : ((replaceHistory before chat page removed).applySnapshot snapshot).turns.lookup turn.id ≠ none :=
    applySnapshot_turns ((lookup_mergeTurns _ page.turns turn.id).1 ⟨turn, hturn, rfl⟩)
  refine hlook (h.2 turn.id ?_)
  rw [hdiscarded]
  exact List.mem_eraseDups.mpr hmem

theorem Clean.applyRevert (hc : Clean chat) {page : HistoryPage} {snapshot : SessionSnapshot}
    (h : page.Without (chat.discardedTurns ++ State.removed chat)) :
    Clean (State.applyRevert before chat page snapshot) :=
  ((hc.replaceHistory (removed_named hc) h).applySnapshot snapshot).withEdit (edit_flags hc fun _ => rfl)

theorem Clean.applyReload (hc : Clean chat) {page : HistoryPage} {snapshot : SessionSnapshot}
    (h : page.Without chat.discardedTurns) : Clean (State.applyReload before chat page snapshot) := by
  have hedit : ∀ e, (if State.pageSubmitted chat page then none
      else chat.edit.map fun edit => { edit with reverted := State.pageReverted chat page, uncertain := false }) =
        some e → "" ∉ e.removedTurns := by
    intro e he
    split at he
    · cases he
    · refine edit_flags hc ?_ e he
      intro edit
      rfl
  unfold State.applyReload
  refine Clean.withEdit ?_ hedit
  apply Clean.applySnapshot
  cases hr : State.pageReverted chat page with
  | false =>
    refine hc.replaceHistory (by simp) ?_
    simpa using h
  | true =>
    refine hc.replaceHistory (removed_named hc) ?_
    intro turn hturn hmem
    rcases List.mem_append.mp hmem with hmem | hmem
    · exact h turn hturn hmem
    · exact pageReverted_without hr turn hturn hmem

variable {s t' : State}

theorem stopLoading_chat (s : State) (epoch : Nat) :
    (Clean s.chat → Clean (s.stopLoading epoch).chat) ∧ ((s.stopLoading epoch).chat.Rid → s.chat.Rid) := by
  unfold State.stopLoading
  split
  · exact ⟨fun hc => ⟨hc.messages, hc.turns, hc.running, hc.names, hc.edit⟩, fun h => h⟩
  · exact ⟨fun hc => hc, fun h => h⟩

/-- A result leaves no discarded turn behind exactly if its page carries none. -/
theorem settle_clean (hc : Clean s.chat) {call : Nat} {active : Bool} (h : s.settle before call active = some t') :
    (Timely s (.settle call active) → Clean t'.chat) ∧ (t'.chat.Rid → Timely s (.settle call active)) := by
  simp only [State.settle] at h
  split at h
  · next cursor epoch page hr =>
    obtain rfl := Option.some.inj h
    obtain ⟨hclean, hrid⟩ := stopLoading_chat
      { s with
        requests := s.requests.eraseIdx call
        chat := if active ∧ s.epoch = epoch then State.applyRead before s.chat page cursor else s.chat } epoch
    simp only [Timely, hr]
    constructor
    · intro ht
      apply hclean
      by_cases hcur : active ∧ s.epoch = epoch
      · have hm : Clean (mergeHistory before s.chat page cursor.isSome) := hc.mergeHistory (ht hcur) _
        simp only [if_pos hcur]
        exact ⟨hm.messages, hm.turns, hm.running, hm.names, hm.edit⟩
      · simp only [if_neg hcur]
        exact hc
    · intro hr' hcur turn hturn hmem
      have := hrid hr'
      simp only [if_pos hcur] at this
      exact (lookup_mergeTurns s.chat.turns page.turns turn.id).1 ⟨turn, hturn, rfl⟩ (this.2 turn.id hmem)
  · next turn page snapshot hr =>
    obtain rfl := Option.some.inj h
    simp only [Timely, hr]
    exact ⟨fun ht => hc.applyRevert ht, fun hrid => replaced_rid hrid⟩
  · next page hr =>
    obtain rfl := Option.some.inj h
    simp only [Timely, hr]
    exact ⟨fun _ => hc, fun _ => trivial⟩
  · next page snapshot hr =>
    obtain rfl := Option.some.inj h
    simp only [Timely, hr]
    refine ⟨fun ht => hc.applyReload ht, ?_⟩
    intro hrid turn hturn hmem
    exact replaced_rid hrid turn hturn (List.mem_append_left _ hmem)
  · next snapshot hr =>
    obtain rfl := Option.some.inj h
    simp only [Timely, hr]
    exact ⟨fun _ => hc.applySnapshot snapshot, fun _ => trivial⟩
  · cases h

theorem serve_chat {call : Nat} {reply : Reply} (h : s.serve call reply = some t') : t'.chat = s.chat := by
  simp only [State.serve] at h
  split at h
  · split at h
    · obtain rfl := Option.some.inj h
      rfl
    · cases h
  · split at h
    · obtain rfl := Option.some.inj h
      rfl
    · cases h
  · split at h
    · obtain rfl := Option.some.inj h
      rfl
    · cases h
  · obtain rfl := Option.some.inj h
    rfl
  · obtain rfl := Option.some.inj h
    rfl
  · cases h

theorem fail_clean (hc : Clean s.chat) {call : Nat} {active : Bool} {code message : String}
    (h : s.fail call active code message = some t') : Clean t'.chat := by
  simp only [State.fail] at h
  split at h
  · obtain rfl := Option.some.inj h
    apply (stopLoading_chat _ _).1
    split
    · exact ⟨hc.messages, hc.turns, hc.running, hc.names, hc.edit⟩
    · exact hc
  · obtain rfl := Option.some.inj h
    exact hc
  · cases h

theorem load_clean (hc : Clean s.chat) (cursor : Option String) : Clean (s.load cursor).chat := by
  unfold State.load
  dsimp only
  split
  · exact hc
  · exact ⟨hc.messages, hc.turns, hc.running, hc.names, hc.edit⟩

/-- A step leaves no discarded turn behind exactly if it is timely. -/
theorem next_clean (hc : Clean s.chat) {e : Event} (h : s.next before e = some t') :
    (Timely s e → Clean t'.chat) ∧ (t'.chat.Rid → Timely s e) := by
  cases e with
  | turn id =>
    simp only [State.next] at h
    split at h
    · cases h
    · obtain rfl := Option.some.inj h
      exact ⟨fun _ => hc, fun _ => trivial⟩
  | event event =>
    obtain rfl := Option.some.inj h
    exact ⟨fun _ => hc.reduceEvent event, fun _ => trivial⟩
  | startEdit id clientId =>
    obtain rfl := Option.some.inj h
    exact ⟨fun _ => hc.startEdit id clientId, fun _ => trivial⟩
  | cancelEdit =>
    obtain rfl := Option.some.inj h
    exact ⟨fun _ => hc.withEdit nofun, fun _ => trivial⟩
  | uncertain =>
    obtain rfl := Option.some.inj h
    exact ⟨fun _ => hc.withEdit (edit_flags hc fun _ => rfl), fun _ => trivial⟩
  | load cursor =>
    obtain rfl := Option.some.inj h
    exact ⟨fun _ => load_clean hc cursor, fun _ => trivial⟩
  | revert turn =>
    obtain rfl := Option.some.inj h
    exact ⟨fun _ => hc, fun _ => trivial⟩
  | reload =>
    obtain rfl := Option.some.inj h
    exact ⟨fun _ => hc, fun _ => trivial⟩
  | snapshot =>
    obtain rfl := Option.some.inj h
    exact ⟨fun _ => hc, fun _ => trivial⟩
  | serve call reply => exact ⟨fun _ => serve_chat h ▸ hc, fun _ => trivial⟩
  | settle call active => exact settle_clean hc h
  | fail call active code message => exact ⟨fun _ => fail_clean hc h, fun _ => trivial⟩

theorem clean_initial : Clean initialChat := by
  constructor <;> simp [initialChat]

theorem run_clean {h : List Event} (hrun : Run (State.next before) Timely .fresh h s) : Clean s.chat :=
  hrun.invariant (I := fun s => Clean s.chat) clean_initial fun _ _ _ hc ht hn => (next_clean hc hn).1 ht

/-- As long as each page that is taken in was read after the discarded turns
were gone, none of them is in the chat; and a step with another page brings one
back. -/
theorem reverted_turns_gone {h : List Event} (hrun : Run (State.next before) Timely .fresh h s) :
    s.chat.Rid ∧ ∀ e t', s.next before e = some t' → (t'.chat.Rid ↔ Timely s e) := by
  have hc := run_clean hrun
  refine ⟨hc.rid, ?_⟩
  intro e t' hn
  obtain ⟨hclean, htimely⟩ := next_clean hc hn
  exact ⟨htimely, fun ht => (hclean ht).rid⟩

-- Two turns, the second one is edited; the chat is asked to reload while the revert is on its way.

def byName (a b : String) : Bool := a ≤ b

def pageOf (turns : List String) : HistoryPage where
  turns := turns.map fun id => ⟨id, "completed", .empty, false, []⟩
  nextCursor := none

def quiet : SessionSnapshot := ⟨none, none, none, []⟩

def twoTurns : List Event :=
  [.turn "a", .event (.userMessage "m" none "a" []), .turn "b", .event (.userMessage "n" none "b" []),
   .startEdit "n" "c", .revert "b"]

def plainRevert : List Event := twoTurns ++ [.serve 0 (.reverted (pageOf ["a"]) quiet), .settle 0 true]

def lateRead : List Event :=
  twoTurns ++ [.load none, .serve 1 (.page (pageOf ["a", "b"])), .serve 0 (.reverted (pageOf ["a"]) quiet),
    .settle 0 true, .settle 0 true]

instance (s : State) (e : Event) : Decidable (Timely s e) := by
  unfold Timely
  split
  · split <;> infer_instance
  · infer_instance

theorem reverted_turns_gone_one : ∃ s, Run (State.next byName) Timely .fresh plainRevert.reverse s ∧
    s.chat.discardedTurns = ["b"] ∧ s.chat.Rid := by
  obtain ⟨s, hs, hd⟩ : ∃ s, play (State.next byName) Timely .fresh plainRevert = some s ∧
      s.chat.discardedTurns = ["b"] := by
    decide
  have hrun := run_of_play_list hs
  exact ⟨s, hrun, hd, (reverted_turns_gone hrun).1⟩

/-- The page of a read that was called during the revert and served before it. -/
theorem late_read_brings_back : ∃ s, Run (State.next byName) Free .fresh lateRead.reverse s ∧
    "b" ∈ s.chat.discardedTurns ∧ (s.chat.turns.lookup "b").isSome = true := by
  obtain ⟨s, hs, hd⟩ : ∃ s, play (State.next byName) Free .fresh lateRead = some s ∧
      "b" ∈ s.chat.discardedTurns ∧ (s.chat.turns.lookup "b").isSome = true := by
    decide
  exact ⟨s, run_of_play_list hs, hd⟩

end RemoteCodex.Chat
