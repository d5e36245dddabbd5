import RemoteCodex.Adapter.History
import RemoteCodex.Interact.Cursors

/-!
# What the native engine serves

A native history is a list of turns, newest first, that newer turns are put in
front of. Its turns and the items of each are served behind cursors, which the
engine makes up.
-/

namespace RemoteCodex.Adapter.History

open Interact Protocol Tools
open Cursors (Leaves Serves)

/-- A turn, the newest of its items first. -/
structure NativeTurn where
  id : String
  metadata : Value
  items : List Value
  named : (metadata.index "id").asStr = some id
  objects : ∀ item ∈ items, isObject item = true

/-- An item among those that are listed. -/
structure Entry (turn : String) (item entry : Value) : Prop where
  turnId : (entry.index "turnId").asStr = some turn
  item : entry.index "item" = item

variable {σ : Type}

def answer (M : Machine Op Ans σ) (s : σ) (method : String) (params : Value) : Except Fault Value :=
  (M.exec (.call method params) s).1

/-- An engine whose lists of items are paginated by cursor. -/
structure ServesItems (M : Machine Op Ans σ) (history : σ → List NativeTurn) (thread : String)
    (itemPlaces : String → String → Option Nat) : Prop where
  distinct : ∀ s, ((history s).map NativeTurn.id).Nodup
  rely : ∀ s t, M.rely s t → history s <:+ history t
  exec : ∀ op s, history s <:+ history (M.exec op s).2
  start : ∀ s home, (M.exec (.start home) s).1 = (.ok () : Except Fault Unit)
  items : ∀ s cursor rows limit, ∀ t ∈ history s, Leaves (itemPlaces t.id) t.items cursor rows → 0 < limit →
    ∃ v data entries next, answer M s "thread/items/list" (itemsParams thread t.id cursor limit) = .ok v ∧
      v.index "data" = .array entries ∧ List.Forall₂ (Entry t.id) data entries ∧ v.index "nextCursor" = asValue next ∧
      Serves (itemPlaces t.id) rows limit data next

/-- The thread is there, and its turns are paginated too. -/
structure Serving (M : Machine Op Ans σ) (history : σ → List NativeTurn) (thread : String)
    (turnPlaces : String → Option Nat) (itemPlaces : String → String → Option Nat) : Prop extends
    ServesItems M history thread itemPlaces where
  read : ∀ s, ∃ v id, answer M s "thread/read" (readParams thread) = .ok v ∧
    ((v.index "thread").index "id").asStr = some id
  turns : ∀ s cursor rows, Leaves turnPlaces (history s) cursor rows → ∃ v data next,
    answer M s "thread/turns/list" (turnsParams thread (asValue cursor)) = .ok v ∧
      v.index "data" = .array (data.map NativeTurn.metadata) ∧ v.index "nextCursor" = asValue next ∧
      Serves turnPlaces rows 1 data next

/-- A statement about the operations of a program: nothing is said of their steps. -/
abbrev Always (M : Machine Op Ans σ) {α : Type} (x : Native α) (s : σ) (Q : α → σ → Prop) (E : Fault → σ → Prop) : Prop :=
  Act.Sat M (fun _ _ _ => True) x s Q E

variable {M : Machine Op Ans σ} {history : σ → List NativeTurn} {thread : String} {turnPlaces : String → Option Nat}
variable {itemPlaces : String → String → Option Nat} {s : σ} {α : Type}

theorem asStr_asValue (c : Option String) : (asValue c).asStr = c := by cases c <;> rfl

/-- What holds of a result, or of a fault. -/
def Holds (Q : α → Prop) (E : Fault → Prop) : Except Fault α → Prop
  | .ok a => Q a
  | .error f => E f

theorem always_ofExcept {r : Except Fault α} {Q : α → σ → Prop} {E : Fault → σ → Prop}
    (h : Holds (fun a => Q a s) (fun f => E f s) r) : Always M (ofExcept r) s Q E := by
  cases r with
  | ok a => exact .pure h
  | error f => exact .throw h

theorem always_call {method : String} {params : Value} {Q : Value → σ → Prop} {E : Fault → σ → Prop}
    (h : ∀ a, M.rely s a → Holds (fun v => Q v (M.exec (.call method params) a).2)
      (fun f => E f (M.exec (.call method params) a).2) (answer M a method params)) :
    Always M (call method params) s Q E := by
  unfold call
  refine .bind (R := fun r t => Holds (fun v => Q v t) (fun f => E f t) (r : Except Fault Value))
    (.request fun a ha => ⟨fun _ _ => trivial, trivial, h a ha⟩) ?_
  exact fun r t hr => always_ofExcept hr

theorem always_required {o : Option α} {Q : α → σ → Prop} {E : Fault → σ → Prop} (hsome : ∀ a, o = some a → Q a s)
    (hnone : o = none → E invalid s) : Always M (required o) s Q E := by
  cases o with
  | some a => exact .pure (hsome a rfl)
  | none => exact .throw (hnone rfl)

/-- The action between the start of an engine and its end. -/
theorem always_withEngine {home : String} {action : Native α} {Q : α → σ → Prop} {E : Fault → σ → Prop}
    (hstart : ∀ a, M.rely s a → Holds (fun _ => Always M action (M.exec (.start home) a).2
        (fun r t => ∀ b, M.rely t b → Q r (M.exec .shutdown b).2)
        (fun f t => ∀ b, M.rely t b → E f (M.exec .shutdown b).2))
      (fun f => E f (M.exec (.start home) a).2) ((M.exec (.start home) a).1 : Except Fault Unit)) :
    Always M (withEngine home action) s Q E := by
  unfold withEngine
  refine .bind (R := fun r t => Holds (fun _ => Always M action t
      (fun r t => ∀ b, M.rely t b → Q r (M.exec .shutdown b).2)
      (fun f t => ∀ b, M.rely t b → E f (M.exec .shutdown b).2)) (fun f => E f t) (r : Except Fault Unit))
    (.request fun a ha => ⟨fun _ _ => trivial, trivial, hstart a ha⟩) ?_
  intro r t hr
  refine .bind (R := fun _ t' => Always M action t'
      (fun r t => ∀ b, M.rely t b → Q r (M.exec .shutdown b).2)
      (fun f t => ∀ b, M.rely t b → E f (M.exec .shutdown b).2)) (always_ofExcept hr) ?_
  intro _ t' hr
  refine .bind (R := fun (r : Except Fault α) t => ∀ b, M.rely t b →
    Holds (fun r => Q r (M.exec .shutdown b).2) (fun f => E f (M.exec .shutdown b).2) r) (.attempt hr) ?_
  intro r t hr
  refine .bind (R := fun _ t => Holds (fun r => Q r t) (fun f => E f t) r)
    (.request fun a ha => ⟨fun _ _ => trivial, trivial, hr a ha⟩) ?_
  exact fun _ t hr => always_ofExcept hr

-- ---------------------------------------------------------------------------
-- A history of one turn
-- ---------------------------------------------------------------------------

def oneItem : Value :=
  .object [("aggregatedOutput", .string "done"), ("command", .string "make"), ("id", .string "item"),
    ("status", .string "completed"), ("type", .string "commandExecution")]

def oneTurn : NativeTurn where
  id := "turn"
  metadata := .object [("id", .string "turn"), ("status", .string "completed")]
  items := [oneItem]
  named := by decide
  objects := by simp [oneItem, isObject]

def oneEntry : Value := .object [("item", oneItem), ("turnId", .string "turn")]

/-- The turn and its item fit on the first page of their lists. -/
def oneAnswer (method : String) (params : Value) : Except Fault Value :=
  if method = "thread/read" then .ok (.object [("thread", .object [("id", .string "thread")])])
  else if !(params.index "cursor").isNull then .error invalid
  else if method = "thread/turns/list" then .ok (.object [("data", .array [oneTurn.metadata]), ("nextCursor", .null)])
  else if (params.index "turnId").asStr = some "turn" then
    .ok (.object [("data", .array [oneEntry]), ("nextCursor", .null)])
  else .error invalid

def oneExec : (op : Op) → Unit → Ans op × Unit
  | .start _, s => (.ok (), s)
  | .call method params, s => (oneAnswer method params, s)
  | .shutdown, s => ((), s)

def oneEngine : Machine Op Ans Unit := ⟨oneExec, fun _ _ _ => False, fun _ _ => True⟩

def oneBinding : SessionBinding := ⟨"/home/.codex", ⟨"thread", "One", "/work", 0, 0, false, "idle"⟩⟩

def oneHistory (_ : Unit) : List NativeTurn := [oneTurn]

theorem one_serving : Serving oneEngine oneHistory "thread" (fun _ => none) (fun _ _ => none) where
  distinct _ := by simp [oneHistory]
  rely _ _ _ := List.suffix_rfl
  exec _ _ := List.suffix_rfl
  start _ _ := rfl
  read _ := ⟨_, "thread", rfl, by decide⟩
  turns s cursor rows hrows := by
    cases cursor with
    | some cursor =>
      obtain ⟨n, hplace, -⟩ := hrows
      cases hplace
    | none =>
      obtain rfl : rows = [oneTurn] := hrows
      exact ⟨_, [oneTurn], none, rfl, rfl, rfl, .all (Nat.le_refl 1)⟩
  items s cursor rows limit t ht hrows hlimit := by
    obtain rfl := List.mem_singleton.mp ht
    cases cursor with
    | some cursor =>
      obtain ⟨n, hplace, -⟩ := hrows
      cases hplace
    | none =>
      obtain rfl : rows = [oneItem] := hrows
      exact ⟨_, [oneItem], [oneEntry], none, rfl, rfl, .cons ⟨rfl, rfl⟩ .nil, rfl, .all hlimit⟩

end RemoteCodex.Adapter.History
