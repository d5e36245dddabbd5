import Mathlib.Data.List.Forall2
import RemoteCodex.Adapter.Serving
import RemoteCodex.Protocol.Reread

/-!
# All pages of a history

What is left of a history at a position is a list of turns and perhaps some of
the items of one more. Each part of a turn that a page shows is taken off the
front, and the cursor behind a page stands for what is left then.
-/

namespace RemoteCodex.Adapter.History

open Interact Protocol Tools
open Cursors (Leaves Serves)

variable (pretty : Value → String) (parseUrl : String → Option Url) (thread : String)
variable (turnPlaces : String → Option Nat) (itemPlaces : String → String → Option Nat) (isFloat : String → Prop)

-- ---------------------------------------------------------------------------
-- What pages show
-- ---------------------------------------------------------------------------

/-- The parts of a turn from its row at `cursor` on: older items are before each of them but the last. -/
inductive Fragments (t : NativeTurn) : Option String → List Value → List HistoryTurn → Prop
  | last (cursor : Option String) (rows : List Value) :
      Fragments t cursor rows [fragment pretty parseUrl thread t.id t.metadata cursor rows.reverse false]
  | more {cursor : Option String} {next : String} {data left : List Value} {parts : List HistoryTurn} : data ≠ [] →
      left ≠ [] → Fragments t (some next) left parts →
      Fragments t cursor (data ++ left) (fragment pretty parseUrl thread t.id t.metadata cursor data.reverse true :: parts)

/-- Each turn in its parts, one turn after the other. -/
inductive Covers : List NativeTurn → List HistoryTurn → Prop
  | nil : Covers [] []
  | cons {t : NativeTurn} {turns : List NativeTurn} {parts shown : List HistoryTurn} :
      Fragments pretty parseUrl thread t none t.items parts → Covers turns shown → Covers (t :: turns) (parts ++ shown)

-- ---------------------------------------------------------------------------
-- What is left
-- ---------------------------------------------------------------------------

/-- A turn of which some items have been shown, and the rows that are left of it. -/
structure Pinned where
  turn : NativeTurn
  cursor : String
  rows : List Value
  some_left : rows ≠ []

structure Rest where
  pinned : Option Pinned
  turns : List NativeTurn

def Rest.size (r : Rest) : Nat :=
  (r.pinned.elim 0 fun p => p.rows.length) + (r.turns.map fun t => t.items.length + 1).sum

/-- The turn that is shown next, from which cursor, and what is behind it. -/
inductive Current : Rest → NativeTurn → Option String → List Value → List NativeTurn → Prop
  | fresh {t : NativeTurn} {turns : List NativeTurn} : Current ⟨none, t :: turns⟩ t none t.items turns
  | pinned {p : Pinned} {turns : List NativeTurn} : Current ⟨some p, turns⟩ p.turn (some p.cursor) p.rows turns

/-- One part is shown. -/
inductive ShowStep : Rest → HistoryTurn → Rest → Prop
  | more {r : Rest} {t : NativeTurn} {cursor : Option String} {next : String} {data left : List Value}
      {turns : List NativeTurn} (hleft : left ≠ []) : Current r t cursor (data ++ left) turns → data ≠ [] →
      ShowStep r (fragment pretty parseUrl thread t.id t.metadata cursor data.reverse true)
        ⟨some ⟨t, next, left, hleft⟩, turns⟩
  | last {r : Rest} {t : NativeTurn} {cursor : Option String} {rows : List Value} {turns : List NativeTurn} :
      Current r t cursor rows turns →
      ShowStep r (fragment pretty parseUrl thread t.id t.metadata cursor rows.reverse false) ⟨none, turns⟩

inductive Taken : Rest → List HistoryTurn → Rest → Prop
  | nil {r : Rest} : Taken r [] r
  | cons {r r' r'' : Rest} {turn : HistoryTurn} {turns : List HistoryTurn} : ShowStep pretty parseUrl thread r turn r' →
      Taken r' turns r'' → Taken r (turn :: turns) r''

variable {pretty parseUrl thread turnPlaces itemPlaces isFloat}
variable {r r' r'' : Rest} {part : HistoryTurn} {parts parts' : List HistoryTurn}

theorem Current.size {t : NativeTurn} {cursor : Option String} {rows : List Value} {left : List NativeTurn}
    (h : Current r t cursor rows left) :
    rows.length + (left.map fun t => t.items.length + 1).sum ≤ r.size ∧
      (rows = [] → (left.map fun t => t.items.length + 1).sum < r.size) := by
  cases h with
  | fresh =>
    simp only [Rest.size, Option.elim, List.map_cons, List.sum_cons]
    omega
  | @pinned p turns =>
    refine ⟨Nat.le_refl _, fun hnil => absurd hnil p.some_left⟩

theorem ShowStep.smaller (h : ShowStep pretty parseUrl thread r part r') : r'.size < r.size := by
  cases h with
  | @more t cursor next data left turns hleft hcurrent hdata =>
    have hsize := hcurrent.size.1
    have hpos := List.length_pos_iff.mpr hdata
    rw [List.length_append] at hsize
    simp only [Rest.size, Option.elim] at hsize ⊢
    omega
  | @last t cursor rows turns hcurrent =>
    have hsize := hcurrent.size
    simp only [Rest.size, Option.elim] at hsize ⊢
    by_cases hrows : rows = []
    · have := hsize.2 hrows
      omega
    · have := List.length_pos_iff.mpr hrows
      omega

theorem Taken.size (h : Taken pretty parseUrl thread r parts r') : r'.size + parts.length ≤ r.size := by
  induction h with
  | nil => exact Nat.le_refl _
  | cons hstep _ ih =>
    have := hstep.smaller
    rw [List.length_cons]
    omega

theorem Taken.append (h : Taken pretty parseUrl thread r parts r') (h' : Taken pretty parseUrl thread r' parts' r'') :
    Taken pretty parseUrl thread r (parts ++ parts') r'' := by
  induction h with
  | nil => exact h'
  | cons hstep _ ih => exact .cons hstep (ih h')

/-- What is left is shown: the rest of a turn, and the turns behind it. -/
inductive CoversRest (pretty : Value → String) (parseUrl : String → Option Url) (thread : String) :
    Rest → List HistoryTurn → Prop
  | fresh {left : List NativeTurn} {shown : List HistoryTurn} : Covers pretty parseUrl thread left shown →
      CoversRest pretty parseUrl thread ⟨none, left⟩ shown
  | pinned {p : Pinned} {left : List NativeTurn} {parts shown : List HistoryTurn} :
      Fragments pretty parseUrl thread p.turn (some p.cursor) p.rows parts → Covers pretty parseUrl thread left shown →
      CoversRest pretty parseUrl thread ⟨some p, left⟩ (parts ++ shown)

theorem CoversRest.of_parts {t : NativeTurn} {cursor : Option String} {rows : List Value} {left : List NativeTurn}
    {parts shown : List HistoryTurn} (hcurrent : Current r t cursor rows left)
    (hparts : Fragments pretty parseUrl thread t cursor rows parts) (hshown : Covers pretty parseUrl thread left shown) :
    CoversRest pretty parseUrl thread r (parts ++ shown) := by
  cases hcurrent with
  | fresh => exact .fresh (.cons hparts hshown)
  | pinned => exact .pinned hparts hshown

theorem ShowStep.covers (h : ShowStep pretty parseUrl thread r part r') (hrest : CoversRest pretty parseUrl thread r' parts) :
    CoversRest pretty parseUrl thread r (part :: parts) := by
  cases h with
  | more hleft hcurrent hdata =>
    cases hrest with
    | pinned hparts hshown => exact .of_parts hcurrent (.more hdata hleft hparts) hshown
  | last hcurrent =>
    cases hrest with
    | fresh hshown => exact .of_parts hcurrent (.last _ _) hshown

theorem Taken.covers (h : Taken pretty parseUrl thread r parts ⟨none, []⟩) : CoversRest pretty parseUrl thread r parts := by
  generalize hlast : (⟨none, []⟩ : Rest) = last at h
  induction h with
  | nil => exact hlast ▸ .fresh .nil
  | cons hstep _ ih => exact hstep.covers (ih hlast)

-- ---------------------------------------------------------------------------
-- Positions
-- ---------------------------------------------------------------------------

/-- A position behind a page. -/
def positionAt (thread : String) (items turn turns : Value) : Value :=
  .object [("items", items), ("thread", .string thread), ("turn", turn), ("turns", turns), ("version", .int 1)]

/-- The cursor of the turns behind one, if there are any. -/
def Behind (turnPlaces : String → Option Nat) (history : List NativeTurn) (next : Option String) (left : List NativeTurn) :
    Prop :=
  match next with
  | none => left = []
  | some cursor => Leaves turnPlaces history (some cursor) left ∧ left ≠ []

theorem Behind.grow {history newer : List NativeTurn} {next : Option String} {left : List NativeTurn}
    (h : Behind turnPlaces history next left) : Behind turnPlaces (newer ++ history) next left := by
  cases next with
  | none => exact h
  | some cursor => exact ⟨h.1.grow newer, h.2⟩

/-- What a position stands for: the turns behind a cursor, or the items behind one and the turns behind theirs. -/
inductive At (thread : String) (turnPlaces : String → Option Nat) (itemPlaces : String → String → Option Nat)
    (isFloat : String → Prop) (history : List NativeTurn) : Value → Rest → Prop
  | between {cursor : String} {left : List NativeTurn} : Leaves turnPlaces history (some cursor) left → left ≠ [] →
      At thread turnPlaces itemPlaces isFloat history (positionAt thread .null .null (.string cursor)) ⟨none, left⟩
  | within {p : Pinned} {metadata : Value} {g : String → String} {next : Option String} {left : List NativeTurn} :
      p.turn ∈ history → Leaves (itemPlaces p.turn.id) p.turn.items (some p.cursor) p.rows →
      metadata = p.turn.metadata.reread g → metadata.Proper isFloat → Behind turnPlaces history next left →
      At thread turnPlaces itemPlaces isFloat history (positionAt thread (.string p.cursor) metadata (asValue next))
        ⟨some p, left⟩

theorem At.grow {history newer : List NativeTurn} {position : Value}
    (h : At thread turnPlaces itemPlaces isFloat history position r) :
    At thread turnPlaces itemPlaces isFloat (newer ++ history) position r := by
  cases h with
  | between hleft hne => exact .between (hleft.grow newer) hne
  | within hturn hrows hmetadata hproper hbehind =>
    exact .within (List.mem_append_right newer hturn) hrows hmetadata hproper hbehind.grow

theorem set_items {items turn turns w : Value} :
    (positionAt thread items turn turns).set "items" w = positionAt thread w turn turns := by
  simp [positionAt, Value.set, Value.setField]

theorem set_turn {items turn turns w : Value} :
    (positionAt thread items turn turns).set "turn" w = positionAt thread items w turns := by
  have h1 : ¬ "turn" < "items" := by decide
  have h2 : ¬ "turn" < "thread" := by decide
  simp [positionAt, Value.set, Value.setField, h1, h2]

theorem set_turns {items turn turns w : Value} :
    (positionAt thread items turn turns).set "turns" w = positionAt thread items turn w := by
  have h1 : ¬ "turns" < "items" := by decide
  have h2 : ¬ "turns" < "thread" := by decide
  have h3 : ¬ "turns" < "turn" := by decide
  simp [positionAt, Value.set, Value.setField, h1, h2, h3]

/-- The first position has no turn in it yet. -/
theorem first_turn {turns w : Value} :
    ((firstPosition thread).set "turn" w).set "turns" turns = positionAt thread .null w turns := by
  have h1 : ¬ "turn" < "items" := by decide
  have h2 : ¬ "turn" < "thread" := by decide
  have h3 : "turn" < "turns" := by decide
  have h4 : ¬ "turns" < "items" := by decide
  have h5 : ¬ "turns" < "thread" := by decide
  have h6 : ¬ "turns" < "turn" := by decide
  simp [firstPosition, positionAt, Value.set, Value.setField, h1, h2, h3, h4, h5, h6]

theorem first_turns {turns : Value} :
    (((firstPosition thread).set "turns" turns).set "items" .null).set "turn" .null =
      positionAt thread .null .null turns := by
  have h1 : ¬ "turn" < "items" := by decide
  have h2 : ¬ "turn" < "thread" := by decide
  have h3 : "turn" < "turns" := by decide
  have h4 : ¬ "turns" < "items" := by decide
  have h5 : ¬ "turns" < "thread" := by decide
  simp [firstPosition, positionAt, Value.set, Value.setField, h1, h2, h3, h4, h5]

/-- A position that a page starts from, or has reached. -/
def IsPosition (thread : String) (position : Value) : Prop :=
  position = firstPosition thread ∨ ∃ items turn turns, position = positionAt thread items turn turns

theorem advance_more {position : Value} (h : IsPosition thread position) (metadata next : Value) (cursor : String) :
    advance position metadata next (.string cursor) = some (positionAt thread (.string cursor) metadata next) := by
  rcases h with rfl | ⟨items, turn, turns, rfl⟩
  · simp [advance, isString, Value.asStr, first_turn, set_items]
  · simp [advance, isString, Value.asStr, set_turn, set_turns, set_items]

theorem advance_next {position : Value} (h : IsPosition thread position) (metadata : Value) (cursor : String) :
    advance position metadata (.string cursor) .null = some (positionAt thread .null .null (.string cursor)) := by
  rcases h with rfl | ⟨items, turn, turns, rfl⟩
  · simp [advance, isString, Value.asStr, first_turns]
  · simp [advance, isString, Value.asStr, set_turn, set_turns, set_items]

theorem advance_end (position metadata : Value) : advance position metadata .null .null = none := rfl

theorem At.isPosition {history : List NativeTurn} {position : Value}
    (h : At thread turnPlaces itemPlaces isFloat history position r) : IsPosition thread position := by
  cases h with
  | between => exact .inr ⟨_, _, _, rfl⟩
  | within => exact .inr ⟨_, _, _, rfl⟩

theorem proper_asValue (next : Option String) : (asValue next).Proper isFloat := by cases next <;> trivial

/-- A position is read back as one for the same rest. -/
theorem At.reread {history : List NativeTurn} {position : Value} {f : String → String}
    (h : At thread turnPlaces itemPlaces isFloat history position r) (hf : ∀ text, isFloat text → isFloat (f text)) :
    position.Proper isFloat ∧ At thread turnPlaces itemPlaces isFloat history (position.reread f) r := by
  have hnames : ["items", "thread", "turn", "turns", "version"].Pairwise (· < ·) := by decide
  have hone : (Value.int 1).Proper isFloat := ⟨by decide, by decide⟩
  cases h with
  | between hleft hne => exact ⟨⟨hnames, trivial, trivial, trivial, trivial, hone, trivial⟩, .between hleft hne⟩
  | @within p metadata g next left hturn hrows hmetadata hproper hbehind =>
    refine ⟨⟨hnames, trivial, trivial, hproper, proper_asValue next, hone, trivial⟩, ?_⟩
    have hagain : metadata.reread f = p.turn.metadata.reread fun text => f (g text) := by rw [hmetadata, reread_reread]
    have hnext : (asValue next).reread f = asValue next := by cases next <;> rfl
    have hposition : (positionAt thread (.string p.cursor) metadata (asValue next)).reread f =
        positionAt thread (.string p.cursor) (metadata.reread f) (asValue next) := by
      simp only [positionAt, Value.reread, rereadFields, hnext]
    rw [hposition]
    exact .within hturn hrows hagain (.reread hf metadata hproper) hbehind

theorem isObject_of_index {v : Value} (key text : String) (h : (v.index key).asStr = some text) : isObject v = true := by
  cases v with
  | object fields => rfl
  | _ => cases h

/-- A cursor with a position that stands for something is accepted. -/
theorem position_at {parse : String → Option Value} {history : List NativeTurn} {value : Value} {cursor : String}
    (hparse : parse cursor = some value) (h : At thread turnPlaces itemPlaces isFloat history value r) :
    position parse thread (some cursor) = .ok value := by
  cases h with
  | between hleft hne =>
    simp [position, hparse, positionAt, Value.index, Value.get, Value.lookup_cons_if, List.lookup_nil, isOne, Value.asStr, Value.isNull, isString]
  | @within p metadata g next left hturn hrows hmetadata hproper hbehind =>
    have hobject : isObject metadata = true := by
      refine isObject_of_index "id" p.turn.id ?_
      rw [hmetadata, Value.index_reread, Value.asStr_reread, p.turn.named]
    cases next <;>
      simp [position, hparse, positionAt, Value.index, Value.get, Value.lookup_cons_if, List.lookup_nil, isOne, Value.asStr, Value.isNull, isString,
        asValue, hobject]

-- ---------------------------------------------------------------------------
-- Parts of turns
-- ---------------------------------------------------------------------------

theorem index_set {v : Value} {text : String} (h : (v.index "id").asStr = some text) (key k : String) (w : Value) :
    (v.set key w).index k = if k = key then w else v.index k := by
  have hsome : (v.get "id").isSome := by
    rw [Value.index] at h
    cases hget : v.get "id" with
    | some id => rfl
    | none =>
      rw [hget] at h
      cases h
  rw [Value.index, Value.get_set hsome, Value.index]
  split <;> rfl

theorem text_reread {g : String → String} (v : Value) (key : String) : text (v.reread g) key = text v key := by
  rw [text, Value.index_reread, Value.asStr_reread, text]

theorem timing_reread {g : String → String} (v : Value) : timing (v.reread g) = timing v := by
  have hu64 : ∀ w : Value, asU64 (w.reread g) = asU64 w := fun w => by cases w <;> rfl
  simp only [timing, Value.index_reread, Value.asI64_reread, hu64]

/-- What a turn shows with some of its items. -/
theorem turn_items {metadata : Value} {id : String} (h : (metadata.index "id").asStr = some id) (values : List Value) :
    turn pretty parseUrl (metadata.set "items" (.array values)) =
      ⟨text metadata "id", text metadata "status", timing metadata,
        values.map (historyItem pretty parseUrl (metadata.index "status").asStr), false⟩ := by
  have hindex := index_set h "items"
  simp [turn, text, timing, hindex, array, Value.asArray]

theorem fragment_reread {metadata : Value} {id : String} {g : String → String} (h : (metadata.index "id").asStr = some id)
    (cursor : Option String) (values : List Value) (more : Bool) :
    fragment pretty parseUrl thread id (metadata.reread g) cursor values more =
      fragment pretty parseUrl thread id metadata cursor values more := by
  have h' : ((metadata.reread g).index "id").asStr = some id := by rw [Value.index_reread, Value.asStr_reread, h]
  unfold fragment
  rw [turn_items h', turn_items h]
  simp only [text_reread, timing_reread, Value.index_reread, Value.asStr_reread]

/-- Each item is shown once, in the order of the items. -/
theorem items_fragment {metadata : Value} {id : String} (h : (metadata.index "id").asStr = some id)
    (cursor : Option String) (values : List Value) (more : Bool) :
    (fragment pretty parseUrl thread id metadata cursor values more).items = values.map fun item =>
      deferred thread id cursor (historyItem pretty parseUrl (metadata.index "status").asStr item) := by
  unfold fragment
  rw [turn_items h]
  exact List.map_map

theorem length_fragment {metadata : Value} {id : String} (h : (metadata.index "id").asStr = some id)
    (cursor : Option String) (values : List Value) (more : Bool) :
    (fragment pretty parseUrl thread id metadata cursor values more).items.length = values.length := by
  rw [items_fragment h, List.length_map]

theorem itemsOf_entries {id : String} {data entries : List Value} (h : List.Forall₂ (Entry id) data entries)
    (hobjects : ∀ item ∈ data, isObject item = true) : itemsOf id entries = some data.reverse := by
  have hall : ∀ {data entries : List Value}, List.Forall₂ (Entry id) data entries → (∀ item ∈ data, isObject item = true) →
      entries.mapM (fun entry => if (entry.index "turnId").asStr = some id ∧ isObject (entry.index "item") then
        some (entry.index "item") else none) = some data := by
    intro data entries h hobjects
    induction h with
    | nil => rfl
    | cons hentry _ ih =>
      rw [List.mapM_cons, if_pos ⟨hentry.turnId, by rw [hentry.item]; exact hobjects _ List.mem_cons_self⟩,
        ih fun item hitem => hobjects item (List.mem_cons_of_mem _ hitem), hentry.item]
      rfl
  exact hall (List.rel_reverse h) fun item hitem => hobjects item (List.mem_reverse.mp hitem)

-- ---------------------------------------------------------------------------
-- One turn on a page
-- ---------------------------------------------------------------------------

variable {σ : Type} {M : Machine Op Ans σ} {history : σ → List NativeTurn} {s : σ} {count : Nat}

/-- What is behind what has been shown: nothing, or what a position stands for. -/
def After (thread : String) (turnPlaces : String → Option Nat) (itemPlaces : String → String → Option Nat)
    (isFloat : String → Prop) (turns : List NativeTurn) (position : Option Value) (r : Rest) : Prop :=
  match position with
  | none => r = ⟨none, []⟩
  | some position => At thread turnPlaces itemPlaces isFloat turns position r

theorem After.grow {turns turns' : List NativeTurn} {position : Option Value}
    (h : After thread turnPlaces itemPlaces isFloat turns position r) (hgrow : turns <:+ turns') :
    After thread turnPlaces itemPlaces isFloat turns' position r := by
  obtain ⟨newer, rfl⟩ := hgrow
  cases position with
  | none => exact h
  | some position => exact At.grow h

theorem Behind.suffix {turns turns' left : List NativeTurn} {next : Option String} (h : Behind turnPlaces turns next left)
    (hgrow : turns <:+ turns') : Behind turnPlaces turns' next left := by
  obtain ⟨newer, rfl⟩ := hgrow
  exact h.grow

/-- What a turn takes from the rest. -/
structure ShownSpec (pretty : Value → String) (parseUrl : String → Option Url) (thread : String)
    (turnPlaces : String → Option Nat) (itemPlaces : String → String → Option Nat) (isFloat : String → Prop)
    (turns : List NativeTurn) (count : Nat) (r : Rest) (shown : Shown) (r' : Rest) : Prop where
  step : ShowStep pretty parseUrl thread r shown.turn r'
  returned : shown.returned = shown.turn.items.length
  bounded : count + shown.returned ≤ ITEM_LIMIT
  after : After thread turnPlaces itemPlaces isFloat turns shown.position r'

theorem showTurn_spec (hserving : ServesItems M history thread itemPlaces) {t : NativeTurn} {cursor next : Option String}
    {rows : List Value} {left : List NativeTurn} {position metadata : Value} {g : String → String}
    (hposition : IsPosition thread position) (hitems : (position.index "items").asStr = cursor)
    (hcurrent : Current r t cursor rows left) (ht : t ∈ history s) (hrows : Leaves (itemPlaces t.id) t.items cursor rows)
    (hmetadata : metadata = t.metadata.reread g) (hproper : metadata.Proper isFloat)
    (hnext : Behind turnPlaces (history s) next left) (hcount : count < ITEM_LIMIT) :
    Always M (showTurn pretty parseUrl thread count position metadata (asValue next)) s
      (fun shown b => history s <:+ history b ∧
        ∃ r', ShownSpec pretty parseUrl thread turnPlaces itemPlaces isFloat (history b) count r shown r')
      (fun _ _ => False) := by
  have hid : (metadata.index "id").asStr = some t.id := by
    rw [hmetadata, Value.index_reread, Value.asStr_reread, t.named]
  unfold showTurn
  rw [hid]
  refine .bind (R := fun id b => t.id = id ∧ s = b) (.pure ⟨rfl, rfl⟩) ?_
  rintro _ _ ⟨rfl, rfl⟩
  simp only [hitems]
  refine .bind (R := fun v b => history s <:+ history b ∧ ∃ data entries found, v.index "data" = .array entries ∧
    List.Forall₂ (Entry t.id) data entries ∧ v.index "nextCursor" = asValue found ∧
    Serves (itemPlaces t.id) rows (ITEM_LIMIT - count) data found) (always_call fun a ha => ?_) ?_
  · have hgrow := hserving.rely s a ha
    obtain ⟨v, data, entries, found, hanswer, hpage⟩ :=
      hserving.items a cursor rows (ITEM_LIMIT - count) t (hgrow.subset ht) hrows (by omega)
    rw [hanswer]
    exact ⟨hgrow.trans (hserving.exec _ a), data, entries, found, hpage⟩
  · rintro v b ⟨hgrow, data, entries, found, hdata, hentries, hfound, hserves⟩
    have hobjects : ∀ item ∈ data, isObject item = true := fun item hitem =>
      t.objects item (hrows.suffix.subset (hserves.front.subset hitem))
    rw [hdata, hfound]
    refine .bind (R := fun es c => entries = es ∧ b = c) (.pure ⟨rfl, rfl⟩) ?_
    rintro _ _ ⟨rfl, rfl⟩
    rw [itemsOf_entries hentries hobjects]
    refine .bind (R := fun vs c => data.reverse = vs ∧ b = c) (.pure ⟨rfl, rfl⟩) ?_
    rintro _ _ ⟨rfl, rfl⟩
    have hlength : entries.length = data.length := hentries.length_eq.symm
    have hshown : ∀ more, (fragment pretty parseUrl thread t.id metadata cursor data.reverse more) =
        fragment pretty parseUrl thread t.id t.metadata cursor data.reverse more := fun more => by
      rw [hmetadata, fragment_reread t.named]
    have hreturned : ∀ more, entries.length =
        (fragment pretty parseUrl thread t.id metadata cursor data.reverse more).items.length := fun more => by
      rw [length_fragment hid, List.length_reverse, hlength]
    have hbounded : count + entries.length ≤ ITEM_LIMIT := by
      have := hserves.bounded
      omega
    cases found with
    | some found =>
      obtain ⟨rest, hsplit, hrest, hless, hsome⟩ := hserves.rest hrows
      have hmove : ¬ cursor = some found := by
        rintro rfl
        obtain ⟨n, hplace, hn, rfl⟩ := hrows
        obtain ⟨m, hplace', hm, rfl⟩ := hrest
        obtain rfl := Option.some.inj (hplace.symm.trans hplace')
        exact Nat.lt_irrefl _ hless
      have hdataSome : data ≠ [] := by
        rintro rfl
        rw [hsplit, List.nil_append] at hless
        exact Nat.lt_irrefl _ hless
      have hstop : (isString (asValue (some found)) && decide (cursor = (asValue (some found)).asStr)) = false := by
        simp [asValue, isString, Value.asStr, hmove]
      rw [hstop]
      have hcurrent' : Current r t cursor (data ++ rest) left := hsplit ▸ hcurrent
      refine .pure ⟨hgrow, ⟨some ⟨t, found, rest, hsome⟩, left⟩, ?_, hreturned true, hbounded, ?_⟩
      · show ShowStep pretty parseUrl thread r (fragment pretty parseUrl thread t.id metadata cursor data.reverse true) _
        rw [hshown]
        exact .more hsome hcurrent' hdataSome
      · show After _ _ _ _ _ (advance position metadata (asValue next) (.string found)) _
        rw [advance_more hposition]
        exact .within (p := ⟨t, found, rest, hsome⟩) (hgrow.subset ht) hrest hmetadata hproper (hnext.suffix hgrow)
    | none =>
      obtain rfl := hserves.done rfl
      refine .pure ⟨hgrow, ⟨none, left⟩, ?_, hreturned false, hbounded, ?_⟩
      · show ShowStep pretty parseUrl thread r (fragment pretty parseUrl thread t.id metadata cursor data.reverse false) _
        rw [hshown]
        exact .last hcurrent
      · cases next with
        | none =>
          have hnil : left = [] := hnext
          exact congrArg _ hnil
        | some next =>
          show After _ _ _ _ _ (advance position metadata (.string next) .null) _
          rw [advance_next hposition]
          exact .between (hnext.suffix hgrow).1 hnext.2

-- ---------------------------------------------------------------------------
-- The turn at a position
-- ---------------------------------------------------------------------------

/-- The turn that is shown next, as it is at a position, or that there is none. -/
inductive TurnSpec (turnPlaces : String → Option Nat) (itemPlaces : String → String → Option Nat) (isFloat : String → Prop)
    (position : Value) (turns : List NativeTurn) : Rest → Option (Value × Value) → Prop
  | none : TurnSpec turnPlaces itemPlaces isFloat position turns ⟨none, []⟩ none
  | some {r : Rest} {t : NativeTurn} {cursor next : Option String} {rows : List Value} {left : List NativeTurn}
      {metadata : Value} {g : String → String} : (position.index "items").asStr = cursor → Current r t cursor rows left →
      t ∈ turns → Leaves (itemPlaces t.id) t.items cursor rows → metadata = t.metadata.reread g →
      metadata.Proper isFloat → Behind turnPlaces turns next left →
      TurnSpec turnPlaces itemPlaces isFloat position turns r (some (metadata, asValue next))

/-- A page of one turn. -/
theorem serves_turn {turns rows data : List NativeTurn} {cursor next : Option String}
    (h : Serves turnPlaces rows 1 data next) (hrows : Leaves turnPlaces turns cursor rows) :
    (rows = [] ∧ data = []) ∨ ∃ t left, rows = t :: left ∧ data = [t] ∧ Behind turnPlaces turns next left := by
  rcases data with _ | ⟨t, _ | ⟨t', more⟩⟩
  · exact .inl ⟨h.progress rfl, rfl⟩
  · refine .inr ?_
    cases next with
    | none => exact ⟨t, [], (h.done rfl).symm, rfl, rfl⟩
    | some next =>
      obtain ⟨rest, hsplit, hrest, -, hsome⟩ := h.rest hrows
      exact ⟨t, rest, hsplit, rfl, hrest, hsome⟩
  · have hlong := h.bounded
    simp at hlong

/-- A list of turns is asked for from a cursor on. -/
theorem turnAt_list (hserving : Serving M history thread turnPlaces itemPlaces)
    (hproper : ∀ s, ∀ t ∈ history s, t.metadata.Proper isFloat) {position : Value} (cursor : Option String)
    (hturn : isObject (position.index "turn") = false) (hturns : position.index "turns" = asValue cursor)
    (hitems : position.index "items" = .null) {I : List NativeTurn → Rest → Prop}
    (hrows : ∀ a, M.rely s a → ∃ rows, Leaves turnPlaces (history a) cursor rows ∧
      ∀ turns, history a <:+ turns → I turns ⟨none, rows⟩) :
    Always M (turnAt thread position) s (fun o b => history s <:+ history b ∧
      ∃ r, I (history b) r ∧ TurnSpec turnPlaces itemPlaces isFloat position (history b) r o) (fun _ _ => False) := by
  unfold turnAt
  rw [hturn, hturns]
  refine .bind (R := fun v b => history s <:+ history b ∧ ∃ rows data next, I (history b) ⟨none, rows⟩ ∧
    v.index "data" = .array (data.map NativeTurn.metadata) ∧ v.index "nextCursor" = asValue next ∧
    (∀ t ∈ data, t ∈ history b) ∧
    ((rows = [] ∧ data = []) ∨ ∃ t left, rows = t :: left ∧ data = [t] ∧ Behind turnPlaces (history b) next left))
    (always_call fun a ha => ?_) ?_
  · obtain ⟨rows, hleaves, hI⟩ := hrows a ha
    obtain ⟨v, data, next, hanswer, hdata, hnext, hserves⟩ := hserving.turns a cursor rows hleaves
    rw [hanswer]
    have hgrow := hserving.exec (.call "thread/turns/list" (turnsParams thread (asValue cursor))) a
    refine ⟨(hserving.rely s a ha).trans hgrow, rows, data, next, hI _ hgrow, hdata, hnext, fun t ht => ?_, ?_⟩
    · exact hgrow.subset (hleaves.suffix.subset (hserves.front.subset ht))
    · rcases serves_turn hserves hleaves with hnone | ⟨t, left, hsplit, hone, hbehind⟩
      · exact .inl hnone
      · exact .inr ⟨t, left, hsplit, hone, hbehind.suffix hgrow⟩
  · rintro v b ⟨hgrow, rows, data, next, hI, hdata, hnext, hin, hcases⟩
    rw [hdata, hnext]
    refine .bind (R := fun vs c => data.map NativeTurn.metadata = vs ∧ b = c) (.pure ⟨rfl, rfl⟩) ?_
    rintro _ _ ⟨rfl, rfl⟩
    refine .pure ⟨hgrow, ⟨none, rows⟩, hI, ?_⟩
    rcases hcases with ⟨rfl, rfl⟩ | ⟨t, left, rfl, rfl, hbehind⟩
    · exact .none
    · have ht := hin t List.mem_cons_self
      refine .some (g := fun text => text) ?_ .fresh ht rfl (reread_id _).symm (hproper b t ht) hbehind
      rw [hitems]
      rfl

theorem turnAt_at (hserving : Serving M history thread turnPlaces itemPlaces)
    (hproper : ∀ s, ∀ t ∈ history s, t.metadata.Proper isFloat) {position : Value}
    (h : At thread turnPlaces itemPlaces isFloat (history s) position r) :
    Always M (turnAt thread position) s (fun o b => history s <:+ history b ∧
      ∃ r', r' = r ∧ TurnSpec turnPlaces itemPlaces isFloat position (history b) r' o) (fun _ _ => False) := by
  cases h with
  | @between cursor left hleft hsome =>
    refine turnAt_list hserving hproper (some cursor) (I := fun _ r' => r' = ⟨none, left⟩) rfl rfl rfl fun a ha => ?_
    obtain ⟨newer, hnewer⟩ := hserving.rely s a ha
    exact ⟨left, hnewer ▸ hleft.grow newer, fun _ _ => rfl⟩
  | @within p metadata g next left hturn hrows hmetadata hmetadataProper hbehind =>
    have hobject : isObject metadata = true := by
      refine isObject_of_index "id" p.turn.id ?_
      rw [hmetadata, Value.index_reread, Value.asStr_reread, p.turn.named]
    have hplace : (positionAt thread (.string p.cursor) metadata (asValue next)).index "turn" = metadata := rfl
    unfold turnAt
    rw [hplace, hobject]
    exact .pure ⟨List.suffix_rfl, _, rfl, .some rfl .pinned hturn hrows hmetadata hmetadataProper hbehind⟩

theorem turnAt_first (hserving : Serving M history thread turnPlaces itemPlaces)
    (hproper : ∀ s, ∀ t ∈ history s, t.metadata.Proper isFloat) :
    Always M (turnAt thread (firstPosition thread)) s (fun o b => history s <:+ history b ∧
      ∃ r, (r.pinned = none ∧ history s <:+ r.turns ∧ r.turns <:+ history b) ∧
        TurnSpec turnPlaces itemPlaces isFloat (firstPosition thread) (history b) r o) (fun _ _ => False) := by
  refine turnAt_list hserving hproper none
    (I := fun turns r => r.pinned = none ∧ history s <:+ r.turns ∧ r.turns <:+ turns) rfl rfl rfl fun a ha => ?_
  exact ⟨history a, rfl, fun turns hgrow => ⟨rfl, hserving.rely s a ha, hgrow⟩⟩

-- ---------------------------------------------------------------------------
-- One page
-- ---------------------------------------------------------------------------

def itemCount (turns : List HistoryTurn) : Nat := (turns.map fun t => t.items.length).sum

/-- What the turns of a page take from the rest. -/
structure TurnsSpec (pretty : Value → String) (parseUrl : String → Option Url) (thread : String)
    (turnPlaces : String → Option Nat) (itemPlaces : String → String → Option Nat) (isFloat : String → Prop)
    (turns : List NativeTurn) (room count : Nat) (r : Rest) (result : List HistoryTurn × Option Value) (r' : Rest) : Prop
    where
  taken : Taken pretty parseUrl thread r result.1 r'
  after : After thread turnPlaces itemPlaces isFloat turns result.2 r'
  fits : result.1.length ≤ room
  items : count + itemCount result.1 ≤ ITEM_LIMIT
  progress : 0 < room → count < ITEM_LIMIT → result.1 ≠ [] ∨ result.2 = none

theorem turnsFrom_succ (hserving : ServesItems M history thread itemPlaces) {room : Nat} {position : Value}
    {I : List NativeTurn → Rest → Prop} (hI : ∀ turns turns' r, I turns r → turns <:+ turns' → I turns' r)
    (hposition : IsPosition thread position) (hcount : count < ITEM_LIMIT)
    (hturn : Always M (turnAt thread position) s (fun o b => history s <:+ history b ∧
      ∃ r, I (history b) r ∧ TurnSpec turnPlaces itemPlaces isFloat position (history b) r o) (fun _ _ => False))
    (ih : ∀ count b position r, count ≤ ITEM_LIMIT → At thread turnPlaces itemPlaces isFloat (history b) position r →
      Always M (turnsFrom pretty parseUrl thread room count position) b (fun result c => history b <:+ history c ∧
        ∃ r', TurnsSpec pretty parseUrl thread turnPlaces itemPlaces isFloat (history c) room count r result r')
        (fun _ _ => False)) :
    Always M (turnsFrom pretty parseUrl thread (room + 1) count position) s (fun result b => history s <:+ history b ∧
      ∃ r r', I (history b) r ∧
        TurnsSpec pretty parseUrl thread turnPlaces itemPlaces isFloat (history b) (room + 1) count r result r')
      (fun _ _ => False) := by
  unfold turnsFrom
  rw [if_pos hcount]
  refine .bind hturn ?_
  rintro o b ⟨hgrow, r, hr, hspec⟩
  cases hspec with
  | none =>
    exact .pure ⟨hgrow, _, _, hr, .nil, rfl, Nat.zero_le _, by simpa [itemCount] using Nat.le_of_lt hcount, fun _ _ => .inr rfl⟩
  | some hitems hcurrent ht hrows hmetadata hproper hbehind =>
    refine .bind (showTurn_spec hserving hposition hitems hcurrent ht hrows hmetadata hproper hbehind hcount) ?_
    rintro shown c ⟨hgrow', r', hshown⟩
    have hone : itemCount [shown.turn] = shown.returned := by simp [itemCount, hshown.returned]
    have hlast : TurnsSpec pretty parseUrl thread turnPlaces itemPlaces isFloat (history c) (room + 1) count r
        ([shown.turn], shown.position) r' := by
      refine ⟨.cons hshown.step .nil, hshown.after, Nat.le_add_left 1 room, ?_, fun _ _ => .inl (List.cons_ne_nil _ _)⟩
      rw [hone]
      exact hshown.bounded
    have hr' := hI _ _ _ hr hgrow'
    cases hnext : shown.position with
    | none =>
      simp only
      rw [hnext] at hlast
      exact .pure ⟨hgrow.trans hgrow', r, r', hr', hlast⟩
    | some next =>
      simp only
      rw [hnext] at hlast
      have hat : At thread turnPlaces itemPlaces isFloat (history c) next r' := hlast.after
      split
      · exact .pure ⟨hgrow.trans hgrow', r, r', hr', hlast⟩
      · refine .bind (ih (count + shown.returned) c next r' hshown.bounded hat) ?_
        rintro ⟨turns, last⟩ d ⟨hgrow'', r'', hrest⟩
        refine .pure ⟨(hgrow.trans hgrow').trans hgrow'', r, r'', hI _ _ _ hr' hgrow'', .cons hshown.step hrest.taken,
          hrest.after, Nat.succ_le_succ hrest.fits, ?_, fun _ _ => .inl (List.cons_ne_nil _ _)⟩
        have hsum : itemCount (shown.turn :: turns) = shown.returned + itemCount turns := by
          simp [itemCount, hshown.returned]
        have hbound := hrest.items
        simp only at hbound ⊢
        omega

theorem turnsFrom_at (hserving : Serving M history thread turnPlaces itemPlaces)
    (hproper : ∀ s, ∀ t ∈ history s, t.metadata.Proper isFloat) (room count : Nat) (s : σ) (position : Value) (r : Rest)
    (hcount : count ≤ ITEM_LIMIT) (h : At thread turnPlaces itemPlaces isFloat (history s) position r) :
    Always M (turnsFrom pretty parseUrl thread room count position) s (fun result b => history s <:+ history b ∧
      ∃ r', TurnsSpec pretty parseUrl thread turnPlaces itemPlaces isFloat (history b) room count r result r')
      (fun _ _ => False) := by
  induction room generalizing count s position r with
  | zero =>
    refine .pure ⟨List.suffix_rfl, r, .nil, h, Nat.le_refl 0, ?_, fun hroom => absurd hroom (Nat.lt_irrefl 0)⟩
    simpa [itemCount] using hcount
  | succ room ih =>
    by_cases hfull : count < ITEM_LIMIT
    · refine .mono (turnsFrom_succ hserving.toServesItems (I := fun _ r' => r' = r) (fun _ _ _ h _ => h) h.isPosition hfull
        (turnAt_at hserving hproper h) fun count b position r hcount hat => ih count b position r hcount hat) ?_ fun _ _ h => h
      rintro result b ⟨hgrow, _, r', rfl, hspec⟩
      exact ⟨hgrow, r', hspec⟩
    · unfold turnsFrom
      rw [if_neg hfull]
      refine .pure ⟨List.suffix_rfl, r, .nil, h, Nat.zero_le _, ?_, fun _ hless => absurd hless hfull⟩
      simpa [itemCount] using hcount

theorem turnsFrom_first (hserving : Serving M history thread turnPlaces itemPlaces)
    (hproper : ∀ s, ∀ t ∈ history s, t.metadata.Proper isFloat) (room : Nat) (s : σ) :
    Always M (turnsFrom pretty parseUrl thread (room + 1) 0 (firstPosition thread)) s (fun result b =>
      history s <:+ history b ∧ ∃ r r', (r.pinned = none ∧ history s <:+ r.turns ∧ r.turns <:+ history b) ∧
        TurnsSpec pretty parseUrl thread turnPlaces itemPlaces isFloat (history b) (room + 1) 0 r result r')
      (fun _ _ => False) := by
  refine turnsFrom_succ hserving.toServesItems
    (I := fun turns r => r.pinned = none ∧ history s <:+ r.turns ∧ r.turns <:+ turns)
    (fun _ _ _ h hgrow => ⟨h.1, h.2.1, h.2.2.trans hgrow⟩) (.inl rfl) (by decide) (turnAt_first hserving hproper) ?_
  exact fun count b position r hcount hat => turnsFrom_at hserving hproper room count b position r hcount hat

variable {print : Value → String} {parse : String → Option Value} {bound : SessionBinding} {f : String → String}

/-- What a cursor stands for; without one a reading starts with the turns that are there. -/
def Stands (print : Value → String) (turnPlaces : String → Option Nat) (itemPlaces : String → String → Option Nat)
    (isFloat : String → Prop) (thread : String) (turns : List NativeTurn) (cursor : Option String) (r : Rest) : Prop :=
  match cursor with
  | none => r = ⟨none, []⟩
  | some cursor => ∃ position, cursor = print position ∧ At thread turnPlaces itemPlaces isFloat turns position r

/-- What a page takes from the rest. -/
structure PageSpec (pretty : Value → String) (parseUrl : String → Option Url) (print : Value → String) (thread : String)
    (turnPlaces : String → Option Nat) (itemPlaces : String → String → Option Nat) (isFloat : String → Prop)
    (turns : List NativeTurn) (r : Rest) (page : HistoryPage) (r' : Rest) : Prop where
  taken : Taken pretty parseUrl thread r page.turns r'
  next : Stands print turnPlaces itemPlaces isFloat thread turns page.nextCursor r'
  fits : page.turns.length ≤ TURN_LIMIT
  items : itemCount page.turns ≤ ITEM_LIMIT
  progress : page.turns ≠ [] ∨ page.nextCursor = none

theorem PageSpec.grow {turns turns' : List NativeTurn} {page : HistoryPage}
    (h : PageSpec pretty parseUrl print thread turnPlaces itemPlaces isFloat turns r page r') (hgrow : turns <:+ turns') :
    PageSpec pretty parseUrl print thread turnPlaces itemPlaces isFloat turns' r page r' := by
  refine ⟨h.taken, ?_, h.fits, h.items, h.progress⟩
  have hnext := h.next
  obtain ⟨newer, rfl⟩ := hgrow
  unfold Stands at hnext ⊢
  split at hnext
  · exact hnext
  · obtain ⟨position, hprint, hat⟩ := hnext
    exact ⟨position, hprint, hat.grow⟩

/-- The parts of `page` behind the position. -/
theorem page_of_turns (isFloat : String → Prop) {position : Value} {I : List NativeTurn → Rest → Prop}
    (hserving : Serving M history bound.session.id turnPlaces itemPlaces) {cursor : Option String}
    (hposition : History.position parse bound.session.id cursor = .ok position)
    (hturns : ∀ a, history s <:+ history a → Always M (turnsFrom pretty parseUrl bound.session.id TURN_LIMIT 0 position) a
      (fun result b => history a <:+ history b ∧ ∃ r r', I (history b) r ∧ TurnsSpec pretty parseUrl bound.session.id
        turnPlaces itemPlaces isFloat (history b) TURN_LIMIT 0 r result r') (fun _ _ => False)) :
    Always M (page pretty parseUrl print parse bound cursor) s (fun page b => history s <:+ history b ∧
      ∃ r r', I (history b) r ∧ PageSpec pretty parseUrl print bound.session.id turnPlaces itemPlaces isFloat (history b) r
        page r') (fun _ _ => False) := by
  unfold page
  rw [hposition]
  refine .bind (R := fun found b => position = found ∧ s = b) (.pure ⟨rfl, rfl⟩) ?_
  rintro _ _ ⟨rfl, rfl⟩
  refine .bind (R := fun v b => history s <:+ history b ∧ ∃ id, ((v.index "thread").index "id").asStr = some id)
    (always_call fun a ha => ?_) ?_
  · obtain ⟨v, id, hanswer, hid⟩ := hserving.read a
    rw [hanswer]
    exact ⟨(hserving.rely s a ha).trans (hserving.exec _ a), id, hid⟩
  · rintro v b ⟨hgrow, id, hid⟩
    refine .bind (R := fun _ c => b = c) (always_ofExcept ?_) ?_
    · unfold session
      rw [hid]
      rfl
    · rintro found _ rfl
      refine .bind (hturns b hgrow) ?_
      rintro ⟨turns, last⟩ c ⟨hgrow', r, r', hr, hspec⟩
      refine .pure ⟨hgrow.trans hgrow', r, r', hr, hspec.taken, ?_, hspec.fits, ?_, ?_⟩
      · have hafter := hspec.after
        cases last with
        | none => exact hafter
        | some position => exact ⟨position, rfl, hafter⟩
      · have hitems := hspec.items
        simpa using hitems
      · rcases hspec.progress (by decide) (by decide) with hsome | hend
        · exact .inl hsome
        · exact .inr (by simp only at hend; rw [hend]; rfl)

/-- A page that an engine of its own reads. -/
theorem read_of_page (hserving : Serving M history bound.session.id turnPlaces itemPlaces) {cursor : Option String}
    {J : List NativeTurn → HistoryPage → Prop} (hJ : ∀ turns turns' page, J turns page → turns <:+ turns' → J turns' page)
    (hpage : ∀ a, history s <:+ history a → Always M (page pretty parseUrl print parse bound cursor) a
      (fun page b => history a <:+ history b ∧ J (history b) page) (fun _ _ => False)) :
    Always M (read pretty parseUrl print parse bound cursor) s
      (fun page b => history s <:+ history b ∧ J (history b) page) (fun _ _ => False) := by
  refine always_withEngine fun a ha => ?_
  have hgrow := (hserving.rely s a ha).trans (hserving.exec (.start bound.codexHome) a)
  rw [hserving.start a bound.codexHome]
  refine .mono (hpage _ hgrow) (fun page b hb c hc => ?_) fun _ _ h => h.elim
  have hend := (hserving.rely b c hc).trans (hserving.exec .shutdown c)
  exact ⟨(hgrow.trans hb.1).trans hend, hJ _ _ _ hb.2 hend⟩

-- ---------------------------------------------------------------------------
-- All pages
-- ---------------------------------------------------------------------------

/-- A page is asked for, of a thread that is open or with an engine of its own. -/
inductive Called (pretty : Value → String) (parseUrl : String → Option Url) (print : Value → String)
    (parse : String → Option Value) (M : Machine Op Ans σ) (bound : SessionBinding) (cursor : Option String) (s : σ)
    (result : Except Fault HistoryPage) (t : σ) : Prop
  | page : Prog.Ends M (page pretty parseUrl print parse bound cursor).run s result t →
      Called pretty parseUrl print parse M bound cursor s result t
  | read : Prog.Ends M (read pretty parseUrl print parse bound cursor).run s result t →
      Called pretty parseUrl print parse M bound cursor s result t

theorem called_of_page (hserving : Serving M history bound.session.id turnPlaces itemPlaces) {cursor : Option String}
    {result : Except Fault HistoryPage} {t : σ} {J : List NativeTurn → HistoryPage → Prop}
    (hJ : ∀ turns turns' page, J turns page → turns <:+ turns' → J turns' page)
    (hpage : ∀ a, history s <:+ history a → Always M (page pretty parseUrl print parse bound cursor) a
      (fun page b => history a <:+ history b ∧ J (history b) page) (fun _ _ => False))
    (h : Called pretty parseUrl print parse M bound cursor s result t) :
    ∃ page, result = .ok page ∧ history s <:+ history t ∧ J (history t) page := by
  have hread := read_of_page hserving hJ hpage
  cases result with
  | ok page =>
    refine ⟨page, rfl, ?_⟩
    cases h with
    | page hends => exact (hpage s List.suffix_rfl).ends hends
    | read hends => exact hread.ends hends
  | error fault =>
    cases h with
    | page hends => exact ((hpage s List.suffix_rfl).fails hends).elim
    | read hends => exact (hread.fails hends).elim

/-- The first page shows what is there, and perhaps turns that come in meanwhile. -/
theorem called_first (hserving : Serving M history bound.session.id turnPlaces itemPlaces)
    (hproper : ∀ s, ∀ t ∈ history s, t.metadata.Proper isFloat) {result : Except Fault HistoryPage} {t : σ}
    (h : Called pretty parseUrl print parse M bound none s result t) :
    ∃ page, result = .ok page ∧ history s <:+ history t ∧ ∃ turns r', history s <:+ turns ∧ turns <:+ history t ∧
      PageSpec pretty parseUrl print bound.session.id turnPlaces itemPlaces isFloat (history t) ⟨none, turns⟩ page r' := by
  refine called_of_page hserving (J := fun now page => ∃ turns r', history s <:+ turns ∧ turns <:+ now ∧
    PageSpec pretty parseUrl print bound.session.id turnPlaces itemPlaces isFloat now ⟨none, turns⟩ page r') ?_ ?_ h
  · rintro now now' page ⟨turns, r', hold, hnew, hspec⟩ hgrow
    exact ⟨turns, r', hold, hnew.trans hgrow, hspec.grow hgrow⟩
  · intro a ha
    refine .mono (page_of_turns isFloat hserving rfl
      (I := fun now r => r.pinned = none ∧ history a <:+ r.turns ∧ r.turns <:+ now) fun b hb => ?_) ?_ fun _ _ h => h
    · refine .mono (turnsFrom_first hserving hproper 19 b) ?_ fun _ _ h => h
      rintro result c ⟨hgrow, r, r', ⟨hnone, hold, hnew⟩, hspec⟩
      exact ⟨hgrow, r, r', ⟨hnone, hb.trans hold, hnew⟩, hspec⟩
    · rintro page b ⟨hgrow, ⟨_, turns⟩, r', ⟨rfl, hold, hnew⟩, hspec⟩
      exact ⟨hgrow, turns, r', ha.trans hold, hnew, hspec⟩

/-- A later page goes on with what its cursor stands for. -/
theorem called_next (hserving : Serving M history bound.session.id turnPlaces itemPlaces)
    (hproper : ∀ s, ∀ t ∈ history s, t.metadata.Proper isFloat) (hjson : JsonText print parse isFloat f) {cursor : String}
    {result : Except Fault HistoryPage} {t : σ}
    (hcursor : Stands print turnPlaces itemPlaces isFloat bound.session.id (history s) (some cursor) r)
    (h : Called pretty parseUrl print parse M bound (some cursor) s result t) :
    ∃ page, result = .ok page ∧ history s <:+ history t ∧ ∃ r',
      PageSpec pretty parseUrl print bound.session.id turnPlaces itemPlaces isFloat (history t) r page r' := by
  obtain ⟨position, rfl, hat⟩ := hcursor
  refine called_of_page hserving (J := fun now page => ∃ r',
    PageSpec pretty parseUrl print bound.session.id turnPlaces itemPlaces isFloat now r page r') ?_ ?_ h
  · rintro now now' page ⟨r', hspec⟩ hgrow
    exact ⟨r', hspec.grow hgrow⟩
  · intro a ha
    obtain ⟨newer, hnewer⟩ := ha
    obtain ⟨hprinted, hagain⟩ := (hnewer ▸ hat.grow : At _ _ _ _ (history a) position r).reread hjson.float
    refine .mono (page_of_turns isFloat hserving (position_at (hjson.read position hprinted) hagain)
      (I := fun _ r'' => r'' = r) fun b hb => ?_) ?_ fun _ _ h => h
    · obtain ⟨newer', hnewer'⟩ := hb
      refine .mono (turnsFrom_at hserving hproper TURN_LIMIT 0 b (position.reread f) r (Nat.zero_le _)
        (hnewer' ▸ hagain.grow)) ?_ fun _ _ h => h
      rintro result c ⟨hgrow, r', hspec⟩
      exact ⟨hgrow, r, r', rfl, hspec⟩
    · rintro page b ⟨hgrow, _, r', rfl, hspec⟩
      exact ⟨hgrow, r', hspec⟩

/-- Pages of a history, each at the cursor of the one before; newer turns may be
appended before each call. The cursor behind them is given. -/
inductive Reading (pretty : Value → String) (parseUrl : String → Option Url) (print : Value → String)
    (parse : String → Option Value) (M : Machine Op Ans σ) (bound : SessionBinding) (history : σ → List NativeTurn) (s : σ) :
    List HistoryPage → Option String → σ → Prop
  | first {page : HistoryPage} {t : σ} : Called pretty parseUrl print parse M bound none s (.ok page) t →
      Reading pretty parseUrl print parse M bound history s [page] page.nextCursor t
  | next {pages : List HistoryPage} {cursor : String} {page : HistoryPage} {t u v : σ} :
      Reading pretty parseUrl print parse M bound history s pages (some cursor) t → history t <:+ history u →
      Called pretty parseUrl print parse M bound (some cursor) u (.ok page) v →
      Reading pretty parseUrl print parse M bound history s (pages ++ [page]) page.nextCursor v

/-- What the pages of a reading have shown of the turns it began with. -/
structure Progress (pretty : Value → String) (parseUrl : String → Option Url) (print : Value → String) (thread : String)
    (turnPlaces : String → Option Nat) (itemPlaces : String → String → Option Nat) (isFloat : String → Prop)
    (now turns : List NativeTurn) (pages : List HistoryPage) (next : Option String) (r : Rest) : Prop where
  taken : Taken pretty parseUrl thread ⟨none, turns⟩ (pages.flatMap HistoryPage.turns) r
  stands : Stands print turnPlaces itemPlaces isFloat thread now next r
  fits : ∀ page ∈ pages, page.turns.length ≤ TURN_LIMIT ∧ itemCount page.turns ≤ ITEM_LIMIT
  finite : pages.length ≤ (pages.flatMap HistoryPage.turns).length + 1
  moves : next ≠ none → pages.length ≤ (pages.flatMap HistoryPage.turns).length

theorem Stands.grow {turns turns' : List NativeTurn} {cursor : Option String}
    (h : Stands print turnPlaces itemPlaces isFloat thread turns cursor r) (hgrow : turns <:+ turns') :
    Stands print turnPlaces itemPlaces isFloat thread turns' cursor r := by
  obtain ⟨newer, rfl⟩ := hgrow
  cases cursor with
  | none => exact h
  | some cursor =>
    obtain ⟨position, hprint, hat⟩ := h
    exact ⟨position, hprint, hat.grow⟩

theorem reading_progress (hserving : Serving M history bound.session.id turnPlaces itemPlaces)
    (hproper : ∀ s, ∀ t ∈ history s, t.metadata.Proper isFloat) (hjson : JsonText print parse isFloat f)
    {pages : List HistoryPage} {next : Option String} {t : σ}
    (h : Reading pretty parseUrl print parse M bound history s pages next t) :
    ∃ turns r, history s <:+ turns ∧ turns <:+ history t ∧
      Progress pretty parseUrl print bound.session.id turnPlaces itemPlaces isFloat (history t) turns pages next r := by
  induction h with
  | first hcalled =>
    obtain ⟨page, hpage, -, turns, r', hold, hnew, hspec⟩ := called_first hserving hproper hcalled
    obtain rfl := Except.ok.inj hpage
    refine ⟨turns, r', hold, hnew, by simpa using hspec.taken, hspec.next, ?_, Nat.le_add_left 1 _, fun hnext => ?_⟩
    · intro page hin
      obtain rfl := List.mem_singleton.mp hin
      exact ⟨hspec.fits, hspec.items⟩
    · have hpos := List.length_pos_iff.mpr (hspec.progress.resolve_right hnext)
      rw [List.flatMap_singleton]
      exact hpos
  | @next pages cursor page t u v _ hgrow hcalled ih =>
    obtain ⟨turns, r, hold, hnew, hprogress⟩ := ih
    obtain ⟨page', hpage, hgrow', r', hspec⟩ := called_next hserving hproper hjson (hprogress.stands.grow hgrow) hcalled
    obtain rfl := Except.ok.inj hpage
    have hmoves := hprogress.moves (by intro hnone; cases hnone)
    have hflat : (pages ++ [page]).flatMap HistoryPage.turns = pages.flatMap HistoryPage.turns ++ page.turns := by simp
    refine ⟨turns, r', hold, (hnew.trans hgrow).trans hgrow', ?_, hspec.next, ?_, ?_, fun hnext => ?_⟩
    · rw [hflat]
      exact hprogress.taken.append hspec.taken
    · intro other hin
      rcases List.mem_append.mp hin with hin | hin
      · exact hprogress.fits other hin
      · obtain rfl := List.mem_singleton.mp hin
        exact ⟨hspec.fits, hspec.items⟩
    · rw [hflat, List.length_append, List.length_append, List.length_singleton]
      omega
    · have hpos := List.length_pos_iff.mpr (hspec.progress.resolve_right hnext)
      rw [hflat, List.length_append, List.length_append, List.length_singleton]
      omega

/-- What a reading has come to: `turns` are those there were at its start, and perhaps newer ones. -/
structure ReadingSpec (pretty : Value → String) (parseUrl : String → Option Url) (print : Value → String)
    (parse : String → Option Value) (M : Machine Op Ans σ) (bound : SessionBinding) (history : σ → List NativeTurn) (s : σ)
    (pages : List HistoryPage) (next : Option String) (t : σ) (turns : List NativeTurn) : Prop where
  began : history s <:+ turns
  since : turns <:+ history t
  fits : ∀ page ∈ pages, page.turns.length ≤ TURN_LIMIT ∧ itemCount page.turns ≤ ITEM_LIMIT
  finite : pages.length ≤ (turns.map fun t => t.items.length + 1).sum + 1
  whole : next = none → Covers pretty parseUrl bound.session.id turns (pages.flatMap HistoryPage.turns)
  answered : ∀ cursor, next = some cursor → ∀ u result v, history t <:+ history u →
    Called pretty parseUrl print parse M bound (some cursor) u result v → ∃ page, result = .ok page

end RemoteCodex.Adapter.History
