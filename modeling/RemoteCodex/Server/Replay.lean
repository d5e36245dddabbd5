import Mathlib.Algebra.BigOperators.Group.List.Basic
import RemoteCodex.Interact.Pages
import RemoteCodex.Interact.Runs
import RemoteCodex.Server.Store

/-!
# Replay of a channel's events

The actor of a channel appends events, subscribers acknowledge and read them,
each by statements and transactions of its own. `log` is every event that was
ever appended; the code keeps only what the replay buffers hold.
-/

namespace RemoteCodex.Server

open Interact Protocol

/-- A subscriber calls `execution_events` again and again with its own cursor.
`reading`: the first query of the call has passed. `start` and `received` say
where it began and what it has got; the code does not keep them. -/
structure Subscriber where
  channel : String
  start : Int
  cursor : Int
  reading : Bool := false
  expired : Bool := false
  received : List ExecEvent := []

structure Replay where
  store : Store := {}
  log : List ExecEvent := []
  subscribers : List Subscriber := []

/-- `read k n`: the subscriber gets the first `n` of the rows that its call
returns, before its connection is lost or it calls again. -/
inductive ReplayEvent
  | create (channel profile : String) (revision : Int)
  | append (channel : String) (value : Value)
  | prune (channel : String) (ack : Int)
  | compact (channel : String) (ack : Int)
  | subscribe (channel : String) (after : Int)
  | check (k : Nat)
  | read (k n : Nat)

namespace Replay

/-- What a call returns whose first query has passed. -/
def rows (s : Replay) (sub : Subscriber) : List ExecEvent := s.store.replayRows sub.channel sub.cursor

def next (s : Replay) : ReplayEvent → Option Replay
  | .create channel profile revision =>
    match s.store.createChannel channel profile revision with
    | .ok store => some { s with store }
    | .error _ => some s
  | .append channel value =>
    match s.store.appendEvent channel value with
    | .ok (cursor, store) => some { s with store, log := s.log ++ [⟨cursor, channel, value⟩] }
    | .error _ => some s
  | .prune channel ack => some { s with store := s.store.pruneAcknowledged channel ack }
  | .compact channel ack => some { s with store := s.store.compactOperations channel ack }
  | .subscribe channel after =>
    some { s with subscribers := s.subscribers ++ [{ channel, start := after, cursor := after }] }
  | .check k =>
    s.subscribers[k]?.bind fun sub =>
      if sub.reading then none
      else
        match s.store.replayFrom sub.channel sub.cursor with
        | .ok _ => some { s with subscribers := s.subscribers.set k { sub with reading := true } }
        | .error _ => some { s with subscribers := s.subscribers.set k { sub with expired := true } }
  | .read k n =>
    s.subscribers[k]?.bind fun sub =>
      if sub.reading then
        let got := (s.rows sub).take n
        some { s with
          subscribers := s.subscribers.set k { sub with
            reading := false
            cursor := (got.getLast?.map ExecEvent.cursor).getD sub.cursor
            received := sub.received ++ got } }
      else none

abbrev Reaches (C : Replay → ReplayEvent → Prop) (h : List ReplayEvent) (s : Replay) : Prop := Run next C {} h s

def bytesOf (channel : String) (rows : List ExecEvent) : Int :=
  ((Store.eventsOf channel rows).map fun row => (row.record.size : Int)).sum

/-- Nothing behind the cursor of a call between its two queries is deleted: an
append to its channel leaves what the call is to return within the buffer's
limit, and an acknowledgement for its channel covers none of it outside the tail. -/
def Undisturbed (s : Replay) : ReplayEvent → Prop
  | .append channel value => ∀ sub ∈ s.subscribers, sub.reading = true → sub.channel = channel →
      bytesOf channel (s.store.execEvents.filter fun row => sub.cursor < row.cursor) + value.size ≤ Store.REPLAY_LIMIT
  | .prune channel ack => ∀ sub ∈ s.subscribers, sub.reading = true → sub.channel = channel →
      ∀ row ∈ s.store.acknowledged channel ack, row.cursor ≤ sub.cursor
  | _ => True

instance (s : Replay) (e : ReplayEvent) : Decidable (Undisturbed s e) :=
  match e with
  | .append channel value => inferInstanceAs (Decidable (∀ sub ∈ s.subscribers, sub.reading = true →
      sub.channel = channel → bytesOf channel (s.store.execEvents.filter fun row => sub.cursor < row.cursor) +
        value.size ≤ Store.REPLAY_LIMIT))
  | .prune channel ack => inferInstanceAs (Decidable (∀ sub ∈ s.subscribers, sub.reading = true →
      sub.channel = channel → ∀ row ∈ s.store.acknowledged channel ack, row.cursor ≤ sub.cursor))
  | .create .. | .compact .. | .subscribe .. | .check _ | .read .. => .isTrue trivial

/-- The events of a channel behind a cursor. -/
def behind (channel : String) (after : Int) (log : List ExecEvent) : List ExecEvent :=
  log.filter fun row => row.channel = channel ∧ after < row.cursor

-- ---------------------------------------------------------------------------
-- Trimming
-- ---------------------------------------------------------------------------

def Sorted (rows : List ExecEvent) : Prop := rows.Pairwise fun a b => a.cursor < b.cursor

variable {channel : String} {rows log : List ExecEvent} {bytes floor after : Int}

theorem bytesOf_cons (channel : String) (row : ExecEvent) (rows : List ExecEvent) :
    bytesOf channel (row :: rows) =
      (if row.channel = channel then (row.record.size : Int) else 0) + bytesOf channel rows := by
  unfold bytesOf Store.eventsOf
  rw [List.filter_cons]
  split <;> split <;> simp_all

theorem bytesOf_nonneg (channel : String) (rows : List ExecEvent) : 0 ≤ bytesOf channel rows := by
  induction rows with
  | nil => exact Int.le_refl 0
  | cons row rows ih =>
    rw [bytesOf_cons]
    split <;> omega

theorem bytesOf_append (channel : String) (rows more : List ExecEvent) :
    bytesOf channel (rows ++ more) = bytesOf channel rows + bytesOf channel more := by
  simp [bytesOf, Store.eventsOf]

/-- Removing rows of one channel does not change what another one holds. -/
theorem bytesOf_filter {c : String} (hc : c ≠ channel) (p : ExecEvent → Prop) [DecidablePred p] :
    bytesOf c (rows.filter fun row => ¬ (row.channel = channel ∧ p row)) = bytesOf c rows := by
  unfold bytesOf Store.eventsOf
  rw [List.filter_filter]
  congr 2
  refine List.filter_congr fun row _ => ?_
  by_cases h : row.channel = c
  · simp [h, hc]
  · simp [h]

/-- Trimming removes just the channel's rows up to the floor it returns. -/
theorem trim_rows (channel : String) (bytes : Int) (hs : Sorted rows) (hf : ∀ row ∈ rows, floor < row.cursor) :
    (Store.trim channel rows bytes floor).1 = rows.filter (fun row =>
      ¬ (row.channel = channel ∧ row.cursor ≤ (Store.trim channel rows bytes floor).2.2)) ∧
    floor ≤ (Store.trim channel rows bytes floor).2.2 := by
  induction rows generalizing bytes floor with
  | nil => exact ⟨rfl, Int.le_refl floor⟩
  | cons row rows ih =>
    obtain ⟨hrow, hs⟩ := List.pairwise_cons.mp hs
    unfold Store.trim
    split
    · split
      · next hc =>
        obtain ⟨hkeep, hle⟩ := ih (bytes - row.record.size) hs hrow
        have := hf row List.mem_cons_self
        exact ⟨by rw [List.filter_cons_of_neg (by simp [hc, hle])]; exact hkeep, by omega⟩
      · next hc =>
        obtain ⟨hkeep, hle⟩ := ih bytes hs fun r hr => hf r (List.mem_cons_of_mem _ hr)
        exact ⟨by rw [List.filter_cons_of_pos (by simp [hc])]; exact congrArg _ hkeep, hle⟩
    · refine ⟨(List.filter_eq_self.mpr ?_).symm, Int.le_refl floor⟩
      intro r hr
      have := hf r hr
      simp only [decide_eq_true_eq, not_and, Int.not_le]
      exact fun _ => this

theorem trim_bytes (hb : bytes ≤ bytesOf channel rows) :
    (Store.trim channel rows bytes floor).2.1 ≤ bytesOf channel (Store.trim channel rows bytes floor).1 := by
  induction rows generalizing bytes floor with
  | nil => exact hb
  | cons row rows ih =>
    rw [bytesOf_cons] at hb
    unfold Store.trim
    split
    · split
      · next hc =>
        rw [if_pos hc] at hb
        exact ih (by omega)
      · next hc =>
        rw [if_neg hc] at hb
        rw [bytesOf_cons, if_neg hc, Int.zero_add]
        exact ih (by omega)
    · rw [bytesOf_cons]
      exact hb

theorem trim_floor_le (hrows : ∀ row ∈ rows, row.cursor ≤ after) (hf : floor ≤ after) :
    (Store.trim channel rows bytes floor).2.2 ≤ after := by
  induction rows generalizing bytes floor with
  | nil => exact hf
  | cons row rows ih =>
    have hrest : ∀ r ∈ rows, r.cursor ≤ after := fun r hr => hrows r (List.mem_cons_of_mem _ hr)
    unfold Store.trim
    split
    · split
      · exact ih hrest (hrows row List.mem_cons_self)
      · exact ih hrest hf
    · exact hf

/-- Trimming stops before it reaches rows that fit in the buffer by themselves. -/
theorem trim_spares (hs : Sorted rows) (hb : bytes ≤ bytesOf channel rows)
    (hfit : bytesOf channel (rows.filter fun row => after < row.cursor) ≤ Store.REPLAY_LIMIT) (hf : floor ≤ after) :
    (Store.trim channel rows bytes floor).2.2 ≤ after := by
  induction rows generalizing bytes floor with
  | nil => exact hf
  | cons row rows ih =>
    obtain ⟨hrow, hs⟩ := List.pairwise_cons.mp hs
    rw [bytesOf_cons] at hb
    unfold Store.trim
    split
    · next hover =>
      split
      · next hc =>
        rw [if_pos hc] at hb
        have hle : row.cursor ≤ after := by
          by_contra hlt
          -- nothing would be left to remove but what fits
          have hall : (row :: rows).filter (fun r => after < r.cursor) = row :: rows := by
            refine List.filter_eq_self.mpr ?_
            intro r hr
            rcases List.mem_cons.mp hr with rfl | hr
            · simpa using hlt
            · have := hrow r hr
              simp only [decide_eq_true_eq]
              omega
          rw [hall, bytesOf_cons, if_pos hc] at hfit
          omega
        refine ih hs (by omega) ?_ hle
        rwa [List.filter_cons_of_neg (by simpa using hle)] at hfit
      · next hc =>
        rw [if_neg hc] at hb
        refine ih hs (by omega) ?_ hf
        rw [List.filter_cons] at hfit
        split at hfit
        · rwa [bytesOf_cons, if_neg hc, Int.zero_add] at hfit
        · exact hfit
    · exact hf

-- ---------------------------------------------------------------------------
-- What the transactions do
-- ---------------------------------------------------------------------------

variable {store store' : Store} {value : Value} {ack bound : Int}

def floorOf (store : Store) (channel : String) : Int :=
  ((store.channels.lookup channel).map Channel.replayFloor).getD 0

/-- The rows stand in the order of their cursors, each of them of a channel
that was created, and the floors have not passed what was appended. -/
structure Ordered (store : Store) : Prop where
  sequence : 0 ≤ store.sequence
  sorted : Sorted store.execEvents
  range : ∀ row ∈ store.execEvents, 0 < row.cursor ∧ row.cursor ≤ store.sequence
  known : ∀ row ∈ store.execEvents, (store.channels.lookup row.channel).isSome
  floors : ∀ channel, 0 ≤ floorOf store channel ∧ floorOf store channel ≤ store.sequence

/-- The replay buffers hold just what lies behind the floors, and the floors
have not passed what was appended. -/
structure Tidy (store : Store) (log : List ExecEvent) : Prop where
  sequence : 0 ≤ store.sequence
  sorted : Sorted log
  range : ∀ row ∈ log, 0 < row.cursor ∧ row.cursor ≤ store.sequence
  known : ∀ row ∈ log, (store.channels.lookup row.channel).isSome
  floors : ∀ channel, 0 ≤ floorOf store channel ∧ floorOf store channel ≤ store.sequence
  kept : store.execEvents = log.filter fun row => floorOf store row.channel < row.cursor
  bytes : ∀ channel row, store.channels.lookup channel = some row →
    row.replayBytes ≤ bytesOf channel store.execEvents

/-- `store'` has forgotten the channel's rows up to `bound`, and says so. -/
structure Cut (store store' : Store) (rows : List ExecEvent) (channel : String) (bound : Int) : Prop where
  nonneg : 0 ≤ bound
  rows : store'.execEvents = rows.filter fun row => ¬ (row.channel = channel ∧ row.cursor ≤ bound)
  floor : ∀ c, floorOf store' c = if c = channel then max (floorOf store c) bound else floorOf store c
  channels : ∀ c, (store'.channels.lookup c).isSome = (store.channels.lookup c).isSome

theorem Cut.kept (hcut : Cut store store' rows channel bound)
    (hrows : rows = log.filter fun row => floorOf store row.channel < row.cursor) :
    store'.execEvents = log.filter fun row => floorOf store' row.channel < row.cursor := by
  rw [hcut.rows, hrows, List.filter_filter]
  refine List.filter_congr fun row _ => ?_
  rw [hcut.floor]
  by_cases hc : row.channel = channel
  · simp only [hc, true_and, Int.not_le, if_true, ← Bool.decide_and, decide_eq_decide]
    omega
  · simp [hc]

theorem Tidy.mem_log (ht : Tidy store log) (h : row ∈ store.execEvents) : row ∈ log :=
  List.mem_of_mem_filter (ht.kept ▸ h)

theorem Tidy.ordered (ht : Tidy store log) : Ordered store where
  sequence := ht.sequence
  sorted := by
    rw [ht.kept]
    exact ht.sorted.filter _
  range row hrow := ht.range row (ht.mem_log hrow)
  known row hrow := ht.known row (ht.mem_log hrow)
  floors := ht.floors

theorem Tidy.appended_sorted (ht : Tidy store log) (channel : String) (value : Value) :
    Sorted (log ++ [⟨store.sequence + 1, channel, value⟩]) := by
  refine List.pairwise_append.mpr ⟨ht.sorted, List.pairwise_singleton _ _, ?_⟩
  intro row hrow new hnew
  rw [List.mem_singleton.mp hnew]
  have := (ht.range row hrow).2
  show row.cursor < store.sequence + 1
  omega

theorem Tidy.appended_rows (ht : Tidy store log) (channel : String) (value : Value) :
    store.execEvents ++ [(⟨store.sequence + 1, channel, value⟩ : ExecEvent)] =
      (log ++ [(⟨store.sequence + 1, channel, value⟩ : ExecEvent)]).filter fun row =>
        floorOf store row.channel < row.cursor := by
  have hnew : floorOf store channel < store.sequence + 1 := by
    have := (ht.floors channel).2
    omega
  have hone : [(⟨store.sequence + 1, channel, value⟩ : ExecEvent)].filter
      (fun row => floorOf store row.channel < row.cursor) = [⟨store.sequence + 1, channel, value⟩] :=
    List.filter_cons_of_pos (by simpa using hnew)
  rw [List.filter_append, ← ht.kept, hone]

theorem floorOf_insert (channel c : String) (row : Channel) (store : Store)
    (h : store'.channels = store.channels.insert channel row) :
    floorOf store' c = if c = channel then row.replayFloor else floorOf store c := by
  unfold floorOf
  rw [h, Table.lookup_insert_if]
  split <;> rfl

theorem isSome_insert {old row : Channel} (hold : store.channels.lookup channel = some old)
    (h : store'.channels = store.channels.insert channel row) (c : String) :
    (store'.channels.lookup c).isSome = (store.channels.lookup c).isSome := by
  rw [h, Table.lookup_insert_if]
  split
  · next hc => rw [hc, hold]; rfl
  · rfl

/-- The rows with the new one behind them. -/
theorem Ordered.appended (ho : Ordered store) (channel : String) (value : Value) :
    Sorted (store.execEvents ++ [⟨store.sequence + 1, channel, value⟩]) ∧
      ∀ row ∈ store.execEvents ++ [⟨store.sequence + 1, channel, value⟩],
        0 < row.cursor ∧ row.cursor ≤ store.sequence + 1 := by
  have hsequence := ho.sequence
  constructor
  · refine List.pairwise_append.mpr ⟨ho.sorted, List.pairwise_singleton _ _, ?_⟩
    intro row hrow new hnew
    rw [List.mem_singleton.mp hnew]
    have := (ho.range row hrow).2
    show row.cursor < store.sequence + 1
    omega
  · intro row hrow
    rcases List.mem_append.mp hrow with hrow | hrow
    · have := ho.range row hrow
      omega
    · rw [List.mem_singleton.mp hrow]
      show 0 < store.sequence + 1 ∧ store.sequence + 1 ≤ store.sequence + 1
      omega

/-- What appending an event does to the rows and the floors, and the counter it leaves. -/
theorem appendEvent_cut (ho : Ordered store) (h : store.appendEvent channel value = .ok (cursor, store')) :
    cursor = store.sequence + 1 ∧ store'.sequence = cursor ∧
      ∃ old, store.channels.lookup channel = some old ∧
        let trimmed := Store.trim channel (store.execEvents ++ [⟨cursor, channel, value⟩])
          (old.replayBytes + value.size) 0
        Cut store store' (store.execEvents ++ [⟨cursor, channel, value⟩]) channel trimmed.2.2 ∧
        trimmed.2.2 ≤ cursor ∧ store'.execEvents = trimmed.1 ∧
        store'.channels = store.channels.insert channel
          { old with replayBytes := trimmed.2.1, replayFloor := max old.replayFloor trimmed.2.2 } := by
  unfold Store.appendEvent at h
  split at h
  · cases h
  · next old hold =>
    cases h
    obtain ⟨hsorted, hrange⟩ := ho.appended channel value
    obtain ⟨hkeep, hpos⟩ := trim_rows channel (old.replayBytes + value.size) hsorted
      fun row hrow => (hrange row hrow).1
    refine ⟨rfl, rfl, old, hold, ⟨hpos, hkeep, ?_, isSome_insert hold rfl⟩, ?_, rfl, rfl⟩
    · intro c
      rw [floorOf_insert channel c _ store rfl]
      split
      · next hc => rw [hc, floorOf, hold]; rfl
      · rfl
    · exact trim_floor_le (fun row hrow => (hrange row hrow).2) (by have := ho.sequence; omega)

/-- Appending an event to one channel leaves what the others hold. -/
theorem Cut.bytesOf_other {c : String} (hcut : Cut store store' rows channel bound) (hc : c ≠ channel) :
    bytesOf c store'.execEvents = bytesOf c rows := by
  rw [hcut.rows, bytesOf_filter hc]

theorem bytesOf_appended (c channel : String) (rows : List ExecEvent) (cursor : Int) (value : Value) :
    bytesOf c (rows ++ [⟨cursor, channel, value⟩]) =
      bytesOf c rows + if channel = c then (value.size : Int) else 0 := by
  rw [bytesOf_append, bytesOf_cons]
  exact congrArg _ (Int.add_zero _)

theorem Tidy.append_bytes (ht : Tidy store log) (h : store.appendEvent channel value = .ok (cursor, store')) :
    ∀ c row, store'.channels.lookup c = some row → row.replayBytes ≤ bytesOf c store'.execEvents := by
  obtain ⟨-, -, old, hold, hcut, -, hevents, hchannels⟩ := appendEvent_cut ht.ordered h
  intro c row hrow
  rw [hchannels, Table.lookup_insert_if] at hrow
  split at hrow
  · next hc =>
    obtain rfl := Option.some.inj hrow
    rw [hc, hevents]
    refine trim_bytes ?_
    have := ht.bytes channel old hold
    rw [bytesOf_appended, if_pos rfl]
    omega
  · next hc =>
    -- another channel's rows are not touched
    have hsame := hcut.bytesOf_other hc
    rw [bytesOf_appended, if_neg fun h => hc h.symm, Int.add_zero] at hsame
    exact hsame ▸ ht.bytes c row hrow

/-- Appending an event removes nothing that fits in the buffer together with it. -/
theorem Tidy.append_spares (ht : Tidy store log) (h : store.appendEvent channel value = .ok (cursor, store'))
    (hafter : 0 ≤ after) (hseq : after ≤ store.sequence)
    (hfit : bytesOf channel (store.execEvents.filter fun row => after < row.cursor) + value.size ≤
      Store.REPLAY_LIMIT) :
    ∃ bound, Cut store store' (store.execEvents ++ [⟨cursor, channel, value⟩]) channel bound ∧ bound ≤ after := by
  obtain ⟨rfl, -, old, hold, hcut, -, -, -⟩ := appendEvent_cut ht.ordered h
  refine ⟨_, hcut, trim_spares (ht.ordered.appended channel value).1 ?_ ?_ hafter⟩
  · have := ht.bytes channel old hold
    rw [bytesOf_appended, if_pos rfl]
    omega
  · rw [List.filter_append, List.filter_cons_of_pos (by simp; omega), List.filter_nil, bytesOf_appended, if_pos rfl]
    exact hfit

theorem foldl_max_le {cursors : List Int} {m : Int} (hm : m ≤ after) (h : ∀ c ∈ cursors, c ≤ after) :
    cursors.foldl max m ≤ after := by
  induction cursors generalizing m with
  | nil => exact hm
  | cons c cursors ih =>
    refine ih ?_ fun d hd => h d (List.mem_cons_of_mem _ hd)
    have := h c List.mem_cons_self
    omega

theorem le_foldl_max (cursors : List Int) (m : Int) : m ≤ cursors.foldl max m := by
  induction cursors generalizing m with
  | nil => exact Int.le_refl m
  | cons c cursors ih =>
    have := ih (max m c)
    simp only [List.foldl_cons]
    omega

theorem foldl_max_mem (cursors : List Int) (m : Int) : cursors.foldl max m = m ∨ cursors.foldl max m ∈ cursors := by
  induction cursors generalizing m with
  | nil => exact .inl rfl
  | cons c cursors ih =>
    rcases ih (max m c) with h | h
    · simp only [List.foldl_cons, h]
      rcases Int.le_total m c with hle | hle
      · exact .inr (by simp [Int.max_eq_right hle])
      · exact .inl (Int.max_eq_left hle)
    · exact .inr (List.mem_cons_of_mem _ h)

/-- An acknowledgement removes nothing of the tail: what goes was counted. -/
theorem acknowledged_of_le (ho : Ordered store) (hrow : row ∈ store.execEvents) (hc : row.channel = channel)
    (hle : row.cursor ≤ ((store.acknowledged channel ack).map ExecEvent.cursor).foldl max 0) :
    row ∈ store.acknowledged channel ack := by
  have hpos := (ho.range row hrow).1
  rcases foldl_max_mem ((store.acknowledged channel ack).map ExecEvent.cursor) 0 with h | h
  · omega
  · obtain ⟨top, htop, heq⟩ := List.mem_map.mp h
    rw [← heq] at hle
    unfold Store.acknowledged at htop ⊢
    obtain ⟨htaken, hack⟩ := List.mem_filter.mp htop
    have hack : top.cursor ≤ ack := by simpa using hack
    have hmem : row ∈ Store.eventsOf channel store.execEvents := List.mem_filter.mpr ⟨hrow, by simpa using hc⟩
    have hsorted : Sorted (Store.eventsOf channel store.execEvents) := ho.sorted.filter _
    refine List.mem_filter.mpr ⟨?_, by simp; omega⟩
    rw [← List.take_append_drop ((Store.eventsOf channel store.execEvents).length - Store.REPLAY_TAIL)
      (Store.eventsOf channel store.execEvents)] at hmem hsorted
    rcases List.mem_append.mp hmem with hm | hm
    · exact hm
    · have := (List.pairwise_append.mp hsorted).2.2 top htaken row hm
      omega

theorem Sorted.nodup (hs : Sorted rows) : rows.Nodup := by
  refine hs.imp ?_
  rintro a b hlt rfl
  exact Int.lt_irrefl _ hlt

theorem sizes_le {l m : List ExecEvent} (hn : l.Nodup) (h : l ⊆ m) :
    (l.map fun row => (row.record.size : Int)).sum ≤ (m.map fun row => (row.record.size : Int)).sum := by
  obtain ⟨k, hperm, hsub⟩ := List.subperm_of_subset hn h
  rw [← (hperm.map _).sum_eq]
  clear hperm h hn
  induction hsub with
  | slnil => exact Int.le_refl _
  | cons row _ ih =>
    simp only [List.map_cons, List.sum_cons]
    omega
  | cons_cons row _ ih =>
    simp only [List.map_cons, List.sum_cons]
    omega

theorem sizes_split (rows : List ExecEvent) (p : ExecEvent → Bool) :
    (rows.map fun row => (row.record.size : Int)).sum =
      ((rows.filter p).map fun row => (row.record.size : Int)).sum +
        ((rows.filter fun row => !p row).map fun row => (row.record.size : Int)).sum := by
  induction rows with
  | nil => rfl
  | cons row rows ih =>
    cases h : p row with
    | true =>
      simp only [List.map_cons, List.sum_cons, List.filter_cons, h, Bool.not_true, if_true, Bool.false_eq_true,
        if_false]
      omega
    | false =>
      simp only [List.map_cons, List.sum_cons, List.filter_cons, h, Bool.not_false, if_true, Bool.false_eq_true,
        if_false]
      omega

theorem pruneAcknowledged_events (store : Store) (channel : String) (ack : Int) :
    (store.pruneAcknowledged channel ack).execEvents = store.execEvents.filter fun row =>
      ¬ (row.channel = channel ∧
        row.cursor ≤ ((store.acknowledged channel ack).map ExecEvent.cursor).foldl max 0) := rfl

theorem mem_acknowledged (h : row ∈ store.acknowledged channel ack) :
    row ∈ store.execEvents ∧ row.channel = channel ∧ row.cursor ≤ ack := by
  unfold Store.acknowledged at h
  obtain ⟨htaken, hack⟩ := List.mem_filter.mp h
  have := List.mem_filter.mp (List.mem_of_mem_take htaken)
  exact ⟨this.1, by simpa using this.2, by simpa using hack⟩

/-- The last cursor that an acknowledgement covers outside the tail. -/
def ackBound (store : Store) (channel : String) (ack : Int) : Int :=
  ((store.acknowledged channel ack).map ExecEvent.cursor).foldl max 0

theorem le_ackBound (h : row ∈ store.acknowledged channel ack) : row.cursor ≤ ackBound store channel ack := by
  have hle : ∀ (cursors : List Int) (m : Int), ∀ c ∈ cursors, c ≤ cursors.foldl max m := by
    intro cursors
    induction cursors with
    | nil => intro m c hc; cases hc
    | cons d cursors ih =>
      intro m c hc
      rcases List.mem_cons.mp hc with rfl | hc
      · exact Int.le_trans (Int.le_max_right m c) (le_foldl_max cursors (max m c))
      · exact ih (max m d) c hc
  exact hle _ 0 _ (List.mem_map_of_mem h)

theorem ackBound_le (hafter : 0 ≤ after) (hall : ∀ row ∈ store.acknowledged channel ack, row.cursor ≤ after) :
    ackBound store channel ack ≤ after := by
  refine foldl_max_le hafter ?_
  intro c hc
  obtain ⟨row, hrow, rfl⟩ := List.mem_map.mp hc
  exact hall row hrow

/-- What an acknowledgement removes was subtracted. -/
theorem bytesOf_removed (ho : Ordered store) (channel : String) (ack : Int) :
    bytesOf channel store.execEvents =
      bytesOf channel (store.pruneAcknowledged channel ack).execEvents +
        ((store.acknowledged channel ack).map fun row => (row.record.size : Int)).sum := by
  have hsorted := ho.sorted.filter fun row => decide (row.channel = channel)
  have hgone : (((Store.eventsOf channel store.execEvents).filter fun row =>
      row.cursor ≤ ackBound store channel ack).map fun row => (row.record.size : Int)).sum =
      ((store.acknowledged channel ack).map fun row => (row.record.size : Int)).sum := by
    apply Int.le_antisymm
    · refine sizes_le (hsorted.filter _).nodup ?_
      intro row hrow
      obtain ⟨hrow, hle⟩ := List.mem_filter.mp hrow
      obtain ⟨hrow, hc⟩ := List.mem_filter.mp hrow
      exact acknowledged_of_le ho hrow (by simpa using hc) (of_decide_eq_true hle)
    · refine sizes_le ((hsorted.sublist (List.take_sublist _ _)).filter _).nodup ?_
      intro row hrow
      obtain ⟨hin, hc, -⟩ := mem_acknowledged hrow
      refine List.mem_filter.mpr ⟨List.mem_filter.mpr ⟨hin, by simpa using hc⟩, ?_⟩
      simpa using le_ackBound hrow
  have hleft : Store.eventsOf channel (store.execEvents.filter fun row =>
      ¬ (row.channel = channel ∧ row.cursor ≤ ackBound store channel ack)) =
      (Store.eventsOf channel store.execEvents).filter fun row =>
        !decide (row.cursor ≤ ackBound store channel ack) := by
    unfold Store.eventsOf
    rw [List.filter_filter, List.filter_filter]
    refine List.filter_congr fun row _ => ?_
    by_cases h : row.channel = channel
    · simp only [h, true_and, decide_true, Bool.true_and, Bool.and_true, decide_not]
    · simp [h]
  have hsplit := sizes_split (Store.eventsOf channel store.execEvents) fun row =>
    decide (row.cursor ≤ ackBound store channel ack)
  have hevents := pruneAcknowledged_events store channel ack
  unfold bytesOf
  rw [hevents]
  change _ = (List.map _ (Store.eventsOf channel (store.execEvents.filter fun row =>
    ¬ (row.channel = channel ∧ row.cursor ≤ ackBound store channel ack)))).sum + _
  rw [hleft]
  omega

/-- What an acknowledgement does to the rows and the floors. -/
theorem pruneAcknowledged_cut (ho : Ordered store) (channel : String) (ack : Int) :
    Cut store (store.pruneAcknowledged channel ack) store.execEvents channel (ackBound store channel ack) ∧
      ackBound store channel ack ≤ store.sequence := by
  refine ⟨⟨le_foldl_max _ 0, rfl, ?_, ?_⟩, ?_⟩
  · intro c
    cases hold : store.channels.lookup channel with
    | none =>
      -- a channel that was never created has no rows
      have hnil : store.acknowledged channel ack = [] := by
        refine List.eq_nil_iff_forall_not_mem.mpr fun row hrow => ?_
        obtain ⟨hin, hc, -⟩ := mem_acknowledged hrow
        have := ho.known row hin
        rw [hc, hold] at this
        cases this
      have hfloor : floorOf (store.pruneAcknowledged channel ack) c = floorOf store c := by
        unfold floorOf Store.pruneAcknowledged
        simp only [hold]
      rw [hfloor, ackBound, hnil]
      split
      · have := (ho.floors c).1
        exact (Int.max_eq_left this).symm
      · rfl
    | some old =>
      rw [floorOf_insert channel c _ store (by unfold Store.pruneAcknowledged; simp only [hold]; rfl)]
      split
      · next hc => rw [hc, floorOf, hold]; rfl
      · rfl
  · intro c
    cases hold : store.channels.lookup channel with
    | none => simp only [Store.pruneAcknowledged, hold]
    | some old => exact isSome_insert hold (by unfold Store.pruneAcknowledged; simp only [hold]; rfl) c
  · apply ackBound_le ho.sequence
    exact fun row hrow => (ho.range row (mem_acknowledged hrow).1).2

/-- The counter that an acknowledgement leaves. -/
theorem pruneAcknowledged_row {c : String} {row : Channel}
    (h : (store.pruneAcknowledged channel ack).channels.lookup c = some row) :
    ∃ old, store.channels.lookup c = some old ∧ row.replayBytes =
      if c = channel then
        max 0 (old.replayBytes - ((store.acknowledged channel ack).map fun row => (row.record.size : Int)).sum)
      else old.replayBytes := by
  cases hold : store.channels.lookup channel with
  | none =>
    simp only [Store.pruneAcknowledged, hold] at h
    refine ⟨row, h, ?_⟩
    rw [if_neg]
    rintro rfl
    rw [hold] at h
    cases h
  | some old =>
    simp only [Store.pruneAcknowledged, hold] at h
    rw [Table.lookup_insert_if] at h
    split at h
    · next hc =>
      obtain rfl := Option.some.inj h
      exact ⟨old, hc ▸ hold, (if_pos hc).symm⟩
    · next hc => exact ⟨row, h, (if_neg hc).symm⟩

theorem Tidy.append (ht : Tidy store log) (h : store.appendEvent channel value = .ok (cursor, store')) :
    Tidy store' (log ++ [⟨cursor, channel, value⟩]) := by
  have hbytes := ht.append_bytes h
  obtain ⟨rfl, hseq, old, hold, hcut, hbound, -, -⟩ := appendEvent_cut ht.ordered h
  have hsequence := ht.sequence
  refine ⟨by omega, ht.appended_sorted channel value, ?_, ?_, ?_, hcut.kept (ht.appended_rows channel value), hbytes⟩
  · intro row hrow
    rcases List.mem_append.mp hrow with hrow | hrow
    · have := ht.range row hrow
      omega
    · rw [List.mem_singleton.mp hrow]
      show 0 < store.sequence + 1 ∧ store.sequence + 1 ≤ _
      omega
  · intro row hrow
    rw [hcut.channels]
    rcases List.mem_append.mp hrow with hrow | hrow
    · exact ht.known row hrow
    · rw [List.mem_singleton.mp hrow]
      show (store.channels.lookup channel).isSome
      rw [hold]
      rfl
  · intro c
    have := ht.floors c
    have := hcut.nonneg
    rw [hcut.floor]
    split <;> omega

theorem Tidy.prune (ht : Tidy store log) (channel : String) (ack : Int) :
    Tidy (store.pruneAcknowledged channel ack) log := by
  obtain ⟨hcut, hbound⟩ := pruneAcknowledged_cut ht.ordered channel ack
  refine ⟨ht.sequence, ht.sorted, ht.range, ?_, ?_, hcut.kept ht.kept, ?_⟩
  · intro row hrow
    rw [hcut.channels]
    exact ht.known row hrow
  · intro c
    have := ht.floors c
    have := hcut.nonneg
    rw [hcut.floor]
    show _ ∧ _ ≤ store.sequence
    split <;> omega
  · intro c row hrow
    obtain ⟨old, hold, hbytes⟩ := pruneAcknowledged_row hrow
    have hb := ht.bytes c old hold
    split at hbytes
    · next hc =>
      have hrest := bytesOf_removed ht.ordered channel ack
      have := bytesOf_nonneg channel (store.pruneAcknowledged channel ack).execEvents
      rw [hc] at hb ⊢
      omega
    · next hc =>
      rw [hcut.bytesOf_other hc]
      omega

theorem createChannel_floorOf {profile : String} {revision : Int}
    (h : store.createChannel channel profile revision = .ok store') (c : String) :
    floorOf store' c = floorOf store c := by
  unfold Store.createChannel at h
  split at h
  · cases h
  · next hold =>
    cases h
    rw [floorOf_insert channel c _ store rfl]
    split
    · next hc => rw [hc, floorOf, hold]; rfl
    · rfl

theorem Tidy.create {profile : String} {revision : Int} (ht : Tidy store log)
    (h : store.createChannel channel profile revision = .ok store') : Tidy store' log := by
  have hfloor := createChannel_floorOf h
  unfold Store.createChannel at h
  split at h
  · cases h
  · next hold =>
    cases h
    refine ⟨ht.sequence, ht.sorted, ht.range, ?_, ?_, ?_, ?_⟩
    · intro row hrow
      have := ht.known row hrow
      rw [Table.lookup_insert_if]
      split
      · rfl
      · exact this
    · intro c
      rw [hfloor]
      exact ht.floors c
    · simp only [hfloor]
      exact ht.kept
    · intro c row hrow
      rw [Table.lookup_insert_if] at hrow
      split at hrow
      · obtain rfl := Option.some.inj hrow
        exact bytesOf_nonneg c _
      · exact ht.bytes c row hrow

-- ---------------------------------------------------------------------------
-- What a subscriber sees
-- ---------------------------------------------------------------------------

/-- A subscriber has got what it asked for up to its cursor, and what a call is
to return between its two queries is still there. -/
structure Served (s : Replay) (sub : Subscriber) : Prop where
  start : sub.start ≤ sub.cursor
  cursor : sub.cursor = sub.start ∨ sub.cursor ≤ s.store.sequence
  received : behind sub.channel sub.start s.log = sub.received ++ behind sub.channel sub.cursor s.log
  reading : sub.reading = true → floorOf s.store sub.channel ≤ sub.cursor

theorem replayRows_eq (ht : Tidy store log) (hfloor : floorOf store channel ≤ after) :
    store.replayRows channel after = (behind channel after log).take Store.PAGE := by
  unfold Store.replayRows behind
  rw [ht.kept, List.filter_filter]
  congr 1
  refine List.filter_congr fun row _ => ?_
  rw [← Bool.decide_and, decide_eq_decide]
  constructor
  · exact fun h => h.1
  · intro h
    refine ⟨h, ?_⟩
    rw [h.1]
    omega

theorem behind_append (channel : String) (after : Int) (log : List ExecEvent) (row : ExecEvent) :
    behind channel after (log ++ [row]) =
      behind channel after log ++ if row.channel = channel ∧ after < row.cursor then [row] else [] := by
  unfold behind
  rw [List.filter_append, List.filter_cons]
  simp

theorem behind_eq_rest (channel : String) (after : Int) (log : List ExecEvent) :
    behind channel after log = Pages.rest ExecEvent.cursor (Store.eventsOf channel log) after := by
  unfold behind Pages.rest Store.eventsOf
  rw [List.filter_filter]
  refine List.filter_congr fun row _ => ?_
  rw [← Bool.decide_and, decide_eq_decide]
  exact and_comm

/-- What is left behind the last event of a page. -/
theorem behind_page (channel : String) (after : Int) (hs : Sorted log) (m : Nat) :
    behind channel ((((behind channel after log).take m).getLast?.map ExecEvent.cursor).getD after) log =
      (behind channel after log).drop m := by
  rw [behind_eq_rest, behind_eq_rest]
  exact Pages.rest_advance (hs.filter _) (List.take_append_drop m _).symm

variable {s t : Replay} {sub : Subscriber} {h : List ReplayEvent} {k : Nat}

/-- The subscriber does not take part in the step, and the log does not grow. -/
theorem Served.keeps (hv : Served s sub) (hlog : t.log = s.log) (hseq : t.store.sequence = s.store.sequence)
    (hfloor : sub.reading = true → floorOf t.store sub.channel ≤ sub.cursor) : Served t sub :=
  ⟨hv.start, hseq ▸ hv.cursor, hlog ▸ hv.received, hfloor⟩

theorem Served.append {cursor : Int} (hv : Served s sub) (ht : Tidy s.store s.log)
    (hok : s.store.appendEvent channel value = .ok (cursor, store'))
    (hfit : sub.reading = true → sub.channel = channel →
      bytesOf channel (s.store.execEvents.filter fun row => sub.cursor < row.cursor) + value.size ≤ Store.REPLAY_LIMIT)
    (hlog : t.log = s.log ++ [⟨cursor, channel, value⟩]) (hstore : t.store = store') : Served t sub := by
  obtain ⟨rfl, hseq, -⟩ := appendEvent_cut ht.ordered hok
  have hend := hv.cursor
  have hstart := hv.start
  refine ⟨hstart, ?_, ?_, ?_⟩
  · rw [hstore, hseq]
    omega
  · rw [hlog, behind_append, behind_append, hv.received, List.append_assoc]
    congr 2
    by_cases hc : channel = sub.channel
    · simp only [hc, true_and]
      rcases hend with heq | hle
      · rw [heq]
      · rw [if_pos (by omega), if_pos (by omega)]
    · simp [hc]
  · intro hreading
    have hfloor := hv.reading hreading
    have h0 := (ht.floors sub.channel).1
    obtain ⟨-, -, old, -, hcut, hbound, -, -⟩ := appendEvent_cut ht.ordered hok
    rw [hstore]
    by_cases hc : sub.channel = channel
    · by_cases hle : sub.cursor ≤ s.store.sequence
      · obtain ⟨bound, hcut, hspared⟩ := ht.append_spares hok (by omega) hle (hfit hreading hc)
        rw [hcut.floor, if_pos hc]
        exact Int.max_le.mpr ⟨hfloor, hspared⟩
      · rw [hcut.floor, if_pos hc]
        exact Int.max_le.mpr ⟨hfloor, by omega⟩
    · rw [hcut.floor, if_neg hc]
      exact hfloor

theorem Served.prune (hv : Served s sub) (ht : Tidy s.store s.log)
    (hcovered : sub.reading = true → sub.channel = channel →
      ∀ row ∈ s.store.acknowledged channel ack, row.cursor ≤ sub.cursor) :
    Served { s with store := s.store.pruneAcknowledged channel ack } sub := by
  obtain ⟨hcut, -⟩ := pruneAcknowledged_cut ht.ordered channel ack
  refine hv.keeps rfl rfl fun hreading => ?_
  have hfloor := hv.reading hreading
  show floorOf (s.store.pruneAcknowledged channel ack) sub.channel ≤ sub.cursor
  rw [hcut.floor]
  split
  · next hc =>
    have h0 := (ht.floors sub.channel).1
    exact Int.max_le.mpr ⟨hfloor, ackBound_le (by omega) (hcovered hreading hc)⟩
  · exact hfloor

theorem replayFrom_ok (h : store.replayFrom channel after = .ok u) : floorOf store channel ≤ after := by
  unfold Store.replayFrom at h
  split at h
  · cases h
  · next row hrow =>
    split at h
    · cases h
    · next hge =>
      rw [floorOf, hrow]
      exact Int.not_lt.mp hge

theorem Served.read (hv : Served s sub) (ht : Tidy s.store s.log) (hreading : sub.reading = true) (n : Nat)
    (hlog : t.log = s.log) (hstore : t.store = s.store) :
    Served t { sub with
      reading := false
      cursor := (((s.rows sub).take n).getLast?.map ExecEvent.cursor).getD sub.cursor
      received := sub.received ++ (s.rows sub).take n } := by
  have hrows : (s.rows sub).take n = (behind sub.channel sub.cursor s.log).take (min n Store.PAGE) := by
    rw [rows, replayRows_eq ht (hv.reading hreading), List.take_take]
  have hpage := behind_page sub.channel sub.cursor ht.sorted (min n Store.PAGE)
  have hcursor : sub.cursor ≤ ((((s.rows sub).take n).getLast?.map ExecEvent.cursor).getD sub.cursor) ∧
      (((s.rows sub).take n).getLast?.map ExecEvent.cursor).getD sub.cursor ≤ max sub.cursor s.store.sequence := by
    rw [hrows]
    cases hlast : ((behind sub.channel sub.cursor s.log).take (min n Store.PAGE)).getLast? with
    | none => exact ⟨Int.le_refl _, Int.le_max_left _ _⟩
    | some x =>
      have hx := List.mem_filter.mp (List.mem_of_mem_take (List.mem_of_getLast? hlast))
      have hafter : sub.cursor < x.cursor := by
        have := hx.2
        simp only [decide_eq_true_eq] at this
        exact this.2
      have := (ht.range x hx.1).2
      show sub.cursor ≤ x.cursor ∧ x.cursor ≤ _
      omega
  have hstart := hv.start
  have hend := hv.cursor
  refine ⟨Int.le_trans hstart hcursor.1, ?_, ?_, by simp⟩
  · show (((s.rows sub).take n).getLast?.map ExecEvent.cursor).getD sub.cursor = sub.start ∨
      (((s.rows sub).take n).getLast?.map ExecEvent.cursor).getD sub.cursor ≤ t.store.sequence
    rw [hstore]
    by_cases hmoved : (((s.rows sub).take n).getLast?.map ExecEvent.cursor).getD sub.cursor = sub.cursor
    · rw [hmoved]
      exact hend
    · omega
  · show behind sub.channel sub.start t.log = sub.received ++ (s.rows sub).take n ++ behind sub.channel _ t.log
    rw [hlog, hv.received, hrows, hpage, List.append_assoc, List.take_append_drop]

/-- Everything the database and the subscribers keep over a run. -/
structure Sound (s : Replay) : Prop where
  tidy : Tidy s.store s.log
  served : ∀ sub ∈ s.subscribers, Served s sub

theorem Sound.set (hs : Sound s) {new : Subscriber}
    (hnew : Served { s with subscribers := s.subscribers.set k new } new) :
    Sound { s with subscribers := s.subscribers.set k new } where
  tidy := hs.tidy
  served sub hsub := by
    rcases List.mem_or_eq_of_mem_set hsub with hsub | rfl
    · have hv := hs.served sub hsub
      exact hv.keeps rfl rfl hv.reading
    · exact hnew

theorem Sound.next (hs : Sound s) (hc : Undisturbed s e) (hn : s.next e = some t) : Sound t := by
  cases e with
  | create channel profile revision =>
    simp only [Replay.next] at hn
    split at hn
    · next store hok =>
      obtain rfl := Option.some.inj hn
      refine ⟨hs.tidy.create hok, fun sub hsub => ?_⟩
      have hv := hs.served sub hsub
      have hseq : store.sequence = s.store.sequence := by
        unfold Store.createChannel at hok
        split at hok
        · cases hok
        · cases hok
          rfl
      exact hv.keeps rfl hseq fun hreading => (createChannel_floorOf hok sub.channel).symm ▸ hv.reading hreading
    · obtain rfl := Option.some.inj hn
      exact hs
  | append channel value =>
    simp only [Replay.next] at hn
    split at hn
    · next cursor store hok =>
      obtain rfl := Option.some.inj hn
      exact ⟨hs.tidy.append hok, fun sub hsub => (hs.served sub hsub).append hs.tidy hok (hc sub hsub) rfl rfl⟩
    · obtain rfl := Option.some.inj hn
      exact hs
  | prune channel ack =>
    obtain rfl := Option.some.inj hn
    exact ⟨hs.tidy.prune channel ack, fun sub hsub => (hs.served sub hsub).prune hs.tidy (hc sub hsub)⟩
  | compact channel ack =>
    obtain rfl := Option.some.inj hn
    have ht := hs.tidy
    refine ⟨⟨ht.sequence, ht.sorted, ht.range, ht.known, ht.floors, ht.kept, ht.bytes⟩, fun sub hsub => ?_⟩
    have hv := hs.served sub hsub
    exact hv.keeps rfl rfl hv.reading
  | subscribe channel after =>
    obtain rfl := Option.some.inj hn
    refine ⟨hs.tidy, fun sub hsub => ?_⟩
    rcases List.mem_append.mp hsub with hsub | hsub
    · have hv := hs.served sub hsub
      exact hv.keeps rfl rfl hv.reading
    · rw [List.mem_singleton.mp hsub]
      exact ⟨Int.le_refl _, .inl rfl, rfl, by simp⟩
  | check k =>
    obtain ⟨sub, hsub, hn⟩ := Option.bind_eq_some_iff.mp hn
    have hv := hs.served sub (List.mem_of_getElem? hsub)
    split at hn
    · cases hn
    · next hidle =>
      split at hn
      · next hok =>
        obtain rfl := Option.some.inj hn
        exact hs.set ⟨hv.start, hv.cursor, hv.received, fun _ => replayFrom_ok hok⟩
      · obtain rfl := Option.some.inj hn
        exact hs.set ⟨hv.start, hv.cursor, hv.received, fun h => absurd h hidle⟩
  | read k n =>
    obtain ⟨sub, hsub, hn⟩ := Option.bind_eq_some_iff.mp hn
    have hv := hs.served sub (List.mem_of_getElem? hsub)
    split at hn
    · next hreading =>
      obtain rfl := Option.some.inj hn
      exact hs.set (hv.read hs.tidy hreading n rfl rfl)
    · cases hn

theorem sound_of_reaches (hrun : Reaches Undisturbed h s) : Sound s := by
  refine hrun.invariant ⟨⟨Int.le_refl 0, .nil, by simp, by simp, ?_, rfl, ?_⟩, by simp⟩ fun _ _ _ hs => hs.next
  · exact fun _ => ⟨Int.le_refl 0, Int.le_refl 0⟩
  · intro channel row hrow
    cases hrow

/-- A call whose first query has passed returns the next events of its channel,
a full page where there are so many; a first query that does not pass says
that the replay has expired, or there is no such channel; and what a
subscriber has got is every event behind the cursor it began with, in order,
up to the one where it is. -/
theorem gap_free (hrun : Reaches Undisturbed h s) (hsub : s.subscribers[k]? = some sub) :
    (sub.reading = true → s.rows sub = (behind sub.channel sub.cursor s.log).take Store.PAGE) ∧
      (∀ fault, s.store.replayFrom sub.channel sub.cursor = .error fault →
        s.store.channels.lookup sub.channel = none ∨ fault.code = "EXECUTION_REPLAY_EXPIRED") ∧
      behind sub.channel sub.start s.log = sub.received ++ behind sub.channel sub.cursor s.log := by
  have hs := sound_of_reaches hrun
  have hv := hs.served sub (List.mem_of_getElem? hsub)
  refine ⟨fun hreading => replayRows_eq hs.tidy (hv.reading hreading), ?_, hv.received⟩
  intro fault herror
  unfold Store.replayFrom at herror
  split at herror
  · next hnone => exact .inl hnone
  · split at herror
    · cases herror
      exact .inr rfl
    · cases herror

/-- A notification whose text has `n` letters. -/
def notice (n : Nat) : Value := .object [("method", .string "notice"), ("params", .string (letters n))]

theorem size_notice (n : Nat) : (notice n).size = n + 31 := by
  have hparams : (Value.string (letters n)).size = n + 2 := by
    rw [Value.size, Value.encode, length_put_letters]
  have hmethod : (Value.string "notice").size = 8 := by decide
  have hnames : (Wire.Json.string.put "method").length = 8 ∧ (Wire.Json.string.put "params").length = 8 := by decide
  simp only [notice, size_object, List.map_cons, List.map_nil, List.sum_cons, List.sum_nil, hparams, hmethod, hnames]
  omega

theorem trim_fits (h : bytes ≤ Store.REPLAY_LIMIT) : Store.trim channel rows bytes floor = (rows, bytes, floor) := by
  cases rows with
  | nil => rfl
  | cons row rows =>
    unfold Store.trim
    rw [if_neg (by omega)]

/-- The buffer of `channel` holds its whole log, `bytes` in all. -/
structure Whole (s : Replay) (channel : String) (bytes : Int) : Prop where
  row : ∃ row, s.store.channels.lookup channel = some row ∧ row.replayBytes = bytes ∧ row.replayFloor = 0
  events : s.store.execEvents = s.log

theorem whole_append (value : Value) (hrun : Reaches Free h s) (hw : Whole s channel bytes)
    (hfit : bytes + value.size ≤ Store.REPLAY_LIMIT) :
    ∃ t, Reaches Free (.append channel value :: h) t ∧ Whole t channel (bytes + value.size) ∧
      t.log = s.log ++ [⟨s.store.sequence + 1, channel, value⟩] ∧ t.store.sequence = s.store.sequence + 1 ∧
      t.subscribers = s.subscribers := by
  obtain ⟨row, hrow, rfl, hfloor⟩ := hw.row
  have hok : s.store.appendEvent channel value = .ok (s.store.sequence + 1, { s.store with
      sequence := s.store.sequence + 1
      execEvents := s.store.execEvents ++ [⟨s.store.sequence + 1, channel, value⟩]
      channels := s.store.channels.insert channel
        { row with replayBytes := row.replayBytes + value.size, replayFloor := max row.replayFloor 0 } }) := by
    unfold Store.appendEvent
    rw [hrow]
    simp only [trim_fits hfit]
  have hnext : s.next (.append channel value) = some { s with
      store := { s.store with
        sequence := s.store.sequence + 1
        execEvents := s.store.execEvents ++ [⟨s.store.sequence + 1, channel, value⟩]
        channels := s.store.channels.insert channel
          { row with replayBytes := row.replayBytes + value.size, replayFloor := max row.replayFloor 0 } }
      log := s.log ++ [⟨s.store.sequence + 1, channel, value⟩] } := by
    simp only [next, hok]
  refine ⟨_, .step hrun trivial hnext, ⟨⟨_, AList.lookup_insert _, rfl, ?_⟩, ?_⟩, rfl, rfl, rfl⟩
  · show max row.replayFloor 0 = 0
    rw [hfloor]
    rfl
  · show s.store.execEvents ++ _ = s.log ++ _
    rw [hw.events]

/-- Trimming takes just the oldest row if that is enough. -/
theorem trim_one {row : ExecEvent} (hc : row.channel = channel) (hover : Store.REPLAY_LIMIT < bytes)
    (hfit : bytes - row.record.size ≤ Store.REPLAY_LIMIT) :
    Store.trim channel (row :: rows) bytes floor = (rows, bytes - row.record.size, row.cursor) := by
  unfold Store.trim
  rw [if_pos hover, if_pos hc, trim_fits hfit]

/-- The event of two million bytes at a cursor. -/
def large (cursor : Int) : ExecEvent := ⟨cursor, "c", notice 2000000⟩

theorem four_large : ∃ h s, Reaches Free h s ∧ Whole s "c" 8000124 ∧ s.store.sequence = 4 ∧
    s.log = [large 1, large 2, large 3, large 4] ∧ s.subscribers = [] := by
  have hsize := size_notice 2000000
  have hlimit : Store.REPLAY_LIMIT = 8388608 := rfl
  have hcreate : Reaches Free [.create "c" "p" 0]
      { store := { channels := AList.insert "c" { profile := "p", revision := 0 } ∅ } } := .step .start trivial rfl
  have hempty : Whole { store := { channels := AList.insert "c" { profile := "p", revision := 0 } ∅ } } "c" 0 :=
    ⟨⟨_, AList.lookup_insert _, rfl, rfl⟩, rfl⟩
  obtain ⟨s₁, hrun₁, hw₁, hlog₁, hseq₁, hsubs₁⟩ :=
    whole_append (notice 2000000) hcreate hempty (by rw [hsize, hlimit]; decide)
  obtain ⟨s₂, hrun₂, hw₂, hlog₂, hseq₂, hsubs₂⟩ :=
    whole_append (notice 2000000) hrun₁ hw₁ (by rw [hsize, hlimit]; decide)
  obtain ⟨s₃, hrun₃, hw₃, hlog₃, hseq₃, hsubs₃⟩ :=
    whole_append (notice 2000000) hrun₂ hw₂ (by rw [hsize, hlimit]; decide)
  obtain ⟨s₄, hrun₄, hw₄, hlog₄, hseq₄, hsubs₄⟩ :=
    whole_append (notice 2000000) hrun₃ hw₃ (by rw [hsize, hlimit]; decide)
  rw [hsize] at hw₄
  rw [hseq₁] at hlog₂ hseq₂
  rw [hseq₂] at hlog₃ hseq₃
  rw [hseq₃] at hlog₄ hseq₄
  refine ⟨_, s₄, hrun₄, hw₄, hseq₄, ?_, by rw [hsubs₄, hsubs₃, hsubs₂, hsubs₁]⟩
  rw [hlog₄, hlog₃, hlog₂, hlog₁]
  rfl

/-- Between the two queries of a call the append of one more large event
removes the oldest one, and the call skips it. -/
theorem not_gap_free :
    ∃ (h : List ReplayEvent) (s : Replay) (k : Nat) (sub : Subscriber), Reaches Free h s ∧
      s.subscribers[k]? = some sub ∧ sub.reading = true ∧
      ¬ s.rows sub <+: behind sub.channel sub.cursor s.log := by
  obtain ⟨h, s, hrun, hw, hseq, hlog, hsubs⟩ := four_large
  obtain ⟨row, hrow, hbytes, hfloor⟩ := hw.row
  have hsize := size_notice 2000000
  have hsubscribe : s.next (.subscribe "c" 0) =
      some { s with subscribers := [{ channel := "c", start := 0, cursor := 0 }] } := by
    simp only [next, hsubs, List.nil_append]
  have hcheck : next { s with subscribers := [{ channel := "c", start := 0, cursor := 0 }] } (.check 0) =
      some { s with subscribers := [{ channel := "c", start := 0, cursor := 0, reading := true }] } := by
    simp [next, Store.replayFrom, hrow, hfloor]
  have htrim : Store.trim "c" (s.store.execEvents ++ [⟨s.store.sequence + 1, "c", notice 2000000⟩])
      (row.replayBytes + (notice 2000000).size) 0 = ([large 2, large 3, large 4, large 5], 8000124, 1) := by
    have hrest : row.replayBytes + (notice 2000000).size - ((large 1).record.size : Int) = 8000124 := by
      rw [hbytes]
      show (8000124 : Int) + (notice 2000000).size - (notice 2000000).size = _
      omega
    have hone : Store.trim "c" (large 1 :: [large 2, large 3, large 4, large 5])
        (row.replayBytes + (notice 2000000).size) 0 =
        ([large 2, large 3, large 4, large 5],
          row.replayBytes + (notice 2000000).size - ((large 1).record.size : Int), 1) :=
      trim_one rfl (by rw [hbytes, hsize]; decide) (by rw [hrest]; decide)
    rw [hrest] at hone
    rw [hw.events, hlog, hseq]
    exact hone
  have hok : s.store.appendEvent "c" (notice 2000000) = .ok (s.store.sequence + 1, { s.store with
      sequence := s.store.sequence + 1
      execEvents := [large 2, large 3, large 4, large 5]
      channels := s.store.channels.insert "c"
        { row with replayBytes := 8000124, replayFloor := max row.replayFloor 1 } }) := by
    unfold Store.appendEvent
    rw [hrow]
    simp only [htrim]
  refine ⟨_, { s with
      store := { s.store with
        sequence := s.store.sequence + 1
        execEvents := [large 2, large 3, large 4, large 5]
        channels := s.store.channels.insert "c"
          { row with replayBytes := 8000124, replayFloor := max row.replayFloor 1 } }
      log := s.log ++ [⟨s.store.sequence + 1, "c", notice 2000000⟩]
      subscribers := [{ channel := "c", start := 0, cursor := 0, reading := true }] },
    0, { channel := "c", start := 0, cursor := 0, reading := true },
    .step (.step (.step hrun trivial hsubscribe) trivial hcheck) (e := .append "c" (notice 2000000)) trivial
      (by simp only [next, hok]), rfl, rfl, ?_⟩
  -- the page begins with the second event, the log with the first
  show ¬ [large 2, large 3, large 4, large 5] <+: behind "c" 0 (s.log ++ [⟨s.store.sequence + 1, "c", notice 2000000⟩])
  rw [hlog, hseq]
  intro hprefix
  have hhead : large 2 = large 1 := (List.cons_prefix_cons.mp hprefix).1
  have := congrArg ExecEvent.cursor hhead
  exact absurd this (by decide)

theorem gap_free_one : ∃ h s, ∃ sub : Subscriber, Reaches Undisturbed h s ∧ s.log.length = 1 ∧ sub ∈ s.subscribers ∧
    s.rows sub = (behind sub.channel sub.cursor s.log).take Store.PAGE := by
  have hrun : Reaches Undisturbed [.check 0, .append "c" .null, .subscribe "c" 0, .create "c" "p" 0]
      { store := { channels := AList.insert "c" { profile := "p", revision := 0, replayBytes := 4 }
                      (AList.insert "c" { profile := "p", revision := 0 } ∅),
                   sequence := 1, execEvents := [⟨1, "c", .null⟩] },
        log := [⟨1, "c", .null⟩],
        subscribers := [{ channel := "c", start := 0, cursor := 0, reading := true }] } := by
    refine .step (.step (.step (.step .start trivial rfl) trivial rfl) ?_ rfl) trivial rfl
    intro sub hsub hreading
    rw [List.mem_singleton.mp hsub] at hreading
    cases hreading
  exact ⟨_, _, _, hrun, rfl, List.mem_singleton_self _, (gap_free hrun (k := 0) rfl).1 rfl⟩

end Replay

end RemoteCodex.Server
