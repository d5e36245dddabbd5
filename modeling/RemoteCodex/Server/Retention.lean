import RemoteCodex.Server.Replay

/-!
# Retention of a channel's events

Appending trims the oldest rows by size, an acknowledgement the covered ones by
count, and the evidence of closed channels is retired as a whole. The first two
keep the counter and the floor of a channel in agreement with its rows.
-/

namespace RemoteCodex.Server

open Interact Protocol

namespace Store

/-- The closed channels that retain their evidence beyond the 32 newest.
`newest`: the channels as `created_at DESC,rowid DESC` orders them. -/
def expired (s : Store) (newest : List String) : List String :=
  (newest.filter fun channel =>
    (s.channels.lookup channel).any fun row => row.state = .lost ∧ row.lostReason ≠ some "evidence_expired").drop 32

/-- The statements for one of these channels. -/
def retireChannel (s : Store) (channel : String) : Store :=
  { s with
    operations := ⟨s.operations.entries.filter fun e => e.1.1 ≠ channel,
      s.operations.nodupKeys.sublist List.filter_sublist⟩
    execEvents := s.execEvents.filter fun row => row.channel ≠ channel
    approvals := s.approvals.retain fun grant => grant.channel ≠ channel
    sessionPermissions := s.sessionPermissions.retain fun grant => grant.channel ≠ channel
    channels := match s.channels.lookup channel with
      | none => s.channels
      | some row => s.channels.insert channel
          { row with lostReason := some "evidence_expired", replayBytes := 0 } }

/-- `retire_closed_evidence`, one transaction. -/
def retireClosedEvidence (s : Store) (newest : List String) : Store := (s.expired newest).foldl retireChannel s

end Store

/-- `log` is every event that was ever appended, `retired` every channel whose
evidence was retired; the code keeps neither. -/
structure Retention where
  store : Store := {}
  log : List ExecEvent := []
  retired : List String := []

inductive RetentionEvent
  | create (channel profile : String) (revision : Int)
  | append (channel : String) (value : Value)
  | prune (channel : String) (ack : Int)
  | compact (channel : String) (ack : Int)
  | close (channel : String)
  | reopen (reason : String)
  | retire (newest : List String)

namespace Retention

open Replay

def next (s : Retention) : RetentionEvent → Option Retention
  | .create channel profile revision =>
    match s.store.createChannel channel profile revision with
    | .ok store => some { s with store }
    | .error _ => some s
  | .append channel value =>
    match s.store.appendEvent channel value with
    | .ok (cursor, store) => some { s with store, log := s.log ++ [⟨cursor, channel, value⟩] }
    | .error _ => some s
  | .prune channel ack => some { s with store := s.store.pruneAcknowledged channel ack }
  | .compact channel ack => some { s with store := s.store.compactOperations channel ack }
  | .close channel => some { s with store := s.store.closeChannel channel }
  | .reopen reason => some { s with store := s.store.reopen reason }
  | .retire newest =>
    some { s with store := s.store.retireClosedEvidence newest, retired := s.retired ++ s.store.expired newest }

abbrev Reaches (h : List RetentionEvent) (s : Retention) : Prop := Run next Free {} h s

-- ---------------------------------------------------------------------------
-- What each transaction does
-- ---------------------------------------------------------------------------

variable {channel c : String} {rows log : List ExecEvent} {bytes floor bound cursor ack : Int}
  {store store' : Store} {value : Value} {row : Channel}

/-- The counter follows the rows. -/
theorem trim_counts (hb : bytes = bytesOf channel rows) :
    (Store.trim channel rows bytes floor).2.1 = bytesOf channel (Store.trim channel rows bytes floor).1 := by
  induction rows generalizing bytes floor with
  | nil => exact hb
  | cons row rows ih =>
    rw [bytesOf_cons] at hb
    unfold Store.trim
    split
    · split
      · next hc =>
        rw [if_pos hc] at hb
        apply ih
        omega
      · next hc =>
        rw [if_neg hc] at hb
        rw [bytesOf_cons, if_neg hc, Int.zero_add]
        apply ih
        omega
    · rw [bytesOf_cons]
      exact hb

/-- A counter that agrees with the rows ends within the limit. -/
theorem trim_limit (hb : bytes = bytesOf channel rows) :
    (Store.trim channel rows bytes floor).2.1 ≤ Store.REPLAY_LIMIT := by
  induction rows generalizing bytes floor with
  | nil =>
    rw [hb]
    exact (by decide : (0 : Int) ≤ Store.REPLAY_LIMIT)
  | cons row rows ih =>
    rw [bytesOf_cons] at hb
    unfold Store.trim
    split
    · split
      · next hc =>
        rw [if_pos hc] at hb
        apply ih
        omega
      · next hc =>
        rw [if_neg hc] at hb
        apply ih
        omega
    · next hfit => exact Int.not_lt.mp hfit

/-- What a cut leaves in the buffer of each channel. -/
theorem eventsOf_cut (hcut : Cut store store' rows channel bound) (c : String) :
    Store.eventsOf c store'.execEvents =
      (Store.eventsOf c rows).filter fun row => c = channel → bound < row.cursor := by
  rw [hcut.rows]
  unfold Store.eventsOf
  rw [List.filter_filter, List.filter_filter]
  refine List.filter_congr fun row _ => ?_
  by_cases hc : row.channel = c
  · subst hc
    by_cases h : row.channel = channel <;> simp [h]
  · simp [hc]

/-- A buffer that holds just what lies behind its floor does so after a cut. -/
theorem behind_cut (hcut : Cut store store' rows channel bound)
    (hrows : Store.eventsOf c rows = behind c (floorOf store c) log) :
    Store.eventsOf c store'.execEvents = behind c (floorOf store' c) log := by
  rw [eventsOf_cut hcut, hrows, hcut.floor]
  unfold behind
  rw [List.filter_filter]
  refine List.filter_congr fun row _ => ?_
  by_cases h : c = channel
  · simp only [h, true_implies, if_true, ← Bool.decide_and, decide_eq_decide]
    constructor
    · intro hr
      exact ⟨hr.2.1, Int.max_lt.mpr ⟨hr.2.2, hr.1⟩⟩
    · intro hr
      obtain ⟨hfloor, hbound⟩ := Int.max_lt.mp hr.2
      exact ⟨hbound, hr.1, hfloor⟩
  · simp [h]

theorem sizes_nonneg (rows : List ExecEvent) : 0 ≤ (rows.map fun row => (row.record.size : Int)).sum := by
  have h := sizes_le (m := rows) List.nodup_nil (List.nil_subset rows)
  exact h

theorem eventsOf_append (c : String) (rows more : List ExecEvent) :
    Store.eventsOf c (rows ++ more) = Store.eventsOf c rows ++ Store.eventsOf c more := List.filter_append ..

-- ---------------------------------------------------------------------------
-- The invariant
-- ---------------------------------------------------------------------------

/-- The counter of a channel agrees with its rows and is within the limit. -/
def Counted (store : Store) (channel : String) : Prop :=
  ∀ row, store.channels.lookup channel = some row →
    row.replayBytes = bytesOf channel store.execEvents ∧ row.replayBytes ≤ Store.REPLAY_LIMIT

/-- The rows and floors are in order, and the buffer of each channel that is
not retired holds just what lies behind its floor. -/
structure Buffered (s : Retention) : Prop where
  ordered : Ordered s.store
  range : ∀ row ∈ s.log, row.cursor ≤ s.store.sequence
  kept : ∀ channel ∉ s.retired,
    Store.eventsOf channel s.store.execEvents = behind channel (floorOf s.store channel) s.log
  counted : ∀ channel ∉ s.retired, Counted s.store channel

variable {s t : Retention} {e : RetentionEvent} {h : List RetentionEvent}

/-- A step that leaves the rows, the counters and the floors as they are. -/
theorem Buffered.same (hb : Buffered s) (hlog : t.log = s.log) (hretired : t.retired = s.retired)
    (hsequence : t.store.sequence = s.store.sequence) (hevents : t.store.execEvents = s.store.execEvents)
    (hrows : ∀ c, (t.store.channels.lookup c).map (fun row => (row.replayBytes, row.replayFloor)) =
      (s.store.channels.lookup c).map fun row => (row.replayBytes, row.replayFloor)) : Buffered t := by
  have hfloor : ∀ c, floorOf t.store c = floorOf s.store c := by
    intro c
    have := congrArg (Option.map Prod.snd) (hrows c)
    rw [Option.map_map, Option.map_map] at this
    exact congrArg (Option.getD · 0) this
  have ho := hb.ordered
  refine ⟨⟨hsequence ▸ ho.sequence, hevents ▸ ho.sorted, ?_, ?_, ?_⟩, ?_, ?_, ?_⟩
  · rw [hevents, hsequence]
    exact ho.range
  · intro row hrow
    rw [hevents] at hrow
    have := congrArg Option.isSome (hrows row.channel)
    rw [Option.isSome_map, Option.isSome_map] at this
    exact this.trans (ho.known row hrow)
  · intro c
    rw [hfloor, hsequence]
    exact ho.floors c
  · rw [hlog, hsequence]
    exact hb.range
  · intro c hc
    rw [hevents, hfloor, hlog]
    exact hb.kept c (hretired ▸ hc)
  · intro c hc row hrow
    have := hrows c
    rw [hrow] at this
    obtain ⟨old, hold, heq⟩ := Option.map_eq_some_iff.mp this.symm
    have hbytes : old.replayBytes = row.replayBytes := congrArg Prod.fst heq
    rw [hevents, ← hbytes]
    exact hb.counted c (hretired ▸ hc) old hold

theorem Buffered.create {profile : String} {revision : Int} (hb : Buffered s)
    (hok : s.store.createChannel channel profile revision = .ok store) : Buffered { s with store } := by
  have hfloor := createChannel_floorOf hok
  have ho := hb.ordered
  unfold Store.createChannel at hok
  split at hok
  · cases hok
  · next hnew =>
    cases hok
    refine ⟨⟨ho.sequence, ho.sorted, ho.range, ?_, ?_⟩, hb.range, ?_, ?_⟩
    · intro row hrow
      show (AList.lookup row.channel (s.store.channels.insert channel _)).isSome
      rw [Table.lookup_insert_if]
      split
      · rfl
      · exact ho.known row hrow
    · intro c
      rw [hfloor]
      exact ho.floors c
    · intro c hc
      rw [hfloor]
      exact hb.kept c hc
    · intro c hc row hrow
      rw [Table.lookup_insert_if] at hrow
      split at hrow
      · next heq =>
        obtain rfl := Option.some.inj hrow
        -- no row is of a channel that was not created
        have hnone : Store.eventsOf c s.store.execEvents = [] := by
          refine List.filter_eq_nil_iff.mpr ?_
          intro row hrow hrc
          have hknown := ho.known row hrow
          rw [of_decide_eq_true hrc, heq, hnew] at hknown
          cases hknown
        refine ⟨?_, (by decide : (0 : Int) ≤ Store.REPLAY_LIMIT)⟩
        show 0 = bytesOf c s.store.execEvents
        rw [bytesOf, hnone]
        rfl
      · exact hb.counted c hc row hrow

theorem Buffered.append (hb : Buffered s) (hok : s.store.appendEvent channel value = .ok (cursor, store)) :
    Buffered { s with store, log := s.log ++ [⟨cursor, channel, value⟩] } := by
  have ho := hb.ordered
  have hsequence := ho.sequence
  obtain ⟨rfl, hseq, old, hold, hcut, hbound, hevents, hchannels⟩ := appendEvent_cut ho hok
  obtain ⟨hsorted, hrange⟩ := ho.appended channel value
  have hsub : store.execEvents.Sublist (s.store.execEvents ++ [⟨s.store.sequence + 1, channel, value⟩]) := by
    rw [hcut.rows]
    exact List.filter_sublist
  have hseq0 : 0 ≤ store.sequence := by omega
  refine ⟨⟨hseq0, hsorted.sublist hsub, ?_, ?_, ?_⟩, ?_, ?_, ?_⟩
  · intro row hrow
    rw [hseq]
    exact hrange row (hsub.subset hrow)
  · intro row hrow
    rw [hcut.channels]
    rcases List.mem_append.mp (hsub.subset hrow) with hrow | hrow
    · exact ho.known row hrow
    · rw [List.mem_singleton.mp hrow]
      show (s.store.channels.lookup channel).isSome
      rw [hold]
      rfl
  · intro c
    have := ho.floors c
    have := hcut.nonneg
    rw [hcut.floor, hseq]
    split <;> omega
  · intro row hrow
    rw [hseq]
    rcases List.mem_append.mp hrow with hrow | hrow
    · have := hb.range row hrow
      omega
    · exact Int.le_of_eq (congrArg ExecEvent.cursor (List.mem_singleton.mp hrow))
  · intro c hc
    apply behind_cut hcut
    have hfloor := (ho.floors c).2
    rw [eventsOf_append, behind_append, hb.kept c hc]
    congr 1
    show List.filter _ [_] = if channel = c ∧ floorOf s.store c < s.store.sequence + 1 then _ else _
    by_cases h : channel = c
    · rw [if_pos ⟨h, by omega⟩]
      exact List.filter_cons_of_pos (by simpa using h)
    · rw [if_neg (fun h' => h h'.1)]
      exact List.filter_cons_of_neg (by simpa using h)
  · intro c hc row hrow
    rw [hchannels, Table.lookup_insert_if] at hrow
    split at hrow
    · next heq =>
      obtain rfl := Option.some.inj hrow
      have hb : old.replayBytes + value.size =
          bytesOf channel (s.store.execEvents ++ [⟨s.store.sequence + 1, channel, value⟩]) := by
        rw [bytesOf_appended, if_pos rfl, (hb.counted channel (heq ▸ hc) old hold).1]
      refine ⟨?_, trim_limit hb⟩
      rw [heq, hevents]
      exact trim_counts hb
    · next hne =>
      rw [hcut.bytesOf_other hne, bytesOf_appended, if_neg fun h => hne h.symm, Int.add_zero]
      exact hb.counted c hc row hrow

theorem Buffered.prune (hb : Buffered s) (channel : String) (ack : Int) :
    Buffered { s with store := s.store.pruneAcknowledged channel ack } := by
  have ho := hb.ordered
  obtain ⟨hcut, hbound⟩ := pruneAcknowledged_cut ho channel ack
  have hsub : (s.store.pruneAcknowledged channel ack).execEvents.Sublist s.store.execEvents := by
    rw [hcut.rows]
    exact List.filter_sublist
  refine ⟨⟨ho.sequence, ho.sorted.sublist hsub, fun row hrow => ho.range row (hsub.subset hrow), ?_, ?_⟩,
    hb.range, fun c hc => behind_cut hcut (hb.kept c hc), ?_⟩
  · intro row hrow
    rw [hcut.channels]
    exact ho.known row (hsub.subset hrow)
  · intro c
    have := ho.floors c
    have := hcut.nonneg
    rw [hcut.floor]
    show _ ∧ _ ≤ s.store.sequence
    split <;> omega
  · intro c hc row hrow
    obtain ⟨old, hold, hbytes⟩ := pruneAcknowledged_row hrow
    obtain ⟨hcount, hlimit⟩ := hb.counted c hc old hold
    split at hbytes
    · next heq =>
      have hrest := bytesOf_removed ho channel ack
      have := bytesOf_nonneg channel (s.store.pruneAcknowledged channel ack).execEvents
      rw [heq] at hcount ⊢
      have hsizes := sizes_nonneg (s.store.acknowledged channel ack)
      constructor
      · show row.replayBytes = bytesOf channel (s.store.pruneAcknowledged channel ack).execEvents
        omega
      · omega
    · next hne =>
      rw [hbytes]
      refine ⟨?_, hlimit⟩
      rw [hcount, hcut.bytesOf_other hne]


/-- A statement about other tables, or about what is not in the replay of a channel. -/
theorem closeChannel_rows (store : Store) (channel c : String) :
    ((store.closeChannel channel).channels.lookup c).map (fun row => (row.replayBytes, row.replayFloor)) =
      (store.channels.lookup c).map fun row => (row.replayBytes, row.replayFloor) := by
  unfold Store.closeChannel
  cases hold : store.channels.lookup channel with
  | none => rfl
  | some row =>
    simp only
    rw [Table.lookup_insert_if]
    split
    · next heq => rw [heq, hold]; rfl
    · rfl

theorem closeChannel_same (store : Store) (channel : String) :
    (store.closeChannel channel).sequence = store.sequence ∧
      (store.closeChannel channel).execEvents = store.execEvents := by
  unfold Store.closeChannel
  cases store.channels.lookup channel with
  | none => exact ⟨rfl, rfl⟩
  | some row => exact ⟨rfl, rfl⟩

theorem reopen_rows (store : Store) (reason c : String) :
    ((store.reopen reason).channels.lookup c).map (fun row => (row.replayBytes, row.replayFloor)) =
      (store.channels.lookup c).map fun row => (row.replayBytes, row.replayFloor) := by
  show (AList.lookup c (store.channels.update _)).map _ = _
  rw [Table.lookup_update, Option.map_map]
  congr 1
  funext row
  show (fun row : Channel => (row.replayBytes, row.replayFloor)) (if row.state = .running then _ else row) = _
  split <;> rfl

-- ---------------------------------------------------------------------------
-- Retirement
-- ---------------------------------------------------------------------------

theorem floorOf_retireChannel (store : Store) (channel c : String) :
    floorOf (store.retireChannel channel) c = floorOf store c := by
  unfold floorOf Store.retireChannel
  cases hold : store.channels.lookup channel with
  | none => rfl
  | some row =>
    simp only
    rw [Table.lookup_insert_if]
    split
    · next heq => rw [heq, hold]; rfl
    · rfl

/-- Retiring a channel changes nothing of another one. -/
theorem retireChannel_other (store : Store) (hne : c ≠ channel) :
    Store.eventsOf c (store.retireChannel channel).execEvents = Store.eventsOf c store.execEvents ∧
      (store.retireChannel channel).channels.lookup c = store.channels.lookup c := by
  constructor
  · show (List.filter _ (store.execEvents.filter fun row => decide (row.channel ≠ channel))) = _
    rw [List.filter_filter]
    refine List.filter_congr fun row _ => ?_
    by_cases hc : row.channel = c
    · simp [hc, hne]
    · simp [hc]
  · unfold Store.retireChannel
    cases hold : store.channels.lookup channel with
    | none => rfl
    | some row =>
      simp only
      rw [Table.lookup_insert_if, if_neg hne]

theorem ordered_retireChannel (ho : Ordered store) (channel : String) : Ordered (store.retireChannel channel) := by
  have hsub : (store.retireChannel channel).execEvents.Sublist store.execEvents := List.filter_sublist
  refine ⟨ho.sequence, ho.sorted.sublist hsub, fun row hrow => ho.range row (hsub.subset hrow), ?_, ?_⟩
  · intro row hrow
    have hknown := ho.known row (hsub.subset hrow)
    unfold Store.retireChannel
    cases hold : store.channels.lookup channel with
    | none => exact hknown
    | some old =>
      simp only
      rw [Table.lookup_insert_if]
      split
      · rfl
      · exact hknown
  · intro c
    rw [floorOf_retireChannel]
    exact ho.floors c

/-- What retiring several channels leaves. -/
structure Others (store store' : Store) (channels : List String) : Prop where
  ordered : Ordered store'
  sequence : store'.sequence = store.sequence
  floor : ∀ c, floorOf store' c = floorOf store c
  events : ∀ c ∉ channels, Store.eventsOf c store'.execEvents = Store.eventsOf c store.execEvents
  rows : ∀ c ∉ channels, store'.channels.lookup c = store.channels.lookup c

theorem retireChannels_others (channels : List String) (ho : Ordered store) :
    Others store (channels.foldl Store.retireChannel store) channels := by
  induction channels generalizing store with
  | nil => exact ⟨ho, rfl, fun _ => rfl, fun _ _ => rfl, fun _ _ => rfl⟩
  | cons channel channels ih =>
    have hrest := ih (ordered_retireChannel ho channel)
    refine ⟨hrest.ordered, hrest.sequence, ?_, ?_, ?_⟩
    · intro c
      exact (hrest.floor c).trans (floorOf_retireChannel store channel c)
    · intro c hc
      rw [List.mem_cons, not_or] at hc
      exact (hrest.events c hc.2).trans (retireChannel_other store hc.1).1
    · intro c hc
      rw [List.mem_cons, not_or] at hc
      exact (hrest.rows c hc.2).trans (retireChannel_other store hc.1).2

theorem Buffered.retire (hb : Buffered s) (newest : List String) :
    Buffered { s with
      store := s.store.retireClosedEvidence newest
      retired := s.retired ++ s.store.expired newest } := by
  have ho := retireChannels_others (s.store.expired newest) hb.ordered
  refine ⟨ho.ordered, ?_, ?_, ?_⟩
  · intro row hrow
    exact (hb.range row hrow).trans (Int.le_of_eq ho.sequence.symm)
  · intro c hc
    have hold : c ∉ s.retired := fun h => hc (List.mem_append_left _ h)
    have hnew : c ∉ s.store.expired newest := fun h => hc (List.mem_append_right _ h)
    exact (ho.events c hnew).trans ((hb.kept c hold).trans (congrArg (behind c · s.log) (ho.floor c).symm))
  · intro c hc row hrow
    have hold : c ∉ s.retired := fun h => hc (List.mem_append_left _ h)
    have hnew : c ∉ s.store.expired newest := fun h => hc (List.mem_append_right _ h)
    have hbytes : bytesOf c (s.store.retireClosedEvidence newest).execEvents = bytesOf c s.store.execEvents := by
      unfold bytesOf
      exact congrArg _ (congrArg _ (ho.events c hnew))
    show _ = bytesOf c (s.store.retireClosedEvidence newest).execEvents ∧ _
    rw [hbytes]
    exact hb.counted c hold row ((ho.rows c hnew).symm.trans hrow)

-- ---------------------------------------------------------------------------
-- Runs
-- ---------------------------------------------------------------------------

theorem Buffered.next (hb : Buffered s) (hn : s.next e = some t) : Buffered t := by
  cases e with
  | create channel profile revision =>
    simp only [Retention.next] at hn
    split at hn
    · next store hok =>
      obtain rfl := Option.some.inj hn
      exact hb.create hok
    · exact Option.some.inj hn ▸ hb
  | append channel value =>
    simp only [Retention.next] at hn
    split at hn
    · next cursor store hok =>
      obtain rfl := Option.some.inj hn
      exact hb.append hok
    · exact Option.some.inj hn ▸ hb
  | prune channel ack =>
    obtain rfl := Option.some.inj hn
    exact hb.prune channel ack
  | compact channel ack =>
    obtain rfl := Option.some.inj hn
    exact hb.same rfl rfl rfl rfl fun _ => rfl
  | close channel =>
    obtain rfl := Option.some.inj hn
    obtain ⟨hsequence, hevents⟩ := closeChannel_same s.store channel
    exact hb.same rfl rfl hsequence hevents (closeChannel_rows s.store channel)
  | reopen reason =>
    obtain rfl := Option.some.inj hn
    exact hb.same rfl rfl rfl rfl (reopen_rows s.store reason)
  | retire newest =>
    obtain rfl := Option.some.inj hn
    exact hb.retire newest

theorem buffered_of_reaches (hrun : Reaches h s) : Buffered s := by
  refine hrun.invariant ⟨⟨Int.le_refl 0, .nil, by simp, by simp, ?_⟩, by simp, fun _ _ => rfl, ?_⟩ ?_
  · exact fun _ => ⟨Int.le_refl 0, Int.le_refl 0⟩
  · intro c _ row hrow
    cases hrow
  · exact fun _ _ _ hb _ => hb.next

/-- No step lowers a floor. -/
theorem floorOf_mono (hb : Buffered s) (hn : s.next e = some t) (c : String) :
    floorOf s.store c ≤ floorOf t.store c := by
  have ho := hb.ordered
  cases e with
  | create channel profile revision =>
    simp only [Retention.next] at hn
    split at hn
    · next store hok =>
      obtain rfl := Option.some.inj hn
      exact Int.le_of_eq (createChannel_floorOf hok c).symm
    · exact Option.some.inj hn ▸ Int.le_refl _
  | append channel value =>
    simp only [Retention.next] at hn
    split at hn
    · next cursor store hok =>
      obtain rfl := Option.some.inj hn
      obtain ⟨-, -, old, -, hcut, -⟩ := appendEvent_cut ho hok
      show _ ≤ floorOf store c
      rw [hcut.floor]
      split
      · exact Int.le_max_left _ _
      · exact Int.le_refl _
    · exact Option.some.inj hn ▸ Int.le_refl _
  | prune channel ack =>
    obtain rfl := Option.some.inj hn
    show _ ≤ floorOf (s.store.pruneAcknowledged channel ack) c
    rw [(pruneAcknowledged_cut ho channel ack).1.floor]
    split
    · exact Int.le_max_left _ _
    · exact Int.le_refl _
  | compact channel ack => exact Option.some.inj hn ▸ Int.le_refl _
  | close channel =>
    obtain rfl := Option.some.inj hn
    have := congrArg (Option.map Prod.snd) (closeChannel_rows s.store channel c)
    rw [Option.map_map, Option.map_map] at this
    exact Int.le_of_eq (congrArg (Option.getD · 0) this.symm)
  | reopen reason =>
    obtain rfl := Option.some.inj hn
    have := congrArg (Option.map Prod.snd) (reopen_rows s.store reason c)
    rw [Option.map_map, Option.map_map] at this
    exact Int.le_of_eq (congrArg (Option.getD · 0) this.symm)
  | retire newest =>
    obtain rfl := Option.some.inj hn
    exact Int.le_of_eq ((retireChannels_others (s.store.expired newest) ho).floor c).symm

/-- An acknowledgement keeps the newest rows of the channel and those above it. -/
theorem prune_keeps (ho : Ordered store) {row : ExecEvent} (hrow : row ∈ Store.eventsOf channel store.execEvents)
    (hspared : row ∈ (Store.eventsOf channel store.execEvents).drop
        ((Store.eventsOf channel store.execEvents).length - Store.REPLAY_TAIL) ∨ ack < row.cursor) :
    row ∈ (store.pruneAcknowledged channel ack).execEvents := by
  obtain ⟨hin, hc⟩ := List.mem_filter.mp hrow
  refine List.mem_filter.mpr ⟨hin, ?_⟩
  simp only [decide_eq_true_eq, not_and]
  rintro hc hle
  have hgone := acknowledged_of_le ho hin hc hle
  rcases hspared with htail | habove
  · -- what goes lies before the tail, in a list without repetition
    have hsorted : Sorted (Store.eventsOf channel store.execEvents) := ho.sorted.filter _
    have htaken := List.mem_of_mem_filter hgone
    rw [← List.take_append_drop ((Store.eventsOf channel store.execEvents).length - Store.REPLAY_TAIL)
      (Store.eventsOf channel store.execEvents)] at hsorted
    have := (List.pairwise_append.mp hsorted).2.2 row htaken row htail
    omega
  · have := (mem_acknowledged hgone).2.2
    omega

/-- The replay buffer of a channel that is not retired holds just the events
above its floor, and its counter their bytes, within the limit; no step lowers
a floor, and an acknowledgement spares the tail and what lies above it. -/
theorem replay_represented (hrun : Reaches h s) :
    (∀ channel row, channel ∉ s.retired → s.store.channels.lookup channel = some row →
      Store.eventsOf channel s.store.execEvents = behind channel row.replayFloor s.log ∧
        row.replayBytes = bytesOf channel s.store.execEvents ∧ row.replayBytes ≤ Store.REPLAY_LIMIT) ∧
      (∀ e t, s.next e = some t → ∀ channel, floorOf s.store channel ≤ floorOf t.store channel) ∧
      ∀ channel ack, ∀ row ∈ Store.eventsOf channel s.store.execEvents,
        row ∈ (Store.eventsOf channel s.store.execEvents).drop
            ((Store.eventsOf channel s.store.execEvents).length - Store.REPLAY_TAIL) ∨ ack < row.cursor →
          row ∈ (s.store.pruneAcknowledged channel ack).execEvents := by
  have hb := buffered_of_reaches hrun
  refine ⟨?_, fun e t hn => floorOf_mono hb hn, fun channel ack row hrow => prune_keeps hb.ordered hrow⟩
  intro channel row hlive hrow
  have hkept := hb.kept channel hlive
  rw [floorOf, hrow] at hkept
  exact ⟨hkept, hb.counted channel hlive row hrow⟩

theorem replay_represented_one : ∃ h s, Reaches h s ∧ s.log.length = 1 ∧
    ∀ row, s.store.channels.lookup "c" = some row →
      Store.eventsOf "c" s.store.execEvents = behind "c" row.replayFloor s.log := by
  refine ⟨[.append "c" .null, .create "c" "p" 0], _, .step (.step .start trivial rfl) trivial rfl, by decide, ?_⟩
  intro row hrow
  have hrun : Reaches [.append "c" .null, .create "c" "p" 0] _ := .step (.step .start trivial rfl) trivial rfl
  exact ((replay_represented hrun).1 "c" row (by decide) hrow).1

end Retention

end RemoteCodex.Server
