import RemoteCodex.Execution.Operations
import RemoteCodex.Interact.Steps

/-!
# The service's other tasks

What they may do to the store while the actor of a channel runs: the rows of
the channel's jobs and the state of the channel are the actor's own, its
operations stay, and its events only go.
-/

namespace RemoteCodex.Execution

open Interact Protocol Server

/-- From `s` to `t` only the others have acted, and the executor may have died. -/
structure Others (channel : String) (s t : World) : Prop where
  pending : t.pending = s.pending
  sent : t.sent = s.sent
  log : t.log = s.log
  connected : t.connected = true → s.connected = true
  ids : (s.store.jobs.map Job.id).Nodup → (t.store.jobs.map Job.id).Nodup
  jobs : (t.store.jobs.filter fun job => job.channel = channel) = s.store.jobs.filter fun job => job.channel = channel
  operations : ∀ x, (t.store.operations.lookup (channel, x)).map Operation.digest =
    (s.store.operations.lookup (channel, x)).map Operation.digest
  channels : (t.store.channels.lookup channel).map Channel.state = (s.store.channels.lookup channel).map Channel.state
  events : ∀ e ∈ t.store.execEvents, e.channel = channel → e ∈ s.store.execEvents
  sequence : s.store.sequence ≤ t.store.sequence

namespace Others

variable {channel : String} {s t u : World}

theorem refl (channel : String) (s : World) : Others channel s s where
  pending := rfl
  sent := rfl
  log := rfl
  connected h := h
  ids h := h
  jobs := rfl
  operations _ := rfl
  channels := rfl
  events _ h _ := h
  sequence := Int.le_refl _

theorem trans (h : Others channel s t) (h' : Others channel t u) : Others channel s u where
  pending := h'.pending.trans h.pending
  sent := h'.sent.trans h.sent
  log := h'.log.trans h.log
  connected hc := h.connected (h'.connected hc)
  ids hd := h'.ids (h.ids hd)
  jobs := h'.jobs.trans h.jobs
  operations x := (h'.operations x).trans (h.operations x)
  channels := h'.channels.trans h.channels
  events e he hc := h.events e (h'.events e he hc) hc
  sequence := Int.le_trans h.sequence h'.sequence

theorem mem_jobs (h : Others channel s t) {job : Job} (hc : job.channel = channel) :
    job ∈ t.store.jobs ↔ job ∈ s.store.jobs := by
  have hmem : job ∈ (t.store.jobs.filter fun job => job.channel = channel) ↔
      job ∈ s.store.jobs.filter fun job => job.channel = channel := by rw [h.jobs]
  simpa [hc] using hmem

theorem row_iff (h : Others channel s t) (x : String) :
    t.store.operations.lookup (channel, x) = none ↔ s.store.operations.lookup (channel, x) = none := by
  have hx := h.operations x
  rw [← Option.map_eq_none_iff (f := Operation.digest), hx, Option.map_eq_none_iff]

theorem processJob (h : Others channel s t) (process : String) :
    t.store.processJob channel process = s.store.processJob channel process := by
  have hfind : ∀ jobs : List Job, (jobs.findRev? fun job => job.channel = channel ∧ job.processId = process) =
      (jobs.filter fun job => job.channel = channel).findRev? fun job => job.processId = process := by
    intro jobs
    rw [List.findRev?_eq_find?_reverse, List.findRev?_eq_find?_reverse, ← List.filter_reverse, List.find?_filter]
    congr 1
    funext job
    simp
  rw [Store.processJob, Store.processJob, hfind, hfind, h.jobs]

end Others

/-- The actor of `channel` among the others. -/
def among (supply : Nat → String) (channel : String) : Machine Op Ans World where
  exec := exec supply
  torn _ _ _ := False
  rely := Others channel

-- ---------------------------------------------------------------------------
-- What the others do
-- ---------------------------------------------------------------------------

variable {channel : String} {w : World}

theorem others_died (channel : String) (w : World) : Others channel w { w with connected := false } :=
  { Others.refl channel w with connected := nofun }

/-- Acknowledging events of any channel. -/
theorem others_acknowledge (name : String) (ack : Int) (w : World) :
    Others channel w
      { w with store := (w.store.pruneAcknowledged name ack).compactOperations name ack } where
  __ := Others.refl channel w
  operations x := by
    simp only [Store.compactOperations, Store.pruneAcknowledged, Table.lookup_update]
    cases w.store.operations.lookup (channel, x) with
    | none => rfl
    | some op =>
      simp only [Option.map_some]
      split <;> rfl
  channels := by
    simp only [Store.compactOperations, Store.pruneAcknowledged]
    cases hrow : w.store.channels.lookup name with
    | none => rfl
    | some row =>
      rw [Table.lookup_insert_if]
      split
      · next h => rw [h, hrow]; rfl
      · rfl
  events e he _ := (List.mem_filter.mp he).1

end RemoteCodex.Execution
