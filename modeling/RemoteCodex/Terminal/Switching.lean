import RemoteCodex.Terminal.Relaying

/-!
# What holds over every run of a terminal

A request is executed by the session that is current, a switch loses no event
from where the relay has subscribed, and the end of the terminal closes every
session it had.
-/

namespace RemoteCodex.Terminal

open Interact

def Method.switches : Method → Bool
  | .start | .fork | .revert => true
  | _ => false

/-- Reading is for the previous session as well. A request that names a thread is
executed by the session of that thread, unless it starts another. -/
structure Execution.Proper (e : Execution) : Prop where
  current : e.request.method ≠ .read → e.session = e.current
  own : e.request.method.scoped = true → e.request.thread = some e.session
  named : e.request.method ≠ .start → ∀ id, e.request.thread = some id → id = e.session

namespace Sessions

variable {s t : Sessions} {e : TerminalEvent} {m n : Nat} {r : Runtime} {q : Request}

-- ---------------------------------------------------------------------------
-- Requests
-- ---------------------------------------------------------------------------

/-- What was executed was proper, and what waits for the lock is a switch. -/
structure Orderly (s : Sessions) : Prop where
  executed : ∀ e ∈ s.executed, e.Proper
  waiting : ∀ n q, s.work.lookup n = some (.waiting q) → q.method.switches = true

theorem Orderly.same (h : s.Orderly) (hexecuted : t.executed = s.executed) (hwork : t.work = s.work) : t.Orderly :=
  ⟨hexecuted ▸ h.executed, hwork ▸ h.waiting⟩

theorem Orderly.log (h : s.Orderly) (hproper : Execution.Proper ⟨m, s.current, q⟩) : (s.log m q).Orderly where
  executed e he := by
    rcases List.mem_cons.mp he with rfl | he
    · exact hproper
    · exact h.executed e he
  waiting := h.waiting

theorem Orderly.setWork (h : s.Orderly) {w : Work} (hw : ∀ q, w = .waiting q → q.method.switches = true) :
    (s.setWork n w).Orderly where
  executed := h.executed
  waiting k q hk := by
    simp only [Sessions.setWork, Table.lookup_insert_if] at hk
    split at hk
    · exact hw q (Option.some.inj hk)
    · exact h.waiting k q hk

theorem Orderly.finish (h : s.Orderly) (n : Nat) : (s.finish n).Orderly := by
  have hover : (s.setWork n .over).Orderly := h.setWork fun _ => Work.noConfusion
  exact hover.same rfl rfl

/-- The session's own check of a request that is for the current one. -/
theorem Orderly.execute_current (h : s.Orderly) (hnamed : ∀ id, q.thread = some id → id = s.current) :
    (s.execute s.current q).Orderly := by
  unfold execute
  split
  · next hok =>
    refine h.log ⟨fun _ => rfl, fun hscoped => ?_, fun _ => hnamed⟩
    have hscoped' : q.method.scoped = true := hscoped
    simp only [hscoped', Bool.not_true, Bool.false_or, Bool.and_eq_true, decide_eq_true_eq] at hok
    exact hok.2
  · exact h

/-- The previous session is for reading. -/
theorem Orderly.execute_previous (h : s.Orderly) (hread : q.method = .read) (hthread : q.thread = some m) :
    (s.execute m q).Orderly := by
  unfold execute
  split
  · refine h.log ⟨fun hne => absurd hread hne, fun _ => hthread, fun _ id hid => ?_⟩
    exact Option.some.inj (hid.symm.trans hthread)
  · exact h

theorem Orderly.request (h : s.Orderly) (q : Request) : (s.request q).Orderly := by
  unfold Sessions.request
  split
  · next hall =>
    refine h.execute_current fun id hid => ?_
    simpa [hid] using hall
  · split
    · exact h
    · next hthread =>
      have hthread' : s.previous = q.thread := of_not_not hthread
      split
      · exact h.same rfl rfl
      · next hmethod hprevious => exact h.execute_previous hmethod (hthread'.symm.trans hprevious)
      · exact h

theorem Orderly.locked (h : s.Orderly) (hswitch : q.method.switches = true) : (s.locked n q).Orderly := by
  have hover : (s.setWork n .over).Orderly := h.setWork fun _ => Work.noConfusion
  have hheld : ∀ w, (∀ q', w ≠ .waiting q') → Execution.Proper ⟨s.current, s.current, q⟩ →
      Orderly { (s.log s.current q).setWork n w with lock := some (.work n) } := by
    intro w hw hproper
    have hlogged : ((s.log s.current q).setWork n w).Orderly := (h.log hproper).setWork fun q' hq' => absurd hq' (hw q')
    exact hlogged.same rfl rfl
  have hthread : q.thread = some s.current → Execution.Proper ⟨s.current, s.current, q⟩ := fun hq =>
    ⟨fun _ => rfl, fun _ => hq, fun _ id hid => Option.some.inj (hid.symm.trans hq)⟩
  unfold Sessions.locked
  split
  · exact hover
  · split
    · split
      · next hok =>
        refine hheld _ (fun _ => Work.noConfusion) (hthread ?_)
        simp only [Bool.and_eq_true, decide_eq_true_eq] at hok
        exact hok.1
      · exact hover
    · next hmethod =>
      split
      · exact hover
      · next hok =>
        refine hheld _ (fun _ => Work.noConfusion) ?_
        cases hm : q.method with
        | fork =>
          apply hthread
          simp only [hm, Bool.or_eq_true, not_or] at hok
          simpa using hok.2
        | start =>
          refine ⟨fun _ => rfl, fun hscoped => ?_, fun hne => absurd hm hne⟩
          have hscoped' : q.method.scoped = true := hscoped
          rw [hm] at hscoped'
          cases hscoped'
        | revert => exact absurd hm hmethod
        | _ => simp [hm, Method.switches] at hswitch

theorem relay_frame (he : ofRelay e = true) (hnext : s.next e = some t) :
    t.executed = s.executed ∧ t.work = s.work ∧ t.current = s.current ∧ t.sessions = s.sessions := by
  cases e with
  | observe | check | send =>
    simp only [next] at hnext
    split at hnext <;> cases hnext
    exact ⟨rfl, rfl, rfl, rfl⟩
  | subscribe =>
    simp only [next] at hnext
    split at hnext
    · obtain ⟨r, -, rfl⟩ := Option.map_eq_some_iff.mp hnext
      exact ⟨rfl, rfl, rfl, rfl⟩
    · cases hnext
  | attach =>
    simp only [next] at hnext
    split at hnext
    · obtain ⟨r, -, rfl⟩ := Option.map_eq_some_iff.mp hnext
      split
      · split <;> exact ⟨rfl, rfl, rfl, rfl⟩
      · exact ⟨rfl, rfl, rfl, rfl⟩
    · cases hnext
  | changed =>
    simp only [next] at hnext
    split at hnext
    · split at hnext <;> cases hnext
      exact ⟨rfl, rfl, rfl, rfl⟩
    · cases hnext
  | sessionRevoked | sessionClosed | receive =>
    simp only [next] at hnext
    split at hnext
    · obtain ⟨r, -, hnext⟩ := Option.bind_eq_some_iff.mp hnext
      split at hnext <;> cases hnext
      exact ⟨rfl, rfl, rfl, rfl⟩
    · cases hnext
  | lag =>
    simp only [next] at hnext
    split at hnext
    · obtain ⟨r, -, hnext⟩ := Option.bind_eq_some_iff.mp hnext
      split at hnext <;> cases hnext
      split <;> exact ⟨rfl, rfl, rfl, rfl⟩
    · cases hnext
  | _ => cases he

theorem orderly_next (h : s.Orderly) (hnext : s.next e = some t) : t.Orderly := by
  by_cases he : ofRelay e = true
  · obtain ⟨hexecuted, hwork, -, -⟩ := relay_frame he hnext
    exact h.same hexecuted hwork
  cases e with
  | ask n q =>
    simp only [next] at hnext
    split at hnext
    · cases hnext
    · split at hnext <;> cases hnext
      · next hm => exact h.setWork fun q' hq' => by cases hq'; rw [hm]; rfl
      · next hm => exact h.setWork fun q' hq' => by cases hq'; rw [hm]; rfl
      · next hm => exact h.setWork fun q' hq' => by cases hq'; rw [hm]; rfl
      · exact (h.request q).setWork fun _ => Work.noConfusion
  | lock n =>
    simp only [next] at hnext
    split at hnext <;> cases hnext
    next hw _ => exact h.locked (h.waiting n _ hw)
  | created n session sent registered =>
    simp only [next] at hnext
    split at hnext
    · split at hnext
      · cases hnext
      · cases hnext
        split <;> exact (h.finish n).same rfl rfl
    · cases hnext
  | refused n | reverted n | cancel n =>
    simp only [next] at hnext
    split at hnext <;> cases hnext
    exact h.finish n
  | broadcast m | shut m | revoke m =>
    cases hnext
    exact h.same rfl rfl
  | close | closeLocked =>
    simp only [next] at hnext
    split at hnext <;> cases hnext
    exact h.same rfl rfl
  | closePrevious =>
    simp only [next] at hnext
    split at hnext <;> cases hnext <;> exact h.same rfl rfl
  | _ => exact absurd rfl he

-- ---------------------------------------------------------------------------
-- Events
-- ---------------------------------------------------------------------------

/-- A session that is not the current one any more, with none of its events on the way. -/
structure Passed (s : Sessions) (m : Nat) : Prop where
  known : (s.sessions.lookup m).isSome = true
  other : m ≠ s.current
  sends : s.relay.sends m = false

theorem passed_relay (h : s.Passed m) (he : ofRelay e = true) (hnext : s.next e = some t) :
    t.relay.sends m = false ∧ t.events m = s.events m := by
  cases e with
  | observe =>
    simp only [next] at hnext
    split at hnext <;> cases hnext
    exact ⟨rfl, rfl⟩
  | subscribe =>
    simp only [next] at hnext
    split at hnext
    · obtain ⟨r, -, rfl⟩ := Option.map_eq_some_iff.mp hnext
      exact ⟨rfl, rfl⟩
    · cases hnext
  | attach =>
    simp only [next] at hnext
    split at hnext
    · obtain ⟨r, -, rfl⟩ := Option.map_eq_some_iff.mp hnext
      split
      · split <;> exact ⟨rfl, rfl⟩
      · exact ⟨rfl, rfl⟩
    · cases hnext
  | changed =>
    simp only [next] at hnext
    split at hnext
    · split at hnext <;> cases hnext
      exact ⟨rfl, rfl⟩
    · cases hnext
  | sessionRevoked | sessionClosed | receive =>
    simp only [next] at hnext
    split at hnext
    · obtain ⟨r, -, hnext⟩ := Option.bind_eq_some_iff.mp hnext
      split at hnext <;> cases hnext
      exact ⟨rfl, rfl⟩
    · cases hnext
  | check =>
    simp only [next] at hnext
    split at hnext <;> cases hnext
    refine ⟨?_, rfl⟩
    split
    · rfl
    · next heq =>
      have hcurrent := of_not_not heq
      simpa [relayed, Relay.sends, ← hcurrent] using h.other.symm
  | send =>
    simp only [next] at hnext
    split at hnext <;> cases hnext
    next m' seen position hrelay =>
    refine ⟨rfl, ?_⟩
    have hne : m' ≠ m := by simpa [hrelay, Relay.sends] using h.sends
    rw [events_append, if_neg hne, List.append_nil]
  | lag =>
    simp only [next] at hnext
    split at hnext
    · obtain ⟨r, -, hnext⟩ := Option.bind_eq_some_iff.mp hnext
      split at hnext <;> cases hnext
      split <;> exact ⟨rfl, rfl⟩
    · cases hnext
  | _ => cases he

theorem passed_next (h : s.Passed m) (hnext : s.next e = some t) : t.Passed m ∧ t.events m = s.events m := by
  rcases next_cases hnext with he | haside | ⟨m', hswitched⟩
  · obtain ⟨hsends, hevents⟩ := passed_relay h he hnext
    obtain ⟨-, -, hcurrent, hsessions⟩ := relay_frame he hnext
    exact ⟨⟨hsessions ▸ h.known, hcurrent ▸ h.other, hsends⟩, hevents⟩
  · refine ⟨⟨haside.grows.known h.known, haside.current ▸ h.other, haside.relay ▸ h.sends⟩, ?_⟩
    exact events_same haside.forwarded m
  · refine ⟨⟨hswitched.grows.known h.known, ?_, hswitched.relay ▸ h.sends⟩, events_same hswitched.forwarded m⟩
    rw [hswitched.current]
    rintro rfl
    have hknown := h.known
    rw [hswitched.fresh] at hknown
    cases hknown

theorem passed_run {later : List TerminalEvent} (h : s.Passed m) (hrun : Run next Free s later t) :
    t.events m = s.events m := by
  have hboth : t.Passed m ∧ t.events m = s.events m := by
    refine hrun.invariant (I := fun t => t.Passed m ∧ t.events m = s.events m) ⟨h, rfl⟩ ?_
    rintro t e u ⟨hpassed, hevents⟩ - hnext
    obtain ⟨hpassed', hevents'⟩ := passed_next hpassed hnext
    exact ⟨hpassed', hevents'.trans hevents⟩
  exact hboth.2

/-- The relay waits, and has forwarded what the current session has broadcast since it subscribed. -/
def Settled (s : Sessions) : Prop :=
  ∃ seen j r, s.relay = .waiting s.current seen r.sent ∧ s.joined.lookup s.current = some j ∧
    s.sessions.lookup s.current = some r ∧ s.events s.current = List.range' j (r.sent - j)

/-- The relay goes on until it has forwarded everything, unless it has ended. -/
theorem Relaying.moves (h : s.Relaying) :
    s.relay = .ended ∨ s.Settled ∨ ∃ e, ofRelay e = true ∧ (s.next e).isSome = true := by
  cases hrelay : s.relay with
  | ended => exact .inl rfl
  | observing => exact .inr (.inr ⟨.observe, rfl, by simp [next, hrelay]⟩)
  | observed m seen =>
    have hknown := (h.target m seen (congrArg Relay.target hrelay)).1
    exact .inr (.inr ⟨.subscribe, rfl, by simpa [next, hrelay] using hknown⟩)
  | subscribed m seen position =>
    have hknown := (h.target m seen (congrArg Relay.target hrelay)).1
    exact .inr (.inr ⟨.attach, rfl, by simpa [next, hrelay] using hknown⟩)
  | received m seen position => exact .inr (.inr ⟨.check, rfl, by simp [next, hrelay]⟩)
  | sending m seen position => exact .inr (.inr ⟨.send, rfl, by simp [next, hrelay]⟩)
  | waiting m seen position =>
    right
    obtain ⟨hknown, hle, hcurrent⟩ := h.target m seen (congrArg Relay.target hrelay)
    obtain ⟨r, hr⟩ := Option.isSome_iff_exists.mp hknown
    by_cases heq : m = s.current
    · have hsent := h.ahead m position r (congrArg Relay.ahead hrelay) hr
      obtain ⟨j, hj, -, hevents⟩ := h.reading m position (congrArg Relay.reading hrelay) (.inl heq)
      rcases Nat.lt_or_eq_of_le hsent with hmore | rfl
      · right
        rcases Nat.lt_or_ge EVENT_CAPACITY (r.sent - position) with hlag | hkept
        · exact ⟨.lag, rfl, by simp [next, hrelay, hr, hlag]⟩
        · refine ⟨.receive, rfl, ?_⟩
          simpa [next, hrelay, hr, hmore] using hkept
      · subst heq
        exact .inl ⟨seen, j, r, hrelay, hj, hr, hevents⟩
    · have hseen : s.version ≠ seen := fun hs => heq (hcurrent.mpr hs.symm)
      exact .inr ⟨.changed, rfl, by simp [next, hrelay, hseen]⟩

-- ---------------------------------------------------------------------------
-- Runs
-- ---------------------------------------------------------------------------

theorem orderly_start (sent : Nat) : (start sent).Orderly where
  executed e he := by cases he
  waiting n q hw := by cases hw

structure Sound (s : Sessions) : Prop where
  slots : s.Slots
  relaying : s.Relaying
  orderly : s.Orderly

theorem sound_run {h : List TerminalEvent} {sent : Nat} (hrun : Run next Free (start sent) h s) : s.Sound := by
  refine hrun.invariant ⟨slots_start sent, relaying_start sent, orderly_start sent⟩ fun s e t hs _ hnext => ?_
  exact ⟨slots_next hs.slots hnext, relaying_next hs.relaying hs.slots hnext, orderly_next hs.orderly hnext⟩

/-- Requests go to the session they name. What is forwarded of a session has no gap from
where the relay subscribed to it; the relay goes on until it has forwarded all that the
current session broadcasts, unless the terminal is closed; and it takes nothing more from a
session that is not current. One open session at most is not the current one, and
none is open when the terminal's end is over. -/
theorem switching_sound {h : List TerminalEvent} {sent : Nat} (hrun : Run next Free (start sent) h s) :
    (∀ e ∈ s.executed, e.Proper) ∧
    (∀ m, s.Contiguous m) ∧
    ((s.relay = .ended ∧ (s.closed = true ∨ s.revoked = true)) ∨ s.Settled ∨
      ∃ e, ofRelay e = true ∧ (s.next e).isSome = true) ∧
    (∀ m later t, s.Passed m → Run next Free s later t → t.events m = s.events m) ∧
    (∀ m m', s.isOpen m = true → s.isOpen m' = true → m ≠ s.current → m' ≠ s.current → m = m') ∧
    (s.closing = .done → ∀ m r, s.sessions.lookup m = some r → r.closed = true) := by
  have hsound := sound_run hrun
  refine ⟨hsound.orderly.executed, hsound.relaying.events, ?_, fun m later t hm hl => passed_run hm hl, ?_, ?_⟩
  · rcases hsound.relaying.moves with hended | hrest
    · exact .inl ⟨hended, hsound.slots.flags (.inr hended)⟩
    · exact .inr hrest
  · intro m m' hm hm' hne hne'
    exact hsound.slots.held_one hm hm' hne hne'
  · intro hd m r hr
    exact hsound.slots.all_closed hd hr

/-- The terminal starts a session, which broadcasts, and then ends. -/
def startedSession : List TerminalEvent :=
  [.observe, .subscribe, .attach, .broadcast 0, .receive, .ask 0 { method := .start }, .lock 0, .check, .send,
    .created 0 1 0 true, .changed, .observe, .subscribe, .attach, .broadcast 1, .receive, .check, .send, .close,
    .closeLocked, .closePrevious]

theorem switching_sound_started : ∃ s, Run next Free (start 0) startedSession.reverse s ∧ s.closing = .done ∧
    s.forwarded = [(0, 0), (1, 0)] ∧ ∀ m r, s.sessions.lookup m = some r → r.closed = true := by
  have hplay : ((play next Free (start 0) startedSession).map fun s =>
      decide (s.closing = .done ∧ s.forwarded = [(0, 0), (1, 0)])) = some true := by
    decide
  obtain ⟨s, hs, heq⟩ := Option.map_eq_some_iff.mp hplay
  obtain ⟨hd, hforwarded⟩ := of_decide_eq_true heq
  have hrun := run_of_play_list hs
  exact ⟨s, hrun, hd, hforwarded, (switching_sound hrun).2.2.2.2.2 hd⟩

/-- A session is started, and broadcasts before the relay has subscribed to it. The relay
decides to forward an event of the first session before the switch, and does it after. -/
def missedEvent : List TerminalEvent :=
  [.ask 0 { method := .shared }, .observe, .subscribe, .attach, .broadcast 0, .receive, .ask 1 { method := .start },
    .lock 1, .check, .created 1 1 0 true, .send, .broadcast 1, .changed, .observe, .subscribe, .attach]

/-- A request without a thread is executed; the event of the current session is not
forwarded, nor is the terminal closed; and one of the session before it is forwarded after the switch. -/
theorem switching_missed : ∃ s t, Run next Free (start 0) (missedEvent.take 10).reverse s ∧
    Run next Free (start 0) missedEvent.reverse t ∧
    (∃ e ∈ t.executed, e.request.method ≠ .read ∧ e.request.thread ≠ some e.session) ∧
    s.current = 1 ∧ s.events 0 = [] ∧ t.events 0 = [0] ∧
    t.current = 1 ∧ t.Settled ∧ t.events 1 = [] ∧ (t.sessions.lookup 1).map Runtime.sent = some 1 ∧
    t.closed = false ∧ t.revoked = false := by
  have hs : ((play next Free (start 0) (missedEvent.take 10)).map fun s =>
      decide (s.current = 1 ∧ s.events 0 = [])) = some true := by
    decide
  have ht : ((play next Free (start 0) missedEvent).map fun t =>
      decide ((∃ e ∈ t.executed, e.request.method ≠ .read ∧ e.request.thread ≠ some e.session) ∧
        t.events 0 = [0] ∧ t.current = 1 ∧ t.events 1 = [] ∧ t.relay = .waiting 1 1 1 ∧
        t.joined.lookup 1 = some 1 ∧ t.sessions.lookup 1 = some ⟨false, false, 1⟩ ∧
        t.closed = false ∧ t.revoked = false)) = some true := by
    decide
  obtain ⟨s, hs, heq⟩ := Option.map_eq_some_iff.mp hs
  obtain ⟨t, ht, heq'⟩ := Option.map_eq_some_iff.mp ht
  obtain ⟨hcurrent, hbefore⟩ := of_decide_eq_true heq
  obtain ⟨hexecuted, hafter, hcurrent', hnone, hrelay, hjoined, hr, hclosed, hrevoked⟩ := of_decide_eq_true heq'
  refine ⟨s, t, run_of_play_list hs, run_of_play_list ht, hexecuted, hcurrent, hbefore, hafter, hcurrent', ?_, hnone, ?_,
    hclosed, hrevoked⟩
  · refine ⟨1, 1, ⟨false, false, 1⟩, ?_, ?_, ?_, ?_⟩ <;> rw [hcurrent']
    · exact hrelay
    · exact hjoined
    · exact hr
    · exact hnone
  · rw [hr]
    rfl

end Sessions

end RemoteCodex.Terminal
