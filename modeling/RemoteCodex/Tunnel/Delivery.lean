import RemoteCodex.Execution.Operations
import RemoteCodex.Server.Replay
import RemoteCodex.Tunnel.Relay

/-!
# Requests and events over connections that break

The relay reads events from one connection, acknowledges them and writes
requests to it. When the connection is lost it attaches anew behind the last
event it has taken and writes its whole outbox again, while the service may
still take frames from connections that the relay has given up.
-/

namespace RemoteCodex.Tunnel

open Interact Protocol Server

/-- A connection the relay has made. `read`: how many of the events the service
wrote to it the relay has read; `taken`: how many of the frames written to it
the service has taken; `rest`: what of the outbox is still to be written. -/
structure Link where
  subscriber : Nat
  read : Nat := 0
  written : List Frame := []
  taken : Nat := 0
  rest : List Frame := []

/-- `links`: the last one is the current one, while the relay is connected.
`queue` holds the requests the actor has not taken yet. `read` is every event
the relay has taken, `handed` every message the frontend was given, `asked`
every request it made, and `entered` those the actor has taken; `refused` says
that the service did not accept an acknowledgement. The code keeps none of
the last five. -/
structure Delivery where
  replay : Replay := {}
  relay : Relay := {}
  connected : Bool := false
  links : List Link := []
  queue : List String := []
  read : List ExecEvent := []
  handed : List Value := []
  asked : List String := []
  entered : List String := []
  refused : Bool := false

/-- `take k ok`: the service takes a frame from a connection, and if it is a
request, there is room in the actor's queue. `enter`: the actor takes a request
and appends its receipt. `service` is whatever else happens to the store. -/
inductive DeliveryEvent
  | service (e : ReplayEvent)
  | connect
  | resend
  | request (operation : String) (message : Value) (approval : Option CommandApproval)
      (permissions : Option SessionPermissions)
  | hear
  | lose
  | take (k : Nat) (ok : Bool)
  | enter

namespace Delivery

variable (channel : String)

def current (s : Delivery) : Option Link := if s.connected then s.links.getLast? else none

/-- The current connection, changed. -/
def update (s : Delivery) (l : Link) : Delivery := { s with links := s.links.dropLast ++ [l] }

def subscriber (s : Delivery) (l : Link) : Option Subscriber := s.replay.subscribers[l.subscriber]?

/-- What a step does to the service's store and its subscribers. -/
def effect (s : Delivery) : DeliveryEvent → Option ReplayEvent
  | .service e => some e
  | .connect => some (.subscribe channel s.relay.cursor)
  | .take k _ =>
    match s.links[k]? with
    | none => none
    | some l =>
      match l.written[l.taken]?, s.subscriber l with
      | some (.ack cursor), some sub => if cursor ≤ sub.cursor then some (.prune channel cursor) else none
      | _, _ => none
  | .enter => s.queue.head?.map fun x => .append channel (Execution.accepted x)
  | _ => none

/-- What the service does about a frame it takes from a connection. -/
def handle (s : Delivery) (sub : Subscriber) (ok : Bool) : Frame → Delivery
  | .execute operation .. => if ok then { s with queue := s.queue ++ [operation] } else s
  | .ack cursor => if cursor ≤ sub.cursor then s else { s with refused := true }
  | _ => s

/-- What a step does to everything else. -/
def move (s : Delivery) : DeliveryEvent → Option Delivery
  | .service _ => some s
  | .connect =>
    if s.connected then none
    else
      let l := { subscriber := s.replay.subscribers.length, rest := s.relay.outbox.map Prod.snd }
      some { s with connected := true, links := s.links ++ [l] }
  | .resend =>
    s.current.bind fun l =>
      match l.rest with
      | [] => none
      | frame :: rest => some (s.update { l with written := l.written ++ [frame], rest })
  | .request operation message approval permissions =>
    s.current.bind fun l =>
      if l.rest = [] ∧ s.relay.outbox.length < OUTBOX then
        let frame := .execute operation message approval permissions
        some { s.update { l with written := l.written ++ [frame] } with
          relay := s.relay.send operation frame
          asked := s.asked ++ [operation] }
      else none
  | .hear =>
    s.current.bind fun l => (s.subscriber l).bind fun sub => sub.received[l.read]?.bind fun row =>
      if l.rest = [] then
        let heard := s.relay.hear row.cursor row.record
        some { s.update { l with read := l.read + 1, written := l.written ++ [.ack heard.1.cursor] } with
          relay := heard.1
          read := s.read ++ if row.cursor > s.relay.cursor then [row] else []
          handed := s.handed ++ heard.2.toList }
      else none
  | .lose => some { s with connected := false }
  | .take k ok =>
    s.links[k]?.bind fun l => (s.subscriber l).bind fun sub => l.written[l.taken]?.bind fun frame =>
      some ({ s with links := s.links.set k { l with taken := l.taken + 1 } }.handle sub ok frame)
  | .enter =>
    match s.queue with
    | [] => none
    | x :: queue => some { s with queue, entered := s.entered ++ [x] }

def next (s : Delivery) (e : DeliveryEvent) : Option Delivery :=
  (s.move e).bind fun t =>
    match s.effect channel e with
    | some change => (s.replay.next change).map fun replay => { t with replay }
    | none => some t

end Delivery

-- ---------------------------------------------------------------------------
-- What the service's store and its subscribers do
-- ---------------------------------------------------------------------------

section

open Replay

variable {s t : Replay} {sub sub' : Subscriber} {e : ReplayEvent} {log log' : List ExecEvent}

/-- What a subscriber has got are events of its channel in their order, behind where it began. -/
structure Fed (log : List ExecEvent) (sub : Subscriber) : Prop where
  sorted : Sorted sub.received
  after : ∀ row ∈ sub.received, sub.start < row.cursor
  known : ∀ row ∈ sub.received, row ∈ log ∧ row.channel = sub.channel
  cursor : sub.cursor = Pages.advance ExecEvent.cursor sub.start sub.received

/-- The same subscriber, which may have got more. -/
structure Onward (sub sub' : Subscriber) : Prop where
  channel : sub'.channel = sub.channel
  start : sub'.start = sub.start
  received : sub.received <+: sub'.received
  cursor : sub.cursor ≤ sub'.cursor

theorem Onward.refl (sub : Subscriber) : Onward sub sub := ⟨rfl, rfl, List.prefix_rfl, Int.le_refl _⟩

theorem Fed.mono (h : Fed log sub) (hlog : log <+: log') : Fed log' sub :=
  ⟨h.sorted, h.after, fun row hrow => ⟨hlog.subset (h.known row hrow).1, (h.known row hrow).2⟩, h.cursor⟩

theorem Fed.le_cursor (h : Fed log sub) : ∀ row ∈ sub.received, row.cursor ≤ sub.cursor := by
  intro row hrow
  rw [h.cursor, Pages.advance]
  cases hlast : sub.received.getLast? with
  | none =>
    rw [List.getLast?_eq_none_iff.mp hlast] at hrow
    cases hrow
  | some last => exact Pages.Ascending.le_last h.sorted hlast row hrow

theorem Fed.start_le (h : Fed log sub) : sub.start ≤ sub.cursor := by
  rw [h.cursor, Pages.advance]
  cases hlast : sub.received.getLast? with
  | none => exact Int.le_refl _
  | some last => exact Int.le_of_lt (h.after last (List.mem_of_getLast? hlast))

theorem advance_append (after : Int) (rows got : List ExecEvent) :
    Pages.advance ExecEvent.cursor after (rows ++ got) =
      Pages.advance ExecEvent.cursor (Pages.advance ExecEvent.cursor after rows) got := by
  unfold Pages.advance
  rw [List.getLast?_append]
  cases got.getLast? <;> rfl

/-- The rows of a call go on where the subscriber is. -/
theorem Fed.read (h : Fed s.log sub) (ht : Tidy s.store s.log) (n : Nat) :
    Fed s.log { sub with
      reading := false
      cursor := (((s.rows sub).take n).getLast?.map ExecEvent.cursor).getD sub.cursor
      received := sub.received ++ (s.rows sub).take n } ∧
    ∀ row ∈ (s.rows sub).take n, sub.cursor < row.cursor := by
  have hgot : ∀ row ∈ (s.rows sub).take n, row ∈ s.store.execEvents ∧ row.channel = sub.channel ∧
      sub.cursor < row.cursor := by
    intro row hrow
    obtain ⟨hmem, hguard⟩ := List.mem_filter.mp (List.mem_of_mem_take (List.mem_of_mem_take hrow))
    exact ⟨hmem, of_decide_eq_true hguard⟩
  have hsorted : Sorted ((s.rows sub).take n) :=
    ((ht.ordered.sorted.filter _).sublist (List.take_sublist _ _)).sublist (List.take_sublist _ _)
  refine ⟨⟨?_, ?_, ?_, ?_⟩, fun row hrow => (hgot row hrow).2.2⟩
  · refine List.pairwise_append.mpr ⟨h.sorted, hsorted, fun a ha b hb => ?_⟩
    exact Int.lt_of_le_of_lt (h.le_cursor a ha) (hgot b hb).2.2
  · intro row hrow
    rcases List.mem_append.mp hrow with hrow | hrow
    · exact h.after row hrow
    · exact Int.lt_of_le_of_lt h.start_le (hgot row hrow).2.2
  · intro row hrow
    rcases List.mem_append.mp hrow with hrow | hrow
    · exact h.known row hrow
    · exact ⟨ht.mem_log (hgot row hrow).1, (hgot row hrow).2.1⟩
  · rw [advance_append, ← h.cursor]
    rfl

theorem tidy_next (ht : Tidy s.store s.log) (hn : s.next e = some t) : Tidy t.store t.log ∧ s.log <+: t.log := by
  cases e with
  | create channel profile revision =>
    simp only [Replay.next] at hn
    split at hn
    · next hok =>
      obtain rfl := Option.some.inj hn
      exact ⟨ht.create hok, List.prefix_rfl⟩
    · obtain rfl := Option.some.inj hn
      exact ⟨ht, List.prefix_rfl⟩
  | append channel value =>
    simp only [Replay.next] at hn
    split at hn
    · next hok =>
      obtain rfl := Option.some.inj hn
      exact ⟨ht.append hok, List.prefix_append _ _⟩
    · obtain rfl := Option.some.inj hn
      exact ⟨ht, List.prefix_rfl⟩
  | prune channel ack =>
    obtain rfl := Option.some.inj hn
    exact ⟨ht.prune channel ack, List.prefix_rfl⟩
  | compact channel ack =>
    obtain rfl := Option.some.inj hn
    exact ⟨⟨ht.sequence, ht.sorted, ht.range, ht.known, ht.floors, ht.kept, ht.bytes⟩, List.prefix_rfl⟩
  | subscribe channel after =>
    obtain rfl := Option.some.inj hn
    exact ⟨ht, List.prefix_rfl⟩
  | check k =>
    obtain ⟨sub, -, hn⟩ := Option.bind_eq_some_iff.mp hn
    split at hn
    · cases hn
    · split at hn <;>
        · obtain rfl := Option.some.inj hn
          exact ⟨ht, List.prefix_rfl⟩
  | read k n =>
    obtain ⟨sub, -, hn⟩ := Option.bind_eq_some_iff.mp hn
    split at hn
    · obtain rfl := Option.some.inj hn
      exact ⟨ht, List.prefix_rfl⟩
    · cases hn

/-- What a step does to the subscribers. -/
inductive Subscribing (s t : Replay) : ReplayEvent → Prop
  | same {e : ReplayEvent} : (∀ channel after, e ≠ .subscribe channel after) → t.subscribers = s.subscribers → Subscribing s t e
  | joins {channel : String} {after : Int} :
      t.subscribers = s.subscribers ++ [{ channel, start := after, cursor := after }] →
      Subscribing s t (.subscribe channel after)
  | changes {e : ReplayEvent} (k : Nat) (sub sub' : Subscriber) : (∀ channel after, e ≠ .subscribe channel after) →
      s.subscribers[k]? = some sub → t.subscribers = s.subscribers.set k sub' → Onward sub sub' →
      (Fed s.log sub → Fed s.log sub') → Subscribing s t e

theorem subscribing_next (ht : Tidy s.store s.log) (hfed : ∀ sub ∈ s.subscribers, Fed s.log sub)
    (hn : s.next e = some t) : Subscribing s t e := by
  cases e with
  | create channel profile revision =>
    simp only [Replay.next] at hn
    split at hn <;>
      · obtain rfl := Option.some.inj hn
        exact .same (by rintro _ _ ⟨⟩) rfl
  | append channel value =>
    simp only [Replay.next] at hn
    split at hn <;>
      · obtain rfl := Option.some.inj hn
        exact .same (by rintro _ _ ⟨⟩) rfl
  | prune channel ack =>
    obtain rfl := Option.some.inj hn
    exact .same (by rintro _ _ ⟨⟩) rfl
  | compact channel ack =>
    obtain rfl := Option.some.inj hn
    exact .same (by rintro _ _ ⟨⟩) rfl
  | subscribe channel after =>
    obtain rfl := Option.some.inj hn
    exact .joins rfl
  | check k =>
    obtain ⟨sub, hsub, hn⟩ := Option.bind_eq_some_iff.mp hn
    split at hn
    · cases hn
    · split at hn <;>
        · obtain rfl := Option.some.inj hn
          exact .changes k sub _ (by rintro _ _ ⟨⟩) hsub rfl ⟨rfl, rfl, List.prefix_rfl, Int.le_refl _⟩
            fun h => ⟨h.sorted, h.after, h.known, h.cursor⟩
  | read k n =>
    obtain ⟨sub, hsub, hn⟩ := Option.bind_eq_some_iff.mp hn
    split at hn
    · obtain rfl := Option.some.inj hn
      have hread := (hfed sub (List.mem_of_getElem? hsub)).read ht n
      refine .changes k sub _ (by rintro _ _ ⟨⟩) hsub rfl ⟨rfl, rfl, List.prefix_append _ _, ?_⟩ fun _ => hread.1
      cases hlast : ((s.rows sub).take n).getLast? with
      | none => exact Int.le_refl _
      | some last => exact Int.le_of_lt (hread.2 last (List.mem_of_getLast? hlast))
    · cases hn

theorem Subscribing.fed (h : Subscribing s t e) (hfed : ∀ sub ∈ s.subscribers, Fed s.log sub)
    (hlog : s.log <+: t.log) : ∀ sub ∈ t.subscribers, Fed t.log sub := by
  intro sub hsub
  cases h with
  | same _ heq => exact (hfed sub (heq ▸ hsub)).mono hlog
  | joins heq =>
    rw [heq, List.mem_append, List.mem_singleton] at hsub
    rcases hsub with hsub | rfl
    · exact (hfed sub hsub).mono hlog
    · exact ⟨.nil, nofun, nofun, rfl⟩
  | changes k old new _ hold heq _ hkeeps =>
    rw [heq] at hsub
    rcases List.mem_or_eq_of_mem_set hsub with hsub | rfl
    · exact (hfed sub hsub).mono hlog
    · exact (hkeeps (hfed old (List.mem_of_getElem? hold))).mono hlog

/-- A subscriber stays the one it is. -/
theorem Subscribing.onward (h : Subscribing s t e) {k : Nat} (hsub : s.subscribers[k]? = some sub) :
    ∃ sub', t.subscribers[k]? = some sub' ∧ Onward sub sub' := by
  have hlt : k < s.subscribers.length := (List.getElem?_eq_some_iff.mp hsub).1
  cases h with
  | same _ heq => exact ⟨sub, heq ▸ hsub, .refl sub⟩
  | joins heq => exact ⟨sub, by rw [heq, List.getElem?_append_left hlt, hsub], .refl sub⟩
  | changes j old new _ hold heq honward _ =>
    by_cases hk : j = k
    · subst hk
      obtain rfl := Option.some.inj (hold.symm.trans hsub)
      exact ⟨new, by rw [heq, List.getElem?_set_self hlt], honward⟩
    · exact ⟨sub, by rw [heq, List.getElem?_set_ne hk, hsub], .refl sub⟩

end

-- ---------------------------------------------------------------------------
-- What a step is
-- ---------------------------------------------------------------------------

namespace Delivery

section

variable {channel : String} {s m t : Delivery} {e : DeliveryEvent} {l l' : Link} {sub : Subscriber} {row : ExecEvent}

/-- The ways in which a step can be made, and what it makes of all but the store. -/
inductive Moved (s : Delivery) : DeliveryEvent → Delivery → Prop
  | service (e : ReplayEvent) : Moved s (.service e) s
  | connect : s.connected = false →
      Moved s .connect { s with
        connected := true
        links := s.links ++ [{ subscriber := s.replay.subscribers.length, rest := s.relay.outbox.map Prod.snd }] }
  | resend (l : Link) (frame : Frame) (rest : List Frame) : s.current = some l → l.rest = frame :: rest →
      Moved s .resend (s.update { l with written := l.written ++ [frame], rest })
  | request (l : Link) (operation : String) (message : Value) (approval : Option CommandApproval)
      (permissions : Option SessionPermissions) :
      s.current = some l → l.rest = [] → s.relay.outbox.length < OUTBOX →
      Moved s (.request operation message approval permissions)
        { s.update { l with written := l.written ++ [.execute operation message approval permissions] } with
          relay := s.relay.send operation (.execute operation message approval permissions)
          asked := s.asked ++ [operation] }
  | hear (l : Link) (sub : Subscriber) (row : ExecEvent) : s.current = some l → s.subscriber l = some sub →
      sub.received[l.read]? = some row → l.rest = [] →
      Moved s .hear
        { s.update { l with
            read := l.read + 1
            written := l.written ++ [.ack (s.relay.hear row.cursor row.record).1.cursor] } with
          relay := (s.relay.hear row.cursor row.record).1
          read := s.read ++ if row.cursor > s.relay.cursor then [row] else []
          handed := s.handed ++ (s.relay.hear row.cursor row.record).2.toList }
  | lose : Moved s .lose { s with connected := false }
  | take (k : Nat) (ok : Bool) (l : Link) (sub : Subscriber) (frame : Frame) : s.links[k]? = some l →
      s.subscriber l = some sub → l.written[l.taken]? = some frame →
      Moved s (.take k ok) ({ s with links := s.links.set k { l with taken := l.taken + 1 } }.handle sub ok frame)
  | enter (x : String) (queue : List String) : s.queue = x :: queue →
      Moved s .enter { s with queue, entered := s.entered ++ [x] }

theorem moved_of_move (h : s.move e = some m) : Moved s e m := by
  cases e with
  | service e =>
    cases h
    exact .service e
  | connect =>
    simp only [move] at h
    split at h
    · cases h
    · next hc =>
      cases h
      exact .connect (Bool.eq_false_iff.mpr hc)
  | resend =>
    obtain ⟨l, hl, h⟩ := Option.bind_eq_some_iff.mp h
    split at h
    · cases h
    · next frame rest hrest =>
      cases h
      exact .resend l frame rest hl hrest
  | request operation message approval permissions =>
    obtain ⟨l, hl, h⟩ := Option.bind_eq_some_iff.mp h
    split at h
    · next hguard =>
      cases h
      exact .request l operation message approval permissions hl hguard.1 hguard.2
    · cases h
  | hear =>
    obtain ⟨l, hl, h⟩ := Option.bind_eq_some_iff.mp h
    obtain ⟨sub, hsub, h⟩ := Option.bind_eq_some_iff.mp h
    obtain ⟨row, hrow, h⟩ := Option.bind_eq_some_iff.mp h
    split at h
    · next hrest =>
      cases h
      exact .hear l sub row hl hsub hrow hrest
    · cases h
  | lose =>
    cases h
    exact .lose
  | take k ok =>
    obtain ⟨l, hl, h⟩ := Option.bind_eq_some_iff.mp h
    obtain ⟨sub, hsub, h⟩ := Option.bind_eq_some_iff.mp h
    obtain ⟨frame, hframe, h⟩ := Option.bind_eq_some_iff.mp h
    cases h
    exact .take k ok l sub frame hl hsub hframe
  | enter =>
    simp only [move] at h
    split at h
    · cases h
    · next x queue hqueue =>
      cases h
      exact .enter x queue hqueue

/-- A step moves everything else, and then the store. -/
theorem next_cases (h : s.next channel e = some t) :
    ∃ m, Moved s e m ∧
      ((s.effect channel e = none ∧ t = m) ∨
        ∃ change replay, s.effect channel e = some change ∧ s.replay.next change = some replay ∧ t = { m with replay }) := by
  obtain ⟨m, hm, h⟩ := Option.bind_eq_some_iff.mp h
  refine ⟨m, moved_of_move hm, ?_⟩
  split at h
  · next change heffect =>
    obtain ⟨replay, hreplay, rfl⟩ := Option.map_eq_some_iff.mp h
    exact .inr ⟨change, replay, heffect, hreplay, rfl⟩
  · next heffect =>
    cases h
    exact .inl ⟨heffect, rfl⟩

/-- A frame that is taken changes the queue, and the service refuses only an
acknowledgement of what it has not sent. -/
theorem handle_eq (s : Delivery) (sub : Subscriber) (ok : Bool) (frame : Frame) :
    ∃ queue refused, s.handle sub ok frame = { s with queue, refused } ∧
      (∀ x ∈ queue, x ∈ s.queue ∨ ∃ message approval permissions, frame = .execute x message approval permissions) ∧
      ((∀ cursor, frame = .ack cursor → cursor ≤ sub.cursor) → refused = s.refused) := by
  cases frame with
  | execute operation message approval permissions =>
    simp only [handle]
    split
    · refine ⟨s.queue ++ [operation], s.refused, rfl, fun x hx => ?_, fun _ => rfl⟩
      rcases List.mem_append.mp hx with hx | hx
      · exact .inl hx
      · rw [List.mem_singleton.mp hx]
        exact .inr ⟨message, approval, permissions, rfl⟩
    · exact ⟨s.queue, s.refused, rfl, fun _ => .inl, fun _ => rfl⟩
  | ack cursor =>
    simp only [handle]
    split
    · exact ⟨s.queue, s.refused, rfl, fun _ => .inl, fun _ => rfl⟩
    · next hgt => exact ⟨s.queue, true, rfl, fun _ => .inl, fun hle => absurd (hle cursor rfl) hgt⟩
  | result value => exact ⟨s.queue, s.refused, rfl, fun _ => .inl, fun _ => rfl⟩
  | error fault => exact ⟨s.queue, s.refused, rfl, fun _ => .inl, fun _ => rfl⟩
  | event cursor message => exact ⟨s.queue, s.refused, rfl, fun _ => .inl, fun _ => rfl⟩
  | heartbeat => exact ⟨s.queue, s.refused, rfl, fun _ => .inl, fun _ => rfl⟩
  | detach => exact ⟨s.queue, s.refused, rfl, fun _ => .inl, fun _ => rfl⟩

theorem current_eq (h : s.current = some l) : s.connected = true ∧ s.links = s.links.dropLast ++ [l] := by
  unfold current at h
  split at h
  · next hc => exact ⟨hc, (List.dropLast_append_getLast? l h).symm⟩
  · cases h

theorem mem_of_current (h : s.current = some l) : l ∈ s.links := by
  rw [(current_eq h).2]
  exact List.mem_append_right _ (List.mem_singleton_self l)

theorem mem_update {x : Link} (h : x ∈ (s.update l').links) : x ∈ s.links ∨ x = l' := by
  rcases List.mem_append.mp h with h | h
  · exact .inl ((List.dropLast_sublist _).subset h)
  · exact .inr (List.mem_singleton.mp h)

theorem current_update (h : s.current = some l) : (s.update l').current = some l' := by
  unfold current update
  rw [if_pos (current_eq h).1, List.getLast?_append]
  rfl

end

end Delivery

end RemoteCodex.Tunnel
