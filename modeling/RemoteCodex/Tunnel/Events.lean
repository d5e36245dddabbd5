import RemoteCodex.Tunnel.Delivery

/-!
# What the frontend is given

The relay reads the events of a connection in their order, and a new
connection goes on behind the last one it has read. So it reads no event twice,
and all of them where the service returns all of them.
-/

namespace RemoteCodex.Tunnel

open Interact Protocol Server

namespace Delivery

section

variable {channel : String} {s m t : Delivery} {e : DeliveryEvent} {l : Link} {sub : Subscriber} {row : ExecEvent}

-- ---------------------------------------------------------------------------
-- Events
-- ---------------------------------------------------------------------------

/-- Where a reader is that has read the first `n` events. -/
def position (sub : Subscriber) (n : Nat) : Int := Pages.advance ExecEvent.cursor sub.start (sub.received.take n)

/-- The store is tidy, and its subscribers are fed. -/
structure Stored (replay : Replay) : Prop where
  tidy : Replay.Tidy replay.store replay.log
  fed : ∀ sub ∈ replay.subscribers, Fed replay.log sub

/-- The frame is that of a request. -/
def Executes (frame : Frame) (x : String) : Prop :=
  ∃ message approval permissions, frame = .execute x message approval permissions

/-- A connection is one to a subscriber of the channel, which has got what was
read and what was acknowledged. -/
def Linked (channel : String) (replay : Replay) (l : Link) : Prop :=
  ∃ sub, replay.subscribers[l.subscriber]? = some sub ∧ sub.channel = channel ∧ l.read ≤ sub.received.length ∧
    ∀ cursor, Frame.ack cursor ∈ l.written → cursor ≤ sub.cursor

structure Delivered (channel : String) (s : Delivery) : Prop where
  stored : Stored s.replay
  links : ∀ l ∈ s.links, Linked channel s.replay l
  refused : s.refused = false
  current : ∀ l, s.current = some l → ∃ sub, s.subscriber l = some sub ∧ s.relay.cursor = position sub l.read
  sorted : Replay.Sorted s.read
  known : ∀ row ∈ s.read, row ∈ s.replay.log ∧ row.channel = channel
  cursor : s.relay.cursor = Pages.advance ExecEvent.cursor 0 s.read
  handed : s.handed = (s.read.filter fun row => !Relay.accepts row.record).map ExecEvent.record
  outbox : ∀ x ∈ s.relay.outbox, Executes x.2 x.1
  rest : ∀ l ∈ s.links, ∀ frame ∈ l.rest, ∃ x, Executes frame x

theorem stored_next {r r' : Replay} {change : ReplayEvent} (h : Stored r) (hn : r.next change = some r') :
    Stored r' ∧ r.log <+: r'.log ∧ Subscribing r r' change := by
  have hnext := tidy_next h.tidy hn
  have hsubscribing := subscribing_next h.tidy h.fed hn
  exact ⟨⟨hnext.1, hsubscribing.fed h.fed hnext.2⟩, hnext.2, hsubscribing⟩

theorem position_onward {sub sub' : Subscriber} {n : Nat} (h : Onward sub sub') (hn : n ≤ sub.received.length) :
    position sub' n = position sub n := by
  obtain ⟨more, hmore⟩ := h.received
  unfold position
  rw [h.start, ← hmore, List.take_append_of_le_length hn]

/-- The next event lies behind everything that was read. -/
theorem position_lt {log : List ExecEvent} {n : Nat} (h : Fed log sub) (hrow : sub.received[n]? = some row) :
    position sub n < row.cursor ∧ position sub (n + 1) = row.cursor := by
  have htake : sub.received.take (n + 1) = sub.received.take n ++ [row] := by
    rw [List.take_add_one, hrow]
    rfl
  constructor
  · have hpair : Replay.Sorted (sub.received.take n ++ [row]) := htake ▸ h.sorted.sublist (List.take_sublist _ _)
    unfold position Pages.advance
    cases hlast : (sub.received.take n).getLast? with
    | none => exact h.after row (List.mem_of_getElem? hrow)
    | some last =>
      exact (List.pairwise_append.mp hpair).2.2 last (List.mem_of_getLast? hlast) row (List.mem_singleton_self row)
  · rw [position, htake, advance_append]
    rfl

/-- What an event does that lies behind the relay's cursor. -/
theorem hear_behind (r : Relay) {next : Int} (message : Value) (h : r.cursor < next) :
    (r.hear next message).1.cursor = next ∧
      (r.hear next message).2 = (if Relay.accepts message then none else some message) := by
  unfold Relay.hear
  rw [if_pos h]
  split
  · split <;> exact ⟨rfl, rfl⟩
  · exact ⟨rfl, rfl⟩

/-- Hearing an event puts nothing into the outbox. -/
theorem outbox_hear {r : Relay} {next : Int} {message : Value} {x : String × Frame}
    (h : x ∈ (r.hear next message).1.outbox) : x ∈ r.outbox := by
  unfold Relay.hear at h
  split at h
  · split at h
    · split at h
      · exact List.mem_of_mem_filter h
      · exact h
    · exact h
  · exact h

theorem mem_insertFrame {operation : String} {frame : Frame} {outbox : List (String × Frame)} {x : String × Frame}
    (h : x ∈ Relay.insertFrame operation frame outbox) : x = (operation, frame) ∨ x ∈ outbox := by
  induction outbox with
  | nil => exact .inl (List.mem_singleton.mp h)
  | cons head rest ih =>
    unfold Relay.insertFrame at h
    split at h
    · exact List.mem_cons.mp h
    · split at h
      · rcases List.mem_cons.mp h with h | h
        · exact .inl h
        · exact .inr (List.mem_cons_of_mem _ h)
      · rcases List.mem_cons.mp h with h | h
        · exact .inr (h ▸ List.mem_cons_self)
        · exact (ih h).imp_right (List.mem_cons_of_mem _)

theorem Linked.onward {r r' : Replay} (h : Linked channel r l)
    (honward : ∀ (k : Nat) sub, r.subscribers[k]? = some sub → ∃ sub', r'.subscribers[k]? = some sub' ∧ Onward sub sub') :
    Linked channel r' l := by
  obtain ⟨sub, hsub, hchannel, hread, hacks⟩ := h
  obtain ⟨sub', hsub', ho⟩ := honward _ _ hsub
  refine ⟨sub', hsub', ho.channel.trans hchannel, Nat.le_trans hread ho.received.length_le, fun cursor hack => ?_⟩
  exact Int.le_trans (hacks cursor hack) ho.cursor

/-- The store goes on by itself. -/
theorem Delivered.replay (h : Delivered channel s) {replay : Replay} {change : ReplayEvent}
    (hn : s.replay.next change = some replay) : Delivered channel { s with replay } := by
  obtain ⟨hstored, hlog, hsubscribing⟩ := stored_next h.stored hn
  refine ⟨hstored, fun l hl => (h.links l hl).onward fun k sub => hsubscribing.onward, h.refused, fun l hl => ?_,
    h.sorted, fun row hrow => ⟨hlog.subset (h.known row hrow).1, (h.known row hrow).2⟩, h.cursor, h.handed, h.outbox,
    h.rest⟩
  obtain ⟨sub, hsub, hcursor⟩ := h.current l hl
  obtain ⟨sub', hsub', ho⟩ := hsubscribing.onward hsub
  obtain ⟨sub₀, hsub₀, -, hread, -⟩ := h.links l (mem_of_current hl)
  obtain rfl := Option.some.inj (hsub₀.symm.trans hsub)
  exact ⟨sub', hsub', hcursor.trans (position_onward ho hread).symm⟩

/-- The current connection is written to. -/
theorem Delivered.update (h : Delivered channel s) (hl : s.current = some l) (frames rest : List Frame)
    (hacks : ∀ cursor, Frame.ack cursor ∉ frames) (hrest : rest ⊆ l.rest) :
    Delivered channel (s.update { l with written := l.written ++ frames, rest }) where
  __ := h
  rest x hx frame hframe := by
    rcases mem_update hx with hx | rfl
    · exact h.rest x hx frame hframe
    · exact h.rest l (mem_of_current hl) frame (hrest hframe)
  links x hx := by
    rcases mem_update hx with hx | rfl
    · exact h.links x hx
    · obtain ⟨sub, hsub, hchannel, hread, hold⟩ := h.links l (mem_of_current hl)
      refine ⟨sub, hsub, hchannel, hread, fun cursor hack => ?_⟩
      rcases List.mem_append.mp hack with hack | hack
      · exact hold cursor hack
      · exact absurd hack (hacks cursor)
  current x hx := by
    rw [current_update hl] at hx
    cases hx
    exact h.current l hl

theorem Delivered.hear (h : Delivered channel s) (hl : s.current = some l) (hsub : s.subscriber l = some sub)
    (hrow : sub.received[l.read]? = some row) :
    Delivered channel
      { s.update { l with
          read := l.read + 1
          written := l.written ++ [.ack (s.relay.hear row.cursor row.record).1.cursor] } with
        relay := (s.relay.hear row.cursor row.record).1
        read := s.read ++ if row.cursor > s.relay.cursor then [row] else []
        handed := s.handed ++ (s.relay.hear row.cursor row.record).2.toList } := by
  have hfed : Fed s.replay.log sub := h.stored.fed sub (List.mem_of_getElem? hsub)
  obtain ⟨sub₀, hsub₀, hcursor⟩ := h.current l hl
  obtain rfl := Option.some.inj (hsub₀.symm.trans hsub)
  obtain ⟨hlt, hpos⟩ := position_lt hfed hrow
  rw [← hcursor] at hlt
  obtain ⟨hnext, hforward⟩ := hear_behind s.relay row.record hlt
  have hknown := hfed.known row (List.mem_of_getElem? hrow)
  obtain ⟨sub₁, hsub₁, hchannel, hread, hold⟩ := h.links l (mem_of_current hl)
  obtain rfl := Option.some.inj (hsub₁.symm.trans hsub)
  rw [if_pos hlt]
  refine ⟨h.stored, fun x hx => ?_, h.refused, fun x hx => ?_, ?_, fun x hx => ?_, ?_, ?_, fun x hx => ?_,
    fun x hx frame hframe => ?_⟩
  · rcases mem_update hx with hx | rfl
    · exact h.links x hx
    · refine ⟨_, hsub, hchannel, (List.getElem?_eq_some_iff.mp hrow).1, fun cursor hack => ?_⟩
      rcases List.mem_append.mp hack with hack | hack
      · exact hold cursor hack
      · cases List.mem_singleton.mp hack
        rw [hnext]
        exact hfed.le_cursor row (List.mem_of_getElem? hrow)
  · have hcurrent : (s.update { l with
        read := l.read + 1
        written := l.written ++ [.ack (s.relay.hear row.cursor row.record).1.cursor] }).current = some { l with
          read := l.read + 1
          written := l.written ++ [.ack (s.relay.hear row.cursor row.record).1.cursor] } := current_update hl
    obtain rfl := Option.some.inj (hcurrent.symm.trans hx)
    exact ⟨_, hsub, hnext.trans hpos.symm⟩
  · refine List.pairwise_append.mpr ⟨h.sorted, List.pairwise_singleton _ _, fun a ha b hb => ?_⟩
    rw [List.mem_singleton.mp hb]
    refine Int.lt_of_le_of_lt ?_ hlt
    rw [h.cursor, Pages.advance]
    cases hlast : s.read.getLast? with
    | none =>
      rw [List.getLast?_eq_none_iff.mp hlast] at ha
      cases ha
    | some last => exact Pages.Ascending.le_last h.sorted hlast a ha
  · rcases List.mem_append.mp hx with hx | hx
    · exact h.known x hx
    · rw [List.mem_singleton.mp hx]
      exact ⟨hknown.1, hknown.2.trans hchannel⟩
  · show (s.relay.hear row.cursor row.record).1.cursor = _
    rw [hnext, advance_append]
    rfl
  · show s.handed ++ _ = _
    rw [hforward, h.handed, List.filter_append, List.map_append, List.filter_singleton]
    cases Relay.accepts row.record <;> rfl
  · exact h.outbox x (outbox_hear hx)
  · rcases mem_update hx with hx | rfl
    · exact h.rest x hx frame hframe
    · exact h.rest l (mem_of_current hl) frame hframe

/-- The same connection, of which the service may have taken more. -/
structure Link.Taken (l l' : Link) : Prop where
  subscriber : l'.subscriber = l.subscriber
  read : l'.read = l.read
  written : l'.written = l.written
  rest : l'.rest = l.rest

/-- The connections after the service has taken a frame. -/
def taking (s : Delivery) (k : Nat) (l : Link) : List Link := s.links.set k { l with taken := l.taken + 1 }

theorem mem_taking {k : Nat} (hl : s.links[k]? = some l) {x : Link} (hx : x ∈ s.taking k l) :
    ∃ y ∈ s.links, Link.Taken y x := by
  rcases List.mem_or_eq_of_mem_set hx with hx | rfl
  · exact ⟨x, hx, rfl, rfl, rfl, rfl⟩
  · exact ⟨l, List.mem_of_getElem? hl, rfl, rfl, rfl, rfl⟩

theorem last_taking {k : Nat} (hl : s.links[k]? = some l) {x : Link} (hx : (s.taking k l).getLast? = some x) :
    ∃ y, s.links.getLast? = some y ∧ Link.Taken y x := by
  rw [List.getLast?_eq_getElem?, taking, List.length_set, List.getElem?_set] at hx
  rw [List.getLast?_eq_getElem?]
  split at hx
  · next hk =>
    split at hx
    · cases hx
      exact ⟨l, hk ▸ hl, rfl, rfl, rfl, rfl⟩
    · cases hx
  · exact ⟨x, hx, rfl, rfl, rfl, rfl⟩

theorem current_taking {k : Nat} (hl : s.links[k]? = some l) {x : Link}
    (hx : ({ s with links := s.taking k l } : Delivery).current = some x) :
    ∃ y, s.current = some y ∧ Link.Taken y x := by
  unfold current at hx ⊢
  split at hx
  · next hc =>
    obtain ⟨y, hy, htaken⟩ := last_taking hl hx
    exact ⟨y, by rw [if_pos hc, hy], htaken⟩
  · cases hx

theorem Delivered.take (h : Delivered channel s) {k : Nat} (hl : s.links[k]? = some l) (queue : List String) :
    Delivered channel { s with links := s.taking k l, queue } where
  __ := h
  rest x hx frame hframe := by
    obtain ⟨y, hy, htaken⟩ := mem_taking hl hx
    exact h.rest y hy frame (htaken.rest ▸ hframe)
  links x hx := by
    obtain ⟨y, hy, htaken⟩ := mem_taking hl hx
    have hlinked := h.links y hy
    unfold Linked at hlinked ⊢
    rwa [htaken.subscriber, htaken.read, htaken.written]
  current x hx := by
    obtain ⟨y, hy, htaken⟩ := current_taking hl hx
    obtain ⟨sub, hsub, hcursor⟩ := h.current y hy
    refine ⟨sub, ?_, ?_⟩
    · rw [← hsub, subscriber, subscriber, htaken.subscriber]
    · rw [htaken.read]
      exact hcursor

theorem Delivered.connect (h : Delivered channel s) {replay : Replay}
    (hn : s.replay.next (.subscribe channel s.relay.cursor) = some replay) :
    Delivered channel { s with
      replay
      connected := true
      links := s.links ++ [{ subscriber := s.replay.subscribers.length, rest := s.relay.outbox.map Prod.snd }] } := by
  obtain rfl := Option.some.inj hn
  have hstored := (stored_next h.stored hn).1
  have hnew : (s.replay.subscribers ++
      [{ channel, start := s.relay.cursor, cursor := s.relay.cursor }])[s.replay.subscribers.length]? =
        some { channel, start := s.relay.cursor, cursor := s.relay.cursor } := List.getElem?_concat_length
  refine ⟨hstored, fun x hx => ?_, h.refused, fun x hx => ?_, h.sorted, h.known, h.cursor, h.handed, h.outbox,
    fun x hx frame hframe => ?_⟩
  · rcases List.mem_append.mp hx with hx | hx
    · refine (h.links x hx).onward fun k sub hsub => ⟨sub, ?_, .refl sub⟩
      exact (List.getElem?_append_left (List.getElem?_eq_some_iff.mp hsub).1).trans hsub
    · rw [List.mem_singleton.mp hx]
      exact ⟨_, hnew, rfl, Nat.le_refl 0, nofun⟩
  · change (s.links ++ [_]).getLast? = some x at hx
    rw [List.getLast?_concat] at hx
    cases hx
    exact ⟨_, hnew, rfl⟩
  · rcases List.mem_append.mp hx with hx | hx
    · exact h.rest x hx frame hframe
    · rw [List.mem_singleton.mp hx] at hframe
      obtain ⟨entry, hentry, rfl⟩ := List.mem_map.mp hframe
      exact ⟨entry.1, h.outbox entry hentry⟩

theorem Delivered.next (h : Delivered channel s) (hn : s.next channel e = some t) : Delivered channel t := by
  obtain ⟨m, hm, hstore⟩ := next_cases hn
  -- What a step does to the store comes last, and only a new connection waits for it.
  have hthen : Delivered channel m → m.replay = s.replay → Delivered channel t := by
    intro hdelivered hsame
    rcases hstore with ⟨-, rfl⟩ | ⟨change, replay, -, hreplay, rfl⟩
    · exact hdelivered
    · exact hdelivered.replay (hsame ▸ hreplay)
  cases hm with
  | service e => exact hthen h rfl
  | connect hc =>
    rcases hstore with ⟨hnone, -⟩ | ⟨change, replay, hchange, hreplay, rfl⟩
    · cases hnone
    · cases hchange
      exact h.connect hreplay
  | resend l frame rest hl hrest =>
    have hframe : frame ∈ l.rest := hrest ▸ List.mem_cons_self
    refine hthen (h.update hl [frame] rest (fun cursor hack => ?_) ?_) rfl
    · obtain ⟨x, message, approval, permissions, rfl⟩ := h.rest l (mem_of_current hl) frame hframe
      cases List.mem_singleton.mp hack
    · rw [hrest]
      exact List.subset_cons_self _ _
  | request l operation message approval permissions hl hrest hroom =>
    have hupdated := h.update hl [.execute operation message approval permissions] l.rest (by simp) (List.Subset.refl _)
    refine hthen { hupdated with outbox := fun x hx => ?_ } rfl
    rcases mem_insertFrame hx with rfl | hx
    · exact ⟨message, approval, permissions, rfl⟩
    · exact h.outbox x hx
  | hear l sub row hl hsub hrow hrest => exact hthen (h.hear hl hsub hrow) rfl
  | lose => exact hthen { h with current := nofun } rfl
  | take k ok l sub frame hl hsub hframe =>
    obtain ⟨queue, refused, heq, -, hrefused⟩ := handle_eq { s with links := s.taking k l } sub ok frame
    have hacks : ∀ cursor, frame = .ack cursor → cursor ≤ sub.cursor := by
      rintro cursor rfl
      obtain ⟨sub₀, hsub₀, -, -, hold⟩ := h.links l (List.mem_of_getElem? hl)
      obtain rfl := Option.some.inj (hsub₀.symm.trans hsub)
      exact hold cursor (List.mem_of_getElem? hframe)
    obtain rfl := hrefused hacks
    have hreplay := congrArg Delivery.replay heq
    exact hthen (heq ▸ h.take hl queue) hreplay
  | enter x queue hqueue => exact hthen { h with } rfl

/-- The runs of a relay and a service from when the service starts. -/
abbrev Reaches (channel : String) (C : Delivery → DeliveryEvent → Prop) (h : List DeliveryEvent) (s : Delivery) : Prop :=
  Run (next channel) C {} h s

variable {h : List DeliveryEvent} {C : Delivery → DeliveryEvent → Prop}

theorem delivered_of_reaches (hrun : Reaches channel C h s) : Delivered channel s := by
  refine hrun.invariant ⟨⟨⟨Int.le_refl 0, .nil, by simp, by simp, ?_, rfl, ?_⟩, nofun⟩, nofun, rfl, nofun, .nil, nofun,
    rfl, rfl, nofun, nofun⟩ fun _ _ _ hs _ => hs.next
  · exact fun _ => ⟨Int.le_refl 0, Int.le_refl 0⟩
  · intro channel row hrow
    cases hrow

/-- However connections are lost and made, the frontend is given events of the
channel in their order, none of them twice, and no acknowledgement is refused. -/
theorem handed_once (hrun : Reaches channel Free h s) :
    s.handed = (s.read.filter fun row => !Relay.accepts row.record).map ExecEvent.record ∧ Replay.Sorted s.read ∧
      (∀ row ∈ s.read, row ∈ s.replay.log ∧ row.channel = channel) ∧
      s.relay.cursor = Pages.advance ExecEvent.cursor 0 s.read ∧ s.refused = false := by
  have hd := delivered_of_reaches hrun
  exact ⟨hd.handed, hd.sorted, hd.known, hd.cursor, hd.refused⟩

/-- A request is written, its connection is lost, and it is written again. -/
def twice : List DeliveryEvent :=
  [.service (.create "c" "p" 0), .connect, .request "r" .null none none, .lose, .connect, .resend, .take 1 true, .enter,
    .service (.append "c" .null), .service (.check 1), .service (.read 1 2), .hear, .hear, .take 1 true]

theorem handed_once_twice : ∃ s, Reaches "c" Free twice.reverse s ∧ s.handed.length = 1 ∧
    s.handed = (s.read.filter fun row => !Relay.accepts row.record).map ExecEvent.record := by
  have hplay : (play (next "c") Free {} twice).map (fun s => s.handed.length) = some 1 := rfl
  obtain ⟨s, hs, hlen⟩ := Option.map_eq_some_iff.mp hplay
  exact ⟨s, run_of_play_list hs, hlen, (handed_once (run_of_play_list hs)).1⟩

-- ---------------------------------------------------------------------------
-- Every event
-- ---------------------------------------------------------------------------

/-- Nothing is deleted that a call is about to return. -/
def Undisturbed (channel : String) (s : Delivery) (e : DeliveryEvent) : Prop :=
  ∀ change ∈ s.effect channel e, Replay.Undisturbed s.replay change

instance : Decidable (Undisturbed channel s e) :=
  inferInstanceAs (Decidable (∀ change ∈ s.effect channel e, Replay.Undisturbed s.replay change))

/-- The subscribers are served, and the relay has read all events up to its cursor. -/
structure Complete (channel : String) (s : Delivery) : Prop where
  delivered : Delivered channel s
  sound : Replay.Sound s.replay
  read : Replay.behind channel 0 s.replay.log = s.read ++ Replay.behind channel s.relay.cursor s.replay.log

theorem log_next {r r' : Replay} {change : ReplayEvent} (hn : r.next change = some r') :
    r'.log = r.log ∨
      ∃ name value, change = .append name value ∧ r'.log = r.log ++ [⟨r.store.sequence + 1, name, value⟩] := by
  cases change with
  | create name profile revision =>
    simp only [Replay.next] at hn
    split at hn <;>
      · obtain rfl := Option.some.inj hn
        exact .inl rfl
  | append name value =>
    simp only [Replay.next] at hn
    obtain ⟨-, heq⟩ | ⟨row, bytes, floor, rows, -, -, heq⟩ := Store.appendEvent_cases r.store name value
    · rw [heq] at hn
      obtain rfl := Option.some.inj hn
      exact .inl rfl
    · rw [heq] at hn
      obtain rfl := Option.some.inj hn
      exact .inr ⟨name, value, rfl, rfl⟩
  | prune name ack =>
    obtain rfl := Option.some.inj hn
    exact .inl rfl
  | compact name ack =>
    obtain rfl := Option.some.inj hn
    exact .inl rfl
  | subscribe name after =>
    obtain rfl := Option.some.inj hn
    exact .inl rfl
  | check k =>
    obtain ⟨sub, -, hn⟩ := Option.bind_eq_some_iff.mp hn
    split at hn
    · cases hn
    · split at hn <;>
        · obtain rfl := Option.some.inj hn
          exact .inl rfl
  | read k n =>
    obtain ⟨sub, -, hn⟩ := Option.bind_eq_some_iff.mp hn
    split at hn
    · obtain rfl := Option.some.inj hn
      exact .inl rfl
    · cases hn

theorem Delivered.cursor_le (h : Delivered channel s) : s.relay.cursor ≤ s.replay.store.sequence := by
  rw [h.cursor, Pages.advance]
  cases hlast : s.read.getLast? with
  | none => exact h.stored.tidy.sequence
  | some last => exact (h.stored.tidy.range last (h.known last (List.mem_of_getLast? hlast)).1).2

/-- What lies behind the place of a reader that has read `n` events. -/
theorem behind_position {r : Replay} (ht : Replay.Tidy r.store r.log) (hserved : Replay.Served r sub) (n : Nat) :
    Replay.behind sub.channel (position sub n) r.log =
      sub.received.drop n ++ Replay.behind sub.channel sub.cursor r.log := by
  have hsplit : Pages.rest ExecEvent.cursor (Store.eventsOf sub.channel r.log) sub.start =
      sub.received.take n ++ (sub.received.drop n ++ Replay.behind sub.channel sub.cursor r.log) := by
    rw [← Replay.behind_eq_rest, hserved.received, ← List.append_assoc, List.take_append_drop]
  rw [Replay.behind_eq_rest, position]
  exact Pages.rest_advance (ht.sorted.filter _) hsplit

theorem Complete.next (h : Complete channel s) (hc : Undisturbed channel s e) (hn : s.next channel e = some t) :
    Complete channel t := by
  have hdelivered := h.delivered.next hn
  obtain ⟨m, hm, hstore⟩ := next_cases hn
  -- The store goes on while the relay stands still.
  have hgrows : ∀ {m' : Delivery} {change replay}, s.effect channel e = some change →
      s.replay.next change = some replay → m'.replay = s.replay → m'.relay.cursor = s.relay.cursor →
      m'.read = s.read → Replay.Sound replay ∧
        Replay.behind channel 0 replay.log = m'.read ++ Replay.behind channel m'.relay.cursor replay.log := by
    intro m' change replay heffect hreplay _ hcursor hread
    refine ⟨h.sound.next (hc change heffect) hreplay, ?_⟩
    rw [hcursor, hread]
    rcases log_next hreplay with hsame | ⟨name, value, -, happend⟩
    · rw [hsame, h.read]
    · have hseq := h.delivered.stored.tidy.sequence
      have hle := h.delivered.cursor_le
      rw [happend, Replay.behind_append, Replay.behind_append, h.read, List.append_assoc]
      congr 2
      by_cases hname : name = channel
      · rw [if_pos ⟨hname, by show (0 : Int) < s.replay.store.sequence + 1; omega⟩,
          if_pos ⟨hname, by show s.relay.cursor < s.replay.store.sequence + 1; omega⟩]
      · rw [if_neg fun hcon => hname hcon.1, if_neg fun hcon => hname hcon.1]
  have hstill : m.replay = s.replay → m.relay.cursor = s.relay.cursor → m.read = s.read → Complete channel t := by
    intro hreplay hcursor hread
    rcases hstore with ⟨-, rfl⟩ | ⟨change, replay, heffect, hnext, rfl⟩
    · refine ⟨hdelivered, hreplay ▸ h.sound, ?_⟩
      rw [hreplay, hcursor, hread, h.read]
    · obtain ⟨hsound, hall⟩ := hgrows heffect hnext hreplay hcursor hread
      exact ⟨hdelivered, hsound, hall⟩
  cases hm with
  | service e => exact hstill rfl rfl rfl
  | connect hconnected => exact hstill rfl rfl rfl
  | resend l frame rest hl hrest => exact hstill rfl rfl rfl
  | request l operation message approval permissions hl hrest hroom => exact hstill rfl rfl rfl
  | hear l sub row hl hsub hrow hrest =>
    rcases hstore with ⟨-, rfl⟩ | ⟨change, replay, heffect, -⟩
    · obtain ⟨sub₀, hsub₀, hcursor⟩ := h.delivered.current l hl
      obtain rfl := Option.some.inj (hsub₀.symm.trans hsub)
      obtain ⟨sub₁, hsub₁, hchannel, -, -⟩ := h.delivered.links l (mem_of_current hl)
      obtain rfl := Option.some.inj (hsub₁.symm.trans hsub)
      have hmem := List.mem_of_getElem? hsub
      obtain ⟨hlt, hpos⟩ := position_lt (h.delivered.stored.fed _ hmem) hrow
      have hserved := h.sound.served _ hmem
      have htidy := h.delivered.stored.tidy
      have hdrop := List.drop_eq_getElem_cons (List.getElem?_eq_some_iff.mp hrow).1
      rw [(List.getElem?_eq_some_iff.mp hrow).2] at hdrop
      have hbefore := behind_position htidy hserved l.read
      have hafter := behind_position htidy hserved (l.read + 1)
      rw [hpos, hchannel] at hafter
      rw [← hcursor, hchannel, hdrop] at hbefore
      rw [← hcursor] at hlt
      refine ⟨hdelivered, h.sound, ?_⟩
      show Replay.behind channel 0 s.replay.log = (s.read ++ _) ++ Replay.behind channel
        (s.relay.hear row.cursor row.record).1.cursor s.replay.log
      rw [if_pos hlt, (hear_behind s.relay row.record hlt).1, hafter, h.read, hbefore, List.append_assoc]
      rfl
    · cases heffect
  | lose => exact hstill rfl rfl rfl
  | take k ok l sub frame hl hsub hframe =>
    obtain ⟨queue, refused, heq, -, -⟩ := handle_eq { s with links := s.taking k l } sub ok frame
    have hreplay := congrArg Delivery.replay heq
    have hcursor := congrArg (fun m => m.relay.cursor) heq
    have hread := congrArg Delivery.read heq
    exact hstill hreplay hcursor hread
  | enter x queue hqueue => exact hstill rfl rfl rfl

/-- While nothing is deleted that a call is about to return, the relay has read
every event of the channel up to its cursor, so the frontend was given each of
them that is no receipt. -/
theorem handed_all (hrun : Reaches channel (Undisturbed channel) h s) :
    s.handed = (s.read.filter fun row => !Relay.accepts row.record).map ExecEvent.record ∧
      Replay.behind channel 0 s.replay.log = s.read ++ Replay.behind channel s.relay.cursor s.replay.log := by
  have hc : Complete channel s := by
    refine hrun.invariant ⟨delivered_of_reaches (C := Free) .start, ?_, rfl⟩ fun _ _ _ hs => hs.next
    exact Replay.sound_of_reaches .start
  exact ⟨hc.delivered.handed, hc.read⟩

theorem handed_all_twice : ∃ s, Reaches "c" (Undisturbed "c") twice.reverse s ∧ s.read.length = 2 ∧
    Replay.behind "c" 0 s.replay.log = s.read ++ Replay.behind "c" s.relay.cursor s.replay.log := by
  have hplay : (play (next "c") (Undisturbed "c") {} twice).map (fun s => s.read.length) = some 2 := rfl
  obtain ⟨s, hs, hlen⟩ := Option.map_eq_some_iff.mp hplay
  exact ⟨s, run_of_play_list hs, hlen, (handed_all (run_of_play_list hs)).2⟩

end

end Delivery

end RemoteCodex.Tunnel
