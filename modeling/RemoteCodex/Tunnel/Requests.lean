import RemoteCodex.Tunnel.Events

/-!
# No request is lost

A request leaves the outbox when the relay reads its receipt, and the actor
writes a receipt only for a request it has taken. Until then the request stands
in the outbox, which is written again on every connection.
-/

namespace RemoteCodex.Tunnel

open Interact Protocol Server

namespace Delivery

section

variable {channel : String} {s m t : Delivery} {e : DeliveryEvent} {l : Link} {sub : Subscriber} {row : ExecEvent}
  {h : List DeliveryEvent}

/-- The executor does not speak of receipts. -/
def Spoken (channel : String) (_ : Delivery) : DeliveryEvent → Prop
  | .service (.append name value) => name = channel → Relay.accepts value = false
  | _ => True

/-- The actor's queue has room. -/
def Roomy : DeliveryEvent → Prop
  | .take _ ok => ok = true
  | _ => True

def Attended (channel : String) (s : Delivery) (e : DeliveryEvent) : Prop := Spoken channel s e ∧ Roomy e

instance : Decidable (Spoken channel s e) :=
  match e with
  | .service (.append name value) => inferInstanceAs (Decidable (name = channel → Relay.accepts value = false))
  | .service (.create ..) | .service (.prune ..) | .service (.compact ..) | .service (.subscribe ..)
  | .service (.check _) | .service (.read ..) | .connect | .resend | .request .. | .hear | .lose | .take .. | .enter =>
    .isTrue trivial

instance : Decidable (Roomy e) :=
  match e with
  | .take _ ok => inferInstanceAs (Decidable (ok = true))
  | .service _ | .connect | .resend | .request .. | .hear | .lose | .enter => .isTrue trivial

instance : Decidable (Attended channel s e) := inferInstanceAs (Decidable (Spoken channel s e ∧ Roomy e))

/-- Every request the frontend made is in the outbox or its receipt was read;
what the actor gets was asked for; and the outbox is on its way. -/
structure Requested (channel : String) (s : Delivery) : Prop where
  asked : ∀ x ∈ s.asked, x ∈ s.relay.outbox.map Prod.fst ∨ ∃ row ∈ s.read, row.record = Execution.accepted x
  outbox : ∀ x ∈ s.relay.outbox, x.1 ∈ s.asked
  room : s.relay.outbox.length ≤ OUTBOX
  receipts : ∀ row ∈ s.replay.log, row.channel = channel → Relay.accepts row.record = true →
    ∃ x ∈ s.entered, row.record = Execution.accepted x
  entered : ∀ x ∈ s.entered, x ∈ s.asked
  queue : ∀ x ∈ s.queue, x ∈ s.asked
  frames : ∀ l ∈ s.links, ∀ frame, frame ∈ l.written ∨ frame ∈ l.rest → ∀ x, Executes frame x → x ∈ s.asked
  replayed : ∀ l, s.current = some l → ∀ x ∈ s.relay.outbox, x.2 ∈ l.written ∨ x.2 ∈ l.rest

/-- What the service has taken of a connection is with the actor. -/
def Arrived (s : Delivery) : Prop :=
  ∀ l ∈ s.links, l.taken ≤ l.written.length ∧
    ∀ frame ∈ l.written.take l.taken, ∀ x, Executes frame x → x ∈ s.queue ∨ x ∈ s.entered

theorem keys_insertFrame (operation : String) (frame : Frame) (outbox : List (String × Frame)) :
    operation ∈ (Relay.insertFrame operation frame outbox).map Prod.fst ∧
      ∀ x ∈ outbox.map Prod.fst, x ∈ (Relay.insertFrame operation frame outbox).map Prod.fst := by
  induction outbox with
  | nil => exact ⟨List.mem_singleton_self _, nofun⟩
  | cons head rest ih =>
    unfold Relay.insertFrame
    split
    · exact ⟨List.mem_cons_self, fun x hx => List.mem_cons_of_mem _ hx⟩
    · split
      · next heq =>
        refine ⟨List.mem_cons_self, fun x hx => ?_⟩
        rcases List.mem_cons.mp hx with rfl | hx
        · rw [← heq]
          exact List.mem_cons_self
        · exact List.mem_cons_of_mem _ hx
      · refine ⟨List.mem_cons_of_mem _ ih.1, fun x hx => ?_⟩
        rcases List.mem_cons.mp hx with rfl | hx
        · exact List.mem_cons_self
        · exact List.mem_cons_of_mem _ (ih.2 x hx)

theorem length_insertFrame (operation : String) (frame : Frame) (outbox : List (String × Frame)) :
    (Relay.insertFrame operation frame outbox).length ≤ outbox.length + 1 := by
  induction outbox with
  | nil => exact Nat.le_refl 1
  | cons head rest ih =>
    unfold Relay.insertFrame
    split
    · exact Nat.le_refl _
    · split
      · exact Nat.le_succ _
      · exact Nat.succ_le_succ ih

theorem length_hear (r : Relay) (next : Int) (message : Value) :
    (r.hear next message).1.outbox.length ≤ r.outbox.length := by
  unfold Relay.hear
  split
  · split
    · split
      · exact List.length_filter_le _ _
      · exact Nat.le_refl _
    · exact Nat.le_refl _
  · exact Nat.le_refl _

/-- A receipt takes its own request out of the outbox, and no other event takes one. -/
theorem outbox_heard {r : Relay} (next : Int) {message : Value} {y : String}
    (hreceipt : Relay.accepts message = true → message = Execution.accepted y) {x : String}
    (hx : x ∈ r.outbox.map Prod.fst) :
    x ∈ (r.hear next message).1.outbox.map Prod.fst ∨ (Relay.accepts message = true ∧ x = y ∧ r.cursor < next) := by
  unfold Relay.hear
  split
  · next hlt =>
    split
    · next haccepts =>
      obtain rfl := hreceipt haccepts
      show x ∈ (r.outbox.filter fun e => e.1 ≠ y).map Prod.fst ∨ _
      by_cases hsame : x = y
      · exact .inr ⟨haccepts, hsame, hlt⟩
      · obtain ⟨entry, hentry, rfl⟩ := List.mem_map.mp hx
        exact .inl (List.mem_map.mpr ⟨entry, List.mem_filter.mpr ⟨hentry, by simpa using hsame⟩, rfl⟩)
    · exact .inl hx
  · exact .inl hx

theorem executes_inj {frame : Frame} {x y : String} (hx : Executes frame x) (hy : Executes frame y) : x = y := by
  obtain ⟨_, _, _, rfl⟩ := hx
  obtain ⟨_, _, _, heq⟩ := hy
  cases heq
  rfl

theorem accepted_inj {x y : String} (h : Execution.accepted x = Execution.accepted y) : x = y := by
  simpa [Execution.accepted] using h

theorem effect_append {name : String} {value : Value} (h : s.effect channel e = some (.append name value)) :
    e = .service (.append name value) ∨
      ∃ x queue, e = .enter ∧ s.queue = x :: queue ∧ name = channel ∧ value = Execution.accepted x := by
  cases e with
  | service change =>
    cases h
    exact .inl rfl
  | take k ok =>
    simp only [effect] at h
    split at h
    · cases h
    · split at h
      · split at h <;> cases h
      · cases h
  | enter =>
    obtain ⟨x, hx, hvalue⟩ := Option.map_eq_some_iff.mp h
    obtain ⟨queue, hqueue⟩ := List.head?_eq_some_iff.mp hx
    cases hvalue
    exact .inr ⟨x, queue, rfl, hqueue, rfl, rfl⟩
  | connect => cases h
  | resend => cases h
  | request operation message approval permissions => cases h
  | hear => cases h
  | lose => cases h

/-- Only the actor's receipts are receipts. -/
theorem Spoken.receipt (hc : Spoken channel s e) {replay : Replay} {change : ReplayEvent}
    (heffect : s.effect channel e = some change) (hn : s.replay.next change = some replay) (hrow : row ∈ replay.log)
    (hchannel : row.channel = channel) (haccepts : Relay.accepts row.record = true) :
    row ∈ s.replay.log ∨ ∃ x queue, e = .enter ∧ s.queue = x :: queue ∧ row.record = Execution.accepted x := by
  rcases log_next hn with hsame | ⟨name, value, rfl, happend⟩
  · exact .inl (hsame ▸ hrow)
  · rw [happend, List.mem_append, List.mem_singleton] at hrow
    rcases hrow with hrow | rfl
    · exact .inl hrow
    · rcases effect_append heffect with rfl | ⟨x, queue, he, hqueue, -, hvalue⟩
      · rw [hc hchannel] at haccepts
        cases haccepts
      · exact .inr ⟨x, queue, he, hqueue, hvalue⟩

-- ---------------------------------------------------------------------------
-- What a step keeps
-- ---------------------------------------------------------------------------

/-- The current connection is written to. -/
theorem Requested.update (h : Requested channel s) (hl : s.current = some l) (frames rest : List Frame) (read : Nat)
    (hrest : ∀ frame, frame ∈ l.rest → frame ∈ frames ∨ frame ∈ rest)
    (hasked : ∀ frame, frame ∈ frames ∨ frame ∈ rest → ∀ x, Executes frame x → x ∈ s.asked) :
    Requested channel (s.update { l with read, written := l.written ++ frames, rest }) where
  __ := h
  frames x hx frame hframe := by
    rcases mem_update hx with hx | rfl
    · exact h.frames x hx frame hframe
    · rcases hframe with hframe | hframe
      · rcases List.mem_append.mp hframe with hframe | hframe
        · exact h.frames l (mem_of_current hl) frame (.inl hframe)
        · exact hasked frame (.inl hframe)
      · exact hasked frame (.inr hframe)
  replayed x hx entry hentry := by
    rw [current_update hl] at hx
    cases hx
    rcases h.replayed l hl entry hentry with hframe | hframe
    · exact .inl (List.mem_append_left _ hframe)
    · exact (hrest entry.2 hframe).imp_left (List.mem_append_right _)

theorem Requested.connect (h : Requested channel s) (hd : Delivered channel s) :
    Requested channel { s with
      connected := true
      links := s.links ++ [{ subscriber := s.replay.subscribers.length, rest := s.relay.outbox.map Prod.snd }] } where
  __ := h
  frames x hx frame hframe y hy := by
    rcases List.mem_append.mp hx with hx | hx
    · exact h.frames x hx frame hframe y hy
    · rw [List.mem_singleton.mp hx] at hframe
      rcases hframe with hframe | hframe
      · cases hframe
      · obtain ⟨entry, hentry, rfl⟩ := List.mem_map.mp hframe
        obtain rfl := executes_inj (hd.outbox entry hentry) hy
        exact h.outbox entry hentry
  replayed x hx entry hentry := by
    change (s.links ++ [_]).getLast? = some x at hx
    rw [List.getLast?_concat] at hx
    cases hx
    exact .inr (List.mem_map.mpr ⟨entry, hentry, rfl⟩)

theorem Requested.request (h : Requested channel s) (hl : s.current = some l) (hrest : l.rest = [])
    (hroom : s.relay.outbox.length < OUTBOX) (operation : String) (message : Value)
    (approval : Option CommandApproval) (permissions : Option SessionPermissions) :
    Requested channel { s.update { l with written := l.written ++ [.execute operation message approval permissions] } with
      relay := s.relay.send operation (.execute operation message approval permissions)
      asked := s.asked ++ [operation] } where
  receipts := h.receipts
  entered x hx := List.mem_append_left _ (h.entered x hx)
  queue x hx := List.mem_append_left _ (h.queue x hx)
  room := Nat.le_trans (length_insertFrame _ _ _) hroom
  asked x hx := by
    obtain ⟨hnew, hold⟩ := keys_insertFrame operation (.execute operation message approval permissions) s.relay.outbox
    rcases List.mem_append.mp hx with hx | hx
    · exact (h.asked x hx).imp_left (hold x)
    · rw [List.mem_singleton.mp hx]
      exact .inl hnew
  outbox x hx := by
    rcases mem_insertFrame hx with rfl | hx
    · exact List.mem_append_right _ (List.mem_singleton_self _)
    · exact List.mem_append_left _ (h.outbox x hx)
  frames x hx frame hframe y hy := by
    rcases mem_update hx with hx | rfl
    · exact List.mem_append_left _ (h.frames x hx frame hframe y hy)
    · rcases hframe with hframe | hframe
      · rcases List.mem_append.mp hframe with hframe | hframe
        · exact List.mem_append_left _ (h.frames l (mem_of_current hl) frame (.inl hframe) y hy)
        · rw [List.mem_singleton.mp hframe] at hy
          obtain rfl := executes_inj ⟨message, approval, permissions, rfl⟩ hy
          exact List.mem_append_right _ (List.mem_singleton_self _)
      · exact List.mem_append_left _ (h.frames l (mem_of_current hl) frame (.inr hframe) y hy)
  replayed x hx entry hentry := by
    have hcurrent : (s.update { l with
      written := l.written ++ [.execute operation message approval permissions] }).current = some x := hx
    rw [current_update hl] at hcurrent
    cases hcurrent
    refine .inl (List.mem_append.mpr ?_)
    rcases mem_insertFrame hentry with rfl | hentry
    · exact .inr (List.mem_singleton_self _)
    · refine .inl ((h.replayed l hl entry hentry).resolve_right fun hmem => ?_)
      rw [hrest] at hmem
      cases hmem

theorem Requested.hear (h : Requested channel s) (hd : Delivered channel s) (hl : s.current = some l)
    (hsub : s.subscriber l = some sub) (hrow : sub.received[l.read]? = some row) :
    Requested channel
      { s.update { l with
          read := l.read + 1
          written := l.written ++ [.ack (s.relay.hear row.cursor row.record).1.cursor] } with
        relay := (s.relay.hear row.cursor row.record).1
        read := s.read ++ if row.cursor > s.relay.cursor then [row] else []
        handed := s.handed ++ (s.relay.hear row.cursor row.record).2.toList } := by
  obtain ⟨sub₀, hsub₀, hchannel, -, -⟩ := hd.links l (mem_of_current hl)
  obtain rfl := Option.some.inj (hsub₀.symm.trans hsub)
  obtain ⟨hlog, hsame⟩ := (hd.stored.fed _ (List.mem_of_getElem? hsub)).known row (List.mem_of_getElem? hrow)
  have hupdated := h.update hl [.ack (s.relay.hear row.cursor row.record).1.cursor] l.rest (l.read + 1)
    (fun _ => .inr) fun frame hframe x hx => by
      rcases hframe with hframe | hframe
      · rw [List.mem_singleton.mp hframe] at hx
        obtain ⟨_, _, _, heq⟩ := hx
        cases heq
      · exact h.frames l (mem_of_current hl) frame (.inr hframe) x hx
  refine { hupdated with asked := fun x hx => ?_, outbox := fun x hx => ?_, room := ?_, replayed := fun x hx entry hentry => ?_ }
  · rcases h.asked x hx with hmem | ⟨old, hold, hrecord⟩
    · by_cases haccepts : Relay.accepts row.record = true
      · obtain ⟨y, -, hy⟩ := h.receipts row hlog (hsame.trans hchannel) haccepts
        have hheard := outbox_heard row.cursor (fun _ => hy) hmem
        rcases hheard with hstays | ⟨-, rfl, hlt⟩
        · exact .inl hstays
        · refine .inr ⟨row, ?_, hy⟩
          rw [if_pos hlt]
          exact List.mem_append_right _ (List.mem_singleton_self row)
      · have hheard := outbox_heard (y := x) row.cursor (fun haccepts' => absurd haccepts' haccepts) hmem
        exact .inl (hheard.resolve_right fun hcon => haccepts hcon.1)
    · exact .inr ⟨old, List.mem_append_left _ hold, hrecord⟩
  · exact h.outbox x (outbox_hear hx)
  · exact Nat.le_trans (length_hear _ _ _) h.room
  · exact hupdated.replayed x hx entry (outbox_hear hentry)

theorem Requested.take (h : Requested channel s) {k : Nat} (hl : s.links[k]? = some l) {queue : List String}
    (hqueue : ∀ x ∈ queue, x ∈ s.asked) : Requested channel { s with links := s.taking k l, queue } where
  __ := h
  queue := hqueue
  frames x hx := by
    obtain ⟨y, hy, htaken⟩ := mem_taking hl hx
    rw [htaken.written, htaken.rest]
    exact h.frames y hy
  replayed x hx := by
    obtain ⟨y, hy, htaken⟩ := current_taking hl hx
    rw [htaken.written, htaken.rest]
    exact h.replayed y hy

theorem Requested.next (h : Requested channel s) (hd : Delivered channel s) (hc : Spoken channel s e)
    (hn : s.next channel e = some t) : Requested channel t := by
  obtain ⟨m, hm, hstore⟩ := next_cases hn
  -- A receipt that the step appends is of a request that the step has taken.
  have hthen : Requested channel m → m.replay = s.replay →
      (∀ x queue, e = .enter → s.queue = x :: queue → x ∈ m.entered) → Requested channel t := by
    intro hrequested hsame henter
    rcases hstore with ⟨-, rfl⟩ | ⟨change, replay, heffect, hnext, rfl⟩
    · exact hrequested
    · refine { hrequested with receipts := fun row hrow hchannel haccepts => ?_ }
      rcases hc.receipt heffect hnext hrow hchannel haccepts with hold | ⟨x, queue, he, hqueue, hrecord⟩
      · exact hrequested.receipts row (hsame ▸ hold) hchannel haccepts
      · exact ⟨x, henter x queue he hqueue, hrecord⟩
  cases hm with
  | service e => exact hthen h rfl nofun
  | connect hconnected => exact hthen (h.connect hd) rfl nofun
  | resend l frame rest hl hrest =>
    have hmem := h.frames l (mem_of_current hl)
    refine hthen (h.update hl [frame] rest l.read (fun frame' hframe => ?_) fun frame' hframe => ?_) rfl nofun
    · rw [hrest] at hframe
      exact (List.mem_cons.mp hframe).imp_left List.mem_singleton.mpr
    · refine hmem frame' (.inr ?_)
      rw [hrest]
      exact List.mem_cons.mpr (hframe.imp_left List.mem_singleton.mp)
  | request l operation message approval permissions hl hrest hroom =>
    exact hthen (h.request hl hrest hroom operation message approval permissions) rfl nofun
  | hear l sub row hl hsub hrow hrest => exact hthen (h.hear hd hl hsub hrow) rfl nofun
  | lose => exact hthen { h with replayed := nofun } rfl nofun
  | take k ok l sub frame hl hsub hframe =>
    obtain ⟨queue, refused, heq, hqueue, -⟩ := handle_eq { s with links := s.taking k l } sub ok frame
    have hreplay := congrArg Delivery.replay heq
    have htaken : Requested channel { s with links := s.taking k l, queue } := h.take hl fun x hx => by
      rcases hqueue x hx with hx | hx
      · exact h.queue x hx
      · exact h.frames l (List.mem_of_getElem? hl) frame (.inl (List.mem_of_getElem? hframe)) x hx
    exact hthen (heq ▸ { htaken with }) hreplay nofun
  | enter x queue hqueue =>
    have hin : ∀ y, y = x ∨ y ∈ queue → y ∈ s.asked := fun y hy => h.queue y (hqueue ▸ List.mem_cons.mpr hy)
    refine hthen { h with
      receipts := fun row hrow hchannel haccepts => ?_
      entered := fun y hy => ?_
      queue := fun y hy => hin y (.inr hy) } rfl fun y rest _ hrest => ?_
    · obtain ⟨y, hy, hrecord⟩ := h.receipts row hrow hchannel haccepts
      exact ⟨y, List.mem_append_left _ hy, hrecord⟩
    · rcases List.mem_append.mp hy with hy | hy
      · exact h.entered y hy
      · exact hin y (.inl (List.mem_singleton.mp hy))
    · cases hqueue.symm.trans hrest
      exact List.mem_append_right _ (List.mem_singleton_self _)

theorem Arrived.update (h : Arrived s) (hl : s.current = some l) (frames rest : List Frame) (read : Nat) :
    Arrived (s.update { l with read, written := l.written ++ frames, rest }) := by
  intro x hx
  rcases mem_update hx with hx | rfl
  · exact h x hx
  · obtain ⟨hle, hall⟩ := h l (mem_of_current hl)
    refine ⟨Nat.le_trans hle (List.length_append ▸ Nat.le_add_right _ _), ?_⟩
    rw [List.take_append_of_le_length hle]
    exact hall

theorem Arrived.take (h : Arrived s) {k : Nat} (hl : s.links[k]? = some l) {frame : Frame}
    (hframe : l.written[l.taken]? = some frame) :
    Arrived ({ s with links := s.taking k l }.handle sub true frame) := by
  obtain ⟨queue, refused, heq, hqueue, hnew⟩ : ∃ queue refused,
      ({ s with links := s.taking k l } : Delivery).handle sub true frame =
        { s with links := s.taking k l, queue, refused } ∧
      (∀ x ∈ s.queue, x ∈ queue) ∧ ∀ x, Executes frame x → x ∈ queue := by
    cases frame with
    | execute operation message approval permissions =>
      refine ⟨s.queue ++ [operation], s.refused, rfl, fun x => List.mem_append_left _, fun x hx => ?_⟩
      obtain rfl := executes_inj ⟨message, approval, permissions, rfl⟩ hx
      exact List.mem_append_right _ (List.mem_singleton_self _)
    | ack cursor =>
      simp only [handle]
      split
      · exact ⟨s.queue, s.refused, rfl, fun _ => id, by rintro _ ⟨_, _, _, ⟨⟩⟩⟩
      · exact ⟨s.queue, true, rfl, fun _ => id, by rintro _ ⟨_, _, _, ⟨⟩⟩⟩
    | result value => exact ⟨s.queue, s.refused, rfl, fun _ => id, by rintro _ ⟨_, _, _, ⟨⟩⟩⟩
    | error fault => exact ⟨s.queue, s.refused, rfl, fun _ => id, by rintro _ ⟨_, _, _, ⟨⟩⟩⟩
    | event cursor message => exact ⟨s.queue, s.refused, rfl, fun _ => id, by rintro _ ⟨_, _, _, ⟨⟩⟩⟩
    | heartbeat => exact ⟨s.queue, s.refused, rfl, fun _ => id, by rintro _ ⟨_, _, _, ⟨⟩⟩⟩
    | detach => exact ⟨s.queue, s.refused, rfl, fun _ => id, by rintro _ ⟨_, _, _, ⟨⟩⟩⟩
  rw [heq]
  intro x hx
  rcases List.mem_or_eq_of_mem_set hx with hx | rfl
  · exact ⟨(h x hx).1, fun f hf y hy => ((h x hx).2 f hf y hy).imp_left (hqueue y)⟩
  · refine ⟨(List.getElem?_eq_some_iff.mp hframe).1, fun f hf y hy => ?_⟩
    have htake : l.written.take (l.taken + 1) = l.written.take l.taken ++ [frame] := by
      rw [List.take_add_one, hframe]
      rfl
    rw [htake, List.mem_append, List.mem_singleton] at hf
    rcases hf with hf | rfl
    · exact ((h l (List.mem_of_getElem? hl)).2 f hf y hy).imp_left (hqueue y)
    · exact .inl (hnew y hy)

theorem Arrived.next (h : Arrived s) (hc : Attended channel s e) (hn : s.next channel e = some t) : Arrived t := by
  obtain ⟨m, hm, hstore⟩ := next_cases hn
  have hthen : Arrived m → Arrived t := by
    intro harrived
    rcases hstore with ⟨-, rfl⟩ | ⟨change, replay, -, -, rfl⟩ <;> exact harrived
  refine hthen ?_
  cases hm with
  | service e => exact h
  | connect hconnected =>
    intro x hx
    rcases List.mem_append.mp hx with hx | hx
    · exact h x hx
    · rw [List.mem_singleton.mp hx]
      exact ⟨Nat.le_refl 0, nofun⟩
  | resend l frame rest hl hrest => exact h.update hl [frame] rest l.read
  | request l operation message approval permissions hl hrest hroom => exact h.update hl _ l.rest l.read
  | hear l sub row hl hsub hrow hrest => exact h.update hl _ l.rest (l.read + 1)
  | lose => exact h
  | take k ok l sub frame hl hsub hframe =>
    obtain rfl : ok = true := hc.2
    exact h.take hl hframe
  | enter x queue hqueue =>
    refine fun l hl => ⟨(h l hl).1, fun frame hframe y hy => ?_⟩
    rcases (h l hl).2 frame hframe y hy with hmem | hmem
    · rw [hqueue] at hmem
      rcases List.mem_cons.mp hmem with rfl | hmem
      · exact .inr (List.mem_append_right _ (List.mem_singleton_self _))
      · exact .inl hmem
    · exact .inr (List.mem_append_left _ hmem)

end

end Delivery

end RemoteCodex.Tunnel
