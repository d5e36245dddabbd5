import RemoteCodex.Gateway.Connection
import RemoteCodex.Interact.Runs

/-!
# Native requests on their way to the frontend

The pump sets a request down as pending and broadcasts it; the gateway takes
the broadcast events one by one and sends them to whoever is attached, and the
pending requests once a thread was resumed. A rebuild resolves what is pending
and lets another native process take over, which numbers its requests anew.
-/

namespace RemoteCodex.Gateway

open Interact

/-- An event of the session's stream. -/
inductive Event
  | request (request : Request)
  | resolved (id : String)
  | notice
  deriving DecidableEq, Repr

def Event.message : Event → Message
  | .request r => .request r
  | .resolved id => .resolved id
  | .notice => .notice

/-- A frontend's request under way; `epoch` is what the gateway remembers of
the connection that made it. -/
structure Ask where
  maker : Nat
  epoch : Nat
  resume : Bool
  deriving DecidableEq, Repr

/-- `hand` is the event the pump is about to broadcast, `used` the ids the
current process has used, and `due` the requests the gateway was to send to the
connection that is attached. -/
structure Session where
  generation : Nat := 0
  used : List String := []
  pending : Table String Request := ∅
  hand : Option Event := none
  rebuilding : Bool := false
  stream : List Event := []
  frontend : Option Connection := none
  epoch : Nat := 0
  asked : List Ask := []
  due : List Request := []
  closed : Bool := false
  deriving DecidableEq

inductive SessionEvent
  /-- The native process asks, with an id it has not used. -/
  | request (id method : String)
  | resolved (id : String)
  | notice
  | publish
  | rebuild
  | replaced
  /-- An answer from whichever frontend. -/
  | answer (id : String)
  | attach
  | detach
  | written
  | receive
  | lag (skipped : Nat)
  | ask (resume : Bool)
  /-- The `i`-th request is done; `order` is how the pending requests are listed. -/
  | reply (i : Nat) (ok : Bool) (order : List Request)
  | close
  deriving DecidableEq, Repr

def MAX_PENDING_REQUESTS : Nat := 64

namespace Session

/-- The gateway sends what it has got to the connection that is attached. -/
def forward (s : Session) (e : Event) : Session :=
  match s.frontend with
  | some c =>
    { s with
      frontend := some (c.send e.message)
      due := match e with
        | .request r => r :: s.due
        | _ => s.due }
  | none => s

/-- Outstanding requests are sent after the thread's history. -/
def replay (s : Session) (order : List Request) : Session := order.foldl (fun s r => s.forward (.request r)) s

def answered (s : Session) (a : Ask) (ok : Bool) (order : List Request) : Session :=
  match s.frontend with
  | some c =>
    if a.epoch = s.epoch then
      let s := { s with frontend := some (c.send (.reply a.maker)) }
      if a.resume && ok then s.replay order else s
    else s
  | none => s

def step (s : Session) : SessionEvent → Option Session
  | .request id method =>
    if s.hand.isSome || s.rebuilding || id ∈ s.used then none
    else if s.pending.entries.length ≥ MAX_PENDING_REQUESTS then some { s with closed := true }
    else
      let r := { generation := s.generation, id, method }
      some { s with used := id :: s.used, pending := s.pending.insert id r, hand := some (.request r) }
  | .resolved id =>
    if s.hand.isSome || s.rebuilding then none
    else some { s with pending := s.pending.erase id, hand := some (.resolved id) }
  | .notice => some { s with stream := s.stream ++ [.notice] }
  | .publish => s.hand.map fun e => { s with hand := none, stream := s.stream ++ [e] }
  | .rebuild =>
    if s.hand.isSome || s.rebuilding then none
    else some { s with
      stream := s.stream ++ s.pending.keys.map Event.resolved
      pending := ∅
      rebuilding := true }
  | .replaced =>
    if s.rebuilding then some { s with generation := s.generation + 1, used := [], rebuilding := false } else none
  | .answer id =>
    if (s.pending.lookup id).isSome then some { s with pending := s.pending.erase id } else some { s with closed := true }
  | .attach => some { s with epoch := s.epoch + 1, frontend := some { number := s.epoch + 1 }, due := [] }
  | .detach => some { s with frontend := none }
  | .written => s.frontend.map fun c => { s with frontend := some { c with queued := c.queued - 1 } }
  | .receive =>
    match s.stream with
    | e :: rest => some ({ s with stream := rest }.forward e)
    | [] => none
  | .lag skipped => some { s with stream := s.stream.drop skipped, frontend := none }
  | .ask resume =>
    s.frontend.map fun c =>
      if s.asked.length ≥ MAX_PENDING_REQUESTS then { s with closed := true }
      else { s with asked := s.asked ++ [{ maker := c.number, epoch := s.epoch, resume }] }
  | .reply i ok order =>
    s.asked[i]?.bind fun a =>
      if order.isPerm s.pending.values then some ({ s with asked := s.asked.eraseIdx i }.answered a ok order) else none
  | .close => some { s with closed := true }

def next (s : Session) (e : SessionEvent) : Option Session := if s.closed then none else s.step e

-- ---------------------------------------------------------------------------
-- What holds in every state
-- ---------------------------------------------------------------------------

variable {s t : Session} {e : SessionEvent} {c : Connection} {r : Request}

/-- A process of the session has made the request. -/
def Made (s : Session) (r : Request) : Prop :=
  r.generation ≤ s.generation ∧ (r.generation = s.generation → r.id ∈ s.used)

structure Sound (s : Session) : Prop where
  current : ∀ id r, s.pending.lookup id = some r → r.id = id ∧ r.generation = s.generation ∧ r.id ∈ s.used
  rebuilt : s.rebuilding = true → s.pending = ∅
  hand : ∀ r, s.hand = some (.request r) → s.Made r
  stream : ∀ r, .request r ∈ s.stream → s.Made r
  due : ∀ r ∈ s.due, s.Made r
  number : ∀ c, s.frontend = some c → c.number = s.epoch
  asked : ∀ a ∈ s.asked, a.maker = a.epoch
  replies : ∀ c maker, s.frontend = some c → .reply maker ∈ c.sent → maker = c.number
  tracks : ∀ c, s.frontend = some c → c.failed = false → c.Tracks
  sent : ∀ c r, s.frontend = some c → .request r ∈ c.sent → r ∈ s.due

theorem sound_start : Sound {} where
  current _ _ h := by cases h
  rebuilt _ := rfl
  hand _ h := by cases h
  stream _ h := by cases h
  due _ h := by cases h
  number _ h := by cases h
  asked _ h := by cases h
  replies _ _ h := by cases h
  tracks _ h := by cases h
  sent _ _ h := by cases h

theorem Made.mono (h : s.Made r) (hgeneration : t.generation = s.generation) (hused : ∀ x ∈ s.used, x ∈ t.used) :
    t.Made r := by
  obtain ⟨hle, hin⟩ := h
  refine ⟨hgeneration ▸ hle, fun heq => hused _ (hin ?_)⟩
  rw [heq, hgeneration]

/-- What is sent leaves everything but the connection and what was due. -/
theorem sound_forward (h : s.Sound) (ev : Event) (hmade : ∀ r, ev = .request r → s.Made r) : (s.forward ev).Sound := by
  unfold forward
  split
  · next c hc =>
    have hdue : ∀ r, r ∈ (match ev with | .request r => r :: s.due | _ => s.due) → r ∈ s.due ∨ ev = .request r := by
      intro r hr
      cases ev with
      | request r' =>
        rcases List.mem_cons.mp hr with rfl | hr
        · exact .inr rfl
        · exact .inl hr
      | resolved id => exact .inl hr
      | notice => exact .inl hr
    refine ⟨h.current, h.rebuilt, h.hand, h.stream, fun r hr => ?_, fun c' hc' => ?_, h.asked, fun c' maker hc' hin => ?_,
      fun c' hc' hok => ?_, fun c' r hc' hin => ?_⟩
    · rcases hdue r hr with hr | heq
      · exact h.due r hr
      · exact hmade r heq
    · cases hc'
      rw [Connection.send_number]
      exact h.number c hc
    · cases hc'
      rw [Connection.send_number]
      rcases Connection.mem_send hin with hin | heq
      · exact h.replies c maker hc hin
      · cases ev <;> cases heq
    · cases hc'
      exact Connection.tracks_send (h.tracks c hc (Connection.send_failed hok)) hok
    · cases hc'
      rcases Connection.mem_send hin with hin | heq
      · have hold := h.sent c r hc hin
        cases ev with
        | request r' => exact List.mem_cons_of_mem _ hold
        | resolved id => exact hold
        | notice => exact hold
      · cases ev with
        | request r' =>
          cases heq
          exact List.mem_cons_self
        | resolved id => cases heq
        | notice => cases heq
  · exact h

/-- What the gateway does not touch when it sends. -/
structure Apart (s t : Session) : Prop where
  generation : t.generation = s.generation
  used : t.used = s.used
  pending : t.pending = s.pending
  epoch : t.epoch = s.epoch

theorem apart_forward (s : Session) (ev : Event) : Apart s (s.forward ev) := by
  unfold forward
  split <;> exact ⟨rfl, rfl, rfl, rfl⟩

theorem forward_frontend (s : Session) (ev : Event) :
    (s.forward ev).frontend = s.frontend.map fun c => c.send ev.message := by
  unfold forward
  split
  · next c hc => rw [hc, Option.map_some]
  · next hnone => rw [hnone, Option.map_none]

theorem Made.apart (h : s.Made r) (ha : Apart s t) : t.Made r :=
  h.mono ha.generation fun _ hx => ha.used ▸ hx

theorem sound_replay (h : s.Sound) {order : List Request} (hmade : ∀ r ∈ order, s.Made r) : (s.replay order).Sound := by
  unfold replay
  induction order generalizing s with
  | nil => exact h
  | cons r order ih =>
    have hsent : (s.forward (.request r)).Sound := by
      refine sound_forward h _ fun r' heq => ?_
      cases heq
      exact hmade r List.mem_cons_self
    exact ih hsent fun r' hr' => (hmade r' (List.mem_cons_of_mem _ hr')).apart (apart_forward s _)

theorem Sound.made (h : s.Sound) {id : String} (hr : s.pending.lookup id = some r) : s.Made r := by
  obtain ⟨-, hgeneration, hused⟩ := h.current id r hr
  exact ⟨Nat.le_of_eq hgeneration, fun _ => hused⟩

/-- Another frontend, or none, stands where the last one was. -/
theorem Sound.unattached (h : s.Sound) (hnone : t = { s with frontend := none }) : t.Sound := by
  subst hnone
  exact ⟨h.current, h.rebuilt, h.hand, h.stream, h.due, (fun _ hc => by cases hc), h.asked,
    (fun _ _ hc => by cases hc), (fun _ hc => by cases hc), fun _ _ hc => by cases hc⟩

theorem Sound.close (h : s.Sound) : Sound { s with closed := true } :=
  ⟨h.current, h.rebuilt, h.hand, h.stream, h.due, h.number, h.asked, h.replies, h.tracks, h.sent⟩

theorem Sound.erase (h : s.Sound) (id : String) : Sound { s with pending := s.pending.erase id } := by
  refine ⟨fun x r hr => ?_, fun hr => ?_, h.hand, h.stream, h.due, h.number, h.asked, h.replies, h.tracks, h.sent⟩
  · rw [Table.lookup_erase_if] at hr
    split at hr
    · cases hr
    · exact h.current x r hr
  · have hempty := h.rebuilt hr
    simp only [hempty]
    rfl

theorem sound_reply (h : s.Sound) (hc : s.frontend = some c) {maker : Nat} (hmaker : maker = c.number) :
    Sound { s with frontend := some (c.send (.reply maker)) } := by
  refine ⟨h.current, h.rebuilt, h.hand, h.stream, h.due, fun c' hc' => ?_, h.asked, fun c' maker' hc' hin => ?_,
    fun c' hc' hok => ?_, fun c' r hc' hin => ?_⟩
  · cases hc'
    rw [Connection.send_number]
    exact h.number c hc
  · cases hc'
    rw [Connection.send_number]
    rcases Connection.mem_send hin with hin | heq
    · exact h.replies c maker' hc hin
    · cases heq
      exact hmaker
  · cases hc'
    exact Connection.tracks_send (h.tracks c hc (Connection.send_failed hok)) hok
  · cases hc'
    rcases Connection.mem_send hin with hin | heq
    · exact h.sent c r hc hin
    · cases heq

/-- The reply to a request, and what it brings with it. -/
theorem sound_answered (h : s.Sound) {a : Ask} (ha : a.maker = a.epoch) (ok : Bool) {order : List Request}
    (hmade : ∀ r ∈ order, s.Made r) : (s.answered a ok order).Sound := by
  unfold answered
  split
  · next c hc =>
    split
    · next hepoch =>
      -- The gateway remembers the connection by its epoch.
      have hreply := sound_reply h hc ((ha.trans hepoch).trans (h.number c hc).symm)
      dsimp only
      split
      · exact sound_replay hreply hmade
      · exact hreply
    · exact h
  · exact h

theorem sound_step (h : s.Sound) (hstep : s.step e = some t) : t.Sound := by
  cases e with
  | request id method =>
    simp only [step] at hstep
    split at hstep
    · cases hstep
    · next hok =>
      split at hstep <;> cases hstep
      · exact h.close
      · have hmono : ∀ r, s.Made r → Made { s with used := id :: s.used } r :=
          fun r hr => hr.mono rfl fun x hx => List.mem_cons_of_mem _ hx
        refine ⟨fun x r hr => ?_, fun hr => ?_, fun r hr => ?_, fun r hr => hmono r (h.stream r hr), fun r hr => hmono r (h.due r hr),
          h.number, h.asked, h.replies, h.tracks, h.sent⟩
        · rw [Table.lookup_insert_if] at hr
          split at hr
          · next heq =>
            cases hr
            exact ⟨heq.symm, rfl, List.mem_cons_self⟩
          · obtain ⟨hid, hgeneration, hused⟩ := h.current x r hr
            exact ⟨hid, hgeneration, List.mem_cons_of_mem _ hused⟩
        · have hrebuilding : s.rebuilding = true := hr
          simp [hrebuilding] at hok
        · cases hr
          exact ⟨le_rfl, fun _ => List.mem_cons_self⟩
  | resolved id =>
    simp only [step] at hstep
    split at hstep <;> cases hstep
    have he := h.erase id
    exact ⟨he.current, he.rebuilt, (fun _ hr => by cases hr), h.stream, h.due, h.number, h.asked, h.replies, h.tracks, h.sent⟩
  | notice =>
    cases hstep
    refine ⟨h.current, h.rebuilt, h.hand, fun r hr => ?_, h.due, h.number, h.asked, h.replies, h.tracks, h.sent⟩
    rcases List.mem_append.mp hr with hr | hr
    · exact h.stream r hr
    · cases List.mem_singleton.mp hr
  | publish =>
    obtain ⟨ev, hev, rfl⟩ := Option.map_eq_some_iff.mp hstep
    refine ⟨h.current, h.rebuilt, (fun _ hr => by cases hr), fun r hr => ?_, h.due, h.number, h.asked, h.replies, h.tracks, h.sent⟩
    rcases List.mem_append.mp hr with hr | hr
    · exact h.stream r hr
    · obtain rfl := List.mem_singleton.mp hr
      exact h.hand r hev
  | rebuild =>
    simp only [step] at hstep
    split at hstep <;> cases hstep
    refine ⟨(fun _ _ hr => by cases hr), (fun _ => rfl), h.hand, fun r hr => ?_, h.due, h.number, h.asked, h.replies, h.tracks, h.sent⟩
    rcases List.mem_append.mp hr with hr | hr
    · exact h.stream r hr
    · obtain ⟨_, -, heq⟩ := List.mem_map.mp hr
      cases heq
  | replaced =>
    simp only [step] at hstep
    split at hstep <;> cases hstep
    next hrebuilding =>
    have hlater : ∀ r, s.Made r → Made { s with generation := s.generation + 1, used := [], rebuilding := false } r := by
      intro r hr
      refine ⟨Nat.le_succ_of_le hr.1, fun heq => ?_⟩
      exact absurd (heq ▸ hr.1) (Nat.not_succ_le_self _)
    refine ⟨fun id r hr => ?_, (fun hr => by cases hr), fun r hr => hlater r (h.hand r hr),
      fun r hr => hlater r (h.stream r hr), fun r hr => hlater r (h.due r hr), h.number, h.asked, h.replies, h.tracks,
      h.sent⟩
    have hempty := h.rebuilt hrebuilding
    simp only [hempty] at hr
    cases hr
  | answer id =>
    simp only [step] at hstep
    split at hstep <;> cases hstep
    · exact h.erase id
    · exact h.close
  | attach =>
    cases hstep
    refine ⟨h.current, h.rebuilt, h.hand, h.stream, (fun _ hr => by cases hr), fun c hc => ?_, h.asked, fun c maker hc hin => ?_,
      fun c hc _ id => ?_, fun c r hc hin => ?_⟩
    · cases hc
      rfl
    · cases hc
      cases hin
    · cases hc
      simp [Connection.outstanding]
    · cases hc
      cases hin
  | detach =>
    cases hstep
    exact h.unattached rfl
  | written =>
    obtain ⟨c, hc, rfl⟩ := Option.map_eq_some_iff.mp hstep
    refine ⟨h.current, h.rebuilt, h.hand, h.stream, h.due, fun c' hc' => ?_, h.asked, fun c' maker hc' hin => ?_,
      fun c' hc' hok => ?_, fun c' r hc' hin => ?_⟩
    · cases hc'
      exact h.number c hc
    · cases hc'
      exact h.replies c maker hc hin
    · cases hc'
      exact h.tracks c hc hok
    · cases hc'
      exact h.sent c r hc hin
  | receive =>
    simp only [step] at hstep
    split at hstep
    · next ev rest hstream =>
      cases hstep
      have hrest : Sound { s with stream := rest } :=
        ⟨h.current, h.rebuilt, h.hand, fun r hr => h.stream r (hstream ▸ List.mem_cons_of_mem _ hr), h.due, h.number, h.asked,
          h.replies, h.tracks, h.sent⟩
      refine sound_forward hrest ev fun r heq => ?_
      exact h.stream r (hstream ▸ heq ▸ List.mem_cons_self)
    · cases hstep
  | lag skipped =>
    cases hstep
    have hrest : Sound { s with stream := s.stream.drop skipped } :=
      ⟨h.current, h.rebuilt, h.hand, fun r hr => h.stream r (List.mem_of_mem_drop hr), h.due, h.number, h.asked, h.replies,
        h.tracks, h.sent⟩
    exact hrest.unattached rfl
  | ask resume =>
    obtain ⟨c, hc, rfl⟩ := Option.map_eq_some_iff.mp hstep
    split
    · exact h.close
    · refine ⟨h.current, h.rebuilt, h.hand, h.stream, h.due, h.number, fun a ha => ?_, h.replies, h.tracks, h.sent⟩
      rcases List.mem_append.mp ha with ha | ha
      · exact h.asked a ha
      · obtain rfl := List.mem_singleton.mp ha
        exact h.number c hc
  | reply i ok order =>
    obtain ⟨a, ha, hstep⟩ := Option.bind_eq_some_iff.mp hstep
    split at hstep
    · next hperm =>
      cases hstep
      have hrest : Sound { s with asked := s.asked.eraseIdx i } :=
        ⟨h.current, h.rebuilt, h.hand, h.stream, h.due, h.number, fun a ha => h.asked a (List.mem_of_mem_eraseIdx ha), h.replies,
          h.tracks, h.sent⟩
      refine sound_answered hrest (h.asked a (List.mem_of_getElem? ha)) ok fun r hr => ?_
      obtain ⟨id, hid⟩ := Table.mem_values.mp ((List.isPerm_iff.mp hperm).mem_iff.mp hr)
      exact h.made hid
    · cases hstep
  | close =>
    cases hstep
    exact h.close

theorem sound_next (h : s.Sound) (hnext : s.next e = some t) : t.Sound := by
  unfold next at hnext
  split at hnext
  · cases hnext
  · exact sound_step h hnext

end Session

end RemoteCodex.Gateway
