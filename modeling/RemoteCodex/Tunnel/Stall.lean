import RemoteCodex.Interact.Runs
import RemoteCodex.Tunnel.Relay

/-!
# Two writers and two buffers

The relay and the service's connection loop each read and write in one task:
who writes a frame does not read until all its bytes are in the stream, and
the stream takes a byte only while its buffer has room. A frame is written
within ten seconds or the connection is dropped.
-/

namespace RemoteCodex.Tunnel

open Interact Protocol

/-- A byte in a stream. The last one of a frame completes it. -/
inductive Cell
  | byte
  | last (frame : Frame)

def cells (frame : Frame) : List Cell := List.replicate (frame.encode.length - 1) .byte ++ [.last frame]

/-- The bytes of frames written one after another, up to one that cannot be
written, and whether there is none. -/
def line : List Frame → List Cell × Bool
  | [] => ([], true)
  | frame :: frames =>
    if frame.Fits then (cells frame ++ (line frames).1, (line frames).2) else ([], false)

/-- `ok`: nothing fails once `rest` is written. -/
inductive RelayPhase
  | selecting
  | writing (rest : List Cell) (ok : Bool)
  | lost
  | ended

/-- `polling` is the top of the loop. `more`: the loop begins anew once `rest` is written. -/
inductive ServicePhase
  | polling
  | selecting
  | writing (rest : List Cell) (ok more : Bool)
  | ended

/-- `sent` is the service's cursor for this connection, `log` what the executor has to say. -/
structure Stream where
  upSize : Nat
  downSize : Nat
  up : List Cell := []
  down : List Cell := []
  relay : Relay := {}
  relayPhase : RelayPhase := .selecting
  servicePhase : ServicePhase := .polling
  sent : Int := 0
  log : List (Int × Value) := []

/-- The relay goes on after writing, or has more to write. -/
def RelayPhase.write (bytes : List Cell × Bool) : RelayPhase :=
  match bytes with
  | ([], true) => .selecting
  | ([], false) => .lost
  | (rest, ok) => .writing rest ok

def ServicePhase.write (bytes : List Cell × Bool) (more : Bool) : ServicePhase :=
  match bytes with
  | ([], true) => if more then .polling else .selecting
  | ([], false) => .ended
  | (rest, ok) => .writing rest ok more

inductive StreamEvent
  | emit (message : Value)
  | request (operation : String) (message : Value) (approval : Option CommandApproval)
      (permissions : Option SessionPermissions)
  | heartbeat
  | relayRead
  | relayPush (n : Nat)
  | poll
  | wake
  | serviceRead (ok : Bool)
  | servicePush (n : Nat)
  | drop
  | reconnect

namespace Stream

/-- What `execution_events` returns to the connection. -/
def batch (s : Stream) : List Frame :=
  ((s.log.filter fun x => s.sent < x.1).take 64).map fun x => .event x.1 x.2

/-- What the relay does about a whole frame: what it writes then. -/
def relayTake (s : Stream) : Frame → Stream
  | .event cursor message =>
    let relay := (s.relay.hear cursor message).1
    { s with relay, relayPhase := .write (line [.ack relay.cursor]) }
  | .heartbeat => s
  | _ => { s with relayPhase := .ended }

/-- What the service does about a whole frame. `ok`: the actor's queue takes a request. -/
def serviceTake (s : Stream) (ok : Bool) : Frame → Stream
  | .execute .. => { s with servicePhase := if ok then .polling else .ended }
  | .ack cursor => { s with servicePhase := if cursor ≤ s.sent then .polling else .ended }
  | .heartbeat => { s with servicePhase := if ok then .write (line [.heartbeat]) true else .ended }
  | _ => { s with servicePhase := .ended }

def next (s : Stream) : StreamEvent → Option Stream
  | .emit message => some { s with log := s.log ++ [((s.log.length : Int) + 1, message)] }
  | .request operation message approval permissions =>
    match s.relayPhase with
    | .selecting =>
      if s.relay.outbox.length ≥ OUTBOX then some { s with relayPhase := .ended }
      else
        let frame := .execute operation message approval permissions
        some { s with relay := s.relay.send operation frame, relayPhase := .write (line [frame]) }
    | _ => none
  | .heartbeat =>
    match s.relayPhase with
    | .selecting => some { s with relayPhase := .write (line [.heartbeat]) }
    | _ => none
  | .relayRead =>
    match s.relayPhase, s.down with
    | .selecting, .byte :: down => some { s with down }
    | .selecting, .last frame :: down => some ({ s with down }.relayTake frame)
    | _, _ => none
  | .relayPush n =>
    match s.relayPhase with
    | .writing rest ok =>
      if 0 < n ∧ n ≤ rest.length ∧ s.up.length + n ≤ s.upSize then
        some { s with up := s.up ++ rest.take n, relayPhase := .write (rest.drop n, ok) }
      else none
    | _ => none
  | .poll =>
    match s.servicePhase with
    | .polling =>
      some { s with
        sent := ((s.log.filter fun x => s.sent < x.1).take 64).getLast?.elim s.sent Prod.fst
        servicePhase := .write (line s.batch) false }
    | _ => none
  | .wake =>
    match s.servicePhase with
    | .selecting => some { s with servicePhase := .polling }
    | _ => none
  | .serviceRead ok =>
    match s.servicePhase, s.up with
    | .selecting, .byte :: up => some { s with up }
    | .selecting, .last frame :: up => some ({ s with up }.serviceTake ok frame)
    | _, _ => none
  | .servicePush n =>
    match s.servicePhase with
    | .writing rest ok more =>
      if 0 < n ∧ n ≤ rest.length ∧ s.down.length + n ≤ s.downSize then
        some { s with down := s.down ++ rest.take n, servicePhase := .write (rest.drop n, ok) more }
      else none
    | _ => none
  | .drop =>
    match s.relayPhase with
    | .ended => none
    | _ => some { s with up := [], down := [], relayPhase := .lost, servicePhase := .ended }
  | .reconnect =>
    match s.relayPhase with
    | .lost =>
      some { s with
        up := []
        down := []
        relayPhase := .write (line (s.relay.outbox.map Prod.snd))
        servicePhase := .polling
        sent := s.relay.cursor }
    | _ => none

abbrev Reaches (C : Stream → StreamEvent → Prop) (upSize downSize : Nat) (h : List StreamEvent) (s : Stream) : Prop :=
  Run next C { upSize, downSize } h s

-- ---------------------------------------------------------------------------
-- Stalls
-- ---------------------------------------------------------------------------

/-- What the relay has still to write before it reads again. -/
def relayRest (s : Stream) : Nat :=
  match s.relayPhase with
  | .writing rest _ => rest.length
  | _ => 0

def serviceRest (s : Stream) : Nat :=
  match s.servicePhase with
  | .writing rest _ _ => rest.length
  | _ => 0

/-- Both are inside a write and neither buffer takes another byte. -/
def Stalled (s : Stream) : Prop :=
  0 < s.relayRest ∧ s.upSize ≤ s.up.length ∧ 0 < s.serviceRest ∧ s.downSize ≤ s.down.length

/-- The relay can write `n` bytes without waiting, or the service can end the
write it is in; `taken` bytes have just been read from the service. -/
def RelayRoom (s : Stream) (n taken : Nat) : Prop :=
  s.up.length + n ≤ s.upSize ∨ s.down.length + s.serviceRest ≤ s.downSize + taken

def ServiceRoom (s : Stream) (n taken : Nat) : Prop :=
  s.down.length + n ≤ s.downSize ∨ s.up.length + s.relayRest ≤ s.upSize + taken

/-- Nobody begins to write more than its buffer has room for while the other is
inside a write whose rest does not fit in its own buffer. -/
def Roomy (s : Stream) : StreamEvent → Prop
  | .request operation message approval permissions => s.relay.outbox.length < OUTBOX →
    s.RelayRoom (line [.execute operation message approval permissions]).1.length 0
  | .heartbeat => s.RelayRoom (line [.heartbeat]).1.length 0
  | .relayRead => ∀ cursor message rest, s.down = .last (.event cursor message) :: rest →
      s.RelayRoom (line [.ack (s.relay.hear cursor message).1.cursor]).1.length 1
  | .poll => s.ServiceRoom (line s.batch).1.length 0
  | .serviceRead ok => ok = true → ∀ rest, s.up = .last .heartbeat :: rest →
      s.ServiceRoom (line [.heartbeat]).1.length 1
  | _ => True

variable {s t : Stream} {e : StreamEvent} {h : List StreamEvent} {upSize downSize n taken : Nat}

/-- The buffers hold no more than they can. -/
def Bounded (s : Stream) : Prop := s.up.length ≤ s.upSize ∧ s.down.length ≤ s.downSize

/-- Neither write can end before the other side reads. -/
def Wedged (s : Stream) : Prop :=
  s.upSize < s.up.length + s.relayRest ∧ s.downSize < s.down.length + s.serviceRest

theorem wedged_of_stalled (hs : Stalled s) : Wedged s := by
  obtain ⟨hrelay, hup, hservice, hdown⟩ := hs
  exact ⟨by omega, by omega⟩

theorem not_wedged_of_relayRest (hb : Bounded s) (h : s.relayRest = 0) : ¬ Wedged s := by
  intro hw
  have := hb.1
  have := hw.1
  omega

theorem not_wedged_of_serviceRest (hb : Bounded s) (h : s.serviceRest = 0) : ¬ Wedged s := by
  intro hw
  have := hb.2
  have := hw.2
  omega

theorem relayRest_write {bytes : List Cell × Bool} (h : s.relayPhase = .write bytes) :
    s.relayRest = bytes.1.length := by
  obtain ⟨rest, ok⟩ := bytes
  unfold relayRest
  rw [h]
  cases rest with
  | nil => cases ok <;> rfl
  | cons c rest => rfl

theorem serviceRest_write {bytes : List Cell × Bool} {more : Bool} (h : s.servicePhase = .write bytes more) :
    s.serviceRest = bytes.1.length := by
  obtain ⟨rest, ok⟩ := bytes
  unfold serviceRest
  rw [h]
  cases rest with
  | nil => cases ok <;> cases more <;> rfl
  | cons c rest => rfl

/-- The relay begins to write: a wedge comes of it just if there is no room. -/
theorem wedged_relay (hup : t.up = s.up) (hupSize : t.upSize = s.upSize) (hdownSize : t.downSize = s.downSize)
    (hrest : t.relayRest = n) (hservice : t.serviceRest = s.serviceRest)
    (hdown : t.down.length + taken = s.down.length) : Wedged t ↔ ¬ s.RelayRoom n taken := by
  unfold Wedged RelayRoom
  rw [hup, hupSize, hdownSize, hrest, hservice]
  omega

theorem wedged_service (hdown : t.down = s.down) (hupSize : t.upSize = s.upSize) (hdownSize : t.downSize = s.downSize)
    (hrest : t.serviceRest = n) (hrelay : t.relayRest = s.relayRest)
    (hup : t.up.length + taken = s.up.length) : Wedged t ↔ ¬ s.ServiceRoom n taken := by
  unfold Wedged ServiceRoom
  rw [hdown, hupSize, hdownSize, hrest, hrelay]
  omega

theorem relayTake_keeps (s : Stream) (frame : Frame) :
    (s.relayTake frame).up = s.up ∧ (s.relayTake frame).down = s.down ∧ (s.relayTake frame).upSize = s.upSize ∧
      (s.relayTake frame).downSize = s.downSize ∧ (s.relayTake frame).servicePhase = s.servicePhase := by
  cases frame <;> exact ⟨rfl, rfl, rfl, rfl, rfl⟩

theorem serviceTake_keeps (s : Stream) (ok : Bool) (frame : Frame) :
    (s.serviceTake ok frame).up = s.up ∧ (s.serviceTake ok frame).down = s.down ∧
      (s.serviceTake ok frame).upSize = s.upSize ∧ (s.serviceTake ok frame).downSize = s.downSize ∧
      (s.serviceTake ok frame).relayPhase = s.relayPhase := by
  cases frame <;> exact ⟨rfl, rfl, rfl, rfl, rfl⟩

theorem Bounded.next (hb : Bounded s) (hn : s.next e = some t) :
    Bounded t ∧ t.upSize = s.upSize ∧ t.downSize = s.downSize := by
  obtain ⟨hup, hdown⟩ := hb
  cases e with
  | emit message =>
    obtain rfl := Option.some.inj hn
    exact ⟨⟨hup, hdown⟩, rfl, rfl⟩
  | request operation message approval permissions =>
    simp only [Stream.next] at hn
    split at hn
    · split at hn <;> obtain rfl := Option.some.inj hn <;> exact ⟨⟨hup, hdown⟩, rfl, rfl⟩
    · cases hn
  | heartbeat =>
    simp only [Stream.next] at hn
    split at hn
    · obtain rfl := Option.some.inj hn
      exact ⟨⟨hup, hdown⟩, rfl, rfl⟩
    · cases hn
  | relayRead =>
    simp only [Stream.next] at hn
    split at hn
    · next hd =>
      obtain rfl := Option.some.inj hn
      exact ⟨⟨hup, by rw [hd] at hdown; exact Nat.le_of_succ_le hdown⟩, rfl, rfl⟩
    · next frame down _ hd =>
      obtain rfl := Option.some.inj hn
      obtain ⟨hu, hdn, hus, hds, -⟩ := relayTake_keeps { s with down } frame
      refine ⟨⟨by rw [hu, hus]; exact hup, ?_⟩, hus, hds⟩
      rw [hdn, hds]
      rw [hd] at hdown
      exact Nat.le_of_succ_le hdown
    · cases hn
  | relayPush n =>
    simp only [Stream.next] at hn
    split at hn
    · split at hn
      · next hroom =>
        obtain rfl := Option.some.inj hn
        refine ⟨⟨?_, hdown⟩, rfl, rfl⟩
        show (s.up ++ _).length ≤ s.upSize
        rw [List.length_append, List.length_take]
        omega
      · cases hn
    · cases hn
  | poll =>
    simp only [Stream.next] at hn
    split at hn
    · obtain rfl := Option.some.inj hn
      exact ⟨⟨hup, hdown⟩, rfl, rfl⟩
    · cases hn
  | wake =>
    simp only [Stream.next] at hn
    split at hn
    · obtain rfl := Option.some.inj hn
      exact ⟨⟨hup, hdown⟩, rfl, rfl⟩
    · cases hn
  | serviceRead ok =>
    simp only [Stream.next] at hn
    split at hn
    · next hu =>
      obtain rfl := Option.some.inj hn
      exact ⟨⟨by rw [hu] at hup; exact Nat.le_of_succ_le hup, hdown⟩, rfl, rfl⟩
    · next frame up _ hu =>
      obtain rfl := Option.some.inj hn
      obtain ⟨hup', hdn, hus, hds, -⟩ := serviceTake_keeps { s with up } ok frame
      refine ⟨⟨?_, by rw [hdn, hds]; exact hdown⟩, hus, hds⟩
      rw [hup', hus]
      rw [hu] at hup
      exact Nat.le_of_succ_le hup
    · cases hn
  | servicePush n =>
    simp only [Stream.next] at hn
    split at hn
    · split at hn
      · next hroom =>
        obtain rfl := Option.some.inj hn
        refine ⟨⟨hup, ?_⟩, rfl, rfl⟩
        show (s.down ++ _).length ≤ s.downSize
        rw [List.length_append, List.length_take]
        omega
      · cases hn
    · cases hn
  | drop =>
    simp only [Stream.next] at hn
    split at hn
    · cases hn
    · obtain rfl := Option.some.inj hn
      exact ⟨⟨Nat.zero_le _, Nat.zero_le _⟩, rfl, rfl⟩
  | reconnect =>
    simp only [Stream.next] at hn
    split at hn
    · obtain rfl := Option.some.inj hn
      exact ⟨⟨Nat.zero_le _, Nat.zero_le _⟩, rfl, rfl⟩
    · cases hn

theorem relayRest_selecting (h : s.relayPhase = .selecting) : s.relayRest = 0 := by
  unfold relayRest
  rw [h]

/-- A frame from the service wedges the stream just if the answer to it finds no room. -/
theorem wedged_relayTake {down : List Cell} {frame : Frame} (hb : Bounded s) (hd : s.down = .last frame :: down)
    (hp : s.relayPhase = .selecting) :
    Wedged (relayTake { s with down } frame) ↔ ¬ ∀ cursor message rest, s.down = .last (.event cursor message) :: rest →
      s.RelayRoom (line [.ack (s.relay.hear cursor message).1.cursor]).1.length 1 := by
  have hb' : Bounded { s with down } := by
    refine ⟨hb.1, ?_⟩
    have := hb.2
    rw [hd] at this
    exact Nat.le_of_succ_le this
  have hother (hframe : ∀ cursor message, frame ≠ .event cursor message)
      (hrest : (relayTake { s with down } frame).relayRest = 0)
      (hbound : Bounded (relayTake { s with down } frame)) :
      Wedged (relayTake { s with down } frame) ↔
        ¬ ∀ cursor message rest, s.down = .last (.event cursor message) :: rest →
          s.RelayRoom (line [.ack (s.relay.hear cursor message).1.cursor]).1.length 1 := by
    refine iff_of_false (not_wedged_of_relayRest hbound hrest) (not_not.mpr ?_)
    intro cursor message rest heq
    rw [hd] at heq
    exact absurd (Cell.last.inj (List.cons.inj heq).1) (hframe cursor message)
  cases frame with
  | event cursor message =>
    have hw : Wedged (relayTake { s with down } (.event cursor message)) ↔
        ¬ s.RelayRoom (line [.ack (s.relay.hear cursor message).1.cursor]).1.length 1 :=
      wedged_relay rfl rfl rfl (relayRest_write rfl) rfl (by rw [hd]; rfl)
    rw [hw]
    refine not_congr ⟨?_, fun hall => hall cursor message down hd⟩
    intro hroom cursor' message' rest heq
    rw [hd] at heq
    obtain ⟨rfl, rfl⟩ := Frame.event.inj (Cell.last.inj (List.cons.inj heq).1)
    exact hroom
  | heartbeat => exact hother (by simp) (relayRest_selecting hp) hb'
  | result value => exact hother (by simp) rfl hb'
  | error fault => exact hother (by simp) rfl hb'
  | execute operation message approval permissions => exact hother (by simp) rfl hb'
  | ack cursor => exact hother (by simp) rfl hb'
  | detach => exact hother (by simp) rfl hb'

theorem wedged_serviceTake {up : List Cell} {frame : Frame} (hb : Bounded s) (ok : Bool)
    (hu : s.up = .last frame :: up) :
    Wedged (serviceTake { s with up } ok frame) ↔ ¬ (ok = true → ∀ rest, s.up = .last .heartbeat :: rest →
      s.ServiceRoom (line [.heartbeat]).1.length 1) := by
  have hb' : Bounded { s with up } := by
    refine ⟨?_, hb.2⟩
    have := hb.1
    rw [hu] at this
    exact Nat.le_of_succ_le this
  have hother (hframe : frame = .heartbeat → ok = false)
      (hrest : (serviceTake { s with up } ok frame).serviceRest = 0)
      (hbound : Bounded (serviceTake { s with up } ok frame)) :
      Wedged (serviceTake { s with up } ok frame) ↔ ¬ (ok = true → ∀ rest, s.up = .last .heartbeat :: rest →
        s.ServiceRoom (line [.heartbeat]).1.length 1) := by
    refine iff_of_false (not_wedged_of_serviceRest hbound hrest) (not_not.mpr ?_)
    intro hok rest heq
    rw [hu] at heq
    rw [hframe (Cell.last.inj (List.cons.inj heq).1)] at hok
    cases hok
  cases frame with
  | heartbeat =>
    cases ok with
    | false => exact hother (fun _ => rfl) rfl hb'
    | true =>
      have hw : Wedged (serviceTake { s with up } true .heartbeat) ↔
          ¬ s.ServiceRoom (line [.heartbeat]).1.length 1 :=
        wedged_service rfl rfl rfl (serviceRest_write rfl) rfl (by rw [hu]; rfl)
      rw [hw]
      exact not_congr ⟨fun hroom _ _ _ => hroom, fun hall => hall rfl up hu⟩
  | execute operation message approval permissions =>
    refine hother (by simp) ?_ hb'
    cases ok <;> rfl
  | ack cursor =>
    refine hother (by simp) ?_ hb'
    by_cases hle : cursor ≤ s.sent
    · simp [serviceTake, serviceRest, hle]
    · simp [serviceTake, serviceRest, hle]
  | event cursor message => exact hother (by simp) rfl hb'
  | result value => exact hother (by simp) rfl hb'
  | error fault => exact hother (by simp) rfl hb'
  | detach => exact hother (by simp) rfl hb'

/-- A step wedges the stream just if it begins a write without room. -/
theorem wedged_next (hb : Bounded s) (hw : ¬ Wedged s) (hn : s.next e = some t) : Wedged t ↔ ¬ Roomy s e := by
  have hb' := (hb.next hn).1
  cases e with
  | emit message =>
    obtain rfl := Option.some.inj hn
    exact iff_of_false hw (not_not.mpr trivial)
  | request operation message approval permissions =>
    simp only [Stream.next] at hn
    split at hn
    · split at hn
      · next hfull =>
        obtain rfl := Option.some.inj hn
        refine iff_of_false (not_wedged_of_relayRest hb' rfl) (not_not.mpr ?_)
        intro hlt
        exact absurd hlt (Nat.not_lt.mpr hfull)
      · next hroom =>
        obtain rfl := Option.some.inj hn
        refine (wedged_relay (t := { s with
          relay := s.relay.send operation (.execute operation message approval permissions)
          relayPhase := .write (line [.execute operation message approval permissions]) })
          rfl rfl rfl (relayRest_write rfl) rfl (Nat.add_zero _)).trans ?_
        exact not_congr ⟨fun hr _ => hr, fun hr => hr (Nat.not_le.mp hroom)⟩
    · cases hn
  | heartbeat =>
    simp only [Stream.next] at hn
    split at hn
    · obtain rfl := Option.some.inj hn
      exact wedged_relay rfl rfl rfl (relayRest_write rfl) rfl rfl
    · cases hn
  | relayRead =>
    simp only [Stream.next] at hn
    split at hn
    · next hp hd =>
      obtain rfl := Option.some.inj hn
      refine iff_of_false (not_wedged_of_relayRest hb' (relayRest_selecting hp)) (not_not.mpr ?_)
      intro cursor message rest heq
      rw [hd] at heq
      cases heq
    · next hp hd =>
      obtain rfl := Option.some.inj hn
      exact wedged_relayTake hb hd hp
    · cases hn
  | relayPush n =>
    simp only [Stream.next] at hn
    split at hn
    · next rest ok hp =>
      split at hn
      · obtain rfl := Option.some.inj hn
        have hrest : s.relayRest = rest.length := by
          unfold relayRest
          rw [hp]
        refine iff_of_false (fun hw' => hw ?_) (not_not.mpr trivial)
        have hup : (s.up ++ rest.take n).length = s.up.length + min n rest.length := by
          rw [List.length_append, List.length_take]
        unfold Wedged at hw' ⊢
        rw [relayRest_write rfl, List.length_drop, hup] at hw'
        rw [hrest]
        obtain ⟨hup', hdown'⟩ := hw'
        refine ⟨?_, hdown'⟩
        simp only at hup'
        omega
      · cases hn
    · cases hn
  | poll =>
    simp only [Stream.next] at hn
    split at hn
    · obtain rfl := Option.some.inj hn
      exact wedged_service rfl rfl rfl (serviceRest_write rfl) rfl rfl
    · cases hn
  | wake =>
    simp only [Stream.next] at hn
    split at hn
    · obtain rfl := Option.some.inj hn
      exact iff_of_false (not_wedged_of_serviceRest hb' rfl) (not_not.mpr trivial)
    · cases hn
  | serviceRead ok =>
    simp only [Stream.next] at hn
    split at hn
    · next hp hu =>
      obtain rfl := Option.some.inj hn
      refine iff_of_false (not_wedged_of_serviceRest hb' ?_) (not_not.mpr ?_)
      · simp [serviceRest, hp]
      · intro _ rest heq
        rw [hu] at heq
        cases heq
    · next hp hu =>
      obtain rfl := Option.some.inj hn
      exact wedged_serviceTake hb ok hu
    · cases hn
  | servicePush n =>
    simp only [Stream.next] at hn
    split at hn
    · next rest ok more hp =>
      split at hn
      · obtain rfl := Option.some.inj hn
        have hrest : s.serviceRest = rest.length := by
          unfold serviceRest
          rw [hp]
        refine iff_of_false (fun hw' => hw ?_) (not_not.mpr trivial)
        have hdown : (s.down ++ rest.take n).length = s.down.length + min n rest.length := by
          rw [List.length_append, List.length_take]
        unfold Wedged at hw' ⊢
        rw [serviceRest_write rfl, List.length_drop, hdown] at hw'
        rw [hrest]
        obtain ⟨hup', hdown'⟩ := hw'
        refine ⟨hup', ?_⟩
        simp only at hdown'
        omega
      · cases hn
    · cases hn
  | drop =>
    simp only [Stream.next] at hn
    split at hn
    · cases hn
    · obtain rfl := Option.some.inj hn
      exact iff_of_false (not_wedged_of_relayRest hb' rfl) (not_not.mpr trivial)
  | reconnect =>
    simp only [Stream.next] at hn
    split at hn
    · obtain rfl := Option.some.inj hn
      exact iff_of_false (not_wedged_of_serviceRest hb' rfl) (not_not.mpr trivial)
    · cases hn

-- ---------------------------------------------------------------------------
-- Runs
-- ---------------------------------------------------------------------------

theorem bounded_of_reaches {C : Stream → StreamEvent → Prop} (hrun : Reaches C upSize downSize h s) :
    Bounded s :=
  hrun.invariant ⟨Nat.zero_le _, Nat.zero_le _⟩ fun _ _ _ hb _ hn => (hb.next hn).1

theorem not_wedged_of_reaches (hrun : Reaches Roomy upSize downSize h s) : ¬ Wedged s := by
  induction hrun with
  | start => exact not_wedged_of_relayRest ⟨Nat.zero_le _, Nat.zero_le _⟩ rfl
  | step hrun hc hn ih =>
    rw [wedged_next (bounded_of_reaches hrun) ih hn]
    exact not_not.mpr hc

/-- Who begins to write is not inside a write. -/
theorem not_wedged_of_begins (hb : Bounded s) (hn : s.next e = some t) (hc : ¬ Roomy s e) : ¬ Wedged s := by
  cases e with
  | request operation message approval permissions =>
    cases hp : s.relayPhase with
    | selecting => exact not_wedged_of_relayRest hb (relayRest_selecting hp)
    | _ => simp [Stream.next, hp] at hn
  | heartbeat =>
    cases hp : s.relayPhase with
    | selecting => exact not_wedged_of_relayRest hb (relayRest_selecting hp)
    | _ => simp [Stream.next, hp] at hn
  | relayRead =>
    cases hp : s.relayPhase with
    | selecting => exact not_wedged_of_relayRest hb (relayRest_selecting hp)
    | _ => simp [Stream.next, hp] at hn
  | poll =>
    cases hp : s.servicePhase with
    | polling => exact not_wedged_of_serviceRest hb (by simp [serviceRest, hp])
    | _ => simp [Stream.next, hp] at hn
  | serviceRead ok =>
    cases hp : s.servicePhase with
    | selecting => exact not_wedged_of_serviceRest hb (by simp [serviceRest, hp])
    | _ => simp [Stream.next, hp] at hn
  | _ => exact absurd trivial hc

/-- The relay fills its buffer. -/
theorem fill_up (hb : Bounded s) (hw : Wedged s) :
    ∃ later t, Run next Free s later t ∧ Wedged t ∧ Bounded t ∧ t.upSize ≤ t.up.length := by
  by_cases hfull : s.upSize ≤ s.up.length
  · exact ⟨[], s, .start, hw, hb, hfull⟩
  · cases hp : s.relayPhase with
    | writing rest ok =>
      have hrest : s.relayRest = rest.length := by
        unfold relayRest
        rw [hp]
      obtain ⟨hup, hdown⟩ := hw
      obtain ⟨n, hsize⟩ : ∃ n, s.upSize = s.up.length + n := ⟨s.upSize - s.up.length, by omega⟩
      have hn : s.next (.relayPush n) =
          some { s with up := s.up ++ rest.take n, relayPhase := .write (rest.drop n, ok) } := by
        simp only [Stream.next, hp]
        rw [if_pos ⟨by omega, by omega, by omega⟩]
      have hlength : (s.up ++ rest.take n).length = s.upSize := by
        rw [List.length_append, List.length_take]
        omega
      refine ⟨[.relayPush n], _, .step .start trivial hn, ⟨?_, hdown⟩, (hb.next hn).1, Nat.le_of_eq hlength.symm⟩
      rw [relayRest_write rfl, List.length_drop]
      show s.upSize < (s.up ++ rest.take n).length + (rest.length - n)
      omega
    | _ =>
      refine absurd hw (not_wedged_of_relayRest hb ?_)
      unfold relayRest
      rw [hp]

/-- The service fills its buffer. -/
theorem fill_down (hb : Bounded s) (hw : Wedged s) (hfull : s.upSize ≤ s.up.length) :
    ∃ later t, Run next Free s later t ∧ Stalled t := by
  obtain ⟨hup, hdown⟩ := hw
  by_cases hfull' : s.downSize ≤ s.down.length
  · have := hb.1
    have := hb.2
    exact ⟨[], s, .start, by omega, hfull, by omega, hfull'⟩
  · cases hp : s.servicePhase with
    | writing rest ok more =>
      have hrest : s.serviceRest = rest.length := by
        unfold serviceRest
        rw [hp]
      obtain ⟨n, hsize⟩ : ∃ n, s.downSize = s.down.length + n := ⟨s.downSize - s.down.length, by omega⟩
      have hn : s.next (.servicePush n) =
          some { s with down := s.down ++ rest.take n, servicePhase := .write (rest.drop n, ok) more } := by
        simp only [Stream.next, hp]
        rw [if_pos ⟨by omega, by omega, by omega⟩]
      have hlength : (s.down ++ rest.take n).length = s.downSize := by
        rw [List.length_append, List.length_take]
        omega
      have := hb.1
      refine ⟨[.servicePush n], _, .step .start trivial hn, ?_, hfull, ?_, Nat.le_of_eq hlength.symm⟩
      · show 0 < s.relayRest
        omega
      · rw [serviceRest_write rfl, List.length_drop]
        omega
    | _ =>
      refine absurd ⟨hup, hdown⟩ (not_wedged_of_serviceRest hb ?_)
      unfold serviceRest
      rw [hp]

theorem stall_of_wedged (hb : Bounded s) (hw : Wedged s) : ∃ later t, Run next Free s later t ∧ Stalled t := by
  obtain ⟨later, t, hrun, hwt, hbt, hfull⟩ := fill_up hb hw
  obtain ⟨more, u, hmore, hu⟩ := fill_down hbt hwt hfull
  exact ⟨_, u, hrun.append hmore, hu⟩

/-- Nothing happens to a stalled connection until it is dropped. -/
theorem stalled_next (hs : Stalled s) (hn : s.next e = some t) : e = .drop ∨ Stalled t := by
  obtain ⟨hrelay, hup, hservice, hdown⟩ := hs
  have hwriting : ∃ rest ok, s.relayPhase = .writing rest ok := by
    unfold relayRest at hrelay
    split at hrelay
    · exact ⟨_, _, ‹_›⟩
    · cases hrelay
  have hserving : ∃ rest ok more, s.servicePhase = .writing rest ok more := by
    unfold serviceRest at hservice
    split at hservice
    · exact ⟨_, _, _, ‹_›⟩
    · cases hservice
  obtain ⟨rest, ok, hp⟩ := hwriting
  obtain ⟨rest', ok', more, hp'⟩ := hserving
  cases e with
  | emit message =>
    obtain rfl := Option.some.inj hn
    exact .inr ⟨hrelay, hup, hservice, hdown⟩
  | drop => exact .inl rfl
  | relayPush n =>
    simp only [Stream.next, hp] at hn
    rw [if_neg (by omega)] at hn
    cases hn
  | servicePush n =>
    simp only [Stream.next, hp'] at hn
    rw [if_neg (by omega)] at hn
    cases hn
  | request operation message approval permissions =>
    simp only [Stream.next, hp] at hn
    cases hn
  | heartbeat =>
    simp only [Stream.next, hp] at hn
    cases hn
  | relayRead =>
    simp only [Stream.next, hp] at hn
    cases hn
  | poll =>
    simp only [Stream.next, hp'] at hn
    cases hn
  | wake =>
    simp only [Stream.next, hp'] at hn
    cases hn
  | serviceRead ok =>
    simp only [Stream.next, hp'] at hn
    cases hn
  | reconnect =>
    simp only [Stream.next, hp] at hn
    cases hn

theorem length_cells (frame : Frame) : (cells frame).length = frame.encode.length := by
  have hpos : 0 < frame.encode.length := by
    rw [length_encode]
    exact Nat.succ_pos _
  rw [cells, List.length_append, List.length_replicate, List.length_singleton]
  omega

theorem length_line {frame : Frame} (hfit : frame.Fits) : (line [frame]).1.length = frame.encode.length := by
  rw [line, if_pos hfit, line, List.append_nil, length_cells]

/-- A request that meets an event, both larger than the buffers. -/
theorem stall_of_large (message : Value) (operation : String) (hevent : (Frame.event 1 message).Fits)
    (hrequest : (Frame.execute operation message none none).Fits)
    (hup : upSize < (Frame.execute operation message none none).encode.length)
    (hdown : downSize < (Frame.event 1 message).encode.length) :
    ∃ h s, Reaches Free upSize downSize h s ∧ Stalled s := by
  have hrun : Reaches Free upSize downSize [.poll, .emit message]
      { upSize, downSize, log := [(1, message)], sent := 1,
        servicePhase := .write (line [.event 1 message]) false } :=
    .step (.step .start trivial rfl) trivial rfl
  have hnext : next
      { upSize, downSize, log := [(1, message)], sent := 1,
        servicePhase := .write (line [.event 1 message]) false } (.request operation message none none) =
      some
      { upSize, downSize, log := [(1, message)], sent := 1,
        relay := Relay.send {} operation (.execute operation message none none),
        relayPhase := .write (line [.execute operation message none none]),
        servicePhase := .write (line [.event 1 message]) false } := rfl
  have hw : Wedged
    { upSize, downSize, log := [(1, message)], sent := 1,
      relay := Relay.send {} operation (.execute operation message none none),
      relayPhase := .write (line [.execute operation message none none]),
      servicePhase := .write (line [.event 1 message]) false } := by
    constructor
    · rw [relayRest_write rfl, length_line hrequest]
      show upSize < 0 + _
      omega
    · rw [serviceRest_write rfl, length_line hevent]
      show downSize < 0 + _
      omega
  have hrun' := Run.step hrun (e := .request operation message none none) trivial hnext
  obtain ⟨later, t, hlater, ht⟩ := stall_of_wedged (bounded_of_reaches hrun') hw
  exact ⟨_, t, hrun'.append hlater, ht⟩

end Stream

end RemoteCodex.Tunnel
