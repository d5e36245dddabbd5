import RemoteCodex.Interact.Runs

/-!
# Who is attached to an execution

A connection that attaches sends `Touch`, takes the next epoch and keeps a
guard. When the guard is dropped it compares its epoch with the current one
and sends `Disconnected`. These are steps of the connection's own task; the
actor reads its queue in another one and looks at the clock once a second.
-/

namespace RemoteCodex.Server

open Interact

/-- What a connection or the service sends to the actor. Nothing here depends
on what an `Execute` carries. -/
inductive Input
  | execute | touch | detached | retireIdle | disconnected | stop
  deriving DecidableEq, Repr

/-- Where the connection of an attachment is. `leaving`: its guard has found
its epoch to be the current one. -/
inductive Connection
  | touching
  | attached (epoch : Nat)
  | closing (epoch : Nat)
  | leaving
  | gone
  deriving DecidableEq, Repr

/-- `asked`: since it sent its `Touch` the execution was asked to detach. The
code does not keep this. -/
structure Attachment where
  connection : Connection := .touching
  asked : Bool := false
  deriving DecidableEq, Repr

/-- Times are in nanoseconds. `cleaned` counts how often the processes of MCP
servers were told to terminate. -/
structure Presence where
  background : Bool
  grace : Nat
  clock : Nat := 0
  touched : Nat := 0
  attached : Bool := true
  detached : Bool := false
  running : Bool := true
  alive : Bool := true
  cleaned : Nat := 0
  queue : List Input := []
  epoch : Nat := 0
  attachments : List Attachment := []
  deriving DecidableEq, Repr

namespace Presence

def QUEUE : Nat := 64
def SECOND : Nat := 1000000000

/-- What the actor has heard nothing for. -/
def elapsed (s : Presence) : Nat := s.clock - s.touched

/-- `Execution::send`. -/
def send (s : Presence) (input : Input) : Option Presence :=
  if s.alive && s.queue.length < QUEUE then some { s with queue := s.queue ++ [input] } else none

def connection (s : Presence) (k : Nat) : Option Connection := s.attachments[k]?.map Attachment.connection

def move (s : Presence) (k : Nat) (connection : Connection) : Presence :=
  { s with attachments := s.attachments.modify k fun a => { a with connection } }

/-- The actor's next command. `ok`: handling it met no error. `idle`: no
request is pending and no process runs. -/
def receive (s : Presence) (ok idle : Bool) : Option Presence :=
  match s.queue with
  | [] => none
  | input :: queue =>
    let s := { s with queue }
    some <| match input with
      | .execute => { s with touched := s.clock, running := ok }
      | .touch => { s with attached := true, detached := false, touched := s.clock }
      | .detached =>
        { s with attached := false, detached := true, touched := s.clock, cleaned := s.cleaned + 1, running := ok }
      | .retireIdle => if s.detached && idle then { s with running := false } else s
      | .disconnected => { s with attached := false, touched := s.clock }
      | .stop => { s with running := false }

def silence (s : Presence) : Presence :=
  if s.attached && s.elapsed > 15 * SECOND then
    { s with attached := false, touched := s.clock, cleaned := s.cleaned + 1 }
  else s

def clean (s : Presence) : Presence :=
  if !s.attached && s.elapsed > 15 * SECOND then { s with cleaned := s.cleaned + 1 } else s

def expire (s : Presence) (idle : Bool) : Presence :=
  if !s.attached && !s.background && s.elapsed > s.grace * SECOND then { s with running := false }
  else if !s.attached && s.background && s.elapsed > 60 * SECOND && idle then { s.clean with running := false }
  else s.clean

/-- What the actor does once a second. `idle`: no command runs. -/
def tick (s : Presence) (idle : Bool) : Presence := s.silence.expire idle

inductive Event
  | pass (time : Nat)
  | attach
  | establish (k : Nat)
  | heartbeat (k : Nat)
  | execute (k : Nat)
  | detach (k : Nat)
  | close (k : Nat)
  | check (k : Nat)
  | disconnect (k : Nat)
  | detachExecution
  | prepareUpdate
  | shutdown
  | settings (background : Bool) (grace : Nat)
  | receive (ok idle : Bool)
  | tick (idle : Bool)
  | fail
  | ended
  deriving DecidableEq, Repr

def next (s : Presence) : Event → Option Presence
  | .pass time => some { s with clock := s.clock + time }
  | .attach =>
    match s.send .touch with
    | some s => some { s with attachments := s.attachments ++ [{}] }
    | none => some s
  | .establish k =>
    if s.connection k = some .touching then
      some ({ s with epoch := s.epoch + 1 }.move k (.attached (s.epoch + 1)))
    else none
  | .heartbeat k =>
    match s.connection k with
    | some (.attached epoch) => some ((s.send .touch).getD (s.move k (.closing epoch)))
    | _ => none
  | .execute k =>
    match s.connection k with
    | some (.attached epoch) => some ((s.send .execute).getD (s.move k (.closing epoch)))
    | _ => none
  | .detach k =>
    match s.connection k with
    | some (.attached epoch) => some (((s.send .detached).getD s).move k (.closing epoch))
    | _ => none
  | .close k =>
    match s.connection k with
    | some (.attached epoch) => some (s.move k (.closing epoch))
    | _ => none
  | .check k =>
    match s.connection k with
    | some (.closing epoch) => some (s.move k (if s.epoch = epoch then .leaving else .gone))
    | _ => none
  | .disconnect k =>
    if s.connection k = some .leaving then some (((s.send .disconnected).getD s).move k .gone) else none
  | .detachExecution =>
    match s.send .detached with
    | some s => some { s with attachments := s.attachments.map fun a => { a with asked := true } }
    | none => some s
  | .prepareUpdate => some ((s.send .retireIdle).getD s)
  | .shutdown => some ((s.send .stop).getD s)
  | .settings background grace => if s.running then some { s with background, grace } else none
  | .receive ok idle => if s.running then s.receive ok idle else none
  | .tick idle => if s.running then some (s.tick idle) else none
  -- the executor has ended, or its output cannot be kept
  | .fail => some { s with running := false }
  | .ended => if s.running then none else some { s with alive := false }

/-- The runs of an execution, from when it is opened. -/
abbrev Reaches (C : Presence → Event → Prop) (background : Bool) (grace : Nat) (h : List Event) (s : Presence) :
    Prop :=
  Run next C { background, grace } h s

/-- The attachment is being made, or is the one that took its epoch last, and
nobody has asked to detach since. -/
def Fresh (s : Presence) (a : Attachment) : Prop :=
  a.asked = false ∧ (a.connection = .touching ∨ a.connection = .attached s.epoch)

instance (s : Presence) (a : Attachment) : Decidable (s.Fresh a) := by
  unfold Fresh
  infer_instance

/-- A connection that is detached or dropped tells the actor so only while no
other attachment is fresh. The timer is not part of this: no tick comes after
fifteen seconds of silence. -/
def Undisturbed (s : Presence) : Event → Prop
  | .detach k | .disconnect k =>
    (s.send .disconnected).isSome → ∀ j a, j ≠ k → s.attachments[j]? = some a → ¬ s.Fresh a
  | .tick _ => ¬ (s.attached = true ∧ 15 * SECOND < s.elapsed)
  | _ => True

/-- `k` is the attachment that took its epoch last. -/
def Latest (h : List Event) (k : Nat) : Prop :=
  ∃ later earlier, h = later ++ .establish k :: earlier ∧ ∀ j, .establish j ∉ later

/-- The actor's flag once it has read its queue. -/
def settle (attached : Bool) (queue : List Input) : Bool :=
  queue.foldl (fun attached input => match input with
    | .touch => true
    | .detached | .disconnected => false
    | _ => attached) attached

end Presence

-- ---------------------------------------------------------------------------
-- What one step does
-- ---------------------------------------------------------------------------

def Connection.epoch : Connection → Option Nat
  | .attached epoch => some epoch
  | .closing epoch => some epoch
  | _ => none

/-- A connection goes from being attached towards being gone, never back. -/
structure Connection.Onward (c c' : Connection) : Prop where
  touching : c' = .touching → c = .touching
  attached : ∀ epoch, c' = .attached epoch → c = .attached epoch
  epoch : ∀ epoch, c'.epoch = some epoch → c.epoch = some epoch

theorem Connection.Onward.refl (c : Connection) : c.Onward c := ⟨id, fun _ => id, fun _ => id⟩

theorem Connection.Onward.closing (epoch : Nat) : (Connection.attached epoch).Onward (.closing epoch) :=
  ⟨by simp, by simp, fun _ h => h⟩

theorem Connection.Onward.left (c : Connection) (h : c' = .leaving ∨ c' = .gone) : c.Onward c' := by
  rcases h with rfl | rfl
  · exact ⟨by simp, by simp, by simp [Connection.epoch]⟩
  · exact ⟨by simp, by simp, by simp [Connection.epoch]⟩

namespace Presence

variable {s t : Presence} {input : Input} {k : Nat} {h : List Event} {background : Bool} {grace : Nat}

/-- The actor's flag once it has read what is in its queue now. -/
def settled (s : Presence) : Bool := settle s.attached s.queue

/-- Every attachment of `t` was one of `s` and has gone no step back. -/
def Onward (s t : Presence) : Prop :=
  ∀ (j : Nat) (b : Attachment), t.attachments[j]? = some b →
    ∃ a : Attachment, s.attachments[j]? = some a ∧ a.connection.Onward b.connection ∧
      (b.asked = false → a.asked = false)

theorem Onward.of_eq (h : t.attachments = s.attachments) : Onward s t := by
  intro j b hb
  exact ⟨b, h ▸ hb, .refl _, id⟩

theorem getElem?_move (s : Presence) (k j : Nat) (c : Connection) :
    (s.move k c).attachments[j]? =
      if k = j then s.attachments[j]?.map fun a => { a with connection := c } else s.attachments[j]? := by
  simp only [move, List.getElem?_modify]
  split
  · rfl
  · cases s.attachments[j]? <;> rfl

theorem Onward.move (h : s.connection k = some c) (hc : c.Onward c') : Onward s (s.move k c') := by
  intro j b hb
  rw [getElem?_move] at hb
  split at hb
  · next heq =>
    obtain ⟨a, ha, rfl⟩ := Option.map_eq_some_iff.mp hb
    refine ⟨a, ha, ?_, id⟩
    have : a.connection = c := by simpa [connection, heq, ha] using h
    exact this ▸ hc
  · exact ⟨b, hb, .refl _, id⟩

theorem Onward.trans {u : Presence} (hs : Onward s t) (ht : Onward t u) : Onward s u := by
  intro j b hb
  obtain ⟨a, ha, hab, hasked⟩ := ht j b hb
  obtain ⟨a₀, ha₀, h₀, hasked₀⟩ := hs j a ha
  exact ⟨a₀, ha₀, ⟨fun h => h₀.touching (hab.touching h), fun e h => h₀.attached e (hab.attached e h),
    fun e h => h₀.epoch e (hab.epoch e h)⟩, fun h => hasked₀ (hasked h)⟩

theorem send_eq (h : s.send input = some t) : t = { s with queue := s.queue ++ [input] } := by
  unfold send at h
  split at h
  · exact (Option.some.inj h).symm
  · cases h

/-- Whether something can be sent does not depend on what it is. -/
theorem sends {input' : Input} (h : s.send input = some t) : (s.send input').isSome := by
  unfold send at h ⊢
  split at h
  · next hc => simp [hc]
  · cases h

theorem not_fresh_move (ht : c ≠ .touching) (ha : ∀ epoch, c ≠ .attached epoch) :
    ∀ b, (s.move k c).attachments[k]? = some b → ¬ (s.move k c).Fresh b := by
  intro b hb
  rw [getElem?_move, if_pos rfl] at hb
  obtain ⟨a, -, rfl⟩ := Option.map_eq_some_iff.mp hb
  rintro ⟨-, h | h⟩
  · exact ht h
  · exact ha _ h

theorem settle_append (attached : Bool) (queue : List Input) (input : Input) :
    settle attached (queue ++ [input]) = settle (settle attached queue) [input] := List.foldl_append

/-- What a step does to the attachments and to the flag the actor is going to have. -/
inductive Change (s t : Presence) (e : Event) : Prop
  | keeps : t.epoch = s.epoch → Onward s t → (t.settled = s.settled ∨ t.settled = true) →
      (∀ k, e ≠ .establish k) → Change s t e
  | attaches : e = .attach → t.epoch = s.epoch → t.attachments = s.attachments ++ [({} : Attachment)] →
      t.settled = true → Change s t e
  | establishes (k : Nat) : e = .establish k → s.connection k = some .touching → t.epoch = s.epoch + 1 →
      t.attachments = (s.move k (.attached (s.epoch + 1))).attachments → t.settled = s.settled → Change s t e
  | leaves (k : Nat) : e = .detach k ∨ e = .disconnect k → (s.send .disconnected).isSome → t.epoch = s.epoch →
      Onward s t → (∀ b, t.attachments[k]? = some b → ¬ t.Fresh b) → Change s t e
  | asks : e = .detachExecution → t.epoch = s.epoch →
      t.attachments = s.attachments.map (fun a => { a with asked := true }) → Change s t e

theorem settled_receive {ok idle : Bool} (h : s.receive ok idle = some t) :
    t.settled = s.settled ∧ t.epoch = s.epoch ∧ t.attachments = s.attachments := by
  unfold receive at h
  split at h
  · cases h
  · next input queue hq =>
    obtain rfl := Option.some.inj h
    cases input <;> simp only [settled, settle, hq, List.foldl_cons]
    case retireIdle => split <;> exact ⟨rfl, rfl, rfl⟩
    all_goals exact ⟨trivial, trivial, trivial⟩

theorem settled_clean (s : Presence) :
    s.clean.settled = s.settled ∧ s.clean.epoch = s.epoch ∧ s.clean.attachments = s.attachments := by
  unfold clean
  split <;> exact ⟨rfl, rfl, rfl⟩

theorem settled_tick (idle : Bool) (hn : ¬ (s.attached = true ∧ 15 * SECOND < s.elapsed)) :
    (s.tick idle).settled = s.settled ∧ (s.tick idle).epoch = s.epoch ∧
      (s.tick idle).attachments = s.attachments := by
  have hs : s.silence = s := by
    unfold silence
    rw [if_neg]
    simpa using hn
  unfold tick expire
  rw [hs]
  split
  · exact ⟨rfl, rfl, rfl⟩
  · split
    · exact s.settled_clean
    · exact s.settled_clean

theorem change_of_next (hc : Undisturbed s e) (hn : s.next e = some t) : Change s t e := by
  cases e with
  | pass time =>
    obtain rfl := Option.some.inj hn
    exact .keeps rfl (.of_eq rfl) (.inl rfl) (by simp)
  | attach =>
    simp only [next] at hn
    split at hn
    · next u hsend =>
      obtain rfl := Option.some.inj hn
      obtain rfl := send_eq hsend
      exact .attaches rfl rfl rfl (settle_append _ _ _)
    · obtain rfl := Option.some.inj hn
      exact .keeps rfl (.of_eq rfl) (.inl rfl) (by simp)
  | establish k =>
    simp only [next] at hn
    split at hn
    · next hk =>
      obtain rfl := Option.some.inj hn
      exact .establishes k rfl hk rfl rfl rfl
    · cases hn
  | heartbeat k =>
    simp only [next] at hn
    split at hn
    · next epoch hk =>
      obtain rfl := Option.some.inj hn
      cases hsend : s.send .touch with
      | none => exact .keeps rfl (.move hk (.closing epoch)) (.inl rfl) (by simp)
      | some u =>
        obtain rfl := send_eq hsend
        exact .keeps rfl (.of_eq rfl) (.inr (settle_append _ _ _)) (by simp)
    · cases hn
  | execute k =>
    simp only [next] at hn
    split at hn
    · next epoch hk =>
      obtain rfl := Option.some.inj hn
      cases hsend : s.send .execute with
      | none => exact .keeps rfl (.move hk (.closing epoch)) (.inl rfl) (by simp)
      | some u =>
        obtain rfl := send_eq hsend
        exact .keeps rfl (.of_eq rfl) (.inl (settle_append _ _ _)) (by simp)
    · cases hn
  | detach k =>
    simp only [next] at hn
    split at hn
    · next epoch hk =>
      obtain rfl := Option.some.inj hn
      cases hsend : s.send .detached with
      | none => exact .keeps rfl (.move hk (.closing epoch)) (.inl rfl) (by simp)
      | some u =>
        obtain rfl := send_eq hsend
        refine .leaves k (.inl rfl) (sends hsend) rfl ((Onward.of_eq rfl).trans (.move hk (.closing epoch))) ?_
        exact not_fresh_move (by simp) (by simp)
    · cases hn
  | close k =>
    simp only [next] at hn
    split at hn
    · next epoch hk =>
      obtain rfl := Option.some.inj hn
      exact .keeps rfl (.move hk (.closing epoch)) (.inl rfl) (by simp)
    · cases hn
  | check k =>
    simp only [next] at hn
    split at hn
    · next epoch hk =>
      obtain rfl := Option.some.inj hn
      refine .keeps rfl (.move hk (.left _ ?_)) (.inl rfl) (by simp)
      split
      · exact .inl rfl
      · exact .inr rfl
    · cases hn
  | disconnect k =>
    simp only [next] at hn
    split at hn
    · next hk =>
      obtain rfl := Option.some.inj hn
      cases hsend : s.send .disconnected with
      | none => exact .keeps rfl (.move hk (.left _ (.inr rfl))) (.inl rfl) (by simp)
      | some u =>
        obtain rfl := send_eq hsend
        refine .leaves k (.inr rfl) (sends hsend) rfl ((Onward.of_eq rfl).trans (.move hk (.left _ (.inr rfl)))) ?_
        exact not_fresh_move (by simp) (by simp)
    · cases hn
  | detachExecution =>
    simp only [next] at hn
    split at hn
    · next u hsend =>
      obtain rfl := Option.some.inj hn
      obtain rfl := send_eq hsend
      exact .asks rfl rfl rfl
    · obtain rfl := Option.some.inj hn
      exact .keeps rfl (.of_eq rfl) (.inl rfl) (by simp)
  | prepareUpdate =>
    obtain rfl := Option.some.inj hn
    cases hsend : s.send .retireIdle with
    | none => exact .keeps rfl (.of_eq rfl) (.inl rfl) (by simp)
    | some u =>
      obtain rfl := send_eq hsend
      exact .keeps rfl (.of_eq rfl) (.inl (settle_append _ _ _)) (by simp)
  | shutdown =>
    obtain rfl := Option.some.inj hn
    cases hsend : s.send .stop with
    | none => exact .keeps rfl (.of_eq rfl) (.inl rfl) (by simp)
    | some u =>
      obtain rfl := send_eq hsend
      exact .keeps rfl (.of_eq rfl) (.inl (settle_append _ _ _)) (by simp)
  | settings background grace =>
    simp only [next] at hn
    split at hn
    · obtain rfl := Option.some.inj hn
      exact .keeps rfl (.of_eq rfl) (.inl rfl) (by simp)
    · cases hn
  | receive ok idle =>
    simp only [next] at hn
    split at hn
    · obtain ⟨hsettled, hepoch, hatt⟩ := settled_receive hn
      exact .keeps hepoch (.of_eq hatt) (.inl hsettled) (by simp)
    · cases hn
  | tick idle =>
    simp only [next] at hn
    split at hn
    · obtain rfl := Option.some.inj hn
      obtain ⟨hsettled, hepoch, hatt⟩ := settled_tick idle hc
      exact .keeps hepoch (.of_eq hatt) (.inl hsettled) (by simp)
    · cases hn
  | fail =>
    obtain rfl := Option.some.inj hn
    exact .keeps rfl (.of_eq rfl) (.inl rfl) (by simp)
  | ended =>
    simp only [next] at hn
    split at hn
    · cases hn
    · obtain rfl := Option.some.inj hn
      exact .keeps rfl (.of_eq rfl) (.inl rfl) (by simp)

-- ---------------------------------------------------------------------------
-- What every run keeps
-- ---------------------------------------------------------------------------

/-- While an attachment is fresh its `Touch`, or a later one, is the last word
in the queue; and only the latest attachment holds the current epoch. -/
structure Sound (h : List Event) (s : Presence) : Prop where
  bound : ∀ (j : Nat) (a : Attachment) (epoch : Nat), s.attachments[j]? = some a →
    a.connection.epoch = some epoch → epoch ≤ s.epoch
  fresh : ∀ (j : Nat) (a : Attachment), s.attachments[j]? = some a → s.Fresh a → s.settled = true
  latest : ∀ k, Latest h k → ∀ (j : Nat) (a : Attachment) (epoch : Nat), s.attachments[j]? = some a →
    a.connection.epoch = some epoch → (epoch = s.epoch ↔ j = k)

theorem latest_cons (he : ∀ j, e ≠ .establish j) (h' : Latest (e :: h) k) : Latest h k := by
  obtain ⟨later, earlier, heq, hlater⟩ := h'
  cases later with
  | nil =>
    obtain ⟨rfl, -⟩ := List.cons.inj heq
    exact absurd rfl (he k)
  | cons f later =>
    obtain ⟨-, rfl⟩ := List.cons.inj heq
    exact ⟨later, earlier, rfl, fun j hj => hlater j (List.mem_cons_of_mem _ hj)⟩

theorem latest_establish (h' : Latest (.establish j :: h) k) : k = j := by
  obtain ⟨later, earlier, heq, hlater⟩ := h'
  cases later with
  | nil =>
    obtain ⟨he, -⟩ := List.cons.inj heq
    exact (Event.establish.inj he).symm
  | cons f later =>
    obtain ⟨rfl, -⟩ := List.cons.inj heq
    exact absurd List.mem_cons_self (hlater j)

theorem fresh_of_onward {a b : Attachment} (he : t.epoch = s.epoch) (hab : a.connection.Onward b.connection)
    (hasked : b.asked = false → a.asked = false) (hb : t.Fresh b) : s.Fresh a := by
  refine ⟨hasked hb.1, ?_⟩
  rcases hb.2 with h | h
  · exact .inl (hab.touching h)
  · exact .inr (he ▸ hab.attached _ h)

/-- A step that neither adds an attachment nor hands out an epoch. -/
theorem Sound.onward (hs : Sound h s) (he : t.epoch = s.epoch) (ho : Onward s t)
    (hne : ∀ j, e ≠ .establish j)
    (hfresh : ∀ (j : Nat) (b : Attachment), t.attachments[j]? = some b → t.Fresh b → t.settled = true) :
    Sound (e :: h) t where
  bound j b epoch hb hepoch := by
    obtain ⟨a, ha, hab, -⟩ := ho j b hb
    rw [he]
    exact hs.bound j a epoch ha (hab.epoch epoch hepoch)
  fresh := hfresh
  latest k hk j b epoch hb hepoch := by
    obtain ⟨a, ha, hab, -⟩ := ho j b hb
    rw [he]
    exact hs.latest k (latest_cons hne hk) j a epoch ha (hab.epoch epoch hepoch)

theorem Sound.attaches (hs : Sound h s) (he : t.epoch = s.epoch)
    (ha : t.attachments = s.attachments ++ [({} : Attachment)]) (hsettled : t.settled = true) :
    Sound (.attach :: h) t := by
  -- the new attachment has no epoch yet
  have hold : ∀ (j : Nat) (b : Attachment) (epoch : Nat), t.attachments[j]? = some b →
      b.connection.epoch = some epoch → s.attachments[j]? = some b := by
    intro j b epoch hb hepoch
    rw [ha, List.getElem?_append] at hb
    split at hb
    · exact hb
    · have hb := List.mem_of_getElem? hb
      rw [List.mem_singleton.mp hb] at hepoch
      cases hepoch
  refine ⟨?_, fun _ _ _ _ => hsettled, ?_⟩
  · intro j b epoch hb hepoch
    rw [he]
    exact hs.bound j b epoch (hold j b epoch hb hepoch) hepoch
  · intro k hk j b epoch hb hepoch
    rw [he]
    exact hs.latest k (latest_cons (by simp) hk) j b epoch (hold j b epoch hb hepoch) hepoch

theorem Sound.establishes (hs : Sound h s) (hk : s.connection k = some .touching) (he : t.epoch = s.epoch + 1)
    (ha : t.attachments = (s.move k (.attached (s.epoch + 1))).attachments) (hsettled : t.settled = s.settled) :
    Sound (.establish k :: h) t := by
  have hat : ∀ (j : Nat) (b : Attachment), t.attachments[j]? = some b →
      j = k ∧ (∃ a, s.attachments[j]? = some a ∧ a.connection = .touching ∧
        b = { a with connection := .attached (s.epoch + 1) }) ∨
      j ≠ k ∧ s.attachments[j]? = some b := by
    intro j b hb
    rw [ha, getElem?_move] at hb
    split at hb
    · next heq =>
      subst heq
      obtain ⟨a, haj, rfl⟩ := Option.map_eq_some_iff.mp hb
      exact .inl ⟨rfl, a, haj, by simpa [connection, haj] using hk, rfl⟩
    · next hne => exact .inr ⟨fun h => hne h.symm, hb⟩
  refine ⟨?_, ?_, ?_⟩
  · intro j b epoch hb hepoch
    rw [he]
    rcases hat j b hb with ⟨-, a, -, -, rfl⟩ | ⟨-, hb⟩
    · exact Nat.le_of_eq (Option.some.inj hepoch).symm
    · exact Nat.le_succ_of_le (hs.bound j b epoch hb hepoch)
  · intro j b hb hfresh
    rw [hsettled]
    rcases hat j b hb with ⟨-, a, haj, hc, rfl⟩ | ⟨-, hb⟩
    · exact hs.fresh j a haj ⟨hfresh.1, .inl hc⟩
    · rcases hfresh.2 with hc | hc
      · exact hs.fresh j b hb ⟨hfresh.1, .inl hc⟩
      · have := hs.bound j b t.epoch hb (by rw [hc]; rfl)
        omega
  · intro k' hk' j b epoch hb hepoch
    obtain rfl := latest_establish hk'
    rw [he]
    rcases hat j b hb with ⟨rfl, a, -, -, rfl⟩ | ⟨hne, hb⟩
    · exact ⟨fun _ => rfl, fun _ => (Option.some.inj hepoch).symm⟩
    · have := hs.bound j b epoch hb hepoch
      exact ⟨fun h => by omega, fun h => absurd h hne⟩

theorem Sound.next (hs : Sound h s) (hc : Undisturbed s e) (hn : s.next e = some t) : Sound (e :: h) t := by
  cases change_of_next hc hn with
  | keeps he ho hsettled hne =>
    refine hs.onward he ho hne ?_
    intro j b hb hfresh
    obtain ⟨a, ha, hab, hasked⟩ := ho j b hb
    rcases hsettled with h | h
    · exact h.trans (hs.fresh j a ha (fresh_of_onward he hab hasked hfresh))
    · exact h
  | attaches hev he ha hsettled =>
    subst hev
    exact hs.attaches he ha hsettled
  | establishes k hev hk he ha hsettled =>
    subst hev
    exact hs.establishes hk he ha hsettled
  | leaves k hev hsend he ho hk =>
    -- no other attachment is fresh, and the one that leaves is not
    have hothers : ∀ (j : Nat) (a : Attachment), j ≠ k → s.attachments[j]? = some a → ¬ s.Fresh a := by
      rcases hev with rfl | rfl
      · exact hc hsend
      · exact hc hsend
    refine hs.onward he ho (by rcases hev with rfl | rfl <;> simp) ?_
    intro j b hb hfresh
    obtain ⟨a, ha, hab, hasked⟩ := ho j b hb
    by_cases hj : j = k
    · exact absurd hfresh (hk b (hj ▸ hb))
    · exact absurd (fresh_of_onward he hab hasked hfresh) (hothers j a hj ha)
  | asks hev he ha =>
    subst hev
    have ho : Onward s t := by
      intro j b hb
      rw [ha, List.getElem?_map] at hb
      obtain ⟨a, haj, rfl⟩ := Option.map_eq_some_iff.mp hb
      exact ⟨a, haj, .refl _, by simp⟩
    refine hs.onward he ho (by simp) ?_
    intro j b hb hfresh
    rw [ha, List.getElem?_map] at hb
    obtain ⟨a, -, rfl⟩ := Option.map_eq_some_iff.mp hb
    cases hfresh.1

theorem sound_of_reaches (hrun : Reaches Undisturbed background grace h s) : Sound h s :=
  hrun.keeps ⟨by simp, by simp, by simp⟩ fun _ _ _ _ hs hc hn => hs.next hc hn

theorem tick_of_attached (ha : s.attached = true) (hq : s.elapsed ≤ 15 * SECOND) (idle : Bool) : s.tick idle = s := by
  have hs : s.silence = s := by
    unfold silence
    rw [if_neg]
    simpa [ha] using hq
  simp [tick, hs, expire, clean, ha]

/-- While the latest attachment is connected and nobody has asked it to
detach, the actor counts as attached as soon as it has read its queue, and
then no tick within fifteen seconds of the last input ends or cleans anything;
and the guard of any older connection finds that it must not speak. -/
theorem latest_attached {epoch : Nat} (hrun : Reaches Undisturbed background grace h s) (hlast : Latest h k)
    (ha : s.attachments[k]? = some a) (hat : a.connection = .attached epoch) (hasked : a.asked = false) :
    s.settled = true ∧
      (s.queue = [] → s.attached = true ∧ ∀ idle, s.elapsed ≤ 15 * SECOND → s.tick idle = s) ∧
      ∀ j b older, j ≠ k → s.attachments[j]? = some b → b.connection = .closing older →
        s.next (.check j) = some (s.move j .gone) := by
  have hs := sound_of_reaches hrun
  have hepoch : epoch = s.epoch := (hs.latest k hlast k a epoch ha (by rw [hat]; rfl)).mpr rfl
  have hsettled : s.settled = true := hs.fresh k a ha ⟨hasked, .inr (hepoch ▸ hat)⟩
  refine ⟨hsettled, ?_, ?_⟩
  · intro hq
    have hatt : s.attached = true := by simpa [settled, settle, hq] using hsettled
    exact ⟨hatt, fun idle hel => tick_of_attached hatt hel idle⟩
  · intro j b older hj hb hold
    have hne : s.epoch ≠ older := by
      intro h
      exact hj ((hs.latest k hlast j b older hb (by rw [hold]; rfl)).mp h.symm)
    have hconn : s.connection j = some (.closing older) := by simp [connection, hb, hold]
    simp [Presence.next, hconn, hne]

/-- The old connection's guard compares its epoch between the new one's
`Touch` and its epoch, and the channel stops at the next tick. -/
theorem latest_not_attached :
    ∃ h s k a epoch, Reaches Free false 0 h s ∧ Latest h k ∧ s.attachments[k]? = some a ∧
      a.connection = .attached epoch ∧ a.asked = false ∧ s.queue = [] ∧ s.attached = false ∧
      ∃ t u, s.next (.pass 1) = some t ∧ t.next (.tick false) = some u ∧ u.running = false := by
  refine ⟨[.receive true false, .receive true false, .establish 1, .disconnect 0, .check 0, .close 0, .attach,
    .receive true false, .establish 0, .attach],
    { background := false, grace := 0, attached := false, epoch := 2,
      attachments := [⟨.gone, false⟩, ⟨.attached 2, false⟩] },
    1, ⟨.attached 2, false⟩, 2, run_of_play (by decide), ?_, rfl, rfl, rfl, rfl, rfl, _, _, rfl, rfl, rfl⟩
  exact ⟨[.receive true false, .receive true false], _, rfl, by simp⟩

theorem latest_attached_one :
    ∃ h s, Reaches Undisturbed false 0 h s ∧ s.epoch = 1 ∧ s.queue = [] ∧ s.settled = true := by
  have hrun : Reaches Undisturbed false 0 [.receive true false, .establish 0, .attach]
      { background := false, grace := 0, epoch := 1, attachments := [⟨.attached 1, false⟩] } :=
    .step (.step (.step .start trivial rfl) trivial rfl) trivial rfl
  have hlast : Latest [.receive true false, .establish 0, .attach] 0 := ⟨[.receive true false], _, rfl, by simp⟩
  exact ⟨_, _, hrun, rfl, rfl, (latest_attached hrun hlast rfl rfl rfl).1⟩

end Presence

end RemoteCodex.Server
