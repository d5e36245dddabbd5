import RemoteCodex.Interact.Table

/-!
# A frontend's connection

Snapshots and live events share a connection: a request that was sent is not
sent again before its resolution. Writing is another task's, which a bounded
queue feeds.
-/

namespace RemoteCodex.Gateway

/-- A request of the native process; `id` is the text of the request's id. -/
structure Request where
  generation : Nat
  id : String
  method : String
  deriving DecidableEq, Repr

/-- `maker` is the connection whose request the reply answers. -/
inductive Message
  | request (request : Request)
  | resolved (id : String)
  | notice
  | reply (maker : Nat)
  deriving DecidableEq, Repr

def OUTPUT_CAPACITY : Nat := 256

/-- `sent` is all that was put in the queue, the latest first, and `queued` how
much of it is there still. -/
structure Connection where
  number : Nat
  delivered : List String := []
  sent : List Message := []
  queued : Nat := 0
  failed : Bool := false
  deriving DecidableEq, Repr

namespace Connection

def enqueue (c : Connection) (m : Message) : Connection :=
  if c.queued < OUTPUT_CAPACITY then { c with sent := m :: c.sent, queued := c.queued + 1 } else { c with failed := true }

def send (c : Connection) : Message → Connection
  | .request r => if r.id ∈ c.delivered then c else { c with delivered := r.id :: c.delivered }.enqueue (.request r)
  | .resolved id => { c with delivered := c.delivered.filter fun x => x ≠ id }.enqueue (.resolved id)
  | m => c.enqueue m

/-- What the frontend has last been sent under `id`, unless its resolution followed. -/
def outstanding (id : String) : List Message → Option Request
  | [] => none
  | .request r :: rest => if r.id = id then some r else outstanding id rest
  | .resolved x :: rest => if x = id then none else outstanding id rest
  | _ :: rest => outstanding id rest

/-- No other request stands where `r` is to be sent. -/
def clear (c : Connection) (r : Request) : Bool :=
  outstanding r.id c.sent = none || outstanding r.id c.sent = some r

variable {c : Connection} {m : Message} {r : Request} {id : String}

theorem enqueue_ok (h : (c.enqueue m).failed = false) : c.failed = false ∧
    c.enqueue m = { c with sent := m :: c.sent, queued := c.queued + 1 } := by
  unfold enqueue at h ⊢
  split
  · next hroom =>
    rw [if_pos hroom] at h
    exact ⟨h, rfl⟩
  · next hfull =>
    rw [if_neg hfull] at h
    cases h

/-- A connection that has not failed had not failed before. -/
theorem send_failed (h : (c.send m).failed = false) : c.failed = false := by
  cases m with
  | request r =>
    simp only [send] at h
    split at h
    · exact h
    · exact (enqueue_ok h).1
  | resolved x => exact (enqueue_ok h).1
  | notice => exact (enqueue_ok h).1
  | reply maker => exact (enqueue_ok h).1

@[simp] theorem enqueue_number (c : Connection) (m : Message) : (c.enqueue m).number = c.number := by
  unfold enqueue
  split <;> rfl

@[simp] theorem send_number (c : Connection) (m : Message) : (c.send m).number = c.number := by
  cases m with
  | request r =>
    simp only [send]
    split
    · rfl
    · rw [enqueue_number]
  | resolved x => simp [send]
  | notice => simp [send]
  | reply maker => simp [send]

theorem mem_enqueue {x : Message} (h : x ∈ (c.enqueue m).sent) : x ∈ c.sent ∨ x = m := by
  unfold enqueue at h
  split at h
  · exact (List.mem_cons.mp h).symm
  · exact .inl h

theorem mem_send {x : Message} (h : x ∈ (c.send m).sent) : x ∈ c.sent ∨ x = m := by
  cases m with
  | request r =>
    simp only [send] at h
    split at h
    · exact .inl h
    · exact mem_enqueue (c := { c with delivered := r.id :: c.delivered }) h
  | resolved x => exact mem_enqueue (c := { c with delivered := c.delivered.filter fun y => y ≠ x }) h
  | notice => exact mem_enqueue h
  | reply maker => exact mem_enqueue h

/-- The connection knows which requests the frontend has and are not resolved. -/
def Tracks (c : Connection) : Prop := ∀ id, id ∈ c.delivered ↔ (outstanding id c.sent).isSome = true

theorem tracks_send (ht : c.Tracks) (h : (c.send m).failed = false) : (c.send m).Tracks := by
  intro id
  cases m with
  | request r =>
    simp only [send] at h ⊢
    split
    · exact ht id
    · next hnew =>
      rw [if_neg hnew] at h
      rw [(enqueue_ok h).2]
      simp only [outstanding, List.mem_cons]
      split
      · next heq => simp [heq]
      · next hne =>
        rw [← ht id]
        exact or_iff_right fun heq => hne heq.symm
  | resolved x =>
    simp only [send] at h ⊢
    rw [(enqueue_ok h).2]
    simp only [outstanding, List.mem_filter, decide_eq_true_eq]
    split
    · next heq => simp [heq]
    · next hne =>
      rw [← ht id]
      exact and_iff_left fun heq => hne heq.symm
  | notice =>
    simp only [send] at h ⊢
    rw [(enqueue_ok h).2]
    exact ht id
  | reply maker =>
    simp only [send] at h ⊢
    rw [(enqueue_ok h).2]
    exact ht id

/-- A request is sent unless one with its id stands. -/
theorem send_request (ht : c.Tracks) (h : (c.send (.request r)).failed = false) :
    (c.send (.request r)).sent = if (outstanding r.id c.sent).isSome then c.sent else .request r :: c.sent := by
  simp only [send] at h ⊢
  by_cases hin : r.id ∈ c.delivered
  · rw [if_pos hin, if_pos ((ht r.id).mp hin)]
  · rw [if_neg hin] at h
    rw [if_neg hin, if_neg fun hsome => hin ((ht r.id).mpr hsome), (enqueue_ok h).2]

theorem mem_of_outstanding {l : List Message} (h : outstanding id l = some r) : .request r ∈ l := by
  induction l with
  | nil => cases h
  | cons m l ih =>
    cases m with
    | request r' =>
      simp only [outstanding] at h
      split at h
      · cases h
        exact List.mem_cons_self
      · exact List.mem_cons_of_mem _ (ih h)
    | resolved x =>
      simp only [outstanding] at h
      split at h
      · cases h
      · exact List.mem_cons_of_mem _ (ih h)
    | notice => exact List.mem_cons_of_mem _ (ih h)
    | reply maker => exact List.mem_cons_of_mem _ (ih h)

/-- What was sent once and stands is not sent again, until its resolution. -/
theorem send_stands (ht : c.Tracks) (hok : (c.send m).failed = false) (hcount : c.sent.count (.request r) = 1)
    (hout : outstanding r.id c.sent = some r) (hm : m ≠ .resolved r.id) :
    (c.send m).sent.count (.request r) = 1 ∧ outstanding r.id (c.send m).sent = some r := by
  cases m with
  | request r' =>
    rw [send_request ht hok]
    split
    · exact ⟨hcount, hout⟩
    · next hnone =>
      have hid : r'.id ≠ r.id := by
        intro heq
        rw [heq, hout] at hnone
        exact hnone rfl
      have hne : Message.request r' ≠ .request r := by
        rintro ⟨⟩
        exact hid rfl
      simp only [outstanding, if_neg hid]
      exact ⟨(List.count_cons_of_ne hne).trans hcount, hout⟩
  | resolved x =>
    have hid : x ≠ r.id := by
      rintro rfl
      exact hm rfl
    simp only [send] at hok ⊢
    rw [(enqueue_ok hok).2]
    simp only [outstanding, if_neg hid]
    exact ⟨(List.count_cons_of_ne Message.noConfusion).trans hcount, hout⟩
  | notice =>
    simp only [send] at hok ⊢
    rw [(enqueue_ok hok).2]
    exact ⟨(List.count_cons_of_ne Message.noConfusion).trans hcount, hout⟩
  | reply maker =>
    simp only [send] at hok ⊢
    rw [(enqueue_ok hok).2]
    exact ⟨(List.count_cons_of_ne Message.noConfusion).trans hcount, hout⟩

/-- What was not sent, and finds nothing in its place, is sent once. -/
theorem send_once (ht : c.Tracks) (hok : (c.send (.request r)).failed = false) (hclear : c.clear r = true)
    (hnew : .request r ∉ c.sent) :
    (c.send (.request r)).sent.count (.request r) = 1 ∧ outstanding r.id (c.send (.request r)).sent = some r := by
  have hnone : outstanding r.id c.sent = none := by
    simp only [clear, Bool.or_eq_true, decide_eq_true_eq] at hclear
    rcases hclear with hnone | hsome
    · exact hnone
    · exact absurd (mem_of_outstanding hsome) hnew
  rw [send_request ht hok, if_neg (by simp [hnone])]
  simp only [outstanding, if_true]
  exact ⟨by rw [List.count_cons_self, List.count_eq_zero_of_not_mem hnew], trivial⟩

end Connection

end RemoteCodex.Gateway
