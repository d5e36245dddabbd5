import RemoteCodex.Interact.Runs
import RemoteCodex.Interact.Table
import RemoteCodex.Protocol.Approval

/-!
# One-time command approvals of the client

`Approvals` holds the requests the native process waits for and the grants the
user gave but no command has used yet. Native events, the user's answers and
the relay's messages reach it from three tasks, one call at a time.
-/

namespace RemoteCodex.Local

open Interact Protocol

/-- Times are in nanoseconds. -/
def SECOND : Nat := 1000000000

/-- A native request to run one command. -/
structure Approval where
  requestId : String
  thread : String
  environment : String
  turn : String
  item : String
  argv : List String
  cwd : String
  deriving DecidableEq, Repr

inductive Notice
  | approval (approval : Approval)
  | completed (item turn : Option String)
  | permissions (thread : String) (fullAccess : Bool)
  | closed (fault : Option Fault)
  | other
  deriving DecidableEq, Repr

structure Approvals where
  pending : Table String CommandApproval := ∅
  accepted : List (Nat × CommandApproval) := []
  deriving DecidableEq

namespace Approvals

def invalid : Fault :=
  Transfer.fault "INVALID_EXECUTION_APPROVAL" "cannot bind this approval to a remote command"

/-- The grant a request asks for; `uuid` names it. -/
def grant (approval : Approval) (channel uuid : String) : CommandApproval where
  id := uuid
  channel := channel
  thread := approval.thread
  turn := approval.turn
  item := approval.item
  argv := approval.argv
  cwd := approval.cwd

/-- A completed item or turn is the grant's own. -/
def ends (item turn : Option String) (grant : CommandApproval) : Bool :=
  item = some grant.item || turn = some grant.turn

/-- `contains` is what the session's permissions say about the request's thread. -/
def observe (s : Approvals) (notice : Notice) (environment channel : String)
    (contains : Except Fault Bool) (uuid : String) : Except Fault Unit × Approvals :=
  match notice with
  | .completed item turn =>
    (.ok (), { pending := s.pending.retain fun grant => !ends item turn grant
               accepted := s.accepted.filter fun x => !ends item turn x.2 })
  | .approval approval =>
    if approval.environment ≠ environment then (.error invalid, s)
    else
      match contains with
      | .error fault => (.error fault, s)
      | .ok false => (.error invalid, s)
      | .ok true =>
        if 64 ≤ s.pending.entries.length + s.accepted.length then (.error invalid, s)
        else (.ok (), { s with pending := s.pending.insert approval.requestId (grant approval channel uuid) })
  | _ => (.ok (), s)

def respond (s : Approvals) (now : Nat) (id : String) (accepted : Bool) : Approvals :=
  match s.pending.lookup id with
  | none => s
  | some grant =>
    { pending := s.pending.erase id
      accepted := if accepted then s.accepted ++ [(now, grant)] else s.accepted }

def take (s : Approvals) (now : Nat) (message : Value) : Option CommandApproval × Approvals :=
  let accepted := s.accepted.filter fun x => now - x.1 < 60 * SECOND
  match accepted.find? fun x => x.2.matches message with
  | none => (none, { s with accepted })
  | some x => (some x.2, { s with accepted := accepted.eraseP fun x => x.2.matches message })

def clear (_ : Approvals) : Approvals := {}

def size (s : Approvals) : Nat := s.pending.entries.length + s.accepted.length

end Approvals

-- ---------------------------------------------------------------------------
-- Runs
-- ---------------------------------------------------------------------------

/-- What the tasks of a session ask of `Approvals`, and time. Every call of
`observe` brings the id it would draw for a new grant. -/
inductive Call
  | observe (notice : Notice) (contains : Except Fault Bool) (uuid : String)
  | respond (id : String) (accepted : Bool)
  | take (message : Value)
  | clear
  | wait (time : Nat)

/-- `drawn` are the ids that were drawn, `given` the ids of the grants that
`take` returned; the code keeps neither. -/
structure Session where
  approvals : Approvals := {}
  now : Nat := 0
  drawn : List String := []
  given : List String := []
  deriving DecidableEq

section

variable (environment channel : String)

def Session.next (s : Session) : Call → Option Session
  | .observe notice contains uuid =>
    -- a random id is one that was never drawn before
    if uuid ∈ s.drawn then none
    else some { s with
      approvals := (s.approvals.observe notice environment channel contains uuid).2
      drawn := uuid :: s.drawn }
  | .respond id accepted => some { s with approvals := s.approvals.respond s.now id accepted }
  | .take message =>
    let (grant, approvals) := s.approvals.take s.now message
    some { s with approvals, given := (grant.map (·.id)).toList ++ s.given }
  | .clear => some { s with approvals := s.approvals.clear }
  | .wait time => some { s with now := s.now + time }

abbrev Session.Reaches (h : List Call) (s : Session) : Prop :=
  Run (Session.next environment channel) Free {} h s

/-- The time that passes during some calls. -/
def elapsed : List Call → Nat
  | [] => 0
  | .wait time :: h => elapsed h + time
  | _ :: h => elapsed h

/-- A call that withdraws a grant, accepted or not. -/
def Revokes (grant : CommandApproval) : Call → Prop
  | .observe (.completed item turn) _ _ => Approvals.ends item turn grant = true
  | .clear => True
  | _ => False

/-- After `h`, the request that asked for `grant` under `id` has not been
answered, and the grant not been withdrawn. -/
def Requested (h : List Call) (id : String) (grant : CommandApproval) : Prop :=
  ∃ later earlier approval, h = later ++ .observe (.approval approval) (.ok true) grant.id :: earlier ∧
    approval.requestId = id ∧ approval.environment = environment ∧
    grant = Approvals.grant approval channel grant.id ∧
    ∀ call ∈ later, ¬ Revokes grant call ∧ ∀ accepted, call ≠ .respond id accepted

/-- The user accepted the pending request for `grant`, and in the calls `later`
than that it was not withdrawn. -/
def Accepted (h later : List Call) (grant : CommandApproval) : Prop :=
  ∃ before id s, h = later ++ .respond id true :: before ∧
    Session.Reaches environment channel before s ∧ s.approvals.pending.lookup id = some grant ∧
    Requested environment channel before id grant ∧ ∀ call ∈ later, ¬ Revokes grant call

end

-- ---------------------------------------------------------------------------
-- What the calls do
-- ---------------------------------------------------------------------------

namespace Approvals

/-- The ids of the grants that are pending or accepted. -/
def ids (s : Approvals) : List String := s.pending.values.map (·.id) ++ s.accepted.map (·.2.id)

theorem observe_cases (s : Approvals) (notice : Notice) (environment channel : String)
    (contains : Except Fault Bool) (uuid : String) :
    (s.observe notice environment channel contains uuid).2 = s ∧ (∀ item turn, notice ≠ .completed item turn) ∨
    (∃ item turn, notice = .completed item turn ∧
      (s.observe notice environment channel contains uuid).2 =
        { pending := s.pending.retain fun grant => !ends item turn grant
          accepted := s.accepted.filter fun x => !ends item turn x.2 }) ∨
    (∃ approval, notice = .approval approval ∧ approval.environment = environment ∧
      contains = .ok true ∧ s.size < 64 ∧
      (s.observe notice environment channel contains uuid).2 =
        { s with pending := s.pending.insert approval.requestId (grant approval channel uuid) }) := by
  cases notice with
  | completed item turn => exact .inr (.inl ⟨item, turn, rfl, rfl⟩)
  | approval approval =>
    by_cases henv : approval.environment = environment
    · rcases contains with fault | held
      · exact .inl ⟨by simp [observe, henv], by simp⟩
      · cases held with
        | false => exact .inl ⟨by simp [observe, henv], by simp⟩
        | true =>
          by_cases hfull : 64 ≤ s.pending.entries.length + s.accepted.length
          · exact .inl ⟨by simp [observe, henv, hfull], by simp⟩
          · exact .inr (.inr ⟨approval, rfl, henv, rfl, by simpa [size] using hfull,
              by simp [observe, henv, hfull]⟩)
    · exact .inl ⟨by simp [observe, henv], by simp⟩
  | permissions thread fullAccess => exact .inl ⟨rfl, by simp⟩
  | closed fault => exact .inl ⟨rfl, by simp⟩
  | other => exact .inl ⟨rfl, by simp⟩

theorem perm_of_find? {α : Type} {p : α → Bool} {l : List α} {a : α} (h : l.find? p = some a) :
    l.Perm (a :: l.eraseP p) := by
  induction l with
  | nil => cases h
  | cons b l ih =>
    cases hb : p b with
    | true =>
      rw [List.find?_cons_of_pos hb] at h
      obtain rfl := Option.some.inj h
      rw [List.eraseP_cons_of_pos hb]
    | false =>
      have hb' : ¬ p b = true := by simp [hb]
      rw [List.find?_cons_of_neg hb'] at h
      rw [List.eraseP_cons_of_neg hb']
      exact ((ih h).cons b).trans (.swap a b _)

theorem take_cases (s : Approvals) (now : Nat) (message : Value) :
    (s.take now message).1 = none ∧ (s.take now message).2.pending = s.pending ∧
      (s.take now message).2.accepted.Sublist s.accepted ∨
    ∃ w grant, (s.take now message).1 = some grant ∧ (s.take now message).2.pending = s.pending ∧
      (w, grant) ∈ s.accepted ∧ now - w < 60 * SECOND ∧ grant.matches message = true ∧
      ((w, grant) :: (s.take now message).2.accepted).Subperm s.accepted := by
  cases h : (s.accepted.filter fun x => now - x.1 < 60 * SECOND).find? fun x => x.2.matches message with
  | none =>
    exact .inl ⟨by simp [take, h], by simp [take, h], by simp [take, h]⟩
  | some x =>
    obtain ⟨w, grant⟩ := x
    have hmem := List.mem_filter.mp (List.mem_of_find?_eq_some h)
    have hmatch := List.find?_some h
    refine .inr ⟨w, grant, by simp [take, h], by simp [take, h], hmem.1, by simpa using hmem.2,
      hmatch, ?_⟩
    have hperm := perm_of_find? h
    simpa [take, h] using hperm.symm.subperm.trans List.filter_sublist.subperm

theorem ids_observe (s : Approvals) (notice : Notice) (environment channel : String)
    (contains : Except Fault Bool) (uuid : String) :
    (s.observe notice environment channel contains uuid).2.ids.Subperm (uuid :: s.ids) := by
  rcases s.observe_cases notice environment channel contains uuid with ⟨h, -⟩ | ⟨item, turn, -, h⟩ |
    ⟨approval, -, -, -, -, h⟩
  · rw [h]
    exact (List.sublist_cons_self _ _).subperm
  · rw [h]
    have hp : ((s.pending.retain fun grant => !ends item turn grant).values.map (·.id)).Sublist
        (s.pending.values.map (·.id)) := by
      rw [Table.values_retain]
      exact List.filter_sublist.map _
    have ha : ((s.accepted.filter fun x => !ends item turn x.2).map (·.2.id)).Sublist
        (s.accepted.map (·.2.id)) := List.filter_sublist.map _
    exact ((hp.append ha).trans (List.sublist_cons_self _ _)).subperm
  · rw [h]
    have hp := (Table.values_erase_sublist approval.requestId s.pending).map (·.id)
    exact ((hp.append_right (s.accepted.map (·.2.id))).cons_cons uuid).subperm

theorem ids_respond (s : Approvals) (now : Nat) (id : String) (accepted : Bool) :
    (s.respond now id accepted).ids.Subperm s.ids := by
  unfold respond
  cases h : s.pending.lookup id with
  | none => exact .refl _
  | some grant =>
    have hp : (s.pending.values.map (·.id)).Perm
        (grant.id :: (Table.values (s.pending.erase id)).map (·.id)) :=
      (Table.values_perm h).map (·.id)
    have hall := hp.append_right (s.accepted.map (·.2.id))
    cases accepted with
    | false => exact (List.sublist_cons_self _ _).subperm.trans hall.symm.subperm
    | true =>
      refine List.Perm.subperm ?_
      refine List.Perm.trans ?_ hall.symm
      simp only [ids, ↓reduceIte, List.map_append, List.map_cons, List.map_nil, ← List.append_assoc]
      exact List.perm_append_singleton _ _

theorem ids_take (s : Approvals) (now : Nat) (message : Value) :
    (((s.take now message).1.map (·.id)).toList ++ (s.take now message).2.ids).Subperm s.ids := by
  rcases s.take_cases now message with ⟨hn, hp, hs⟩ | ⟨w, grant, hg, hp, -, -, -, hs⟩
  · rw [hn, ids, hp]
    exact ((hs.map _).append_left _).subperm
  · rw [hg, ids, hp]
    obtain ⟨l, hl, hsub⟩ := hs
    have hids : (grant.id :: (s.take now message).2.accepted.map (·.2.id)).Subperm (s.accepted.map (·.2.id)) :=
      ⟨l.map (·.2.id), hl.map _, hsub.map _⟩
    have hall := (List.subperm_append_left (s.pending.values.map (·.id))).mpr hids
    have hperm : (grant.id :: (s.pending.values.map (·.id) ++ (s.take now message).2.accepted.map (·.2.id))).Perm _ :=
      List.perm_middle.symm
    exact hperm.subperm.trans hall

end Approvals

-- ---------------------------------------------------------------------------
-- What holds in every run
-- ---------------------------------------------------------------------------

section

variable {environment channel id : String} {grant : CommandApproval} {call : Call}
variable {h later : List Call} {s t : Session}

theorem elapsed_cons (call : Call) (h : List Call) : elapsed (call :: h) = elapsed h + elapsed [call] := by
  cases call <;> simp [elapsed]

theorem Requested.cons (hreq : Requested environment channel h id grant) (hrev : ¬ Revokes grant call)
    (hans : ∀ accepted, call ≠ .respond id accepted) : Requested environment channel (call :: h) id grant := by
  obtain ⟨later, earlier, approval, rfl, hid, henv, hgrant, hl⟩ := hreq
  refine ⟨call :: later, earlier, approval, rfl, hid, henv, hgrant, ?_⟩
  intro c hc
  rcases List.mem_cons.mp hc with rfl | hc
  · exact ⟨hrev, hans⟩
  · exact hl c hc

theorem Accepted.cons (hacc : Accepted environment channel h later grant) (hrev : ¬ Revokes grant call) :
    Accepted environment channel (call :: h) (call :: later) grant := by
  obtain ⟨before, id, s, rfl, hrun, hlookup, hreq, hl⟩ := hacc
  refine ⟨before, id, s, rfl, hrun, hlookup, hreq, ?_⟩
  intro c hc
  rcases List.mem_cons.mp hc with rfl | hc
  · exact hrev
  · exact hl c hc

/-- The grants that are pending, accepted or given away. -/
def Session.ids (s : Session) : List String := s.approvals.ids ++ s.given

structure Session.Sound (environment channel : String) (h : List Call) (s : Session) : Prop where
  reached : Session.Reaches environment channel h s
  pending : ∀ id grant, s.approvals.pending.lookup id = some grant → Requested environment channel h id grant
  accepted : ∀ w grant, (w, grant) ∈ s.approvals.accepted →
    ∃ later, Accepted environment channel h later grant ∧ s.now = w + elapsed later
  nodup : s.ids.Nodup
  drawn : ∀ id ∈ s.ids, id ∈ s.drawn
  size : s.approvals.size ≤ 64

theorem Session.next_now (hn : s.next environment channel call = some t) :
    t.now = s.now + elapsed [call] := by
  cases call with
  | observe notice contains uuid =>
    simp only [Session.next] at hn
    split at hn
    · cases hn
    · obtain rfl := Option.some.inj hn
      rfl
  | wait time =>
    obtain rfl := Option.some.inj hn
    simp [elapsed]
  | _ =>
    obtain rfl := Option.some.inj hn
    rfl

/-- A step moves the grants it keeps, and adds at most one, under a new id. -/
theorem Session.next_ids (hn : s.next environment channel call = some t) :
    (∀ id ∈ s.drawn, id ∈ t.drawn) ∧
      (t.ids.Subperm s.ids ∨ ∃ uuid, uuid ∉ s.drawn ∧ uuid ∈ t.drawn ∧ t.ids.Subperm (uuid :: s.ids)) := by
  cases call with
  | observe notice contains uuid =>
    simp only [Session.next] at hn
    split at hn
    · cases hn
    · next hfresh =>
      obtain rfl := Option.some.inj hn
      refine ⟨fun id hid => List.mem_cons_of_mem _ hid, .inr ⟨uuid, hfresh, List.mem_cons_self, ?_⟩⟩
      exact (List.subperm_append_right s.given).mpr
        (s.approvals.ids_observe notice environment channel contains uuid)
  | respond id accepted =>
    obtain rfl := Option.some.inj hn
    exact ⟨fun _ h => h, .inl ((List.subperm_append_right s.given).mpr (s.approvals.ids_respond s.now id accepted))⟩
  | take message =>
    obtain rfl := Option.some.inj hn
    refine ⟨fun _ h => h, .inl ?_⟩
    have hids := (List.subperm_append_right s.given).mpr (s.approvals.ids_take s.now message)
    refine (List.Perm.subperm ?_).trans hids
    simp only [Session.ids]
    rw [← List.append_assoc]
    exact List.perm_append_comm.append_right s.given
  | clear =>
    obtain rfl := Option.some.inj hn
    exact ⟨fun _ h => h, .inl (List.sublist_append_right _ _).subperm⟩
  | wait time =>
    obtain rfl := Option.some.inj hn
    exact ⟨fun _ h => h, .inl (.refl _)⟩

theorem Session.Sound.next_pending (hs : s.Sound environment channel h)
    (hn : s.next environment channel call = some t) (hl : t.approvals.pending.lookup id = some grant) :
    Requested environment channel (call :: h) id grant := by
  cases call with
  | observe notice contains uuid =>
    simp only [Session.next] at hn
    split at hn
    · cases hn
    · obtain rfl := Option.some.inj hn
      rcases s.approvals.observe_cases notice environment channel contains uuid with ⟨h₁, hother⟩ |
        ⟨item, turn, rfl, h₁⟩ | ⟨approval, rfl, henv, rfl, -, h₁⟩
      · rw [h₁] at hl
        refine (hs.pending _ _ hl).cons ?_ (by simp)
        cases notice with
        | completed item turn => exact absurd rfl (hother item turn)
        | _ => exact not_false
      · rw [h₁] at hl
        obtain ⟨hl, hkept⟩ := Table.mem_retain.mp hl
        refine (hs.pending _ _ hl).cons ?_ (by simp)
        simpa [Revokes] using hkept
      · rw [h₁, Table.lookup_insert_if] at hl
        split at hl
        · next hid =>
          obtain rfl := Option.some.inj hl
          exact ⟨[], h, approval, rfl, hid.symm, henv, rfl, by simp⟩
        · exact (hs.pending _ _ hl).cons not_false (by simp)
  | respond id' accepted =>
    obtain rfl := Option.some.inj hn
    simp only [Approvals.respond] at hl
    split at hl
    · next hnone =>
      refine (hs.pending _ _ hl).cons not_false ?_
      rintro _ ⟨⟩
      rw [hnone] at hl
      cases hl
    · rw [Table.lookup_erase_if] at hl
      split at hl
      · cases hl
      · next hne =>
        refine (hs.pending _ _ hl).cons not_false ?_
        rintro _ ⟨⟩
        exact hne rfl
  | take message =>
    obtain rfl := Option.some.inj hn
    have hp : (s.approvals.take s.now message).2.pending = s.approvals.pending := by
      rcases s.approvals.take_cases s.now message with ⟨-, hp, -⟩ | ⟨_, _, -, hp, -⟩ <;> exact hp
    exact (hs.pending _ _ (hp ▸ hl)).cons not_false (by simp)
  | clear =>
    obtain rfl := Option.some.inj hn
    cases hl
  | wait time =>
    obtain rfl := Option.some.inj hn
    exact (hs.pending _ _ hl).cons not_false (by simp)

theorem Session.Sound.next_accepted {w : Nat} (hs : s.Sound environment channel h)
    (hn : s.next environment channel call = some t) (hw : (w, grant) ∈ t.approvals.accepted) :
    ∃ later, Accepted environment channel (call :: h) later grant ∧ t.now = w + elapsed later := by
  -- a grant accepted before stays accepted as long as the call does not withdraw it
  have hold : (w, grant) ∈ s.approvals.accepted → ¬ Revokes grant call →
      ∃ later, Accepted environment channel (call :: h) later grant ∧ t.now = w + elapsed later := by
    intro hmem hrev
    obtain ⟨later, hacc, hnow⟩ := hs.accepted w grant hmem
    refine ⟨call :: later, hacc.cons hrev, ?_⟩
    rw [Session.next_now hn, hnow, elapsed_cons call later, Nat.add_assoc]
  cases call with
  | observe notice contains uuid =>
    simp only [Session.next] at hn
    split at hn
    · cases hn
    · obtain rfl := Option.some.inj hn
      rcases s.approvals.observe_cases notice environment channel contains uuid with ⟨h₁, hother⟩ |
        ⟨item, turn, rfl, h₁⟩ | ⟨approval, rfl, -, -, -, h₁⟩
      · rw [h₁] at hw
        refine hold hw ?_
        cases notice with
        | completed item turn => exact absurd rfl (hother item turn)
        | _ => exact not_false
      · rw [h₁] at hw
        obtain ⟨hmem, hkept⟩ := List.mem_filter.mp hw
        exact hold hmem (by simpa [Revokes] using hkept)
      · rw [h₁] at hw
        exact hold hw not_false
  | respond id' accepted =>
    obtain rfl := Option.some.inj hn
    simp only [Approvals.respond] at hw
    split at hw
    · exact hold hw not_false
    · next grant' hl =>
      cases accepted with
      | false => exact hold hw not_false
      | true =>
        rcases List.mem_append.mp hw with hmem | hmem
        · exact hold hmem not_false
        · obtain ⟨rfl, rfl⟩ := Prod.mk.inj (List.mem_singleton.mp hmem)
          exact ⟨[], ⟨h, id', s, rfl, hs.reached, hl, hs.pending _ _ hl, by simp⟩, rfl⟩
  | take message =>
    obtain rfl := Option.some.inj hn
    refine hold ?_ not_false
    rcases s.approvals.take_cases s.now message with ⟨-, -, hsub⟩ | ⟨w', grant', -, -, -, -, -, hsub⟩
    · exact hsub.subset hw
    · exact hsub.subset (List.mem_cons_of_mem _ hw)
  | clear =>
    obtain rfl := Option.some.inj hn
    cases hw
  | wait time =>
    obtain rfl := Option.some.inj hn
    exact hold hw not_false

theorem Approvals.size_eq (a : Approvals) : a.size = a.ids.length := by
  simp [Approvals.size, Approvals.ids, Table.length_values]

theorem Session.Sound.next_size (hs : s.Sound environment channel h)
    (hn : s.next environment channel call = some t) : t.approvals.size ≤ 64 := by
  have hsize := hs.size
  rw [Approvals.size_eq] at hsize
  cases call with
  | observe notice contains uuid =>
    simp only [Session.next] at hn
    split at hn
    · cases hn
    · obtain rfl := Option.some.inj hn
      rcases s.approvals.observe_cases notice environment channel contains uuid with ⟨h₁, -⟩ |
        ⟨item, turn, -, h₁⟩ | ⟨approval, -, -, -, hroom, -⟩
      · rw [h₁]
        exact hs.size
      · rw [h₁, Approvals.size_eq]
        have hp := (List.filter_sublist (l := s.approvals.pending.values)
          (p := fun grant => !Approvals.ends item turn grant)).length_le
        have ha := (List.filter_sublist (l := s.approvals.accepted)
          (p := fun x => !Approvals.ends item turn x.2)).length_le
        simp only [Approvals.ids, List.length_append, List.length_map, Table.values_retain] at hsize ⊢
        omega
      · have hids := (s.approvals.ids_observe notice environment channel contains uuid).length_le
        rw [List.length_cons] at hids
        rw [Approvals.size_eq] at hroom ⊢
        exact le_trans hids hroom
  | respond id accepted =>
    obtain rfl := Option.some.inj hn
    rw [Approvals.size_eq]
    exact le_trans (s.approvals.ids_respond s.now id accepted).length_le hsize
  | take message =>
    obtain rfl := Option.some.inj hn
    rw [Approvals.size_eq]
    have hids := (s.approvals.ids_take s.now message).length_le
    rw [List.length_append] at hids
    exact le_trans (Nat.le_of_add_left_le hids) hsize
  | clear =>
    obtain rfl := Option.some.inj hn
    exact Nat.zero_le _
  | wait time =>
    obtain rfl := Option.some.inj hn
    exact hs.size

theorem Session.Sound.step (hs : s.Sound environment channel h)
    (hn : s.next environment channel call = some t) : t.Sound environment channel (call :: h) where
  reached := .step hs.reached trivial hn
  pending _ _ := hs.next_pending hn
  accepted _ _ := hs.next_accepted hn
  nodup := by
    rcases (Session.next_ids hn).2 with hsub | ⟨uuid, hfresh, -, hsub⟩
    · obtain ⟨l, hl, hsub⟩ := hsub
      exact hl.nodup_iff.mp (hs.nodup.sublist hsub)
    · obtain ⟨l, hl, hsub⟩ := hsub
      refine hl.nodup_iff.mp (List.Nodup.sublist hsub (List.nodup_cons.mpr ⟨?_, hs.nodup⟩))
      exact fun hmem => hfresh (hs.drawn _ hmem)
  drawn := by
    obtain ⟨hkeep, hsub | ⟨uuid, -, hdrawn, hsub⟩⟩ := Session.next_ids hn
    · exact fun id hid => hkeep _ (hs.drawn _ (hsub.subset hid))
    · intro id hid
      rcases List.mem_cons.mp (hsub.subset hid) with rfl | hid
      · exact hdrawn
      · exact hkeep _ (hs.drawn _ hid)
  size := hs.next_size hn

theorem Session.sound (hrun : Session.Reaches environment channel h s) : s.Sound environment channel h := by
  induction hrun with
  | start =>
    refine ⟨.start, ?_, by simp, by simp [Session.ids, Approvals.ids], by simp [Session.ids, Approvals.ids],
      by decide⟩
    intro id grant hl
    cases hl
  | step _ _ hn ih => exact ih.step hn

/-- A grant that is gone does not come back: its id was drawn. -/
theorem Session.gone (hrun : Run (Session.next environment channel) Free s later t)
    (hdrawn : id ∈ s.drawn) (hgone : id ∉ s.ids) : id ∉ t.ids := by
  refine (hrun.invariant (I := fun u => id ∈ u.drawn ∧ id ∉ u.ids) ⟨hdrawn, hgone⟩ ?_).2
  rintro u call v ⟨hdrawn, hgone⟩ - hn
  obtain ⟨hkeep, hsub | ⟨uuid, hfresh, -, hsub⟩⟩ := Session.next_ids hn
  · exact ⟨hkeep _ hdrawn, fun hid => hgone (hsub.subset hid)⟩
  · refine ⟨hkeep _ hdrawn, fun hid => ?_⟩
    rcases List.mem_cons.mp (hsub.subset hid) with rfl | hid
    · exact hfresh hdrawn
    · exact hgone hid

theorem Session.Sound.declined (hs : s.Sound environment channel h)
    (hl : s.approvals.pending.lookup id = some grant)
    (hn : s.next environment channel (.respond id false) = some t) : grant.id ∈ t.drawn ∧ grant.id ∉ t.ids := by
  obtain rfl := Option.some.inj hn
  have hperm : s.ids.Perm (grant.id :: Session.ids { s with approvals := s.approvals.respond s.now id false }) := by
    simp only [Session.ids, Approvals.ids, Approvals.respond, hl, Bool.false_eq_true, ↓reduceIte]
    exact (((Table.values_perm hl).map (·.id)).append_right _).append_right _
  refine ⟨hs.drawn _ (hperm.symm.subset List.mem_cons_self), ?_⟩
  exact (List.nodup_cons.mp (hperm.nodup_iff.mp hs.nodup)).1

theorem mem_ids_of_take {message : Value} (ht : (s.approvals.take s.now message).1 = some grant) :
    grant.id ∈ s.approvals.ids := by
  have hids := (s.approvals.ids_take s.now message).subset
  rw [ht] at hids
  exact hids List.mem_cons_self

/-- Whatever the order of the calls, `take` returns a grant only for a pending
request that the user accepted less than a minute ago and that was not
withdrawn since, for the very command that was approved, and each one once; a
declined request never comes back, and at most 64 wait at any time. -/
theorem take_authorised (hrun : Session.Reaches environment channel h s) :
    (∀ message grant, (s.approvals.take s.now message).1 = some grant →
      (∃ later, Accepted environment channel h later grant ∧ elapsed later < 60 * SECOND) ∧
        grant.Starts message ∧ grant.id ∉ s.given) ∧
    s.given.Nodup ∧
    (∀ later before id s' message grant, h = later ++ .respond id false :: before →
      Session.Reaches environment channel before s' → s'.approvals.pending.lookup id = some grant →
      (s.approvals.take s.now message).1 ≠ some grant) ∧
    s.approvals.size ≤ 64 := by
  have hs := Session.sound hrun
  obtain ⟨-, hgiven, hdisjoint⟩ := List.nodup_append.mp hs.nodup
  refine ⟨?_, hgiven, ?_, hs.size⟩
  · intro message grant ht
    have hfresh : grant.id ∉ s.given := fun hmem => hdisjoint _ (mem_ids_of_take ht) _ hmem rfl
    rcases s.approvals.take_cases s.now message with ⟨hnone, -⟩ |
      ⟨w, grant', hsome, -, hmem, htime, hmatch, -⟩
    · rw [ht] at hnone
      cases hnone
    · obtain rfl : grant' = grant := Option.some.inj (hsome.symm.trans ht)
      obtain ⟨later, hacc, hnow⟩ := hs.accepted w _ hmem
      refine ⟨⟨later, hacc, ?_⟩, (CommandApproval.matches_iff _ _).mp hmatch, hfresh⟩
      omega
  · rintro later before id s' message grant rfl hbefore hl ht
    obtain ⟨u, v, hu, -, hn, hv⟩ := hrun.at_event
    obtain rfl := hu.unique hbefore
    obtain ⟨hdrawn, hgone⟩ := (Session.sound hbefore).declined hl hn
    exact Session.gone hv hdrawn hgone (List.mem_append_left _ (mem_ids_of_take ht))

end

/-- One request, accepted, and the command it was for. -/
def someRequest : Approval where
  requestId := "1"
  thread := "thread"
  environment := "remote"
  turn := "turn"
  item := "item"
  argv := ["/bin/sh", "-c", "printf 123 > 1.txt"]
  cwd := "file:///workspace"

def someCommand : Value :=
  .object [("method", .string "process/start"),
    ("params", .object [("argv", .array [.string "/bin/sh", .string "-c", .string "printf 123 > 1.txt"]),
      ("cwd", .string "file:///workspace"),
      ("env", .object [("CODEX_THREAD_ID", .string "thread")]), ("sandbox", .null)])]

def someSession : Session where
  approvals := { accepted := [(5, Approvals.grant someRequest "channel" "a")] }
  now := 30
  drawn := ["a"]

theorem someSession_reached : Session.Reaches "remote" "channel"
    [.wait 25, .respond "1" true, .wait 5, .observe (.approval someRequest) (.ok true) "a"] someSession :=
  run_of_play rfl

theorem take_authorised_one :
    (someSession.approvals.take someSession.now someCommand).1 = some (Approvals.grant someRequest "channel" "a") ∧
      (Approvals.grant someRequest "channel" "a").Starts someCommand ∧ someSession.approvals.size ≤ 64 := by
  have hsound := take_authorised someSession_reached
  have htaken : (someSession.approvals.take someSession.now someCommand).1 =
      some (Approvals.grant someRequest "channel" "a") := by decide
  exact ⟨htaken, (hsound.1 _ _ htaken).2.1, hsound.2.2.2⟩

end RemoteCodex.Local
