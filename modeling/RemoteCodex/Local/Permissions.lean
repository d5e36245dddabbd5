import RemoteCodex.Interact.Runs
import RemoteCodex.Interact.Table
import RemoteCodex.Protocol.Approval

/-!
# Session Full Access on the client

`Permissions` follows the native settings of the bound thread. A change is
begun by the frontend, acknowledged by the native process and observed in its
notifications, in either order and from different tasks; one change is open at
a time.
-/

namespace RemoteCodex.Local

open Interact Protocol

structure Change where
  id : String
  full : Bool
  observed : Bool
  acknowledged : Bool
  deriving DecidableEq, Repr

structure Permissions where
  channel : String := ""
  thread : String := ""
  grant : Option SessionPermissions := none
  pending : Option Change := none
  children : Table String SessionPermissions := ∅
  deriving DecidableEq

namespace Permissions

/-- The grant of the bound thread; `uuid` names it. -/
def newGrant (s : Permissions) (uuid : String) : SessionPermissions where
  id := uuid
  channel := s.channel
  thread := s.thread

def restore (channel thread : String) (fullAccess : Bool) (uuid : String) : Permissions :=
  let s : Permissions := { channel, thread }
  { s with grant := if fullAccess then some (s.newGrant uuid) else none }

def commit (s : Permissions) (uuid : String) : Permissions :=
  match s.pending with
  | some change =>
    if change.acknowledged && change.observed then
      { s with grant := if change.full then some (s.newGrant uuid) else none, pending := none }
    else s
  | none => s

def begin (s : Permissions) (full : Option Bool) (supported : Bool) (uuid : String) :
    Except Fault (Option String) × Permissions :=
  match full with
  | none => (.ok none, s)
  | some full =>
    if full && !supported then
      (.error (Transfer.fault "SERVICE_UPDATE_REQUIRED"
        "remote service must be updated to support session Full Access"), s)
    else if s.pending.isSome then
      (.error (Transfer.fault "SETTINGS_BUSY" "previous permission change is still being applied"), s)
    else
      (.ok (some uuid), { s with
        grant := if full then s.grant else none
        pending := some { id := uuid, full, observed := s.grant.isSome = full, acknowledged := false } })

def acknowledge (s : Permissions) (id : String) (success : Bool) (uuid : String) : Permissions :=
  { s with pending := s.pending.bind fun change =>
      if change.id ≠ id then some change
      else if success then some { change with acknowledged := true } else none }.commit uuid

def observe (s : Permissions) (thread : String) (full : Bool) (uuid : String) : Permissions :=
  if thread ≠ s.thread then s
  else
    { s with
      grant := if full then s.grant else none
      pending := s.pending.map fun (change : Change) =>
        if change.full = full then { change with observed := true } else change }.commit uuid

/-- `confirmed`, when it has waited too long. -/
def timeout (s : Permissions) (id : String) : Permissions :=
  { s with pending := s.pending.filter fun change => change.id ≠ id }

/-- `contains`, when the native process has told the ancestry of a thread:
`path` lists the new threads with their grants. -/
def adopt (s : Permissions) (channel root : String) (path : List (String × SessionPermissions)) : Permissions :=
  if s.channel ≠ channel || s.thread ≠ root then s
  else { s with children := path.foldl (fun t x => if x.1 ∈ t then t else t.insert x.1 x.2) s.children }

/-- What a message is sent with, once its thread is known to belong to the session. -/
def authorization (s : Permissions) (message : Value) : Option SessionPermissions :=
  let thread := if (message.index "method").asStr = some "process/start" then threadOf message else none
  s.grant.bind fun grant =>
    let grant := (s.children.lookup (thread.getD "")).getD grant
    if grant.matches s.channel message then some grant else none

end Permissions

-- ---------------------------------------------------------------------------
-- Runs
-- ---------------------------------------------------------------------------

/-- Every call brings the id it would draw for a new change or a new grant. -/
inductive PermissionCall
  | restore (channel thread : String) (fullAccess : Bool) (uuid : String)
  | begin (full : Option Bool) (supported : Bool) (uuid : String)
  | acknowledge (id : String) (success : Bool) (uuid : String)
  | observe (thread : String) (full : Bool) (uuid : String)
  | timeout (id : String)
  | adopt (channel root : String) (path : List (String × SessionPermissions))
  | clear

namespace Permissions

def next (s : Permissions) : PermissionCall → Option Permissions
  | .restore channel thread fullAccess uuid => some (restore channel thread fullAccess uuid)
  | .begin full supported uuid => some (s.begin full supported uuid).2
  | .acknowledge id success uuid => some (s.acknowledge id success uuid)
  | .observe thread full uuid => some (s.observe thread full uuid)
  | .timeout id => some (s.timeout id)
  | .adopt channel root path => some (s.adopt channel root path)
  | .clear => some {}

abbrev Reaches (C : Permissions → PermissionCall → Prop) (h : List PermissionCall) (s : Permissions) : Prop :=
  Run next C {} h s

/-- The frontend or the native process reduces the bound thread. -/
def Reduces (s : Permissions) : PermissionCall → Prop
  | .begin (some false) _ _ => True
  | .observe thread false _ => thread = s.thread
  | _ => False

/-- No reduction arrives while an expansion is open that it would have to undo. -/
def Orderly (s : Permissions) : PermissionCall → Prop
  | .begin (some false) _ _ => ∀ change, s.pending = some change → change.full = false
  | .observe thread false _ => thread = s.thread →
      ∀ change, s.pending = some change → change.full = true → change.observed = false
  | _ => True

-- ---------------------------------------------------------------------------
-- What a grant rests on
-- ---------------------------------------------------------------------------

/-- A call that binds another thread, or none. -/
def Rebinds : PermissionCall → Prop
  | .restore .. => True
  | .clear => True
  | _ => False

/-- A call that reduces `thread`. -/
def Takes (thread : String) : PermissionCall → Prop
  | .begin (some false) _ _ => True
  | .observe t false _ => t = thread
  | _ => False

def AsksLess : PermissionCall → Prop
  | .begin (some false) _ _ => True
  | _ => False

/-- A call with which the change `id` fails. -/
def Fails (id : String) : PermissionCall → Prop
  | .acknowledge i false _ => i = id
  | .timeout i => i = id
  | _ => False

/-- The last binding granted Full Access, and nothing reduced it since. -/
def Restored (thread : String) (h : List PermissionCall) : Prop :=
  ∃ later earlier channel uuid, h = later ++ .restore channel thread true uuid :: earlier ∧
    ∀ call ∈ later, ¬ Rebinds call ∧ ¬ Takes thread call

/-- The native process has been observed with Full Access during `calls`, and
not without it since. -/
def Seen (thread : String) (calls : List PermissionCall) : Prop :=
  ∃ after before uuid, calls = after ++ .observe thread true uuid :: before ∧
    ∀ call ∈ after, ∀ uuid, call ≠ .observe thread false uuid

/-- An expansion begun since the last binding was acknowledged and observed
before it failed, was not reduced by the frontend and not observed reduced
after it was seen. -/
def Expanded (thread : String) (h : List PermissionCall) : Prop :=
  ∃ later confirmed earlier supported id s, h = later ++ confirmed ++ .begin (some true) supported id :: earlier ∧
    Reaches Free earlier s ∧ s.pending = none ∧
    (∃ uuid, .acknowledge id true uuid ∈ confirmed) ∧ (∃ uuid, .observe thread true uuid ∈ confirmed) ∧
    (∀ call ∈ confirmed, ¬ Fails id call) ∧ Seen thread (later ++ confirmed) ∧
    ∀ call ∈ later ++ confirmed, ¬ Rebinds call ∧ ¬ AsksLess call

/-- The latest observation of `thread` since it was bound. -/
def latest (thread : String) : List PermissionCall → Option Bool
  | [] => none
  | .observe t full _ :: h => if t = thread then some full else latest thread h
  | .restore .. :: _ => none
  | .clear :: _ => none
  | _ :: h => latest thread h

/-- Full Access rests on the last binding or on an expansion, and the latest
observation does not contradict it. -/
def Backed (thread : String) (h : List PermissionCall) : Prop :=
  (Restored thread h ∨ Expanded thread h) ∧ latest thread h ≠ some false

-- ---------------------------------------------------------------------------
-- What every step keeps
-- ---------------------------------------------------------------------------

/-- The expansion `change` was begun since the last binding and is open; what
its flags stand for has happened. -/
def Open (thread : String) (h : List PermissionCall) (change : Change) : Prop :=
  ∃ since earlier supported s, h = since ++ .begin (some true) supported change.id :: earlier ∧
    Reaches Free earlier s ∧ s.pending = none ∧
    (∀ call ∈ since, ¬ Rebinds call ∧ ¬ AsksLess call ∧ ¬ Fails change.id call) ∧
    (change.acknowledged = true → ∃ uuid, .acknowledge change.id true uuid ∈ since) ∧
    (change.observed = true → ((∃ uuid, .observe thread true uuid ∈ since) ∧ Seen thread since ∧
      latest thread h ≠ some false) ∨ Backed thread h)

structure Sound (h : List PermissionCall) (s : Permissions) : Prop where
  reduced : ∀ change, s.pending = some change → change.full = false → s.grant = none
  backed : s.grant.isSome → Backed s.thread h
  expanding : ∀ change, s.pending = some change → change.full = true → Open s.thread h change

variable {h : List PermissionCall} {s : Permissions} {call : PermissionCall} {thread : String} {change : Change}

theorem takes_of_asksLess (h : AsksLess call) : Takes thread call := by
  unfold AsksLess at h
  split at h
  · trivial
  · cases h

theorem latest_cons (hr : ¬ Rebinds call) (ht : ∀ uuid, call ≠ .observe thread false uuid)
    (hl : latest thread h ≠ some false) : latest thread (call :: h) ≠ some false := by
  cases call with
  | restore channel t fullAccess uuid => exact absurd trivial hr
  | clear => exact absurd trivial hr
  | observe t full uuid =>
    simp only [latest]
    split
    · next heq =>
      subst heq
      cases full with
      | true => simp
      | false => exact absurd rfl (ht uuid)
    · exact hl
  | _ => exact hl

theorem not_observed_of_not_takes (ht : ¬ Takes thread call) (uuid : String) :
    call ≠ .observe thread false uuid := by
  rintro rfl
  exact ht rfl

theorem Seen.cons (hs : Seen thread h) (ht : ∀ uuid, call ≠ .observe thread false uuid) : Seen thread (call :: h) := by
  obtain ⟨after, before, uuid, rfl, hafter⟩ := hs
  refine ⟨call :: after, before, uuid, rfl, ?_⟩
  intro c hc
  rcases List.mem_cons.mp hc with rfl | hc
  · exact ht
  · exact hafter c hc

theorem Backed.cons (hb : Backed thread h) (hr : ¬ Rebinds call) (ht : ¬ Takes thread call) :
    Backed thread (call :: h) := by
  refine ⟨?_, latest_cons hr (not_observed_of_not_takes ht) hb.2⟩
  rcases hb.1 with ⟨later, earlier, channel, uuid, rfl, hl⟩ |
    ⟨later, confirmed, earlier, supported, id, s, rfl, hrun, hnone, hack, hobs, hfail, hseen, hl⟩
  · refine .inl ⟨call :: later, earlier, channel, uuid, rfl, ?_⟩
    intro c hc
    rcases List.mem_cons.mp hc with rfl | hc
    · exact ⟨hr, ht⟩
    · exact hl c hc
  · refine .inr ⟨call :: later, confirmed, earlier, supported, id, s, rfl, hrun, hnone, hack, hobs, hfail,
      hseen.cons (not_observed_of_not_takes ht), ?_⟩
    intro c hc
    rcases List.mem_cons.mp hc with rfl | hc
    · exact ⟨hr, fun h => ht (takes_of_asksLess h)⟩
    · exact hl c hc

/-- An open expansion stays open through a call that neither ends nor opposes
it; `change'` has the flags it leaves. -/
theorem Open.cons {change' : Change} (ho : Open thread h change) (hid : change'.id = change.id)
    (hr : ¬ Rebinds call) (ha : ¬ AsksLess call) (hf : ¬ Fails change.id call)
    (hack : change'.acknowledged = true →
      change.acknowledged = true ∨ ∃ uuid, call = .acknowledge change.id true uuid)
    (hobs : change'.observed = true →
      change.observed = true ∧ ¬ Takes thread call ∨ ∃ uuid, call = .observe thread true uuid) :
    Open thread (call :: h) change' := by
  obtain ⟨since, earlier, supported, s, rfl, hrun, hnone, hl, hacked, hseen⟩ := ho
  refine ⟨call :: since, earlier, supported, s, by rw [hid]; rfl, hrun, hnone, ?_, ?_, ?_⟩
  · intro c hc
    rw [hid]
    rcases List.mem_cons.mp hc with rfl | hc
    · exact ⟨hr, ha, hf⟩
    · exact hl c hc
  · intro h'
    rw [hid]
    rcases hack h' with h' | ⟨uuid, rfl⟩
    · obtain ⟨uuid, hmem⟩ := hacked h'
      exact ⟨uuid, List.mem_cons_of_mem _ hmem⟩
    · exact ⟨uuid, List.mem_cons_self⟩
  · intro h'
    rcases hobs h' with ⟨h', ht⟩ | ⟨uuid, rfl⟩
    · rcases hseen h' with ⟨⟨uuid, hmem⟩, hs, hlat⟩ | hb
      · have hne := not_observed_of_not_takes ht
        exact .inl ⟨⟨uuid, List.mem_cons_of_mem _ hmem⟩, hs.cons hne, latest_cons hr hne hlat⟩
      · exact .inr (hb.cons hr ht)
    · refine .inl ⟨⟨uuid, List.mem_cons_self⟩, ⟨[], since, uuid, rfl, by simp⟩, ?_⟩
      simp [latest]

/-- A change that is acknowledged and observed has what a grant rests on. -/
theorem Open.backed (ho : Open thread h change) (ha : change.acknowledged = true) (hobs : change.observed = true) :
    Backed thread h := by
  obtain ⟨since, earlier, supported, s, rfl, hrun, hnone, hl, hacked, hseen⟩ := ho
  rcases hseen hobs with ⟨hmem, hs, hlat⟩ | hb
  · exact ⟨.inr ⟨[], since, earlier, supported, change.id, s, rfl, hrun, hnone, hacked ha, hmem,
      fun c hc => (hl c hc).2.2, hs, fun c hc => ⟨(hl c hc).1, (hl c hc).2.1⟩⟩, hlat⟩
  · exact hb

theorem Sound.commit (hs : Sound h s) (uuid : String) : Sound h (s.commit uuid) := by
  unfold Permissions.commit
  split
  · next change hpending =>
    split
    · next hdone =>
      obtain ⟨hack, hobs⟩ := Bool.and_eq_true_iff.mp hdone
      refine ⟨by simp, ?_, by simp⟩
      intro hgrant
      cases hfull : change.full with
      | true => exact (hs.expanding change hpending hfull).backed hack hobs
      | false => simp [hfull] at hgrant
    · exact hs
  · exact hs

/-- A call that changes nothing and opposes nothing. -/
theorem Sound.cons (hs : Sound h s) (hr : ¬ Rebinds call) (ht : ¬ Takes s.thread call)
    (hf : ∀ change, s.pending = some change → ¬ Fails change.id call) : Sound (call :: h) s where
  reduced := hs.reduced
  backed hg := (hs.backed hg).cons hr ht
  expanding change hp hfull := (hs.expanding change hp hfull).cons rfl hr
    (fun ha => ht (takes_of_asksLess ha)) (hf change hp) .inl fun hobs => .inl ⟨hobs, ht⟩

theorem Sound.restore (channel thread : String) (fullAccess : Bool) (uuid : String) :
    Sound (.restore channel thread fullAccess uuid :: h) (restore channel thread fullAccess uuid) := by
  refine ⟨?_, ?_, ?_⟩
  · intro change hp
    cases hp
  · intro hg
    cases fullAccess with
    | true => exact ⟨.inl ⟨[], h, channel, uuid, rfl, by simp⟩, by simp [latest]⟩
    | false => cases hg
  · intro change hp
    cases hp

theorem Sound.begin (hs : Sound h s) (hrun : Reaches Free h s) (full : Option Bool) (supported : Bool)
    (uuid : String) (horderly : Orderly s (.begin full supported uuid)) :
    Sound (.begin full supported uuid :: h) (s.begin full supported uuid).2 := by
  cases full with
  | none => exact hs.cons not_false not_false fun _ _ => not_false
  | some full =>
    unfold Permissions.begin
    cases hp : s.pending with
    | some change =>
      -- the change is refused: a reduction finds a reduction open, so nothing is granted
      cases full with
      | true =>
        have : Sound (.begin (some true) supported uuid :: h) s := hs.cons not_false not_false fun _ _ => not_false
        cases supported <;> simpa [hp] using this
      | false =>
        have hless := horderly change hp
        have hnone := hs.reduced change hp hless
        have : Sound (.begin (some false) supported uuid :: h) s := by
          refine ⟨hs.reduced, by simp [hnone], ?_⟩
          intro change' hp' hfull
          obtain rfl := Option.some.inj (hp.symm.trans hp')
          rw [hless] at hfull
          cases hfull
        simpa [hp] using this
    | none =>
      cases full with
      | false =>
        refine ⟨by simp, by simp, ?_⟩
        intro change hp' hfull
        obtain rfl := Option.some.inj hp'
        cases hfull
      | true =>
        cases supported with
        | false =>
          have : Sound (.begin (some true) false uuid :: h) s := hs.cons not_false not_false fun _ _ => not_false
          simpa [hp] using this
        | true =>
          have hback : s.grant.isSome → Backed s.thread (.begin (some true) true uuid :: h) :=
            fun hg => (hs.backed hg).cons not_false not_false
          refine ⟨?_, by simpa using hback, ?_⟩
          · intro change hp' hfull
            obtain rfl := Option.some.inj hp'
            cases hfull
          · intro change hp' _
            obtain rfl := Option.some.inj hp'
            refine ⟨[], h, true, s, rfl, hrun, hp, by simp, by simp, ?_⟩
            intro hobs
            exact .inr (hback (by simpa using hobs))

theorem Sound.acknowledge (hs : Sound h s) (id : String) (success : Bool) (uuid : String) :
    Sound (.acknowledge id success uuid :: h) (s.acknowledge id success uuid) := by
  apply Sound.commit
  have hback : s.grant.isSome → Backed s.thread (.acknowledge id success uuid :: h) :=
    fun hg => (hs.backed hg).cons not_false not_false
  -- what the call leaves of an open change
  have hleft : ∀ change', (s.pending.bind fun change => if change.id ≠ id then some change
      else if success then some { change with acknowledged := true } else none) = some change' →
      ∃ change, s.pending = some change ∧ (change' = change ∧ change.id ≠ id ∨
        change' = { change with acknowledged := true } ∧ change.id = id ∧ success = true) := by
    intro change' hp
    obtain ⟨change, hp, hif⟩ := Option.bind_eq_some_iff.mp hp
    refine ⟨change, hp, ?_⟩
    split at hif
    · next hid => exact .inl ⟨(Option.some.inj hif).symm, hid⟩
    · next hid =>
      split at hif
      · next hsuccess => exact .inr ⟨(Option.some.inj hif).symm, not_not.mp hid, hsuccess⟩
      · cases hif
  refine ⟨?_, hback, ?_⟩
  · intro change' hp' hless
    obtain ⟨change, hp, ⟨rfl, -⟩ | ⟨rfl, -⟩⟩ := hleft change' hp'
    · exact hs.reduced _ hp hless
    · exact hs.reduced _ hp hless
  · intro change' hp' hfull
    obtain ⟨change, hp, ⟨rfl, hid⟩ | ⟨rfl, hid, rfl⟩⟩ := hleft change' hp'
    · refine (hs.expanding _ hp hfull).cons rfl not_false not_false ?_ .inl fun hobs => .inl ⟨hobs, not_false⟩
      cases success with
      | true => exact not_false
      | false => exact Ne.symm hid
    · refine (hs.expanding change hp hfull).cons rfl not_false not_false not_false ?_ ?_
      · exact fun _ => .inr ⟨uuid, by rw [hid]⟩
      · exact fun hobs => .inl ⟨hobs, not_false⟩

theorem Sound.observe (hs : Sound h s) (thread : String) (full : Bool) (uuid : String)
    (horderly : Orderly s (.observe thread full uuid)) :
    Sound (.observe thread full uuid :: h) (s.observe thread full uuid) := by
  unfold Permissions.observe
  split
  · next hne =>
    refine hs.cons not_false ?_ fun _ _ => not_false
    cases full with
    | true => exact not_false
    | false => exact hne
  · next heq =>
    obtain rfl := not_not.mp heq
    apply Sound.commit
    refine ⟨?_, ?_, ?_⟩
    · intro change' hp' hless
      obtain ⟨change, hp, rfl⟩ := Option.map_eq_some_iff.mp hp'
      have hless : change.full = false := by split at hless <;> exact hless
      simp [hs.reduced change hp hless]
    · intro hg
      cases full with
      | true => exact (hs.backed hg).cons not_false not_false
      | false => cases hg
    · intro change' hp' hmore
      obtain ⟨change, hp, rfl⟩ := Option.map_eq_some_iff.mp hp'
      have hwas : change.full = true := by split at hmore <;> exact hmore
      have hopen := hs.expanding change hp hwas
      cases full with
      | true =>
        rw [if_pos hwas]
        exact hopen.cons rfl not_false not_false not_false .inl fun _ => .inr ⟨uuid, rfl⟩
      | false =>
        -- the open expansion has not been observed, so this takes nothing from it
        have hobs := horderly rfl change hp hwas
        have hne : ¬ change.full = false := by simp [hwas]
        rw [if_neg hne]
        refine hopen.cons rfl not_false not_false not_false .inl fun h' => ?_
        rw [hobs] at h'
        cases h'

theorem Sound.timeout (hs : Sound h s) (id : String) : Sound (.timeout id :: h) (s.timeout id) := by
  refine ⟨?_, fun hg => (hs.backed hg).cons not_false not_false, ?_⟩
  · intro change hp hless
    exact hs.reduced change (Option.filter_eq_some_iff.mp hp).1 hless
  · intro change hp' hfull
    obtain ⟨hp, hid⟩ := Option.filter_eq_some_iff.mp hp'
    refine (hs.expanding change hp hfull).cons rfl not_false not_false ?_ .inl fun hobs => .inl ⟨hobs, not_false⟩
    exact fun heq => of_decide_eq_true hid heq.symm

theorem Sound.adopt (hs : Sound h s) (channel root : String) (path : List (String × SessionPermissions)) :
    Sound (.adopt channel root path :: h) (s.adopt channel root path) := by
  have : Sound (.adopt channel root path :: h) s := hs.cons not_false not_false fun _ _ => not_false
  unfold Permissions.adopt
  split
  · exact this
  · exact ⟨this.reduced, this.backed, this.expanding⟩

theorem sound_of_reaches (hrun : Reaches Orderly h s) : Sound h s := by
  induction hrun with
  | start => exact ⟨by simp, by simp, by simp⟩
  | @step h s call t hprev horderly hn ih =>
    cases call with
    | restore channel thread fullAccess uuid =>
      obtain rfl := Option.some.inj hn
      exact Sound.restore channel thread fullAccess uuid
    | begin full supported uuid =>
      obtain rfl := Option.some.inj hn
      exact ih.begin hprev.free full supported uuid horderly
    | acknowledge id success uuid =>
      obtain rfl := Option.some.inj hn
      exact ih.acknowledge id success uuid
    | observe thread full uuid =>
      obtain rfl := Option.some.inj hn
      exact ih.observe thread full uuid horderly
    | timeout id =>
      obtain rfl := Option.some.inj hn
      exact ih.timeout id
    | adopt channel root path =>
      obtain rfl := Option.some.inj hn
      exact ih.adopt channel root path
    | clear =>
      obtain rfl := Option.some.inj hn
      exact ⟨by simp, by simp, by simp⟩

theorem grant_commit (hg : s.grant = none) (hp : ∀ change, s.pending = some change →
    change.full = true → change.observed = false) (uuid : String) : (s.commit uuid).grant = none := by
  unfold Permissions.commit
  split
  · next change hpending =>
    split
    · next hdone =>
      cases hfull : change.full with
      | true => simp [hp change hpending hfull] at hdone
      | false => rfl
    · exact hg
  · exact hg

/-- A reduction takes the grant away at once, unless an expansion is open that
it would have to undo. -/
theorem grant_of_reduces (hs : Sound h s) (hr : Reduces s call) (horderly : Orderly s call)
    (hn : s.next call = some t) : t.grant = none := by
  cases call with
  | begin full supported uuid =>
    obtain rfl := Option.some.inj hn
    cases full with
    | none => cases hr
    | some full =>
      cases full with
      | true => cases hr
      | false =>
        cases hp : s.pending with
        | none => simp [Permissions.begin, hp]
        | some change =>
          have := hs.reduced change hp (horderly change hp)
          simp [Permissions.begin, hp, this]
  | observe thread full uuid =>
    obtain rfl := Option.some.inj hn
    cases full with
    | true => cases hr
    | false =>
      obtain rfl : thread = s.thread := hr
      unfold Permissions.observe
      rw [if_neg (not_not.mpr rfl)]
      refine grant_commit rfl ?_ uuid
      intro change' hp' hfull
      obtain ⟨change, hp, rfl⟩ := Option.map_eq_some_iff.mp hp'
      have hwas : change.full = true := by split at hfull <;> exact hfull
      have hne : ¬ change.full = false := by simp [hwas]
      rw [if_neg hne]
      exact horderly rfl change hp hwas
  | _ => cases hr

end Permissions

end RemoteCodex.Local
