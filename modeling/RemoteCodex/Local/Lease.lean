import Mathlib.Data.Fintype.Basic
import RemoteCodex.Interact.Runs
import RemoteCodex.Protocol.Encode

/-!
# Control of a session

`Lease::acquire` takes an exclusive file lock, which the system releases when
its holder ends. Who cannot have it writes its identity into a marker file and
tries again; the holder compares the marker with what it read after it had
locked, and gives way when the two differ.
-/

namespace RemoteCodex.Local

open Interact Protocol

/-- Where one call of `acquire` stands, and the lease it returned. What the
holder read of the marker is `initial`. -/
inductive Lease
  | idle
  /-- The lock is tried for the first time. -/
  | trying (takeover : Bool)
  /-- Another one has the lock, and is to be asked for it. -/
  | refused
  /-- It was asked, and the lock is tried again. -/
  | waiting
  | locked
  | holding (initial : String) (revoked : Bool)
  | releasing (initial : String) (revoked : Bool)
  /-- The marker was found to hold the own identity. -/
  | removing (initial : String) (revoked : Bool)
  | unlocking (initial : String) (revoked : Bool)
  | gone
  deriving DecidableEq, Repr

namespace Lease

def locks : Lease → Bool
  | .locked => true
  | .holding _ _ => true
  | .releasing _ _ => true
  | .removing _ _ => true
  | .unlocking _ _ => true
  | _ => false

/-- What the holder has read of the marker, and whether it is told to give way. -/
def read : Lease → Option (String × Bool)
  | .holding initial revoked => some (initial, revoked)
  | .releasing initial revoked => some (initial, revoked)
  | .removing initial revoked => some (initial, revoked)
  | .unlocking initial revoked => some (initial, revoked)
  | _ => none

/-- The lock was not had yet. -/
def asks : Lease → Bool
  | .idle => true
  | .trying _ => true
  | .refused => true
  | .waiting => true
  | _ => false

/-- The marker was not written yet. -/
def silent : Lease → Bool
  | .idle => true
  | .trying _ => true
  | .refused => true
  | _ => false

end Lease

/-- The calls on one thread, the lock and the marker file. -/
structure Leases (ι : Type) where
  lease : ι → Lease := fun _ => .idle
  lock : Option ι := none
  marker : Option String := none

inductive LeaseEvent (ι : Type)
  | acquire (i : ι) (takeover : Bool)
  | attempt (i : ι)
  | request (i : ι)
  /-- The deadline is over, or the call is given up. -/
  | leave (i : ι)
  | read (i : ι)
  | poll (i : ι)
  | release (i : ι)
  | compare (i : ι)
  | remove (i : ι)
  | unlock (i : ι)
  /-- The process ends. -/
  | crash (i : ι)
  deriving DecidableEq, Repr

namespace Leases

variable {ι : Type} [DecidableEq ι]

def put (s : Leases ι) (i : ι) (lease : Lease) : Leases ι :=
  { s with lease := fun j => if j = i then lease else s.lease j }

/-- `lock`, without waiting; `denied` is what becomes of the call if another one has it. -/
def attempt (s : Leases ι) (i : ι) (denied : Lease) : Leases ι :=
  match s.lock with
  | none => { s.put i .locked with lock := some i }
  | some _ => s.put i denied

/-- What the lock's file is left as when `i` closes it. -/
def unlocked (s : Leases ι) (i : ι) : Option ι := if s.lock = some i then none else s.lock

/-- `generation`: the identity each call draws. -/
def next (generation : ι → String) (s : Leases ι) : LeaseEvent ι → Option (Leases ι)
  | .acquire i takeover =>
    match s.lease i with
    | .idle => some (s.put i (.trying takeover))
    | _ => none
  | .attempt i =>
    match s.lease i with
    | .trying true => some (s.attempt i .refused)
    | .trying false => some (s.attempt i .gone)
    | .waiting => some (s.attempt i .waiting)
    | _ => none
  | .request i =>
    match s.lease i with
    | .refused => some { s.put i .waiting with marker := some (generation i) }
    | _ => none
  | .leave i =>
    match s.lease i with
    | .trying _ => some (s.put i .gone)
    | .refused => some (s.put i .gone)
    | .waiting => some (s.put i .gone)
    | _ => none
  | .read i =>
    match s.lease i with
    | .locked => some (s.put i (.holding (s.marker.getD "") false))
    | _ => none
  | .poll i =>
    match s.lease i with
    | .holding initial revoked => some (s.put i (.holding initial (revoked || s.marker.getD "" ≠ initial)))
    | _ => none
  | .release i =>
    match s.lease i with
    | .holding initial revoked => some (s.put i (.releasing initial revoked))
    | _ => none
  | .compare i =>
    match s.lease i with
    | .releasing initial revoked =>
      some (s.put i (if s.marker = some (generation i) then .removing initial revoked else .unlocking initial revoked))
    | _ => none
  | .remove i =>
    match s.lease i with
    | .removing initial revoked => some { s.put i (.unlocking initial revoked) with marker := none }
    | _ => none
  | .unlock i =>
    match s.lease i with
    | .unlocking _ _ => some { s.put i .gone with lock := s.unlocked i }
    | _ => none
  | .crash i => some { s.put i .gone with lock := s.unlocked i }

/-- At most one call has the lock. -/
def Exclusive (s : Leases ι) : Prop := ∀ i j, (s.lease i).locks = true → (s.lease j).locks = true → i = j

/-- If the marker asks for somebody who waits, the holder is told, or will see that the marker has changed. -/
def Heard (generation : ι → String) (s : Leases ι) : Prop :=
  ∀ i, s.lease i = .waiting → s.marker = some (generation i) →
    ∀ j initial revoked, (s.lease j).read = some (initial, revoked) → s.marker.getD "" ≠ initial ∨ revoked = true

/-- A holder reads the marker when it asks for nobody who waits. -/
def Unasked (generation : ι → String) (s : Leases ι) : LeaseEvent ι → Prop
  | .read _ => ∀ i, s.lease i = .waiting → s.marker ≠ some (generation i)
  | _ => True

-- ---------------------------------------------------------------------------
-- What one step does
-- ---------------------------------------------------------------------------

/-- What a step of the call `i` leaves. -/
structure Turn (generation : ι → String) (i : ι) (e : LeaseEvent ι) (s t : Leases ι) : Prop where
  others : ∀ j, j ≠ i → t.lease j = s.lease j
  lock : (t.lock = s.lock ∧ (t.lease i).locks = (s.lease i).locks) ∨
    (s.lock = none ∧ t.lock = some i ∧ (t.lease i).locks = true) ∨
    (t.lock = s.unlocked i ∧ (t.lease i).locks = false)
  marker : t.marker = s.marker ∨ t.marker = none ∨ (t.marker = some (generation i) ∧ (t.lease i).silent = false)
  asks : (t.lease i).asks = true → (s.lease i).asks = true
  silent : (t.lease i).silent = true → (s.lease i).silent = true
  read : ∀ initial revoked, (t.lease i).read = some (initial, revoked) →
    (∃ before, (s.lease i).read = some (initial, before)) ∨ (e = .read i ∧ initial = s.marker.getD "")

variable {generation : ι → String} {s t : Leases ι} {e : LeaseEvent ι} {i : ι}

theorem put_self (s : Leases ι) (i : ι) (lease : Lease) : (s.put i lease).lease i = lease := if_pos rfl

theorem put_ne (s : Leases ι) (lease : Lease) {i j : ι} (h : j ≠ i) : (s.put i lease).lease j = s.lease j := if_neg h

/-- A step that changes nothing but the call's own stand. -/
theorem turn_put {lease : Lease} (hlocks : lease.locks = (s.lease i).locks)
    (hasks : lease.asks = true → (s.lease i).asks = true) (hsilent : lease.silent = true → (s.lease i).silent = true)
    (hread : ∀ initial revoked, lease.read = some (initial, revoked) →
      (∃ before, (s.lease i).read = some (initial, before)) ∨ (e = .read i ∧ initial = s.marker.getD "")) :
    Turn generation i e s (s.put i lease) where
  others j hj := put_ne s lease hj
  lock := .inl ⟨rfl, by rw [put_self, hlocks]⟩
  marker := .inl rfl
  asks h := hasks (put_self s i lease ▸ h)
  silent h := hsilent (put_self s i lease ▸ h)
  read initial revoked h := hread initial revoked (put_self s i lease ▸ h)

theorem turn_attempt {denied : Lease} (hs : (s.lease i).locks = false) (hasks : (s.lease i).asks = true)
    (hlocks : denied.locks = false) (hsilent : denied.silent = true → (s.lease i).silent = true)
    (hread : denied.read = none) : Turn generation i e s (s.attempt i denied) := by
  unfold attempt
  split
  · next hnone =>
    exact
      { others := fun j hj => put_ne s .locked hj
        lock := .inr (.inl ⟨hnone, rfl, by rw [put_self]; rfl⟩)
        marker := .inl rfl
        asks := fun _ => hasks
        silent := fun h => by
          rw [put_self] at h
          cases h
        read := fun _ _ h => by
          rw [put_self] at h
          cases h }
  · refine turn_put (hlocks.trans hs.symm) (fun _ => hasks) hsilent fun _ _ h => ?_
    rw [hread] at h
    cases h

theorem turn_gone : Turn generation i e s { s.put i .gone with lock := s.unlocked i } where
  others j hj := put_ne s .gone hj
  lock := .inr (.inr ⟨rfl, by rw [put_self]; rfl⟩)
  marker := .inl rfl
  asks h := by
    rw [put_self] at h
    cases h
  silent h := by
    rw [put_self] at h
    cases h
  read _ _ h := by
    rw [put_self] at h
    cases h

theorem turn_of_next (h : s.next generation e = some t) : ∃ i, Turn generation i e s t := by
  cases e with
  | acquire i takeover =>
    simp only [next] at h
    split at h <;> cases h
    next hi => exact ⟨i, turn_put (by rw [hi]; rfl) (fun _ => by rw [hi]; rfl) (fun _ => by rw [hi]; rfl) nofun⟩
  | attempt i =>
    simp only [next] at h
    split at h <;> cases h
    · next hi => exact ⟨i, turn_attempt (by rw [hi]; rfl) (by rw [hi]; rfl) rfl (fun _ => by rw [hi]; rfl) rfl⟩
    · next hi => exact ⟨i, turn_attempt (by rw [hi]; rfl) (by rw [hi]; rfl) rfl nofun rfl⟩
    · next hi => exact ⟨i, turn_attempt (by rw [hi]; rfl) (by rw [hi]; rfl) rfl nofun rfl⟩
  | request i =>
    simp only [next] at h
    split at h <;> cases h
    next hi =>
      refine ⟨i, fun j hj => put_ne s .waiting hj, .inl ⟨rfl, ?_⟩, .inr (.inr ⟨rfl, ?_⟩), fun _ => ?_, ?_, ?_⟩
      · rw [hi]
        exact (congrArg Lease.locks (put_self s i .waiting)).trans rfl
      · exact congrArg Lease.silent (put_self s i .waiting)
      · rw [hi]
        rfl
      · intro _
        rw [hi]
        rfl
      · intro initial revoked hread
        have := (congrArg Lease.read (put_self s i .waiting)).symm.trans hread
        cases this
  | leave i =>
    simp only [next] at h
    split at h <;> cases h
    all_goals next hi => exact ⟨i, turn_put (by rw [hi]; rfl) nofun nofun nofun⟩
  | read i =>
    simp only [next] at h
    split at h <;> cases h
    next hi =>
      refine ⟨i, turn_put (by rw [hi]; rfl) nofun nofun fun initial revoked hread => ?_⟩
      cases hread
      exact .inr ⟨rfl, rfl⟩
  | poll i =>
    simp only [next] at h
    split at h <;> cases h
    next initial before hi =>
      refine ⟨i, turn_put (by rw [hi]; rfl) nofun nofun fun initial' revoked hread => ?_⟩
      cases hread
      exact .inl ⟨before, by rw [hi]; rfl⟩
  | release i =>
    simp only [next] at h
    split at h <;> cases h
    next initial before hi =>
      refine ⟨i, turn_put (by rw [hi]; rfl) nofun nofun fun initial' revoked hread => ?_⟩
      cases hread
      exact .inl ⟨before, by rw [hi]; rfl⟩
  | compare i =>
    simp only [next] at h
    split at h <;> cases h
    next initial before hi =>
      split
      all_goals
        refine ⟨i, turn_put (by rw [hi]; rfl) nofun nofun fun initial' revoked hread => ?_⟩
        cases hread
        exact .inl ⟨before, by rw [hi]; rfl⟩
  | remove i =>
    simp only [next] at h
    split at h <;> cases h
    next initial before hi =>
      have hturn : Turn generation i (.remove i) s (s.put i (.unlocking initial before)) := by
        refine turn_put (by rw [hi]; rfl) nofun nofun fun initial' revoked hread => ?_
        cases hread
        exact .inl ⟨before, by rw [hi]; rfl⟩
      exact ⟨i, { hturn with marker := .inr (.inl rfl) }⟩
  | unlock i =>
    simp only [next] at h
    split at h <;> cases h
    exact ⟨i, turn_gone⟩
  | crash i =>
    cases h
    exact ⟨i, turn_gone⟩

-- ---------------------------------------------------------------------------
-- Runs
-- ---------------------------------------------------------------------------

/-- Who has the lock is who stands so. -/
def Owned (s : Leases ι) : Prop := ∀ i, (s.lease i).locks = true ↔ s.lock = some i

omit [DecidableEq ι] in
theorem Owned.exclusive (h : s.Owned) : s.Exclusive := by
  intro i j hi hj
  exact Option.some.inj (((h i).mp hi).symm.trans ((h j).mp hj))

theorem Owned.step (h : s.Owned) (hturn : Turn generation i e s t) : t.Owned := by
  intro j
  by_cases hj : j = i
  · subst hj
    rcases hturn.lock with ⟨hlock, hlocks⟩ | ⟨-, hlock, hlocks⟩ | ⟨hlock, hlocks⟩
    · rw [hlock, hlocks]
      exact h j
    · rw [hlock, hlocks]
      exact ⟨fun _ => rfl, fun _ => rfl⟩
    · rw [hlock, hlocks, unlocked]
      constructor
      · exact nofun
      · split
        · exact nofun
        · next hne => exact fun heq => absurd heq hne
  · rw [hturn.others j hj, h j]
    have hij : some i ≠ some j := fun heq => hj (Option.some.inj heq).symm
    rcases hturn.lock with ⟨hlock, -⟩ | ⟨hnone, hlock, -⟩ | ⟨hlock, -⟩
    · rw [hlock]
    · rw [hlock, hnone]
      exact ⟨nofun, fun heq => absurd heq hij⟩
    · rw [hlock, unlocked]
      split
      · next hsome =>
        rw [hsome]
        exact ⟨fun heq => absurd heq hij, nofun⟩
      · exact Iff.rfl

/-- At most one call has the lock, in every run. -/
theorem owned_of_run {h : List (LeaseEvent ι)} {C : Leases ι → LeaseEvent ι → Prop}
    (hrun : Run (next generation) C {} h s) : s.Owned := by
  refine hrun.invariant (fun i => ⟨nofun, nofun⟩) fun s e t hs _ hnext => ?_
  obtain ⟨i, hturn⟩ := turn_of_next hnext
  exact hs.step hturn

/-- A call that has not had the lock yet: nobody has read its identity, and it
is not in the marker before the call has put it there. -/
structure Unread (generation : ι → String) (s : Leases ι) : Prop where
  marker : ∀ i, (s.lease i).silent = true → s.marker ≠ some (generation i)
  read : ∀ i, (s.lease i).asks = true → ∀ j initial revoked, (s.lease j).read = some (initial, revoked) →
    initial ≠ generation i

theorem waiting_of_asks {l : Lease} (h : l.asks = true) (hsilent : l.silent = false) : l = .waiting := by
  cases l with
  | waiting => rfl
  | idle => cases hsilent
  | trying takeover => cases hsilent
  | refused => cases hsilent
  | locked => cases h
  | holding => cases h
  | releasing => cases h
  | removing => cases h
  | unlocking => cases h
  | gone => cases h

theorem Unread.step (hdistinct : Function.Injective generation) (hproper : ∀ i, generation i ≠ "")
    (h : Unread generation s) (hunasked : Unasked generation s e) (hturn : Turn generation i e s t) :
    Unread generation t := by
  have hasks : ∀ k, (t.lease k).asks = true → (s.lease k).asks = true := by
    intro k hk
    by_cases hki : k = i
    · subst hki
      exact hturn.asks hk
    · exact hturn.others k hki ▸ hk
  constructor
  · intro k hk
    have hsilent : (s.lease k).silent = true := by
      by_cases hki : k = i
      · subst hki
        exact hturn.silent hk
      · exact hturn.others k hki ▸ hk
    rcases hturn.marker with hmarker | hmarker | ⟨hmarker, hwrote⟩
    · rw [hmarker]
      exact h.marker k hsilent
    · rw [hmarker]
      exact nofun
    · rw [hmarker]
      intro heq
      obtain rfl := hdistinct (Option.some.inj heq)
      rw [hk] at hwrote
      cases hwrote
  · intro k hk j initial revoked hread
    have hold : ∀ before, (s.lease j).read = some (initial, before) → initial ≠ generation k :=
      fun before hbefore => h.read k (hasks k hk) j initial before hbefore
    by_cases hji : j = i
    · subst hji
      rcases hturn.read initial revoked hread with ⟨before, hbefore⟩ | ⟨rfl, rfl⟩
      · exact hold before hbefore
      · -- What is read is the marker, and that asks for nobody who waits.
        intro heq
        cases hmarker : s.marker with
        | none =>
          rw [hmarker] at heq
          exact hproper k heq.symm
        | some text =>
          rw [hmarker] at heq
          obtain rfl : text = generation k := heq
          cases hsilent : (s.lease k).silent with
          | true => exact h.marker k hsilent hmarker
          | false => exact hunasked k (waiting_of_asks (hasks k hk) hsilent) hmarker
    · rw [hturn.others j hji] at hread
      exact hold revoked hread

theorem unread_of_run (hdistinct : Function.Injective generation) (hproper : ∀ i, generation i ≠ "")
    {h : List (LeaseEvent ι)} (hrun : Run (next generation) (Unasked generation) {} h s) : Unread generation s := by
  refine hrun.invariant ⟨nofun, nofun⟩ fun s e t hs hunasked hnext => ?_
  obtain ⟨i, hturn⟩ := turn_of_next hnext
  exact hs.step hdistinct hproper hunasked hturn

/-- In every run one call at most has the lock; and in a run in which no holder
reads a request that is waited for, every request is heard. -/
theorem takeover_heard (generation : ι → String) (hdistinct : Function.Injective generation)
    (hproper : ∀ i, generation i ≠ "") :
    (∀ h s, Run (next generation) Free {} h s → Exclusive s) ∧
      ∀ h s, Run (next generation) (Unasked generation) {} h s → Heard generation s := by
  refine ⟨fun h s hrun => (owned_of_run hrun).exclusive, fun h s hrun => ?_⟩
  intro i hwaiting hmarker j initial revoked hread
  have hunread := unread_of_run hdistinct hproper hrun
  refine .inl ?_
  rw [hmarker]
  exact fun heq => hunread.read i (by rw [hwaiting]; rfl) j initial revoked hread heq.symm

instance [Fintype ι] (generation : ι → String) (s : Leases ι) : ∀ e, Decidable (Unasked generation s e)
  | .read _ => inferInstanceAs (Decidable (∀ i, s.lease i = .waiting → s.marker ≠ some (generation i)))
  | .acquire _ _ | .attempt _ | .request _ | .leave _ | .poll _ | .release _ | .compare _ | .remove _ | .unlock _
  | .crash _ => .isTrue trivial

/-- The identities of three calls. -/
def threeCalls (i : Fin 3) : String := letters (i + 1)

theorem threeCalls_proper : Function.Injective threeCalls ∧ ∀ i, threeCalls i ≠ "" := by decide

/-- The first call gives way to the second. -/
def handedOver : List (LeaseEvent (Fin 3)) :=
  [.acquire 0 false, .attempt 0, .read 0, .acquire 1 true, .attempt 1, .request 1, .poll 0]

theorem takeover_heard_three :
    ∃ s, Run (next threeCalls) (Unasked threeCalls) {} handedOver.reverse s ∧ s.lease 1 = .waiting ∧
      s.marker = some (threeCalls 1) ∧ s.lease 0 = .holding "" true ∧ Heard threeCalls s := by
  have hplay : ((play (next threeCalls) (Unasked threeCalls) {} handedOver).map fun s =>
      (s.lease 1, s.marker, s.lease 0)) = some (.waiting, some (threeCalls 1), .holding "" true) := by decide
  obtain ⟨s, hs, heq⟩ := Option.map_eq_some_iff.mp hplay
  simp only [Prod.mk.injEq] at heq
  have hrun := run_of_play_list hs
  exact ⟨s, hrun, heq.1, heq.2.1, heq.2.2,
    (takeover_heard threeCalls threeCalls_proper.1 threeCalls_proper.2).2 _ _ hrun⟩

/-- The first call gives way, and a third one has the lock before the second tries again. -/
def overtaken : List (LeaseEvent (Fin 3)) :=
  handedOver ++ [.release 0, .compare 0, .unlock 0, .acquire 2 false, .attempt 2, .read 2]

/-- The second call waits, its request is in the marker, and nothing will tell the holder. -/
theorem takeover_unheard :
    ∃ s, Run (next threeCalls) Free {} overtaken.reverse s ∧ s.lease 1 = .waiting ∧
      s.marker = some (threeCalls 1) ∧ s.lease 2 = .holding (threeCalls 1) false ∧ ¬ Heard threeCalls s := by
  have hplay : ((play (next threeCalls) Free {} overtaken).map fun s =>
      (s.lease 1, s.marker, s.lease 2)) = some (.waiting, some (threeCalls 1), .holding (threeCalls 1) false) := by
    decide
  obtain ⟨s, hs, heq⟩ := Option.map_eq_some_iff.mp hplay
  simp only [Prod.mk.injEq] at heq
  obtain ⟨hwaiting, hmarker, hholding⟩ := heq
  refine ⟨s, run_of_play_list hs, hwaiting, hmarker, hholding, fun hheard => ?_⟩
  rcases hheard 1 hwaiting hmarker 2 (threeCalls 1) false (by rw [hholding]; rfl) with hne | hfalse
  · rw [hmarker] at hne
    exact hne rfl
  · cases hfalse

end Leases

end RemoteCodex.Local
