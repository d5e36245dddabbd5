import RemoteCodex.Credentials.Locks

/-!
# What one step does to the store, the vault and a writer

A step is at most one transaction. The vault gains only what a writer puts
there under its own reference, and loses only what is condemned.
-/

namespace RemoteCodex.Credentials

open Interact Store

/-- A writer of a password knows which one was in use. -/
def Phase.informed : Phase → Bool
  | .ready | .reserved | .stored | .authenticated => true
  | _ => false

namespace Keyring

variable {ν : Type} [DecidableEq ν]

/-- The store after an event, by the transaction that made it. -/
inductive Transaction (r : Rules ν) (s : Keyring) : KeyringEvent → Store → Prop
  | none : Transaction r s e s.store
  | tick : Transaction r s (.tick seconds) { s.store with now := s.store.now + seconds }
  | saveConnection (hnew : server ∉ s.store.connections) (hrevision : s.store.revisions.lookup server = none) :
    Transaction r s (.saveConnection server) (s.store.saveConnection server)
  | removeServer : Transaction r s (.removeServer server) (s.store.removeServer server)
  | forgetPassword : Transaction r s (.forgetPassword server) (s.store.forgetSshCredentials server)
  | setMany (h : s.store.setManyConfig r server changes expected = .ok (k, after)) :
    Transaction r s (.setMany server changes expected) after
  | unset (h : s.store.unsetConfig r server key expected = .ok (k, after)) :
    Transaction r s (.unset server key expected) after
  | setSecret (hw : s.writers.lookup n = some w) (hpurpose : w.purpose = .secret server key expected)
    (hphase : w.phase = .stored)
    (h : s.store.setConfig r server key (.secret w.reference w.value) expected = .ok (k, after)) :
    Transaction r s (.writer n .commit) after
  | activate (hw : s.writers.lookup n = some w) (hpurpose : w.purpose = .password server)
    (hphase : w.phase = .authenticated)
    (h : s.store.activateSshCredential server w.previous w.reference = .ok after) :
    Transaction r s (.writer n .commit) after
  | reserveSsh (hw : s.writers.lookup n = some w) (hpurpose : w.purpose = .password server) (hphase : w.phase = .ready)
    (h : s.store.reserveSshCredential server w.reference target = .ok after) :
    Transaction r s (.writer n (.reserve target)) after
  | reserve (hw : s.writers.lookup n = some w) (hpurpose : w.purpose = .secret server key expected)
    (hphase : w.phase = .ready) :
    Transaction r s (.writer n (.reserve target)) (s.store.reserveCredential w.reference)
  | retire (hw : s.writers.lookup n = some w) : Transaction r s (.writer n (.retire true)) (s.retired w)
  | retireStale (hc : s.cleanups.lookup n = some .locked) : Transaction r s (.cleanup n .list) s.store.retireStale
  | forget (hc : s.cleanups.lookup n = some (.forgetting credential todo)) :
    Transaction r s (.cleanup n (.forget true)) (s.store.forgetRetiredCredential credential)

variable {r : Rules ν} {s t : Keyring} {n : Nat} {w w' : Writer} {e : KeyringEvent}

@[simp] theorem putVault_store (s : Keyring) (w : Writer) (done : Bool) : (s.putVault w done).store = s.store := by
  unfold putVault
  split <;> rfl

@[simp] theorem deleteVault_store (s : Keyring) (id : String) (done : Bool) : (s.deleteVault id done).store = s.store := by
  unfold deleteVault
  split <;> rfl

@[simp] theorem setWriter_store (s : Keyring) (n : Nat) (w : Writer) : (s.setWriter n w).store = s.store := rfl

@[simp] theorem setCleanup_store (s : Keyring) (n : Nat) (c : Cleanup) : (s.setCleanup n c).store = s.store := rfl

theorem transaction_writer (hw : s.writers.lookup n = some w) {step : WriterStep}
    (hnext : s.nextWriter r n w step = some t) : Transaction r s (.writer n step) t.store := by
  cases step with
  | permit =>
    simp only [nextWriter] at hnext
    split at hnext <;> cases hnext
    exact .none
  | read =>
    simp only [nextWriter] at hnext
    split at hnext
    · split at hnext <;> cases hnext <;> exact .none
    · cases hnext
  | reserve target =>
    simp only [nextWriter] at hnext
    split at hnext
    · next hready =>
      split at hnext <;> cases hnext
      · next store hstore =>
        unfold reserved at hstore
        split at hstore
        · next hpurpose => exact .reserveSsh hw hpurpose hready hstore
        · next hpurpose =>
          cases hstore
          exact .reserve hw hpurpose hready
      · exact .none
    · cases hnext
  | put =>
    simp only [nextWriter] at hnext
    split at hnext <;> cases hnext
    exact .none
  | handshake target =>
    simp only [nextWriter] at hnext
    split at hnext
    · split at hnext <;> cases hnext
      exact .none
    · cases hnext
  | commit =>
    by_cases hphase : w.phase = if w.proves then .authenticated else .stored
    · simp only [nextWriter, if_pos hphase] at hnext
      split at hnext <;> cases hnext
      · next after hafter =>
        unfold committed at hafter
        unfold Writer.proves at hphase
        split at hafter
        · next hpurpose =>
          rw [hpurpose] at hphase
          exact .activate hw hpurpose hphase hafter
        · next hpurpose =>
          rw [hpurpose] at hphase
          obtain ⟨⟨k, after'⟩, hconfig, rfl⟩ := map_ok.mp hafter
          exact .setSecret hw hpurpose hphase hconfig
      · exact .none
    · simp only [nextWriter, if_neg hphase] at hnext
      cases hnext
  | fail stored =>
    simp only [nextWriter] at hnext
    split at hnext
    · cases hnext
      simp only [setWriter_store, putVault_store]
      exact .none
    · split at hnext <;> cases hnext
      exact .none
  | retire done =>
    simp only [nextWriter] at hnext
    split at hnext <;> cases hnext
    cases done with
    | true => exact .retire hw
    | false => exact .none
  | finish =>
    simp only [nextWriter] at hnext
    split at hnext <;> cases hnext
    exact .none
  | cancel writing =>
    simp only [nextWriter] at hnext
    split at hnext <;> cases hnext
    exact .none
  | settle stored =>
    simp only [nextWriter] at hnext
    split at hnext <;> cases hnext
    simp only [setWriter_store, putVault_store]
    exact .none
  | crash stored =>
    cases hnext
    simp only [setWriter_store, putVault_store]
    exact .none

theorem transaction_cleanup {c : Cleanup} (hc : s.cleanups.lookup n = some c) {step : CleanupStep}
    (hnext : s.nextCleanup n c step = some t) : Transaction r s (.cleanup n step) t.store := by
  cases step with
  | lock =>
    simp only [nextCleanup] at hnext
    split at hnext <;> cases hnext
    exact .none
  | list =>
    simp only [nextCleanup] at hnext
    split at hnext <;> cases hnext
    next hlocked => exact .retireStale (hlocked ▸ hc)
  | delete gone done =>
    simp only [nextCleanup] at hnext
    split at hnext <;> cases hnext
    simp only [setCleanup_store, deleteVault_store]
    exact .none
  | forget done =>
    simp only [nextCleanup] at hnext
    split at hnext <;> cases hnext
    cases done with
    | true => exact .forget hc
    | false => exact .none
  | unlock =>
    simp only [nextCleanup] at hnext
    split at hnext <;> cases hnext
    exact .none
  | cancel deleting =>
    simp only [nextCleanup] at hnext
    split at hnext <;> cases hnext <;> exact .none

theorem transaction_next (hnext : s.next r e = some t) : Transaction r s e t.store := by
  cases e with
  | saveConnection server =>
    simp only [next] at hnext
    split at hnext <;> cases hnext
    next hnew =>
    simp only [not_or, Bool.not_eq_true, Option.isSome_eq_false_iff, Option.isNone_iff_eq_none] at hnew
    exact .saveConnection hnew.1 hnew.2
  | removeServer server =>
    cases hnext
    exact .removeServer
  | forgetPassword server =>
    cases hnext
    exact .forgetPassword
  | setMany server changes expected =>
    cases hnext
    cases hresult : s.store.setManyConfig r server changes expected with
    | error e => exact .none
    | ok x => exact .setMany hresult
  | unset server key expected =>
    cases hnext
    cases hresult : s.store.unsetConfig r server key expected with
    | error e => exact .none
    | ok x => exact .unset hresult
  | tick seconds =>
    cases hnext
    exact .tick
  | start n purpose value reference =>
    simp only [next] at hnext
    split at hnext <;> cases hnext
    exact .none
  | writer n step =>
    obtain ⟨w, hw, hstep⟩ := Option.bind_eq_some_iff.mp hnext
    exact transaction_writer hw hstep
  | look n =>
    simp only [next] at hnext
    split at hnext <;> cases hnext
    exact .none
  | cleanup n step =>
    obtain ⟨c, hc, hstep⟩ := Option.bind_eq_some_iff.mp hnext
    exact transaction_cleanup hc hstep
  | settleDelete reference done =>
    simp only [next] at hnext
    split at hnext <;> cases hnext
    rw [deleteVault_store]
    exact .none

-- ---------------------------------------------------------------------------
-- The vault
-- ---------------------------------------------------------------------------

/-- What there is in `vault` under `id` after a step from `s`. -/
inductive Deposit (s : Keyring) (vault : Table String String) (id : String) : Prop
  | same (h : vault.lookup id = s.vault.lookup id)
  | put (hu : s.writers.lookup m = some u) (href : u.reference = id) (h : vault.lookup id = some u.value)
  | deleted (hid : s.Condemned id) (h : vault.lookup id = none)

theorem deposit_put (hw : s.writers.lookup n = some w) (done : Bool) (id : String) :
    Deposit s (s.putVault w done).vault id := by
  by_cases hid : id = w.reference
  · cases done with
    | true => exact .put hw hid.symm (hid ▸ AList.lookup_insert _)
    | false => exact .same rfl
  · exact .same (putVault_lookup s w done hid)

theorem deposit_delete {u : Keyring} {reference : String} (hvault : u.vault = s.vault)
    (hcondemned : s.Condemned reference) (done : Bool) (id : String) :
    Deposit s (u.deleteVault reference done).vault id := by
  unfold deleteVault
  split
  · by_cases hid : id = reference
    · subst hid
      exact .deleted hcondemned (AList.lookup_erase _ _)
    · exact .same ((AList.lookup_erase_ne hid).trans (by rw [hvault]))
  · exact .same (by rw [hvault])

theorem deposit_writer (hw : s.writers.lookup n = some w) {step : WriterStep}
    (hnext : s.nextWriter r n w step = some t) (id : String) : Deposit s t.vault id := by
  cases step with
  | permit =>
    simp only [nextWriter] at hnext
    split at hnext <;> cases hnext
    exact .same rfl
  | read =>
    simp only [nextWriter] at hnext
    split at hnext
    · split at hnext <;> cases hnext <;> exact .same rfl
    · cases hnext
  | reserve target =>
    simp only [nextWriter] at hnext
    split at hnext
    · split at hnext <;> cases hnext <;> exact .same rfl
    · cases hnext
  | put =>
    simp only [nextWriter] at hnext
    split at hnext <;> cases hnext
    exact deposit_put hw true id
  | handshake target =>
    simp only [nextWriter] at hnext
    split at hnext
    · split at hnext <;> cases hnext
      exact .same rfl
    · cases hnext
  | commit =>
    by_cases hphase : w.phase = if w.proves then .authenticated else .stored
    · simp only [nextWriter, if_pos hphase] at hnext
      split at hnext <;> cases hnext <;> exact .same rfl
    · simp only [nextWriter, if_neg hphase] at hnext
      cases hnext
  | fail stored =>
    simp only [nextWriter] at hnext
    split at hnext
    · cases hnext
      exact deposit_put hw _ id
    · split at hnext <;> cases hnext
      exact .same rfl
  | retire done =>
    simp only [nextWriter] at hnext
    split at hnext <;> cases hnext
    exact .same rfl
  | finish =>
    simp only [nextWriter] at hnext
    split at hnext <;> cases hnext
    exact .same rfl
  | cancel writing =>
    simp only [nextWriter] at hnext
    split at hnext <;> cases hnext
    exact .same rfl
  | settle stored =>
    simp only [nextWriter] at hnext
    split at hnext <;> cases hnext
    exact deposit_put hw _ id
  | crash stored =>
    cases hnext
    exact deposit_put hw _ id

theorem deposit_cleanup {c : Cleanup} (hc : s.cleanups.lookup n = some c) {step : CleanupStep}
    (hnext : s.nextCleanup n c step = some t) (id : String) : Deposit s t.vault id := by
  cases step with
  | lock =>
    simp only [nextCleanup] at hnext
    split at hnext <;> cases hnext
    exact .same rfl
  | list =>
    simp only [nextCleanup] at hnext
    split at hnext <;> cases hnext
    exact .same rfl
  | delete gone done =>
    simp only [nextCleanup] at hnext
    split at hnext <;> cases hnext
    next credential todo =>
    exact deposit_delete rfl (.inr ⟨n, _, hc, credential, List.mem_cons_self, rfl⟩) gone id
  | forget done =>
    simp only [nextCleanup] at hnext
    split at hnext <;> cases hnext
    exact .same rfl
  | unlock =>
    simp only [nextCleanup] at hnext
    split at hnext <;> cases hnext
    exact .same rfl
  | cancel deleting =>
    simp only [nextCleanup] at hnext
    split at hnext <;> cases hnext <;> exact .same rfl

theorem deposit_next (hnext : s.next r e = some t) (id : String) : Deposit s t.vault id := by
  cases e with
  | saveConnection server =>
    simp only [next] at hnext
    split at hnext <;> cases hnext
    exact .same rfl
  | removeServer server =>
    cases hnext
    exact .same rfl
  | forgetPassword server =>
    cases hnext
    exact .same rfl
  | setMany server changes expected =>
    cases hnext
    unfold accept
    split <;> exact .same rfl
  | unset server key expected =>
    cases hnext
    unfold accept
    split <;> exact .same rfl
  | tick seconds =>
    cases hnext
    exact .same rfl
  | start n purpose value reference =>
    simp only [next] at hnext
    split at hnext <;> cases hnext
    exact .same rfl
  | writer n step =>
    obtain ⟨w, hw, hstep⟩ := Option.bind_eq_some_iff.mp hnext
    exact deposit_writer hw hstep id
  | look n =>
    simp only [next] at hnext
    split at hnext <;> cases hnext
    exact .same rfl
  | cleanup n step =>
    obtain ⟨c, hc, hstep⟩ := Option.bind_eq_some_iff.mp hnext
    exact deposit_cleanup hc hstep id
  | settleDelete reference done =>
    simp only [next] at hnext
    split at hnext <;> cases hnext
    next hin =>
    have hcondemned : s.Condemned reference := .inl hin
    exact deposit_delete (s := s) (u := { s with deleting := s.deleting.erase reference }) rfl hcondemned done id

-- ---------------------------------------------------------------------------
-- A writer
-- ---------------------------------------------------------------------------

/-- What a step of `w` leaves of it. -/
structure Moves (s t : Keyring) (step : WriterStep) (w w' : Writer) : Prop where
  purpose : w'.purpose = w.purpose
  value : w'.value = w.value
  reference : w'.reference = w.reference
  proven : ∀ x ∈ s.proven, x ∈ t.proven
  /-- It is past the handshake only by one that succeeded. -/
  authenticated : w'.phase = .authenticated → (w.reference, w.value) ∈ t.proven ∧ ∃ target, step = .handshake target
  /-- It knows which password is in use only by having read it. -/
  informed : w.proves = true → w'.phase.informed = true → (w.phase.informed = true ∧ w'.previous = w.previous) ∨
    (step = .read ∧ ∃ server, w.purpose = .password server ∧ w'.previous = s.store.sshCredential server)
  /-- It is over for good. -/
  ended : w.phase = .ended → w'.phase = .ended

theorem moves_phase {step : WriterStep} {phase : Phase} (hproven : t.proven = s.proven)
    (hauthenticated : phase ≠ .authenticated)
    (hinformed : w.proves = true → phase.informed = true → w.phase.informed = true)
    (hended : w.phase = .ended → phase = .ended) : Moves s t step w { w with phase } where
  purpose := rfl
  value := rfl
  reference := rfl
  proven _ hx := hproven ▸ hx
  authenticated h := absurd h hauthenticated
  informed hp h := .inl ⟨hinformed hp h, rfl⟩
  ended := hended

@[simp] theorem putVault_proven (s : Keyring) (w : Writer) (done : Bool) : (s.putVault w done).proven = s.proven := by
  unfold putVault
  split <;> rfl

@[simp] theorem putVault_writers (s : Keyring) (w : Writer) (done : Bool) :
    (s.putVault w done).writers = s.writers := by
  unfold putVault
  split <;> rfl

theorem moves_end {step : WriterStep} (hproven : t.proven = s.proven) : Moves s t step w { w with phase := .ended } :=
  moves_phase hproven Phase.noConfusion (fun _ h => by cases h) fun _ => rfl

theorem moves_fail {step : WriterStep} (hproven : t.proven = s.proven) (hbegun : w.phase ≠ .ended) :
    Moves s t step w { w with phase := .failed } :=
  moves_phase hproven Phase.noConfusion (fun _ h => by cases h) fun h => absurd h hbegun

theorem moves_nextWriter {step : WriterStep} (hnext : s.nextWriter r n w step = some t) :
    ∃ w', t.writers = s.writers.insert n w' ∧ Moves s t step w w' := by
  cases step with
  | permit =>
    simp only [nextWriter] at hnext
    split at hnext <;> cases hnext
    next hok =>
    simp only [Bool.and_eq_true, decide_eq_true_eq] at hok
    refine ⟨_, rfl, moves_phase rfl ?_ (fun hp h => ?_) fun h => ?_⟩
    · split <;> exact Phase.noConfusion
    · rw [if_pos hp] at h
      cases h
    · rw [hok.1] at h
      cases h
  | read =>
    simp only [nextWriter] at hnext
    split at hnext
    · next server hpurpose hphase =>
      split at hnext <;> cases hnext
      · refine ⟨_, rfl, rfl, rfl, rfl, fun _ hx => hx, (fun h => by cases h), fun _ _ => .inr ⟨rfl, server, hpurpose, rfl⟩,
          fun h => ?_⟩
        rw [hphase] at h
        cases h
      · exact ⟨_, rfl, moves_end rfl⟩
    · cases hnext
  | reserve target =>
    simp only [nextWriter] at hnext
    split at hnext
    · next hready =>
      split at hnext <;> cases hnext
      · refine ⟨_, rfl, moves_phase rfl Phase.noConfusion (fun _ _ => ?_) fun h => ?_⟩
        · rw [hready]
          rfl
        · rw [hready] at h
          cases h
      · exact ⟨_, rfl, moves_end rfl⟩
    · cases hnext
  | put =>
    simp only [nextWriter] at hnext
    split at hnext <;> cases hnext
    next hphase =>
    refine ⟨_, rfl, moves_phase rfl Phase.noConfusion (fun _ _ => ?_) fun h => ?_⟩
    · rw [hphase]
      rfl
    · rw [hphase] at h
      cases h
  | handshake target =>
    simp only [nextWriter] at hnext
    split at hnext
    · next server hpurpose hphase =>
      split at hnext <;> cases hnext
      refine ⟨_, rfl, rfl, rfl, rfl, fun _ hx => List.mem_cons_of_mem _ hx,
        fun _ => ⟨List.mem_cons_self, target, rfl⟩, fun _ _ => .inl ⟨?_, rfl⟩, fun h => ?_⟩
      · rw [hphase]
        rfl
      · rw [hphase] at h
        cases h
    · cases hnext
  | commit =>
    by_cases hphase : w.phase = if w.proves then .authenticated else .stored
    · have hended : w.phase ≠ .ended := by
        rw [hphase]
        split <;> exact Phase.noConfusion
      simp only [nextWriter, if_pos hphase] at hnext
      split at hnext <;> cases hnext
      · exact ⟨_, rfl, moves_phase rfl Phase.noConfusion (fun _ h => by cases h) fun h => absurd h hended⟩
      · exact ⟨_, rfl, moves_fail rfl hended⟩
    · simp only [nextWriter, if_neg hphase] at hnext
      cases hnext
  | fail stored =>
    simp only [nextWriter] at hnext
    split at hnext
    · next hbegun =>
      cases hnext
      refine ⟨_, by rw [setWriter, putVault_writers], moves_fail (by simp [setWriter]) fun h => ?_⟩
      rw [h] at hbegun
      cases hbegun
    · split at hnext <;> cases hnext
      exact ⟨_, rfl, moves_end rfl⟩
  | retire done =>
    simp only [nextWriter] at hnext
    split at hnext <;> cases hnext
    exact ⟨_, rfl, moves_end rfl⟩
  | finish =>
    simp only [nextWriter] at hnext
    split at hnext <;> cases hnext
    exact ⟨_, rfl, moves_end rfl⟩
  | cancel writing =>
    simp only [nextWriter] at hnext
    split at hnext <;> cases hnext
    refine ⟨_, rfl, moves_phase rfl ?_ (fun _ h => ?_) fun h => ?_⟩
    · split <;> exact Phase.noConfusion
    · split at h <;> cases h
    · simp [h]
  | settle stored =>
    simp only [nextWriter] at hnext
    split at hnext <;> cases hnext
    exact ⟨_, by rw [setWriter, putVault_writers], moves_end (by simp [setWriter])⟩
  | crash stored =>
    cases hnext
    exact ⟨_, by rw [setWriter, putVault_writers], moves_end (by simp [setWriter])⟩

/-- What an event does to the writers. -/
inductive Turn (r : Rules ν) (s t : Keyring) (e : KeyringEvent) : Prop
  | same (hwriters : t.writers = s.writers) (hproven : t.proven = s.proven)
  | started (he : e = .start m purpose value reference) (hnone : s.writers.lookup m = none)
    (hwriters : t.writers = s.writers.insert m { purpose, value, reference }) (hproven : t.proven = s.proven)
  | moved (he : e = .writer m step) (hu : s.writers.lookup m = some u) (hm : Moves s t step u u')
    (hwriters : t.writers = s.writers.insert m u') (hstep : s.nextWriter r m u step = some t)

theorem cleanup_writers {c : Cleanup} {step : CleanupStep} (hnext : s.nextCleanup n c step = some t) :
    t.writers = s.writers ∧ t.proven = s.proven := by
  cases step with
  | lock =>
    simp only [nextCleanup] at hnext
    split at hnext <;> cases hnext
    exact ⟨rfl, rfl⟩
  | list =>
    simp only [nextCleanup] at hnext
    split at hnext <;> cases hnext
    exact ⟨rfl, rfl⟩
  | delete gone done =>
    simp only [nextCleanup] at hnext
    split at hnext <;> cases hnext
    unfold deleteVault
    split <;> exact ⟨rfl, rfl⟩
  | forget done =>
    simp only [nextCleanup] at hnext
    split at hnext <;> cases hnext
    exact ⟨rfl, rfl⟩
  | unlock =>
    simp only [nextCleanup] at hnext
    split at hnext <;> cases hnext
    exact ⟨rfl, rfl⟩
  | cancel deleting =>
    simp only [nextCleanup] at hnext
    split at hnext <;> cases hnext <;> exact ⟨rfl, rfl⟩

theorem turn_next (hnext : s.next r e = some t) : Turn r s t e := by
  cases e with
  | saveConnection server =>
    simp only [next] at hnext
    split at hnext <;> cases hnext
    exact .same rfl rfl
  | removeServer server =>
    cases hnext
    exact .same rfl rfl
  | forgetPassword server =>
    cases hnext
    exact .same rfl rfl
  | setMany server changes expected =>
    cases hnext
    unfold accept
    split <;> exact .same rfl rfl
  | unset server key expected =>
    cases hnext
    unfold accept
    split <;> exact .same rfl rfl
  | tick seconds =>
    cases hnext
    exact .same rfl rfl
  | start m purpose value reference =>
    simp only [next] at hnext
    split at hnext <;> cases hnext
    next hok =>
    simp only [Bool.or_eq_true, decide_eq_true_eq, not_or, Bool.not_eq_true, Option.isSome_eq_false_iff,
      Option.isNone_iff_eq_none] at hok
    exact .started rfl hok.1.2 rfl rfl
  | writer m step =>
    obtain ⟨w, hm, hstep⟩ := Option.bind_eq_some_iff.mp hnext
    obtain ⟨u, hwriters, hmoves⟩ := moves_nextWriter hstep
    exact .moved rfl hm hmoves hwriters hstep
  | look m =>
    simp only [next] at hnext
    split at hnext <;> cases hnext
    exact .same rfl rfl
  | cleanup m step =>
    obtain ⟨c, -, hstep⟩ := Option.bind_eq_some_iff.mp hnext
    obtain ⟨hwriters, hproven⟩ := cleanup_writers hstep
    exact .same hwriters hproven
  | settleDelete reference done =>
    simp only [next] at hnext
    split at hnext <;> cases hnext
    unfold deleteVault
    split <;> exact .same rfl rfl

/-- How writer `n` came to be `w'` after an event. -/
inductive Origin (r : Rules ν) (s t : Keyring) (e : KeyringEvent) (n : Nat) (w' : Writer) : Prop
  | same (h : s.writers.lookup n = some w')
  | started (he : e = .start n w'.purpose w'.value w'.reference) (hphase : w'.phase = .waiting)
    (hnone : s.writers.lookup n = none)
  | moved (he : e = .writer n step) (hu : s.writers.lookup n = some u) (hm : Moves s t step u w')
    (hstep : s.nextWriter r n u step = some t)

theorem origin_next (hnext : s.next r e = some t) (hw : t.writers.lookup n = some w') : Origin r s t e n w' := by
  cases turn_next hnext with
  | same hwriters => exact .same (hwriters ▸ hw)
  | started he hnone hwriters =>
    rw [hwriters, Table.lookup_insert_if] at hw
    split at hw
    · next heq =>
      subst heq
      cases hw
      exact .started he rfl hnone
    · exact .same hw
  | moved he hu hm hwriters hstep =>
    rw [hwriters, Table.lookup_insert_if] at hw
    split at hw
    · next heq =>
      subst heq
      cases hw
      exact .moved he hu hm hstep
    · exact .same hw

/-- A writer is there for good, for the same credential, and what is over stays so. -/
theorem writer_kept (hnext : s.next r e = some t) (hw : s.writers.lookup n = some w) :
    ∃ w', t.writers.lookup n = some w' ∧ w'.reference = w.reference ∧ w'.value = w.value ∧ w'.purpose = w.purpose ∧
      (w.phase = .ended → w'.phase = .ended) := by
  cases turn_next hnext with
  | same hwriters => exact ⟨w, hwriters ▸ hw, rfl, rfl, rfl, fun h => h⟩
  | started he hnone hwriters =>
    refine ⟨w, ?_, rfl, rfl, rfl, fun h => h⟩
    rw [hwriters, Table.lookup_insert_if, if_neg]
    · exact hw
    · rintro rfl
      rw [hw] at hnone
      cases hnone
  | moved he hu hm hwriters hstep =>
    next m _ _ u' =>
    by_cases heq : n = m
    · subst heq
      obtain rfl := Option.some.inj (hw.symm.trans hu)
      exact ⟨u', hwriters ▸ AList.lookup_insert _, hm.reference, hm.value, hm.purpose, hm.ended⟩
    · refine ⟨w, ?_, rfl, rfl, rfl, fun h => h⟩
      rw [hwriters, Table.lookup_insert_if, if_neg heq]
      exact hw

theorem proven_next (hnext : s.next r e = some t) : ∀ x ∈ s.proven, x ∈ t.proven := by
  cases turn_next hnext with
  | same hwriters hproven => exact fun _ hx => hproven ▸ hx
  | started he hnone hwriters hproven => exact fun _ hx => hproven ▸ hx
  | moved he hu hm hwriters hstep => exact hm.proven

/-- An entry of the vault is what it was, unless it is condemned. -/
theorem Orderly.entry (h : s.Orderly) (hnext : s.next r e = some t)
    (hw : s.writers.lookup n = some w) (hvault : s.vault.lookup w.reference = some w.value)
    (hspared : ¬ s.Condemned w.reference) : t.vault.lookup w.reference = some w.value := by
  cases deposit_next hnext w.reference with
  | same hsame => exact hsame.trans hvault
  | put hu href hput =>
    obtain rfl := h.distinct _ _ _ _ hu hw href
    obtain rfl := Option.some.inj (hu.symm.trans hw)
    exact hput
  | deleted hid hnone => exact absurd hid hspared

end Keyring

end RemoteCodex.Credentials
