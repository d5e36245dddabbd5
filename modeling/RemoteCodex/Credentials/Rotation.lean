import RemoteCodex.Credentials.Steps

/-!
# A server keeps a password that works

A password is active once its own handshake has succeeded, and if the one that
was in use when the attempt began is in use still. It stays active, and in the
vault, until another takes its place, it is forgotten, or its server is removed.
-/

namespace RemoteCodex.Credentials

open Interact Store

namespace Store

variable {s t : Store} {server id : String}

theorem isActive_iff : s.isActive server id = true ↔
    ∃ row, s.ssh.lookup id = some row ∧ row.server = server ∧ row.state = .active := by
  unfold isActive
  cases s.ssh.lookup id <;> simp

/-- A row that is retired by `p` was not active, or is not any more. -/
theorem retireSsh_active {p : String → SshCredential → Bool} {row : SshCredential}
    (h : (s.retireSsh p).ssh.lookup id = some row) (hactive : row.state = .active) :
    s.ssh.lookup id = some row ∧ p id row = false := by
  simp only [retireSsh, Table.lookup_update, Option.map_eq_some_iff] at h
  obtain ⟨old, hold, rfl⟩ := h
  cases hp : p id old with
  | true =>
    rw [hp] at hactive
    cases hactive
  | false => exact ⟨by simpa [hp] using hold, by simp [hp]⟩

theorem retireSsh_kept {p : String → SshCredential → Bool} {row : SshCredential} (h : s.ssh.lookup id = some row)
    (hp : p id row = false) : (s.retireSsh p).ssh.lookup id = some row := by
  simp only [retireSsh, Table.lookup_update, h, hp, Option.map_some]
  rfl

end Store

namespace Keyring

variable {ν : Type} [DecidableEq ν] {r : Rules ν} {s t : Keyring} {e : KeyringEvent} {store : Store}
variable {server id : String} {row : SshCredential}

/-- How a password comes to be in use. -/
structure Activates (s : Keyring) (e : KeyringEvent) (store : Store) (server : String) (n : Nat) (w : Writer) : Prop where
  event : e = .writer n .commit
  writer : s.writers.lookup n = some w
  purpose : w.purpose = .password server
  phase : w.phase = .authenticated
  ok : s.store.activateSshCredential server w.previous w.reference = .ok store

/-- A row that is active was so before, or is the one that is being activated. -/
theorem Transaction.active (ht : Transaction r s e store) (hrow : store.ssh.lookup id = some row)
    (hactive : row.state = .active) :
    s.store.ssh.lookup id = some row ∨ ∃ n w, Activates s e store row.server n w ∧ w.reference = id := by
  cases ht with
  | none => exact .inl hrow
  | tick => exact .inl hrow
  | saveConnection hnew hrevision => exact .inl hrow
  | removeServer => exact .inl (retireSsh_active hrow hactive).1
  | forgetPassword => exact .inl (retireSsh_active hrow hactive).1
  | setMany h => exact .inl ((updateConfig_ssh h).1 ▸ hrow)
  | unset h => exact .inl ((updateConfig_ssh h).1 ▸ hrow)
  | setSecret hw hpurpose hphase h => exact .inl ((updateConfig_ssh h).1 ▸ hrow)
  | activate hw hpurpose hphase h =>
    obtain ⟨-, -, old, hold, hserver, hstate, hafter⟩ := activate_ok h
    have hlookup := hrow
    rw [hafter, Table.lookup_insert_if] at hlookup
    split at hlookup
    · next heq =>
      cases hlookup
      exact .inr ⟨_, _, ⟨rfl, hw, hserver ▸ hpurpose, hphase, hserver ▸ h⟩, heq.symm⟩
    · exact .inl (retireSsh_active hlookup hactive).1
  | reserveSsh hw hpurpose hphase h =>
    obtain ⟨-, rfl⟩ := fade_reserveSsh h
    rw [Table.lookup_insert_if] at hrow
    split at hrow
    · cases hrow
      cases hactive
    · exact .inl hrow
  | reserve hw hpurpose hphase => exact .inl hrow
  | retire hw =>
    unfold retired at hrow
    split at hrow
    · exact .inl (retireSsh_active hrow hactive).1
    · exact .inl hrow
  | retireStale hc =>
    exact .inl (retireSsh_active (p := fun _ c => c.state = .pending && s.store.stale c.created) hrow hactive).1
  | forget hc =>
    next credential _ =>
    refine .inl ?_
    cases credential with
    | environment k =>
      simp only [forgetRetiredCredential] at hrow
      split at hrow <;> exact hrow
    | ssh k =>
      simp only [forgetRetiredCredential] at hrow
      split at hrow
      · rw [Table.lookup_erase_if] at hrow
        split at hrow
        · cases hrow
        · exact hrow
      · exact hrow

/-- A row that is active stays so, unless it is forgotten, or replaced, or its server is removed. -/
theorem Transaction.kept (h : s.Orderly) (ht : Transaction r s e store) (hrow : s.store.ssh.lookup id = some row)
    (hactive : row.state = .active) :
    store.ssh.lookup id = some row ∨ e = .removeServer row.server ∨ e = .forgetPassword row.server ∨
      ∃ n w, Activates s e store row.server n w := by
  have hpending : row.state ≠ .pending := by
    rw [hactive]
    exact CredentialState.noConfusion
  cases ht with
  | none => exact .inl hrow
  | tick => exact .inl hrow
  | saveConnection hnew hrevision => exact .inl hrow
  | removeServer =>
    next server' =>
    by_cases hserver : row.server = server'
    · exact .inr (.inl (by rw [hserver]))
    · exact .inl (retireSsh_kept hrow (decide_eq_false hserver))
  | forgetPassword =>
    next server' =>
    by_cases hserver : row.server = server'
    · exact .inr (.inr (.inl (by rw [hserver])))
    · exact .inl (retireSsh_kept hrow (decide_eq_false hserver))
  | setMany h => exact .inl ((updateConfig_ssh h).1 ▸ hrow)
  | unset h => exact .inl ((updateConfig_ssh h).1 ▸ hrow)
  | setSecret hw hpurpose hphase h => exact .inl ((updateConfig_ssh h).1 ▸ hrow)
  | activate hw hpurpose hphase hok =>
    next n w server' =>
    by_cases hserver : row.server = server'
    · exact .inr (.inr (.inr ⟨n, w, rfl, hw, hserver ▸ hpurpose, hphase, hserver ▸ hok⟩))
    · obtain ⟨-, -, old, hold, holdserver, hstate, rfl⟩ := activate_ok hok
      refine .inl ?_
      rw [Table.lookup_insert_if, if_neg]
      · exact retireSsh_kept hrow (by simp [hserver])
      · rintro rfl
        obtain rfl := Option.some.inj (hrow.symm.trans hold)
        exact hserver holdserver
  | reserveSsh hw hpurpose hphase hok =>
    obtain ⟨-, rfl⟩ := fade_reserveSsh hok
    refine .inl ?_
    rw [Table.lookup_insert_if, if_neg]
    · exact hrow
    · rintro rfl
      -- The row of a writer is not there before it is reserved.
      have hlate := (h.owner hw hrow).2
      rw [hphase] at hlate
      cases hlate
  | reserve hw hpurpose hphase => exact .inl hrow
  | retire hw =>
    refine .inl ?_
    unfold retired
    split
    · exact retireSsh_kept hrow (by simp [hpending])
    · exact hrow
  | retireStale hc =>
    exact .inl (retireSsh_kept (p := fun _ c => c.state = .pending && s.store.stale c.created) hrow (by simp [hpending]))
  | forget hc =>
    next credential _ =>
    refine .inl ?_
    cases credential with
    | environment k =>
      simp only [forgetRetiredCredential]
      split <;> exact hrow
    | ssh k =>
      simp only [forgetRetiredCredential]
      split
      · next hretired =>
        rw [Table.lookup_erase_if, if_neg]
        · exact hrow
        · rintro rfl
          rw [hrow] at hretired
          simp [hactive] at hretired
      · exact hrow

/-- A server with a password in use stays known, unless it is removed. -/
theorem Transaction.connected (ht : Transaction r s e store) (hin : server ∈ s.store.connections) :
    server ∈ store.connections ∨ e = .removeServer server := by
  cases ht with
  | none => exact .inl hin
  | tick => exact .inl hin
  | saveConnection hnew hrevision => exact .inl (List.mem_cons_of_mem _ hin)
  | removeServer =>
    next server' =>
    by_cases hserver : server = server'
    · exact .inr (by rw [hserver])
    · exact .inl (List.mem_filter.mpr ⟨hin, decide_eq_true hserver⟩)
  | forgetPassword => exact .inl hin
  | setMany h => exact .inl ((updateConfig_ssh h).2 ▸ hin)
  | unset h => exact .inl ((updateConfig_ssh h).2 ▸ hin)
  | setSecret hw hpurpose hphase h => exact .inl ((updateConfig_ssh h).2 ▸ hin)
  | activate hw hpurpose hphase h =>
    obtain ⟨-, -, _, -, -, -, rfl⟩ := activate_ok h
    exact .inl hin
  | reserveSsh hw hpurpose hphase h =>
    obtain ⟨-, rfl⟩ := fade_reserveSsh h
    exact .inl hin
  | reserve hw hpurpose hphase => exact .inl hin
  | retire hw =>
    refine .inl ?_
    unfold retired
    split <;> exact hin
  | retireStale hc => exact .inl hin
  | forget hc =>
    next credential _ =>
    refine .inl ?_
    cases credential <;> simp only [forgetRetiredCredential] <;> split <;> exact hin

-- ---------------------------------------------------------------------------
-- What holds in every state
-- ---------------------------------------------------------------------------

structure Rotating (s : Keyring) : Prop where
  orderly : s.Orderly
  /-- A server that is gone has no password in use. -/
  connected : ∀ server id, s.store.isActive server id → server ∈ s.store.connections
  single : ∀ server id id', s.store.isActive server id → s.store.isActive server id' → id = id'
  /-- The vault has the password the handshake succeeded with. -/
  works : ∀ server id, s.store.isActive server id → ∃ n w, s.writers.lookup n = some w ∧ w.reference = id ∧
    (id, w.value) ∈ s.proven ∧ s.vault.lookup id = some w.value
  authenticated : ∀ n w, s.writers.lookup n = some w → w.phase = .authenticated → (w.reference, w.value) ∈ s.proven

/-- A password in use is not condemned. -/
theorem Orderly.spared (h : s.Orderly) (hactive : s.store.isActive server id) : ¬ s.Condemned id := by
  intro hid
  obtain ⟨row, hrow, -, hstate⟩ := isActive_iff.mp hactive
  rw [(h.gone id hid).ssh row hrow] at hstate
  cases hstate

/-- After an activation no other password of the server is in use. -/
theorem Activates.only {n : Nat} {w : Writer} (h : Activates s e store server n w) (hid : store.isActive server id) :
    id = w.reference := by
  obtain ⟨-, -, old, -, -, -, rfl⟩ := activate_ok h.ok
  obtain ⟨row, hrow, hserver, hstate⟩ := isActive_iff.mp hid
  by_contra hne
  rw [Table.lookup_insert_if, if_neg hne] at hrow
  have hout := (retireSsh_active hrow hstate).2
  simp [hserver, hstate] at hout

theorem Activates.connected {n : Nat} {w : Writer} (h : Activates s e store server n w) :
    server ∈ store.connections := by
  obtain ⟨-, hin, _, -, -, -, rfl⟩ := activate_ok h.ok
  exact hin

theorem removed_inactive (hnext : s.next r (.removeServer server) = some t) : t.store.isActive server id = false := by
  cases hnext
  rw [Bool.eq_false_iff]
  intro hid
  obtain ⟨row, hrow, hserver, hstate⟩ := isActive_iff.mp hid
  have hout := (retireSsh_active hrow hstate).2
  simp [hserver] at hout

theorem rotating_next (h : s.Rotating) (hnext : s.next r e = some t) : t.Rotating := by
  have ht := transaction_next hnext
  -- Which rows are active after the step.
  have hcases : ∀ server id, t.store.isActive server id → s.store.isActive server id ∨
      ∃ n w, Activates s e t.store server n w ∧ w.reference = id := by
    intro server id hid
    obtain ⟨row, hrow, rfl, hstate⟩ := isActive_iff.mp hid
    rcases ht.active hrow hstate with hold | hnew
    · exact .inl (isActive_iff.mpr ⟨row, hold, rfl, hstate⟩)
    · exact .inr hnew
  refine ⟨orderly_next h.orderly hnext, fun server id hid => ?_, fun server id id' hid hid' => ?_,
    fun server id hid => ?_, fun n w' hw' hphase => ?_⟩
  · rcases hcases server id hid with hold | ⟨n, w, hactivates, -⟩
    · rcases ht.connected (h.connected server id hold) with hin | rfl
      · exact hin
      · rw [removed_inactive hnext] at hid
        cases hid
    · exact hactivates.connected
  · rcases hcases server id hid with hold | ⟨n, w, hactivates, href⟩
    · rcases hcases server id' hid' with hold' | ⟨n, w, hactivates, href⟩
      · exact h.single server id id' hold hold'
      · exact (hactivates.only hid).trans href
    · exact href.symm.trans (hactivates.only hid').symm
  · rcases hcases server id hid with hold | ⟨n, w, hactivates, rfl⟩
    · obtain ⟨n, w, hw, rfl, hproven, hvault⟩ := h.works server id hold
      obtain ⟨w', hw', href, hvalue, -, -⟩ := writer_kept hnext hw
      refine ⟨n, w', hw', href, ?_, ?_⟩
      · rw [hvalue]
        exact proven_next hnext _ hproven
      · rw [hvalue]
        exact h.orderly.entry hnext hw hvault (h.orderly.spared hold)
    · have hw := hactivates.writer
      obtain ⟨w', hw', href, hvalue, -, -⟩ := writer_kept hnext hw
      refine ⟨n, w', hw', href, ?_, ?_⟩
      · rw [hvalue]
        exact proven_next hnext _ (h.authenticated n w hw hactivates.phase)
      · rw [hvalue]
        refine h.orderly.entry hnext hw (h.orderly.kept n w hw ?_) fun hid => ?_
        · rw [hactivates.phase]
          rfl
        · have hended := (h.orderly.gone _ hid).ended n w hw rfl
          rw [hactivates.phase] at hended
          cases hended
  · cases origin_next hnext hw' with
    | same hw => exact proven_next hnext _ (h.authenticated n w' hw hphase)
    | started he hwaiting hnone =>
      rw [hwaiting] at hphase
      cases hphase
    | moved he hw hm hstep =>
      rw [hm.reference, hm.value]
      exact (hm.authenticated hphase).1

theorem rotating_start : Rotating {} where
  orderly := orderly_start
  connected _ _ h := by cases h
  single _ _ _ h := by cases h
  works _ _ h := by cases h
  authenticated _ _ h := by cases h

-- ---------------------------------------------------------------------------
-- What a writer has done before
-- ---------------------------------------------------------------------------

/-- `previous` is what was in use when `n` read it. -/
def Read (r : Rules ν) (h : List KeyringEvent) (n : Nat) (server : String) (previous : Option String) : Prop :=
  ∃ later before s₀, h = later ++ .writer n .read :: before ∧ Run (next r) Free {} before s₀ ∧
    s₀.store.sshCredential server = previous

theorem Read.cons {h : List KeyringEvent} {n : Nat} {previous : Option String} (hread : Read r h n server previous)
    (e : KeyringEvent) : Read r (e :: h) n server previous := by
  obtain ⟨later, before, s₀, rfl, hrun, heq⟩ := hread
  exact ⟨e :: later, before, s₀, rfl, hrun, heq⟩

theorem proves_password {w : Writer} (h : w.purpose = .password server) : w.proves = true := by
  unfold Writer.proves
  rw [h]

structure Traced (r : Rules ν) (h : List KeyringEvent) (n : Nat) (w : Writer) : Prop where
  handshake : w.phase = .authenticated → ∃ target, .writer n (.handshake target) ∈ h
  read : ∀ server, w.purpose = .password server → w.phase.informed = true → Read r h n server w.previous

theorem traced {h : List KeyringEvent} (hrun : Run (next r) Free {} h s) :
    ∀ n w, s.writers.lookup n = some w → Traced r h n w := by
  induction hrun with
  | start => exact fun _ _ hw => by cases hw
  | @step h s e t hrun _ hnext ih =>
    intro n w' hw'
    cases origin_next hnext hw' with
    | same hw =>
      have htraced := ih n w' hw
      refine ⟨fun hphase => ?_, fun server hpurpose hinformed => (htraced.read server hpurpose hinformed).cons e⟩
      obtain ⟨target, hin⟩ := htraced.handshake hphase
      exact ⟨target, List.mem_cons_of_mem _ hin⟩
    | started he hwaiting hnone =>
      refine ⟨fun hphase => ?_, fun server hpurpose hinformed => ?_⟩
      · rw [hwaiting] at hphase
        cases hphase
      · rw [hwaiting] at hinformed
        cases hinformed
    | moved he hu hm hstep =>
      subst he
      refine ⟨fun hphase => ?_, fun server hpurpose hinformed => ?_⟩
      · obtain ⟨-, target, rfl⟩ := hm.authenticated hphase
        exact ⟨target, List.mem_cons_self⟩
      · have hpurpose := hm.purpose.symm.trans hpurpose
        have hproves := proves_password hpurpose
        rcases hm.informed hproves hinformed with ⟨hold, hprevious⟩ | ⟨rfl, server', hserver, hprevious⟩
        · rw [hprevious]
          exact ((ih n _ hu).read server hpurpose hold).cons _
        · rw [hpurpose] at hserver
          cases hserver
          exact ⟨[], h, s, rfl, hrun, hprevious.symm⟩

-- ---------------------------------------------------------------------------
-- Runs
-- ---------------------------------------------------------------------------

/-- No other password takes the place of the server's, and nobody takes it away. -/
structure Unreplaced (server : String) (s : Keyring) (e : KeyringEvent) : Prop where
  removed : e ≠ .removeServer server
  forgotten : e ≠ .forgetPassword server
  replaced : ∀ n w store, ¬ Activates s e store server n w

theorem kept_active (h : s.Rotating) (hnext : s.next r e = some t) (hcalm : s.Unreplaced server e)
    (hid : s.store.isActive server id) : t.store.isActive server id ∧ t.vault.lookup id = s.vault.lookup id := by
  obtain ⟨row, hrow, rfl, hstate⟩ := isActive_iff.mp hid
  constructor
  · rcases (transaction_next hnext).kept h.orderly hrow hstate with hkept | hremoved | hforgotten | ⟨n, w, hactivates⟩
    · exact isActive_iff.mpr ⟨row, hkept, rfl, hstate⟩
    · exact absurd hremoved hcalm.removed
    · exact absurd hforgotten hcalm.forgotten
    · exact absurd hactivates (hcalm.replaced n w t.store)
  · obtain ⟨n, w, hw, rfl, -, hvault⟩ := h.works _ _ hid
    exact (h.orderly.entry hnext hw hvault (h.orderly.spared hid)).trans hvault.symm

theorem rotating (hrun : Run (next r) Free {} h s) : s.Rotating :=
  hrun.invariant rotating_start fun _ _ _ h _ hnext => rotating_next h hnext

/-- Each server has one password in use at most, which has worked and is in the
vault. It came into use by its own attempt, after its handshake, in the place of
the one that attempt had read; whatever the other attempts come to, and however
they end, it stays in use until it is replaced, forgotten, or its server removed. -/
theorem rotation_sound {h : List KeyringEvent} (hrun : Run (next r) Free {} h s) :
    (∀ server id id', s.store.isActive server id → s.store.isActive server id' → id = id') ∧
    (∀ server id, s.store.isActive server id → server ∈ s.store.connections ∧
      ∃ password, (id, password) ∈ s.proven ∧ s.vault.lookup id = some password) ∧
    (∀ e t, s.next r e = some t → ∀ server id, s.store.isActive server id = false → t.store.isActive server id →
      ∃ n w, Activates s e t.store server n w ∧ w.reference = id ∧ (id, w.value) ∈ s.proven ∧
        (∃ target, .writer n (.handshake target) ∈ h) ∧
        s.store.sshCredential server = w.previous ∧ Read r h n server w.previous) ∧
    (∀ e t, s.next r e = some t → ∀ id, (s.vault.lookup id).isSome → t.vault.lookup id = none →
      (∀ server, s.store.isActive server id = false) ∧
      ∀ n w, s.writers.lookup n = some w → w.reference = id → w.phase = .ended) ∧
    ∀ server later t, Run (next r) (Unreplaced server) s later t → ∀ id, s.store.isActive server id →
      t.store.isActive server id ∧ t.vault.lookup id = s.vault.lookup id := by
  have hrotating := rotating hrun
  refine ⟨hrotating.single, fun server id hid => ?_, fun e t hnext server id hold hnew => ?_,
    fun e t hnext id hsome hnone => ?_, fun server later t hlater id hid => ?_⟩
  · obtain ⟨n, w, -, -, hproven, hvault⟩ := hrotating.works server id hid
    exact ⟨hrotating.connected server id hid, w.value, hproven, hvault⟩
  · obtain ⟨row, hrow, rfl, hstate⟩ := isActive_iff.mp hnew
    rcases (transaction_next hnext).active hrow hstate with hrow' | ⟨n, w, hactivates, rfl⟩
    · rw [isActive_iff.mpr ⟨row, hrow', rfl, hstate⟩] at hold
      cases hold
    · have htraced := traced hrun n w hactivates.writer
      refine ⟨n, w, hactivates, rfl, hrotating.authenticated n w hactivates.writer hactivates.phase,
        htraced.handshake hactivates.phase, (activate_ok hactivates.ok).1,
        htraced.read row.server hactivates.purpose ?_⟩
      rw [hactivates.phase]
      rfl
  · have hcondemned : s.Condemned id := by
      cases deposit_next hnext id with
      | same hsame =>
        rw [← hsame, hnone] at hsome
        cases hsome
      | put hu href hput =>
        rw [hnone] at hput
        cases hput
      | deleted hid hnone => exact hid
    refine ⟨fun server => ?_, (hrotating.orderly.gone id hcondemned).ended⟩
    rw [Bool.eq_false_iff]
    exact fun hid => hrotating.orderly.spared hid hcondemned
  · have hkept : t.Rotating ∧ t.store.isActive server id ∧ t.vault.lookup id = s.vault.lookup id := by
      refine hlater.invariant (I := fun t => t.Rotating ∧ t.store.isActive server id ∧
        t.vault.lookup id = s.vault.lookup id) ⟨hrotating, hid, rfl⟩ ?_
      rintro u e v ⟨hu, hactive, hvault⟩ hcalm hnext
      obtain ⟨hactive', hvault'⟩ := kept_active hu hnext hcalm hactive
      exact ⟨rotating_next hu hnext, hactive', hvault'.trans hvault⟩
    exact hkept.2

-- ---------------------------------------------------------------------------
-- Two attempts
-- ---------------------------------------------------------------------------

/-- No setting is accepted. -/
def refusing : Rules Unit where
  parse _ := none
  writable _ := false
  environment _ := false
  proxy _ := false
  value _ _ := none
  visible _ := ""
  requiresSecret _ _ := false
  resolve _ := true
  reference _ := true

/-- What attempt `n` does until its activation. -/
def attempt (n : Nat) (password reference : String) : List KeyringEvent :=
  [.start n (.password "dev") password reference, .writer n .permit, .writer n .read, .writer n (.reserve "host"),
    .writer n .put, .writer n (.handshake "host"), .writer n .commit]

def firstAttempt : List KeyringEvent := .saveConnection "dev" :: attempt 1 "one" "first"

theorem rotation_sound_first : ∃ s, Run (next refusing) Free {} firstAttempt.reverse s ∧
    s.store.isActive "dev" "first" = true ∧ "dev" ∈ s.store.connections ∧
    ∃ password, ("first", password) ∈ s.proven ∧ s.vault.lookup "first" = some password := by
  have hplay : ((play (next refusing) Free {} firstAttempt).map fun s => s.store.isActive "dev" "first") = some true := by
    decide
  obtain ⟨s, hs, hactive⟩ := Option.map_eq_some_iff.mp hplay
  have hrun := run_of_play_list hs
  exact ⟨s, hrun, hactive, (rotation_sound hrun).2.1 "dev" "first" hactive⟩

def crashedAttempt : List KeyringEvent := attempt 2 "two" "second" ++ [.writer 2 (.crash false)]

/-- An attempt that crashes once its activation is committed has replaced the password in use. -/
theorem rotation_crashed : ∃ s t, Run (next refusing) Free {} firstAttempt.reverse s ∧
    s.store.isActive "dev" "first" = true ∧ Run (next refusing) Free s crashedAttempt.reverse t ∧
    t.store.isActive "dev" "first" = false := by
  have hplay : ((play (next refusing) Free {} firstAttempt).bind fun s =>
      (play (next refusing) Free s crashedAttempt).map fun t =>
        (s.store.isActive "dev" "first", t.store.isActive "dev" "first")) = some (true, false) := by
    decide
  obtain ⟨s, hs, hrest⟩ := Option.bind_eq_some_iff.mp hplay
  obtain ⟨t, ht, heq⟩ := Option.map_eq_some_iff.mp hrest
  simp only [Prod.mk.injEq] at heq
  exact ⟨s, t, run_of_play_list hs, heq.1, run_of_play_list ht, heq.2⟩

end Keyring

end RemoteCodex.Credentials
