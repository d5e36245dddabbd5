import RemoteCodex.Credentials.Settings

/-!
# Settings, credentials and the vault agree

In every state the settings refer to active credentials whose value is in the
vault, and an active credential is referred to; the rest is retired, or pending
until it is a day old.
-/

namespace RemoteCodex.Credentials

open Interact Store

namespace Keyring

variable {ν : Type} [DecidableEq ν] {r : Rules ν} {s t : Keyring} {e : KeyringEvent} {store : Store}
variable {server id : String} {expected : Nat} {change : Layer ν → Except ClientError (Layer ν)}

-- ---------------------------------------------------------------------------
-- One update
-- ---------------------------------------------------------------------------

/-- The reference is `w`'s, who sets the secret under `k`. -/
structure Sets (r : Rules ν) (k : String × String) (id : String) (w : Writer) : Prop where
  reference : w.reference = id
  purpose : ∃ key expected, w.purpose = .secret k.1 key expected ∧ r.parse key = some k.2

theorem Update.refers (hu : Update r s e server expected change) {before after : Layer ν}
    (h : change before = .ok after) {name : String} (hr : Layer.Refers after name id) :
    Layer.Refers before name id ∨
      ∃ n w, s.writers.lookup n = some w ∧ w.phase = .stored ∧ Sets r (server, name) id w := by
  cases hu with
  | setMany => exact .inl (Layer.refers_setAll h hr)
  | unset => exact .inl (Layer.refers_unset h hr)
  | setSecret hw hpurpose hphase =>
    rcases Layer.refers_set h hr with hold | ⟨hparse, raw, heq⟩
    · exact .inl hold
    · cases heq
      exact .inr ⟨_, _, hw, hphase, rfl, _, _, hpurpose, hparse⟩

structure Agrees (s : Store) : Prop where
  backed : s.Backed
  tidy : s.Tidy

theorem Update.agrees (hu : Update r s e server expected change) {k : Nat}
    (h : s.store.updateConfig r server expected change = .ok (k, store)) (hs : Agrees s.store)
    (hm : s.store.Managed) :
    Agrees store ∧ ∀ k id, store.Refers k id → s.store.Refers k id ∨
      ∃ n w, s.writers.lookup n = some w ∧ w.phase = .stored ∧ Sets r k id w := by
  obtain ⟨-, before, after, hload, hchange, ⟨-, rfl, -⟩ | ⟨-, saved, hsave, hadvance, -⟩⟩ := updateConfig_ok h
  · exact ⟨hs, fun k id hr => .inl hr⟩
  · obtain ⟨n, -, -, rfl⟩ := advance_ok hadvance
    have hbacked := backed_save hs.backed hsave
    have htidy := tidy_save hm hsave
    refine ⟨⟨hbacked, htidy⟩, fun k id hr => ?_⟩
    rcases save_refers hsave hr with ⟨hold, -⟩ | ⟨rfl, hlayer⟩
    · exact .inl hold
    · rcases hu.refers hchange hlayer with hbefore | hnew
      · exact .inl (load_refers hload hbefore)
      · exact .inr hnew

theorem Orderly.managed (h : s.Orderly) : s.store.Managed := fun id c hc => (h.credentials id c hc).1

theorem Setup.agrees (h : Setup r s e store) (hs : Agrees s.store) (hm : s.store.Managed) :
    Agrees store ∧ ∀ k id, store.Refers k id → s.store.Refers k id ∨
      ∃ n w, s.writers.lookup n = some w ∧ w.phase = .stored ∧ Sets r k id w := by
  cases h with
  | update hu h => exact hu.agrees h hs hm
  | removeServer he h =>
    subst h
    refine ⟨⟨?_, ?_⟩, fun k id hr => .inl (deleteSettings_refers hr).1⟩
    · exact backed_retireUnreferenced fun k id hr => hs.backed k id (deleteSettings_refers hr).1
    · exact tidy_retireUnreferenced hm
  | saveConnection he h =>
    subst h
    exact ⟨⟨hs.backed, hs.tidy⟩, fun k id hr => .inl hr⟩
  | rest hsettings hrevisions hcredentials =>
    have hrefers : ∀ k id, store.Refers k id ↔ s.store.Refers k id := by
      intro k id
      unfold Store.Refers
      rw [hsettings]
    refine ⟨⟨fun k id hr => ?_, fun id c hc hactive => ?_⟩, fun k id hr => .inl ((hrefers k id).mp hr)⟩
    · obtain ⟨c, hc, hactive⟩ := hs.backed k id ((hrefers k id).mp hr)
      exact ⟨c, (hcredentials id c hactive).mpr hc, hactive⟩
    · have hold := hs.tidy id c ((hcredentials id c hactive).mp hc) hactive
      obtain ⟨k, hr⟩ := referenced_iff.mp hold
      exact referenced_iff.mpr ⟨k, (hrefers k id).mpr hr⟩

-- ---------------------------------------------------------------------------
-- Revisions
-- ---------------------------------------------------------------------------

theorem revision_lookup {store : Store} (h : store.revision server = .ok expected) :
    store.revisions.lookup server = some expected := by
  unfold revision at h
  split at h
  · exact orError_ok.mp h
  · cases h

/-- An update that changes the settings counts as one. -/
theorem Changes.counted (h : Changes r s e server store) : ∃ n, s.store.revisions.lookup server = some n ∧
    store.revisions.lookup server = some (n + 1) := by
  obtain ⟨expected, change, k, before, after, -, hupdate, hload, hchange, hdiffers⟩ := h
  obtain ⟨hrevision, before', after', hload', hchange', hcases⟩ := updateConfig_ok hupdate
  obtain rfl := Except.ok.inj (hload.symm.trans hload')
  obtain rfl := Except.ok.inj (hchange.symm.trans hchange')
  rcases hcases with ⟨hsame, -, -⟩ | ⟨-, saved, hsave, hadvance, -⟩
  · rw [hsame] at hdiffers
    cases hdiffers
  · obtain ⟨n, hn, -, rfl⟩ := advance_ok hadvance
    rw [(apart_save hsave).revisions] at hn
    exact ⟨n, hn, AList.lookup_insert _⟩

/-- Nothing else touches a server's revision or its settings, until it is removed. -/
theorem Setup.uncounted (h : Setup r s e store) (hchanges : ¬ Changes r s e server store)
    (hremoved : e ≠ .removeServer server) (hsaved : e ≠ .saveConnection server) :
    store.revisions.lookup server = s.store.revisions.lookup server ∧
      ∀ key, store.settings.lookup (server, key) = s.store.settings.lookup (server, key) := by
  cases h with
  | update hu h =>
    next server' expected change k =>
    obtain ⟨-, before, after, hload, hchange, ⟨-, rfl, -⟩ | ⟨hdiffers, saved, hsave, hadvance, -⟩⟩ := updateConfig_ok h
    · exact ⟨rfl, fun _ => rfl⟩
    · have hne : server ≠ server' := by
        rintro rfl
        exact hchanges ⟨expected, change, k, before, after, hu, h, hload, hchange, hdiffers⟩
      obtain ⟨n, -, -, rfl⟩ := advance_ok hadvance
      refine ⟨(AList.lookup_insert_ne hne).trans ?_, fun key => save_other hsave hne⟩
      rw [(apart_save hsave).revisions]
  | removeServer he h =>
    next server' =>
    have hne : server ≠ server' := by
      rintro rfl
      exact hremoved he
    subst h
    refine ⟨AList.lookup_erase_ne hne, fun key => ?_⟩
    exact (deleteSettings_lookup (s.store.forgetSshCredentials server') server' (server, key)).trans (if_neg hne)
  | saveConnection he h =>
    next server' =>
    have hne : server ≠ server' := by
      rintro rfl
      exact hsaved he
    subst h
    exact ⟨AList.lookup_insert_ne hne, fun _ => rfl⟩
  | rest hsettings hrevisions hcredentials =>
    rw [hsettings, hrevisions]
    exact ⟨rfl, fun _ => rfl⟩

/-- An update with another revision changes nothing. -/
theorem Update.stale (hu : Update r s e server expected change) (hnext : s.next r e = some t)
    (hstale : s.store.revision server ≠ .ok expected) : t.store = s.store ∧ t.vault = s.vault := by
  have hrefused : ∀ k store, s.store.updateConfig r server expected change ≠ .ok (k, store) :=
    fun k store h => hstale (updateConfig_ok h).1
  cases hu with
  | setMany =>
    cases hnext
    unfold accept
    split
    · next h => exact absurd h (hrefused _ _)
    · exact ⟨rfl, rfl⟩
  | unset =>
    cases hnext
    unfold accept
    split
    · next h => exact absurd h (hrefused _ _)
    · exact ⟨rfl, rfl⟩
  | setSecret hw hpurpose hphase =>
    next n w key =>
    obtain ⟨u, hu, hstep⟩ := Option.bind_eq_some_iff.mp hnext
    obtain rfl : w = u := Option.some.inj (hw.symm.trans hu)
    have hproves : w.proves = false := by
      unfold Writer.proves
      rw [hpurpose]
    simp only [nextWriter, hproves, if_pos hphase, Bool.false_eq_true, if_false] at hstep
    split at hstep
    · next store hcommitted =>
      unfold committed at hcommitted
      rw [hpurpose] at hcommitted
      obtain ⟨⟨k, store'⟩, hconfig, -⟩ := map_ok.mp hcommitted
      exact absurd hconfig (hrefused _ _)
    · cases hstep
      exact ⟨rfl, rfl⟩

-- ---------------------------------------------------------------------------
-- What holds in every state
-- ---------------------------------------------------------------------------

structure Consistent (r : Rules ν) (s : Keyring) : Prop where
  orderly : s.Orderly
  agrees : Agrees s.store
  /-- The vault has what was written for each reference. -/
  written : ∀ k id, s.store.Refers k id → ∃ n w, s.writers.lookup n = some w ∧ Sets r k id w ∧
    s.vault.lookup id = some w.value

omit [DecidableEq ν] in
/-- A credential the settings refer to is not condemned. -/
theorem Consistent.spared (h : Consistent r s) {k : String × String} (hr : s.store.Refers k id) : ¬ s.Condemned id := by
  intro hid
  obtain ⟨c, hc, hactive⟩ := h.agrees.backed k id hr
  rw [(h.orderly.gone id hid).credentials c hc] at hactive
  cases hactive

omit [DecidableEq ν] in
theorem consistent_start : Consistent r {} where
  orderly := orderly_start
  agrees := by
    refine ⟨fun _ _ hr => ?_, fun _ _ hc => by cases hc⟩
    obtain ⟨_, hrow, -⟩ := hr
    cases hrow
  written _ _ hr := by
    obtain ⟨_, hrow, -⟩ := hr
    cases hrow

theorem consistent_next (h : Consistent r s) (hnext : s.next r e = some t) : Consistent r t := by
  obtain ⟨hagrees, hrefers⟩ := ((transaction_next hnext).setup h.orderly).agrees h.agrees h.orderly.managed
  refine ⟨orderly_next h.orderly hnext, hagrees, fun k id hr => ?_⟩
  have hwriter : ∃ n w, s.writers.lookup n = some w ∧ Sets r k id w ∧ s.vault.lookup id = some w.value ∧
      ¬ s.Condemned id := by
    rcases hrefers k id hr with hold | ⟨n, w, hw, hphase, hsets⟩
    · obtain ⟨n, w, hw, hsets, hvault⟩ := h.written k id hold
      exact ⟨n, w, hw, hsets, hvault, h.spared hold⟩
    · obtain rfl := hsets.reference
      refine ⟨n, w, hw, hsets, h.orderly.kept n w hw ?_, fun hid => ?_⟩
      · rw [hphase]
        rfl
      · have hended := (h.orderly.gone _ hid).ended n w hw rfl
        rw [hphase] at hended
        cases hended
  obtain ⟨n, w, hw, hsets, hvault, hspared⟩ := hwriter
  obtain rfl := hsets.reference
  obtain ⟨w', hw', href, hvalue, hpurpose, -⟩ := writer_kept hnext hw
  refine ⟨n, w', hw', ⟨href, hpurpose ▸ hsets.purpose⟩, ?_⟩
  rw [hvalue]
  exact h.orderly.entry hnext hw hvault hspared

theorem consistent {h : List KeyringEvent} (hrun : Run (next r) Free {} h s) : Consistent r s :=
  hrun.invariant consistent_start fun _ _ _ h _ hnext => consistent_next h hnext

-- ---------------------------------------------------------------------------
-- What becomes of the rest
-- ---------------------------------------------------------------------------

/-- What is retired, or pending for more than a day, is found by a cleanup, which retires it. -/
theorem Store.eligible {s : Store} {c : Credential} (hc : s.credentials.lookup id = some c) (hmanaged : c.managed = true)
    (hreferenced : s.referenced id = false) (hstate : c.state = .retired ∨ (c.state = .pending ∧ s.stale c.created)) :
    s.hasCredentialCleanup = true ∧
      ∃ c', s.retireStale.credentials.lookup id = some c' ∧ c'.state = .retired := by
  constructor
  · unfold hasCredentialCleanup
    rw [Bool.or_eq_true]
    refine .inl (List.any_eq_true.mpr ⟨⟨id, c⟩, AList.mem_lookup_iff.mp hc, ?_⟩)
    simpa [hmanaged, hreferenced] using hstate
  · refine ⟨_, (Table.lookup_update _ _ _).trans (by rw [hc]; rfl), ?_⟩
    rcases hstate with hretired | ⟨hpending, hstale⟩
    · simp [hretired]
    · simp [hmanaged, hpending, hstale]

-- ---------------------------------------------------------------------------
-- Runs
-- ---------------------------------------------------------------------------

/-- A revision counts the accepted changes of its server's settings; an update
with another revision changes neither the settings nor the vault. What the
settings refer to is active, with its value in the vault, and nothing deletes
that, or what a writer is still at. The rest is retired, or will be by age. -/
theorem settings_sound {h : List KeyringEvent} (hrun : Run (next r) Free {} h s) :
    (∀ e t, s.next r e = some t → ∀ server,
      (Changes r s e server t.store → ∃ n, s.store.revisions.lookup server = some n ∧
        t.store.revisions.lookup server = some (n + 1)) ∧
      (¬ Changes r s e server t.store → e ≠ .removeServer server → e ≠ .saveConnection server →
        t.store.revisions.lookup server = s.store.revisions.lookup server ∧
        ∀ key, t.store.settings.lookup (server, key) = s.store.settings.lookup (server, key))) ∧
    (∀ e t server expected change, s.next r e = some t → Update r s e server expected change →
      s.store.revision server ≠ .ok expected → t.store = s.store ∧ t.vault = s.vault) ∧
    (∀ n server key expected value reference t,
      s.next r (.start n (.secret server key expected) value reference) = some t →
      s.store.revision server = .ok expected) ∧
    (∀ k id, s.store.Refers k id → (∃ c, s.store.credentials.lookup id = some c ∧ c.state = .active) ∧
      ∃ n w, s.writers.lookup n = some w ∧ Sets r k id w ∧ s.vault.lookup id = some w.value) ∧
    (∀ e t, s.next r e = some t → ∀ id, (s.vault.lookup id).isSome → t.vault.lookup id = none →
      s.store.referenced id = false ∧ ∀ n w, s.writers.lookup n = some w → w.reference = id → w.phase = .ended) ∧
    ∀ id c, s.store.credentials.lookup id = some c → s.store.referenced id = false →
      c.managed = true ∧ (c.state = .retired ∨ c.state = .pending) ∧
      ∀ seconds, c.state = .retired ∨ c.created + PENDING_TIMEOUT < s.store.now + seconds →
        ∃ t, s.next r (.tick seconds) = some t ∧ t.store.hasCredentialCleanup = true ∧
          ∃ c', t.store.retireStale.credentials.lookup id = some c' ∧ c'.state = .retired := by
  have hconsistent := consistent hrun
  refine ⟨fun e t hnext server => ⟨Changes.counted,
    ((transaction_next hnext).setup hconsistent.orderly).uncounted⟩,
    fun e t server expected change hnext hu hstale => hu.stale hnext hstale,
    fun n server key expected value reference t hnext => ?_,
    fun k id hr => ⟨hconsistent.agrees.backed k id hr, hconsistent.written k id hr⟩,
    fun e t hnext id hsome hnone => ?_, fun id c hc hreferenced => ?_⟩
  · simp only [next] at hnext
    split at hnext
    · cases hnext
    · next hok =>
      simp only [Bool.or_eq_true, not_or, Bool.not_eq_true', Bool.not_eq_false] at hok
      have hadmitted := hok.2
      simp only [admitted] at hadmitted
      split at hadmitted
      · next revision layer hsnapshot =>
        simp only [Bool.and_eq_true, decide_eq_true_eq] at hadmitted
        simp only [configSnapshot, bind_ok, pure_ok] at hsnapshot
        obtain ⟨_, hrevision, _, -, _, -, heq⟩ := hsnapshot
        cases heq
        rw [hrevision, hadmitted.1]
      · cases hadmitted
  · have hcondemned : s.Condemned id := by
      cases deposit_next hnext id with
      | same hsame =>
        rw [← hsame, hnone] at hsome
        cases hsome
      | put hu href hput =>
        rw [hnone] at hput
        cases hput
      | deleted hid hnone => exact hid
    refine ⟨?_, (hconsistent.orderly.gone id hcondemned).ended⟩
    rw [Bool.eq_false_iff]
    intro hid
    obtain ⟨k, hr⟩ := referenced_iff.mp hid
    exact hconsistent.spared hr hcondemned
  · have hmanaged := hconsistent.orderly.managed id c hc
    have hstate : c.state = .retired ∨ c.state = .pending := by
      cases hstate : c.state with
      | pending => exact .inr rfl
      | retired => exact .inl rfl
      | active =>
        rw [hconsistent.agrees.tidy id c hc hstate] at hreferenced
        cases hreferenced
    refine ⟨hmanaged, hstate, fun seconds hlate => ⟨_, rfl, ?_⟩⟩
    refine Store.eligible (s := { s.store with now := s.store.now + seconds }) hc hmanaged hreferenced ?_
    rcases hlate with hretired | hlate
    · exact .inl hretired
    · exact hstate.imp_right fun hpending => ⟨hpending, decide_eq_true hlate⟩

-- ---------------------------------------------------------------------------
-- A secret whose revision is stale
-- ---------------------------------------------------------------------------

/-- Every key may be set, to any value, and may be a secret. -/
def accepting : Rules String where
  parse key := some key
  writable _ := true
  environment _ := true
  proxy _ := false
  value _ raw := some raw
  visible value := value
  requiresSecret _ _ := false
  resolve _ := true
  reference _ := true

/-- What `set_secret` does until its update. -/
def setSecret (n : Nat) (reference : String) : List KeyringEvent :=
  [.start n (.secret "dev" "TOKEN" 0) "secret" reference, .writer n .permit, .writer n (.reserve ""), .writer n .put]

def savedSecret : List KeyringEvent := .saveConnection "dev" :: (setSecret 1 "first" ++ [.writer 1 .commit])

theorem settings_sound_secret : ∃ s, Run (next accepting) Free {} savedSecret.reverse s ∧
    (∃ c, s.store.credentials.lookup "first" = some c ∧ c.state = .active) ∧
    ∃ n w, s.writers.lookup n = some w ∧ Sets accepting ("dev", "TOKEN") "first" w ∧
      s.vault.lookup "first" = some w.value := by
  have hplay : ((play (next accepting) Free {} savedSecret).map fun s => s.store.settings.lookup ("dev", "TOKEN")) =
      some (some ⟨"TOKEN", true, "first"⟩) := by
    decide
  obtain ⟨s, hs, hrow⟩ := Option.map_eq_some_iff.mp hplay
  have hrun := run_of_play_list hs
  exact ⟨s, hrun, (settings_sound hrun).2.2.2.1 ("dev", "TOKEN") "first" ⟨_, hrow, rfl, rfl⟩⟩

/-- Another update comes before the secret's. -/
def staleSecret : List KeyringEvent :=
  .saveConnection "dev" :: (setSecret 1 "first" ++
    [.setMany "dev" [("NAME", "value")] 0, .writer 1 .commit, .writer 1 (.retire true)])

/-- A secret that comes too late leaves its credential, retired, and its value in the vault. -/
theorem settings_stale : ∃ s, Run (next accepting) Free {} staleSecret.reverse s ∧
    s.store.revision "dev" = .ok 1 ∧ s.store.settings.lookup ("dev", "TOKEN") = none ∧
    s.store.credentials.lookup "first" = some { state := .retired, created := 0 } ∧
    s.vault.lookup "first" = some "secret" := by
  have hplay : ((play (next accepting) Free {} staleSecret).map fun s =>
      decide (s.store.revisions.lookup "dev" = some 1 ∧ "dev" ∈ s.store.connections ∧
        s.store.settings.lookup ("dev", "TOKEN") = none ∧
        s.store.credentials.lookup "first" = some { state := .retired, created := 0 } ∧
        s.vault.lookup "first" = some "secret")) = some true := by
    decide
  obtain ⟨s, hs, heq⟩ := Option.map_eq_some_iff.mp hplay
  obtain ⟨hrevision, hin, hsetting, hcredential, hvault⟩ := of_decide_eq_true heq
  refine ⟨s, run_of_play_list hs, ?_, hsetting, hcredential, hvault⟩
  unfold revision
  rw [if_pos hin, hrevision]
  rfl

end Keyring

end RemoteCodex.Credentials
