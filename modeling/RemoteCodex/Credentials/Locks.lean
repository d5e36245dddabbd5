import RemoteCodex.Credentials.Fading

/-!
# What is deleted is nobody's any more

Whoever deletes has the lock for itself when it chooses, so every writer it may
be about is over: a reference is drawn once, and a row that is retired never
comes back. A deletion that goes on after its cleanup does no harm.
-/

namespace RemoteCodex.Credentials

open Interact Store

/-- The row of the writer may be there. -/
def Phase.late : Phase → Bool
  | .waiting | .permitted | .ready => false
  | _ => true

/-- The vault has what the writer has put there. -/
def Phase.kept : Phase → Bool
  | .stored | .authenticated | .committed => true
  | _ => false

namespace Keyring

structure Gone (s : Keyring) (id : String) : Prop where
  drawn : id ∈ s.drawn
  ssh : ∀ row, s.store.ssh.lookup id = some row → row.state = .retired
  credentials : ∀ c, s.store.credentials.lookup id = some c → c.state = .retired
  ended : ∀ n w, s.writers.lookup n = some w → w.reference = id → w.phase = .ended

/-- A cleanup is going to delete it, or a deletion goes on without its cleanup. -/
def Condemned (s : Keyring) (id : String) : Prop :=
  id ∈ s.deleting ∨ ∃ n c, s.cleanups.lookup n = some c ∧ ∃ credential ∈ c.todo, credential.reference = id

structure Orderly (s : Keyring) : Prop where
  lock : ∀ n c m w, s.cleanups.lookup n = some c → c.holds = true → s.writers.lookup m = some w →
    w.phase.holds = false
  drawn : ∀ n w, s.writers.lookup n = some w → w.reference ∈ s.drawn
  distinct : ∀ n m w w', s.writers.lookup n = some w → s.writers.lookup m = some w' → w.reference = w'.reference → n = m
  ssh : ∀ id row, s.store.ssh.lookup id = some row → ∃ n w, s.writers.lookup n = some w ∧ w.reference = id ∧
    w.purpose = .password row.server ∧ w.phase.late = true
  credentials : ∀ id c, s.store.credentials.lookup id = some c → c.managed = true ∧ ∃ n w,
    s.writers.lookup n = some w ∧ w.reference = id ∧ w.proves = false ∧ w.phase.late = true
  gone : ∀ id, s.Condemned id → s.Gone id
  kept : ∀ n w, s.writers.lookup n = some w → w.phase.kept = true → s.vault.lookup w.reference = some w.value

variable {s t : Keyring} {n : Nat} {w w' : Writer} {c c' : Cleanup}

theorem not_holds (h : s.exclusive = false) (hc : s.cleanups.lookup n = some c) : c.holds = false := by
  simp only [exclusive, List.any_eq_false] at h
  simpa using h c (Table.mem_values.mpr ⟨n, hc⟩)

theorem not_held (h : s.held = false) (hw : s.writers.lookup n = some w) : w.phase.holds = false := by
  simp only [held, List.any_eq_false] at h
  simpa using h w (Table.mem_values.mpr ⟨n, hw⟩)

/-- The writer whose row it is. -/
theorem Orderly.owner (h : s.Orderly) (hw : s.writers.lookup n = some w) {row : SshCredential}
    (hrow : s.store.ssh.lookup w.reference = some row) : w.purpose = .password row.server ∧ w.phase.late = true := by
  obtain ⟨m, u, hu, href, hpurpose, hlate⟩ := h.ssh _ row hrow
  obtain rfl := h.distinct _ _ _ _ hu hw href
  obtain rfl := Option.some.inj (hu.symm.trans hw)
  exact ⟨hpurpose, hlate⟩

theorem Orderly.holder (h : s.Orderly) (hw : s.writers.lookup n = some w) {row : Credential}
    (hrow : s.store.credentials.lookup w.reference = some row) : w.proves = false ∧ w.phase.late = true := by
  obtain ⟨-, m, u, hu, href, hproves, hlate⟩ := h.credentials _ row hrow
  obtain rfl := h.distinct _ _ _ _ hu hw href
  obtain rfl := Option.some.inj (hu.symm.trans hw)
  exact ⟨hproves, hlate⟩

-- ---------------------------------------------------------------------------
-- A store whose rows fade
-- ---------------------------------------------------------------------------

theorem Orderly.fade {store : Store} (h : s.Orderly) (hf : Fade (fun _ => False) s.store store) :
    Orderly { s with store } where
  lock := h.lock
  drawn := h.drawn
  distinct := h.distinct
  ssh id row hrow := by
    obtain ⟨old, hold, hserver, -⟩ := hf.ssh id row (fun h => h) hrow
    obtain ⟨n, w, hw, href, hpurpose, hlate⟩ := h.ssh id old hold
    exact ⟨n, w, hw, href, hserver ▸ hpurpose, hlate⟩
  credentials id c hc := by
    obtain ⟨old, hold, hmanaged, -⟩ := hf.credentials id c (fun h => h) hc
    obtain ⟨hm, howner⟩ := h.credentials id old hold
    exact ⟨hmanaged.trans hm, howner⟩
  gone id hid := by
    have hgone := h.gone id hid
    refine ⟨hgone.drawn, fun row hrow => ?_, fun c hc => ?_, hgone.ended⟩
    · obtain ⟨old, hold, -, hstate⟩ := hf.ssh id row (fun h => h) hrow
      rcases hstate with hstate | hstate
      · exact hstate.trans (hgone.ssh old hold)
      · exact hstate
    · obtain ⟨old, hold, -, hstate⟩ := hf.credentials id c (fun h => h) hc
      exact hstate (hgone.credentials old hold)
  kept := h.kept

-- ---------------------------------------------------------------------------
-- A step of a writer
-- ---------------------------------------------------------------------------

/-- What a step of `w` does outside the store. -/
structure Advances (s : Keyring) (w w' : Writer) : Prop where
  purpose : w'.purpose = w.purpose
  reference : w'.reference = w.reference
  value : w'.value = w.value
  lock : w'.phase.holds = true → w.phase.holds = true ∨ s.exclusive = false
  late : w.phase.late = true → w'.phase.late = true
  ended : w.phase = .ended → w'.phase = .ended

theorem Orderly.writer {store : Store} {vault : Table String String} {proven : List (String × String)} (h : s.Orderly)
    (hw : s.writers.lookup n = some w) (ha : s.Advances w w')
    (hfade : Fade (fun id => id = w.reference ∧ w.phase ≠ .ended) s.store store)
    (hssh : ∀ row, store.ssh.lookup w.reference = some row → w.purpose = .password row.server ∧ w'.phase.late = true)
    (hcredentials : ∀ c, store.credentials.lookup w.reference = some c →
      c.managed = true ∧ w.proves = false ∧ w'.phase.late = true)
    (hvault : ∀ id, id ≠ w.reference → vault.lookup id = s.vault.lookup id)
    (hkept : w'.phase.kept = true → vault.lookup w.reference = some w.value) :
    Orderly { s with store, vault, proven, writers := s.writers.insert n w' } := by
  have hlookup : ∀ m u, (s.writers.insert n w').lookup m = some u →
      (m = n ∧ u = w') ∨ (m ≠ n ∧ s.writers.lookup m = some u) := by
    intro m u hu
    rw [Table.lookup_insert_if] at hu
    split at hu
    · next heq => exact .inl ⟨heq, (Option.some.inj hu).symm⟩
    · next hne => exact .inr ⟨hne, hu⟩
  have hself : (s.writers.insert n w').lookup n = some w' := AList.lookup_insert _
  have hproves : w'.proves = w.proves := by
    unfold Writer.proves
    rw [ha.purpose]
  -- Another reference is another writer's.
  have hother : ∀ m u, s.writers.lookup m = some u → m ≠ n → u.reference ≠ w.reference :=
    fun m u hu hne heq => hne (h.distinct _ _ _ _ hu hw heq)
  have hkeep : ∀ m u, s.writers.lookup m = some u → m ≠ n → (s.writers.insert n w').lookup m = some u := by
    intro m u hu hne
    rw [Table.lookup_insert_if, if_neg hne]
    exact hu
  refine ⟨fun k c m u hc hholds hu => ?_, fun m u hu => ?_, fun m k u u' hu hu' heq => ?_, fun id row hrow => ?_,
    fun id c hc => ?_, fun id hid => ?_, fun m u hu hkeptu => ?_⟩
  · rcases hlookup m u hu with ⟨rfl, rfl⟩ | ⟨-, hu⟩
    · by_contra hphase
      rw [Bool.not_eq_false] at hphase
      rcases ha.lock hphase with hold | hfree
      · rw [h.lock k c _ w hc hholds hw] at hold
        cases hold
      · rw [not_holds hfree hc] at hholds
        cases hholds
    · exact h.lock k c m u hc hholds hu
  · rcases hlookup m u hu with ⟨rfl, rfl⟩ | ⟨-, hu⟩
    · rw [ha.reference]
      exact h.drawn _ w hw
    · exact h.drawn m u hu
  · rcases hlookup m u hu with ⟨hm, rfl⟩ | ⟨hm, hold⟩ <;> rcases hlookup k u' hu' with ⟨hk, rfl⟩ | ⟨hk, hold'⟩
    · exact hm.trans hk.symm
    · exact absurd (heq.symm.trans ha.reference) (hother _ _ hold' hk)
    · exact absurd (heq.trans ha.reference) (hother _ _ hold hm)
    · exact h.distinct _ _ _ _ hold hold' heq
  · by_cases hid : id = w.reference
    · subst hid
      obtain ⟨hpurpose, hlate⟩ := hssh row hrow
      exact ⟨n, w', hself, ha.reference, ha.purpose.trans hpurpose, hlate⟩
    · obtain ⟨old, hold, hserver, -⟩ := hfade.ssh id row (fun hand => hid hand.1) hrow
      obtain ⟨m, u, hu, href, hpurpose, hlate⟩ := h.ssh id old hold
      have hm : m ≠ n := by
        rintro rfl
        obtain rfl := Option.some.inj (hu.symm.trans hw)
        exact hid href.symm
      exact ⟨m, u, hkeep m u hu hm, href, hserver ▸ hpurpose, hlate⟩
  · by_cases hid : id = w.reference
    · subst hid
      obtain ⟨hmanaged, hp, hlate⟩ := hcredentials c hc
      exact ⟨hmanaged, n, w', hself, ha.reference, hproves.trans hp, hlate⟩
    · obtain ⟨old, hold, hmanaged, -⟩ := hfade.credentials id c (fun hand => hid hand.1) hc
      obtain ⟨hm', m, u, hu, href, hp, hlate⟩ := h.credentials id old hold
      have hm : m ≠ n := by
        rintro rfl
        obtain rfl := Option.some.inj (hu.symm.trans hw)
        exact hid href.symm
      exact ⟨hmanaged.trans hm', m, u, hkeep m u hu hm, href, hp, hlate⟩
  · have hgone := h.gone id hid
    have hown : ¬ (id = w.reference ∧ w.phase ≠ .ended) :=
      fun hand => hand.2 (hgone.ended n w hw hand.1.symm)
    refine ⟨hgone.drawn, fun row hrow => ?_, fun c hc => ?_, fun m u hu href => ?_⟩
    · obtain ⟨old, hold, -, hstate⟩ := hfade.ssh id row hown hrow
      rcases hstate with hstate | hstate
      · exact hstate.trans (hgone.ssh old hold)
      · exact hstate
    · obtain ⟨old, hold, -, hstate⟩ := hfade.credentials id c hown hc
      exact hstate (hgone.credentials old hold)
    · rcases hlookup m u hu with ⟨rfl, rfl⟩ | ⟨-, hu⟩
      · exact ha.ended (hgone.ended _ w hw (ha.reference.symm.trans href))
      · exact hgone.ended m u hu href
  · rcases hlookup m u hu with ⟨rfl, rfl⟩ | ⟨hm, hu⟩
    · rw [ha.reference, ha.value]
      exact hkept hkeptu
    · exact (hvault _ (hother m u hu hm)).trans (h.kept m u hu hkeptu)

/-- A step that leaves the store's rows to fade. -/
theorem Orderly.writerFade {store : Store} {vault : Table String String} {proven : List (String × String)}
    (h : s.Orderly) (hw : s.writers.lookup n = some w) (ha : s.Advances w w')
    (hfade : Fade (fun _ => False) s.store store) (hvault : ∀ id, id ≠ w.reference → vault.lookup id = s.vault.lookup id)
    (hkept : w'.phase.kept = true → vault.lookup w.reference = some w.value) :
    Orderly { s with store, vault, proven, writers := s.writers.insert n w' } := by
  refine h.writer hw ha (hfade.mono fun _ hf => hf.elim) (fun row hrow => ?_) (fun c hc => ?_) hvault hkept
  · obtain ⟨old, hold, hserver, -⟩ := hfade.ssh _ row (fun hf => hf) hrow
    obtain ⟨hpurpose, hlate⟩ := h.owner hw hold
    exact ⟨hserver ▸ hpurpose, ha.late hlate⟩
  · obtain ⟨old, hold, hmanaged, -⟩ := hfade.credentials _ c (fun hf => hf) hc
    obtain ⟨hproves, hlate⟩ := h.holder hw hold
    exact ⟨hmanaged.trans (h.credentials _ old hold).1, hproves, ha.late hlate⟩

-- ---------------------------------------------------------------------------
-- The writer's own row
-- ---------------------------------------------------------------------------

section Steps

variable {ν : Type} [DecidableEq ν] {r : Rules ν} {step : WriterStep}

/-- A step that is refused, or needs nothing but the phase. -/
theorem Orderly.setPhase (h : s.Orderly) (hw : s.writers.lookup n = some w) (ha : s.Advances w w')
    (hkept : w'.phase.kept = true → w.phase.kept = true) : (s.setWriter n w').Orderly :=
  h.writerFade hw ha (.refl _ _) (fun _ _ => rfl) fun hk => h.kept n w hw (hkept hk)

theorem orderly_reserve (h : s.Orderly) (hw : s.writers.lookup n = some w) (hready : w.phase = .ready) {target : String}
    {store : Store} (hstore : s.reserved w target = .ok store) :
    ({ s with store }.setWriter n { w with phase := .reserved }).Orderly := by
  have ha : s.Advances w { w with phase := .reserved } := by
    refine ⟨rfl, rfl, rfl, fun _ => .inl ?_, fun _ => rfl, fun hended => ?_⟩
    · rw [hready]
      rfl
    · rw [hready] at hended
      cases hended
  have hended : w.phase ≠ .ended := by
    rw [hready]
    exact Phase.noConfusion
  unfold reserved at hstore
  split at hstore
  · next server hpurpose =>
    obtain ⟨-, rfl⟩ := fade_reserveSsh hstore
    refine h.writer hw ha ⟨fun id row hown hrow => ?_, fun id c _ hc => ⟨c, hc, rfl, fun h => h⟩⟩
      (fun row hrow => ?_) (fun c hc => ?_) (fun _ _ => rfl) (fun hk => by cases hk)
    · rw [AList.lookup_insert_ne fun heq => hown ⟨heq, hended⟩] at hrow
      exact ⟨row, hrow, rfl, .inl rfl⟩
    · rw [AList.lookup_insert] at hrow
      cases hrow
      exact ⟨hpurpose, rfl⟩
    · obtain ⟨hp, hlate⟩ := h.holder hw hc
      exact ⟨(h.credentials _ c hc).1, hp, rfl⟩
  · next server key expected hpurpose =>
    cases hstore
    refine h.writer hw ha ⟨fun id row _ hrow => ⟨row, hrow, rfl, .inl rfl⟩, fun id c hown hc => ?_⟩
      (fun row hrow => ?_) (fun c hc => ?_) (fun _ _ => rfl) (fun hk => by cases hk)
    · simp only [reserveCredential] at hc
      rw [AList.lookup_insert_ne fun heq => hown ⟨heq, hended⟩] at hc
      exact ⟨c, hc, rfl, fun h => h⟩
    · exact ⟨(h.owner hw hrow).1, rfl⟩
    · simp only [reserveCredential, AList.lookup_insert] at hc
      cases hc
      refine ⟨rfl, ?_, rfl⟩
      unfold Writer.proves
      rw [hpurpose]

theorem orderly_commit (h : s.Orderly) (hw : s.writers.lookup n = some w)
    (hphase : w.phase = if w.proves then .authenticated else .stored) {store : Store}
    (hstore : s.committed r w = .ok store) : ({ s with store }.setWriter n { w with phase := .committed }).Orderly := by
  have hkept : w.phase.kept = true ∧ w.phase.holds = true ∧ w.phase ≠ .ended := by
    rw [hphase]
    split <;> exact ⟨rfl, rfl, Phase.noConfusion⟩
  have ha : s.Advances w { w with phase := .committed } :=
    ⟨rfl, rfl, rfl, fun _ => .inl hkept.2.1, fun _ => rfl, fun hended => absurd hended hkept.2.2⟩
  unfold committed at hstore
  split at hstore
  · next server hpurpose =>
    refine h.writer hw ha
      ((fade_activate hstore).mono fun id hid => ⟨hid, hkept.2.2⟩) (fun row hrow => ?_) (fun c hc => ?_)
      (fun _ _ => rfl) fun _ => h.kept n w hw hkept.1
    · obtain ⟨-, -, old, -, hserver, -, rfl⟩ := activate_ok hstore
      simp only [AList.lookup_insert] at hrow
      cases hrow
      exact ⟨by rw [hserver]; exact hpurpose, rfl⟩
    · obtain ⟨-, -, old, -, -, -, rfl⟩ := activate_ok hstore
      obtain ⟨hp, -⟩ := h.holder hw hc
      exact ⟨(h.credentials _ c hc).1, hp, rfl⟩
  · obtain ⟨⟨revision, store'⟩, hconfig, rfl⟩ := map_ok.mp hstore
    exact h.writerFade hw ha (fade_updateConfig hconfig) (fun _ _ => rfl)
      fun _ => h.kept n w hw hkept.1

/-- What is put in the vault, or taken out of it, is the writer's own. -/
theorem putVault_lookup (s : Keyring) (w : Writer) (done : Bool) {id : String} (hne : id ≠ w.reference) :
    (s.putVault w done).vault.lookup id = s.vault.lookup id := by
  unfold putVault
  split
  · exact AList.lookup_insert_ne hne
  · rfl

theorem Orderly.putPhase (h : s.Orderly) (hw : s.writers.lookup n = some w) (ha : s.Advances w w') (done : Bool)
    (hkept : w'.phase.kept = true → done = true) : ((s.putVault w done).setWriter n w').Orderly := by
  have heq : (s.putVault w done).setWriter n w' =
      { s with vault := (s.putVault w done).vault, writers := s.writers.insert n w' } := by
    unfold putVault
    split <;> rfl
  rw [heq]
  refine h.writerFade hw ha (.refl _ _) (fun id hne => putVault_lookup s w done hne) fun hk => ?_
  rw [hkept hk]
  exact AList.lookup_insert _

theorem advances (s : Keyring) (w : Writer) {phase : Phase}
    (hlock : phase.holds = true → w.phase.holds = true ∨ s.exclusive = false)
    (hlate : w.phase.late = true → phase.late = true) (hended : w.phase = .ended → phase = .ended) :
    s.Advances w { w with phase } := ⟨rfl, rfl, rfl, hlock, hlate, hended⟩

theorem orderly_nextWriter (h : s.Orderly) (hw : s.writers.lookup n = some w) (hnext : s.nextWriter r n w step = some t) :
    t.Orderly := by
  have hend : s.Advances w { w with phase := .ended } :=
    advances s w (fun hholds => by cases hholds) (fun _ => rfl) fun _ => rfl
  cases step with
  | permit =>
    simp only [nextWriter] at hnext
    split at hnext <;> cases hnext
    next hok =>
    simp only [Bool.and_eq_true, decide_eq_true_eq, Bool.not_eq_true'] at hok
    refine h.setPhase hw (advances s w (fun _ => .inr hok.2) (fun hlate => ?_) fun hended => ?_) fun hk => ?_
    · rw [hok.1] at hlate
      cases hlate
    · rw [hok.1] at hended
      cases hended
    · split at hk <;> cases hk
  | read =>
    simp only [nextWriter] at hnext
    split at hnext
    · next server hpurpose hphase =>
      split at hnext <;> cases hnext
      · refine h.setPhase hw ⟨rfl, rfl, rfl, fun _ => .inl ?_, fun hlate => ?_, fun hended => ?_⟩ fun hk => by cases hk
        · rw [hphase]
          rfl
        · rw [hphase] at hlate
          cases hlate
        · rw [hphase] at hended
          cases hended
      · exact h.setPhase hw hend fun hk => by cases hk
    · cases hnext
  | reserve target =>
    simp only [nextWriter] at hnext
    split at hnext
    · next hready =>
      split at hnext <;> cases hnext
      · next store hstore => exact orderly_reserve h hw hready hstore
      · exact h.setPhase hw hend fun hk => by cases hk
    · cases hnext
  | put =>
    simp only [nextWriter] at hnext
    split at hnext <;> cases hnext
    next hphase =>
    refine h.putPhase hw (advances s w (fun _ => .inl ?_) (fun _ => rfl) fun hended => ?_) true fun _ => rfl
    · rw [hphase]
      rfl
    · rw [hphase] at hended
      cases hended
  | handshake target =>
    simp only [nextWriter] at hnext
    split at hnext
    · next server hpurpose hphase =>
      split at hnext <;> cases hnext
      have hkept : w.phase.kept = true := by
        rw [hphase]
        rfl
      refine h.writerFade hw (advances s w (fun _ => .inl ?_) (fun _ => rfl) fun hended => ?_) (.refl _ _)
        (fun _ _ => rfl) fun _ => h.kept n w hw hkept
      · rw [hphase]
        rfl
      · rw [hphase] at hended
        cases hended
    · cases hnext
  | commit =>
    by_cases hphase : w.phase = if w.proves then .authenticated else .stored
    · simp only [nextWriter, if_pos hphase] at hnext
      split at hnext <;> cases hnext
      · next store hstore => exact orderly_commit h hw hphase hstore
      · refine h.setPhase hw (advances s w (fun _ => .inl ?_) (fun _ => rfl) fun hended => ?_) fun hk => by cases hk
        · rw [hphase]
          split <;> rfl
        · rw [hphase] at hended
          split at hended <;> cases hended
    · simp only [nextWriter, if_neg hphase] at hnext
      cases hnext
  | fail stored =>
    simp only [nextWriter] at hnext
    split at hnext
    · next hbegun =>
      cases hnext
      refine h.putPhase hw (advances s w (fun _ => .inl ?_) (fun _ => rfl) fun hended => ?_) _ fun hk => by cases hk
      · cases hphase : w.phase <;> rw [hphase] at hbegun <;> first | rfl | cases hbegun
      · rw [hended] at hbegun
        cases hbegun
    · split at hnext <;> cases hnext
      exact h.setPhase hw hend fun hk => by cases hk
  | retire done =>
    simp only [nextWriter] at hnext
    split at hnext <;> cases hnext
    refine h.writerFade hw hend ?_ (fun _ _ => rfl) fun hk => by cases hk
    split
    · unfold retired
      split
      · exact fade_retireSsh _ _
      · exact fade_retireCredential _ _
    · exact .refl _ _
  | finish =>
    simp only [nextWriter] at hnext
    split at hnext <;> cases hnext
    exact h.setPhase hw hend fun hk => by cases hk
  | cancel writing =>
    simp only [nextWriter] at hnext
    split at hnext <;> cases hnext
    split
    · next hwriting =>
      simp only [Bool.and_eq_true, decide_eq_true_eq] at hwriting
      refine h.setPhase hw (advances s w (fun _ => .inl ?_) (fun _ => rfl) fun hended => ?_) fun hk => by cases hk
      · rw [hwriting.2]
        rfl
      · rw [hwriting.2] at hended
        cases hended
    · exact h.setPhase hw hend fun hk => by cases hk
  | settle stored =>
    simp only [nextWriter] at hnext
    split at hnext <;> cases hnext
    exact h.putPhase hw hend _ fun hk => by cases hk
  | crash stored =>
    cases hnext
    exact h.putPhase hw hend _ fun hk => by cases hk

end Steps

-- ---------------------------------------------------------------------------
-- A step of a cleanup
-- ---------------------------------------------------------------------------

/-- What a cleanup does while it knows of no more than before. -/
theorem Orderly.cleanup {store : Store} {vault : Table String String} {deleting : List String} (h : s.Orderly)
    (hc : s.cleanups.lookup n = some c) (hholds : c'.holds = true → c.holds = true)
    (hfade : Fade (fun _ => False) s.store store)
    (hvault : ∀ id v, s.vault.lookup id = some v → vault.lookup id = some v ∨ s.Condemned id)
    (hdeleting : ∀ id ∈ deleting, s.Condemned id)
    (htodo : ∀ credential ∈ c'.todo, s.Condemned credential.reference) :
    Orderly { s with store, vault, deleting, cleanups := s.cleanups.insert n c' } := by
  have hf := h.fade hfade
  refine ⟨fun m c₁ k w hm hh hw => ?_, h.drawn, h.distinct, hf.ssh, hf.credentials, fun id hid => ?_,
    fun m w hw hk => ?_⟩
  · rw [Table.lookup_insert_if] at hm
    split at hm
    · cases hm
      exact h.lock n c k w hc (hholds hh) hw
    · exact h.lock m c₁ k w hm hh hw
  · have hbefore : s.Condemned id := by
      rcases hid with hin | ⟨m, c₁, hm, credential, hin, rfl⟩
      · exact hdeleting id hin
      · rw [Table.lookup_insert_if] at hm
        split at hm
        · cases hm
          exact htodo credential hin
        · exact .inr ⟨m, c₁, hm, credential, hin, rfl⟩
    have hgone := hf.gone id hbefore
    exact ⟨hgone.drawn, hgone.ssh, hgone.credentials, hgone.ended⟩
  · rcases hvault _ _ (h.kept m w hw hk) with hsame | hcondemned
    · exact hsame
    · have hended := (h.gone _ hcondemned).ended m w hw rfl
      rw [hended] at hk
      cases hk

/-- What the exclusive lock allows to be deleted is nobody's. -/
theorem Orderly.listed (h : s.Orderly) (hfree : ∀ m w, s.writers.lookup m = some w → w.phase.holds = false)
    {credential : RetiredCredential} (hin : credential ∈ s.store.retiredCredentials) : s.Gone credential.reference := by
  -- A writer whose row is there, and who has no share of the lock, is over.
  have hended : ∀ m w, s.writers.lookup m = some w → w.phase.late = true → w.phase = .ended := by
    intro m w hw hlate
    have hholds := hfree m w hw
    cases hphase : w.phase <;> rw [hphase] at hholds hlate <;> first | rfl | (cases hlate; done) | cases hholds
  have hover : ∀ m w, s.writers.lookup m = some w → w.phase.late = true →
      ∀ k u, s.writers.lookup k = some u → u.reference = w.reference → u.phase = .ended := by
    intro m w hw hlate k u hu heq
    obtain rfl := h.distinct _ _ _ _ hu hw heq
    obtain rfl := Option.some.inj (hu.symm.trans hw)
    exact hended _ _ hu hlate
  unfold retiredCredentials at hin
  rcases List.mem_append.mp hin with hin | hin
  · obtain ⟨e, he, hsome⟩ := List.mem_filterMap.mp hin
    split at hsome
    · next hretired =>
      cases hsome
      simp only [Bool.and_eq_true, decide_eq_true_eq] at hretired
      have hlookup : s.store.credentials.lookup e.1 = some e.2 := AList.mem_lookup_iff.mpr he
      obtain ⟨-, m, w, hw, href, hproves, hlate⟩ := h.credentials _ _ hlookup
      refine ⟨href ▸ h.drawn m w hw, fun row hrow => ?_, fun c hc => ?_, fun k u hu heq =>
        hover m w hw hlate k u hu (heq.trans href.symm)⟩
      · -- The same reference cannot be a password's too.
        have hpurpose := (h.owner hw (href ▸ hrow)).1
        unfold Writer.proves at hproves
        rw [hpurpose] at hproves
        cases hproves
      · obtain rfl := Option.some.inj (hlookup.symm.trans hc)
        exact hretired.1.2
    · cases hsome
  · obtain ⟨e, he, hsome⟩ := List.mem_filterMap.mp hin
    split at hsome
    · next hretired =>
      cases hsome
      have hlookup : s.store.ssh.lookup e.1 = some e.2 := AList.mem_lookup_iff.mpr he
      obtain ⟨m, w, hw, href, hpurpose, hlate⟩ := h.ssh _ _ hlookup
      refine ⟨href ▸ h.drawn m w hw, fun row hrow => ?_, fun c hc => ?_, fun k u hu heq =>
        hover m w hw hlate k u hu (heq.trans href.symm)⟩
      · obtain rfl := Option.some.inj (hlookup.symm.trans hrow)
        exact hretired
      · have hproves := (h.holder hw (href ▸ hc)).1
        unfold Writer.proves at hproves
        rw [hpurpose] at hproves
        cases hproves
    · cases hsome

theorem orderly_nextCleanup (h : s.Orderly) (hc : s.cleanups.lookup n = some c) {step : CleanupStep}
    (hnext : s.nextCleanup n c step = some t) : t.Orderly := by
  have hcondemned : ∀ credential ∈ c.todo, s.Condemned credential.reference :=
    fun credential hin => .inr ⟨n, c, hc, credential, hin, rfl⟩
  cases step with
  | lock =>
    simp only [nextCleanup] at hnext
    split at hnext <;> cases hnext
    next hok =>
    simp only [Bool.and_eq_true, decide_eq_true_eq, Bool.not_eq_true'] at hok
    refine ⟨fun m c₁ k w hm hh hw => not_held hok.1.2 hw, h.drawn, h.distinct, h.ssh, h.credentials, fun id hid => ?_,
      h.kept⟩
    have hbefore : s.Condemned id := by
      rcases hid with hin | ⟨m, c₁, hm, credential, hin, rfl⟩
      · exact .inl hin
      · simp only [setCleanup] at hm
        rw [Table.lookup_insert_if] at hm
        split at hm
        · cases hm
          cases hin
        · exact .inr ⟨m, c₁, hm, credential, hin, rfl⟩
    have hgone := h.gone id hbefore
    exact ⟨hgone.drawn, hgone.ssh, hgone.credentials, hgone.ended⟩
  | list =>
    simp only [nextCleanup] at hnext
    split at hnext <;> cases hnext
    next hlocked =>
    subst hlocked
    have hf := h.fade (fade_retireStale s.store)
    have hfree : ∀ m w, s.writers.lookup m = some w → w.phase.holds = false :=
      fun m w hw => h.lock n _ m w hc rfl hw
    refine ⟨fun m c₁ k w hm hh hw => hfree k w hw, h.drawn, h.distinct, hf.ssh, hf.credentials, fun id hid => ?_, h.kept⟩
    have hgone : Gone { s with store := s.store.retireStale } id := by
      rcases hid with hin | ⟨m, c₁, hm, credential, hin, rfl⟩
      · exact hf.gone id (.inl hin)
      · simp only [setCleanup] at hm
        rw [Table.lookup_insert_if] at hm
        split at hm
        · cases hm
          exact hf.listed hfree hin
        · exact hf.gone _ (.inr ⟨m, c₁, hm, credential, hin, rfl⟩)
    exact ⟨hgone.drawn, hgone.ssh, hgone.credentials, hgone.ended⟩
  | delete gone done =>
    simp only [nextCleanup] at hnext
    split at hnext <;> cases hnext
    next credential todo =>
    have hrest : ∀ x ∈ (if done && gone then Cleanup.forgetting credential todo else .deleting todo).todo,
        s.Condemned x.reference := by
      intro x hx
      refine hcondemned x ?_
      split at hx
      · exact hx
      · exact List.mem_cons_of_mem _ hx
    have heq : (s.deleteVault credential.reference gone).setCleanup n
        (if done && gone then .forgetting credential todo else .deleting todo) =
        { s with vault := (s.deleteVault credential.reference gone).vault
                 cleanups := s.cleanups.insert n
                  (if done && gone then .forgetting credential todo else .deleting todo) } := by
      unfold deleteVault
      split <;> rfl
    rw [heq]
    refine h.cleanup hc (fun _ => rfl) (.refl _ _) (fun id v hv => ?_) (fun id hin => .inl hin) hrest
    by_cases hid : id = credential.reference
    · exact .inr (hid ▸ hcondemned credential List.mem_cons_self)
    · refine .inl ?_
      unfold deleteVault
      split
      · exact (AList.lookup_erase_ne hid).trans hv
      · exact hv
  | forget done =>
    simp only [nextCleanup] at hnext
    split at hnext <;> cases hnext
    refine h.cleanup hc (fun _ => rfl) ?_ (fun _ _ hv => .inl hv) (fun id hin => .inl hin)
      fun x hx => hcondemned x (List.mem_cons_of_mem _ hx)
    split
    · exact fade_forget _ _
    · exact .refl _ _
  | unlock =>
    simp only [nextCleanup] at hnext
    split at hnext <;> cases hnext
    exact h.cleanup hc (fun hh => by cases hh) (.refl _ _) (fun _ _ hv => .inl hv) (fun id hin => .inl hin)
      fun x hx => by cases hx
  | cancel deleting =>
    simp only [nextCleanup] at hnext
    split at hnext <;> cases hnext
    · next credential todo =>
      refine h.cleanup hc (fun hh => by cases hh) (.refl _ _) (fun _ _ hv => .inl hv) (fun id hin => ?_)
        fun x hx => by cases hx
      split at hin
      · rcases List.mem_cons.mp hin with rfl | hin
        · exact hcondemned credential List.mem_cons_self
        · exact .inl hin
      · exact .inl hin
    · exact h.cleanup hc (fun hh => by cases hh) (.refl _ _) (fun _ _ hv => .inl hv) (fun id hin => .inl hin)
        fun x hx => by cases hx

-- ---------------------------------------------------------------------------
-- Every step
-- ---------------------------------------------------------------------------

theorem accept_cases {ν : Type} [DecidableEq ν] (r : Rules ν) (server : String) (expected : Nat)
    (change : Layer ν → Except ClientError (Layer ν)) (s : Keyring) :
    ∃ store, s.accept (s.store.updateConfig r server expected change) = { s with store } ∧
      Fade (fun _ => False) s.store store := by
  cases hresult : s.store.updateConfig r server expected change with
  | error e => exact ⟨s.store, rfl, .refl _ _⟩
  | ok x => exact ⟨x.2, rfl, fade_updateConfig hresult⟩

theorem orderly_start : Orderly {} where
  lock _ _ _ _ h := by cases h
  drawn _ _ h := by cases h
  distinct _ _ _ _ h := by cases h
  ssh _ _ h := by cases h
  credentials _ _ h := by cases h
  gone id hid := by
    rcases hid with hid | ⟨_, _, hc, -⟩
    · cases hid
    · cases hc
  kept _ _ h := by cases h

theorem orderly_next {ν : Type} [DecidableEq ν] {r : Rules ν} {e : KeyringEvent} (h : s.Orderly)
    (hnext : s.next r e = some t) : t.Orderly := by
  cases e with
  | saveConnection server =>
    simp only [next] at hnext
    split at hnext <;> cases hnext
    exact h.fade (fade_same rfl rfl)
  | removeServer server =>
    cases hnext
    exact h.fade (fade_removeServer s.store server)
  | forgetPassword server =>
    cases hnext
    exact h.fade (fade_retireSsh s.store fun _ c => c.server = server)
  | setMany server changes expected =>
    obtain ⟨store, heq, hfade⟩ := accept_cases r server expected (setAll r changes) s
    cases hnext
    exact heq ▸ h.fade hfade
  | unset server key expected =>
    obtain ⟨store, heq, hfade⟩ := accept_cases r server expected (fun layer => layer.unset r key) s
    cases hnext
    exact heq ▸ h.fade hfade
  | tick seconds =>
    cases hnext
    exact h.fade (fade_same rfl rfl)
  | start n purpose value reference =>
    simp only [next] at hnext
    split at hnext <;> cases hnext
    next hok =>
    simp only [Bool.or_eq_true, decide_eq_true_eq, not_or, Bool.not_eq_true, Option.isSome_eq_false_iff,
      Option.isNone_iff_eq_none] at hok
    obtain ⟨⟨hfresh, hnone⟩, -⟩ := hok
    have hlookup : ∀ m u, (s.writers.insert n { purpose, value, reference }).lookup m = some u →
        (m = n ∧ u = { purpose, value, reference }) ∨ s.writers.lookup m = some u := by
      intro m u hu
      rw [Table.lookup_insert_if] at hu
      split at hu
      · next heq => exact .inl ⟨heq, (Option.some.inj hu).symm⟩
      · exact .inr hu
    have hkeep : ∀ m u, s.writers.lookup m = some u →
        (s.writers.insert n { purpose, value, reference }).lookup m = some u := by
      intro m u hu
      rw [Table.lookup_insert_if, if_neg]
      · exact hu
      · rintro rfl
        rw [hnone] at hu
        cases hu
    have hunused : ∀ m u, s.writers.lookup m = some u → u.reference ≠ reference :=
      fun m u hu heq => hfresh (heq ▸ h.drawn m u hu)
    refine ⟨fun k c m u hc hholds hu => ?_, fun m u hu => ?_, fun m k u u' hu hu' heq => ?_, fun id row hrow => ?_,
      fun id c hc => ?_, fun id hid => ?_, fun m u hu hk => ?_⟩
    · rcases hlookup m u hu with ⟨-, rfl⟩ | hu
      · rfl
      · exact h.lock k c m u hc hholds hu
    · rcases hlookup m u hu with ⟨-, rfl⟩ | hu
      · exact List.mem_cons_self
      · exact List.mem_cons_of_mem _ (h.drawn m u hu)
    · rcases hlookup m u hu with ⟨hm, rfl⟩ | hold <;> rcases hlookup k u' hu' with ⟨hk, rfl⟩ | hold'
      · exact hm.trans hk.symm
      · exact absurd heq.symm (hunused _ _ hold')
      · exact absurd heq (hunused _ _ hold)
      · exact h.distinct _ _ _ _ hold hold' heq
    · obtain ⟨m, u, hu, howner⟩ := h.ssh id row hrow
      exact ⟨m, u, hkeep m u hu, howner⟩
    · obtain ⟨hmanaged, m, u, hu, howner⟩ := h.credentials id c hc
      exact ⟨hmanaged, m, u, hkeep m u hu, howner⟩
    · have hgone := h.gone id hid
      refine ⟨List.mem_cons_of_mem _ hgone.drawn, hgone.ssh, hgone.credentials, fun m u hu href => ?_⟩
      rcases hlookup m u hu with ⟨-, rfl⟩ | hu
      · obtain rfl : reference = id := href
        exact absurd hgone.drawn hfresh
      · exact hgone.ended m u hu href
    · rcases hlookup m u hu with ⟨-, rfl⟩ | hu
      · cases hk
      · exact h.kept m u hu hk
  | writer n step =>
    obtain ⟨w, hw, hstep⟩ := Option.bind_eq_some_iff.mp hnext
    exact orderly_nextWriter h hw hstep
  | look n =>
    simp only [next] at hnext
    split at hnext <;> cases hnext
    have hlookup : ∀ m c, (s.cleanups.insert n .wanted).lookup m = some c →
        c = .wanted ∨ s.cleanups.lookup m = some c := by
      intro m c hc
      rw [Table.lookup_insert_if] at hc
      split at hc
      · exact .inl (Option.some.inj hc).symm
      · exact .inr hc
    refine ⟨fun m c k w hm hholds hw => ?_, h.drawn, h.distinct, h.ssh, h.credentials, fun id hid => ?_, h.kept⟩
    · rcases hlookup m c hm with rfl | hm
      · cases hholds
      · exact h.lock m c k w hm hholds hw
    · have hbefore : s.Condemned id := by
        rcases hid with hin | ⟨m, c, hm, credential, hin, rfl⟩
        · exact .inl hin
        · rcases hlookup m c hm with rfl | hm
          · cases hin
          · exact .inr ⟨m, c, hm, credential, hin, rfl⟩
      have hgone := h.gone id hbefore
      exact ⟨hgone.drawn, hgone.ssh, hgone.credentials, hgone.ended⟩
  | cleanup n step =>
    obtain ⟨c, hc, hstep⟩ := Option.bind_eq_some_iff.mp hnext
    exact orderly_nextCleanup h hc hstep
  | settleDelete reference done =>
    simp only [next] at hnext
    split at hnext <;> cases hnext
    next hin =>
    have hcondemned : s.Condemned reference := .inl hin
    have hkept : ∀ id v, s.vault.lookup id = some v →
        ({ s with deleting := s.deleting.erase reference }.deleteVault reference done).vault.lookup id = some v ∨
          s.Condemned id := by
      intro id v hv
      by_cases hid : id = reference
      · exact .inr (hid ▸ hcondemned)
      · refine .inl ?_
        unfold deleteVault
        split
        · exact (AList.lookup_erase_ne hid).trans hv
        · exact hv
    have heq : { s with deleting := s.deleting.erase reference }.deleteVault reference done =
        { s with deleting := s.deleting.erase reference
                 vault := ({ s with deleting := s.deleting.erase reference }.deleteVault reference done).vault } := by
      unfold deleteVault
      split <;> rfl
    rw [heq]
    refine ⟨h.lock, h.drawn, h.distinct, h.ssh, h.credentials, fun id hid => ?_, fun m w hw hk => ?_⟩
    · have hbefore : s.Condemned id := hid.imp_left fun hid => List.mem_of_mem_erase hid
      have hgone := h.gone id hbefore
      exact ⟨hgone.drawn, hgone.ssh, hgone.credentials, hgone.ended⟩
    · rcases hkept _ _ (h.kept m w hw hk) with hsame | hcondemned
      · exact hsame
      · have hended := (h.gone _ hcondemned).ended m w hw rfl
        rw [hended] at hk
        cases hk

end Keyring

end RemoteCodex.Credentials
