import RemoteCodex.Credentials.Tasks

/-!
# What the transactions leave of a credential

A row keeps whom it is for, and what is retired stays retired until it is
forgotten: every transaction lets the rows fade, but for the one row a writer
reserves or activates.
-/

namespace RemoteCodex.Credentials

open Interact

theorem bind_ok {x : Except ε α} {f : α → Except ε β} : x >>= f = .ok b ↔ ∃ a, x = .ok a ∧ f a = .ok b := by
  cases x <;> simp [bind, Except.bind]

theorem pure_ok : (pure a : Except ε α) = .ok b ↔ a = b := by simp [pure, Except.pure]

theorem map_ok {f : α → β} {x : Except ε α} : x.map f = .ok b ↔ ∃ a, x = .ok a ∧ f a = b := by
  cases x <;> simp [Except.map]

theorem demand_ok {b : Bool} : demand b e = .ok u ↔ b = true := by
  cases b <;> simp [demand]

theorem orError_ok {o : Option α} : orError o e = .ok a ↔ o = some a := by
  cases o <;> simp [orError]

namespace Store

/-- Rows outside `own` are still what they were, retired, or gone. -/
structure Fade (own : String → Prop) (s t : Store) : Prop where
  ssh : ∀ id row, ¬ own id → t.ssh.lookup id = some row → ∃ old, s.ssh.lookup id = some old ∧
    row.server = old.server ∧ (row.state = old.state ∨ row.state = .retired)
  credentials : ∀ id c, ¬ own id → t.credentials.lookup id = some c → ∃ old, s.credentials.lookup id = some old ∧
    c.managed = old.managed ∧ (old.state = .retired → c.state = .retired)

variable {s t u : Store} {own : String → Prop}

theorem Fade.refl (own : String → Prop) (s : Store) : Fade own s s where
  ssh _ row _ h := ⟨row, h, rfl, .inl rfl⟩
  credentials _ c _ h := ⟨c, h, rfl, fun h => h⟩

theorem Fade.mono {own' : String → Prop} (h : Fade own s t) (hsub : ∀ id, own id → own' id) : Fade own' s t where
  ssh id row hown := h.ssh id row fun ho => hown (hsub id ho)
  credentials id c hown := h.credentials id c fun ho => hown (hsub id ho)

theorem Fade.trans (h : Fade own s t) (h' : Fade own t u) : Fade own s u where
  ssh id row hown hrow := by
    obtain ⟨mid, hmid, hserver, hstate⟩ := h'.ssh id row hown hrow
    obtain ⟨old, hold, hserver', hstate'⟩ := h.ssh id mid hown hmid
    refine ⟨old, hold, hserver.trans hserver', ?_⟩
    rcases hstate with hstate | hstate
    · rw [hstate]
      exact hstate'
    · exact .inr hstate
  credentials id c hown hc := by
    obtain ⟨mid, hmid, hmanaged, hstate⟩ := h'.credentials id c hown hc
    obtain ⟨old, hold, hmanaged', hstate'⟩ := h.credentials id mid hown hmid
    exact ⟨old, hold, hmanaged.trans hmanaged', fun hr => hstate (hstate' hr)⟩

/-- The tables are the same. -/
theorem fade_same (hssh : t.ssh = s.ssh) (hcredentials : t.credentials = s.credentials) : Fade own s t where
  ssh _ row _ h := ⟨row, hssh ▸ h, rfl, .inl rfl⟩
  credentials _ c _ h := ⟨c, hcredentials ▸ h, rfl, fun h => h⟩

theorem fade_retireSsh (s : Store) (p : String → SshCredential → Bool) : Fade own s (s.retireSsh p) where
  ssh id row _ h := by
    simp only [retireSsh, Table.lookup_update, Option.map_eq_some_iff] at h
    obtain ⟨old, hold, rfl⟩ := h
    refine ⟨old, hold, ?_⟩
    split
    · exact ⟨rfl, .inr rfl⟩
    · exact ⟨rfl, .inl rfl⟩
  credentials id c _ h := ⟨c, h, rfl, fun h => h⟩

/-- Some environment credentials are retired. -/
theorem fade_retire (hssh : t.ssh = s.ssh) (p : String → Credential → Bool)
    (hcredentials : t.credentials = s.credentials.update fun id c => if p id c then { c with state := .retired } else c) :
    Fade own s t where
  ssh id row _ h := ⟨row, hssh ▸ h, rfl, .inl rfl⟩
  credentials id c _ h := by
    rw [hcredentials, Table.lookup_update, Option.map_eq_some_iff] at h
    obtain ⟨old, hold, rfl⟩ := h
    refine ⟨old, hold, ?_⟩
    split
    · exact ⟨rfl, fun _ => rfl⟩
    · exact ⟨rfl, fun h => h⟩

theorem fade_retireUnreferenced (s : Store) : Fade own s s.retireUnreferenced :=
  fade_retire rfl (fun id c => c.managed && c.state = .active && !s.referenced id) rfl

theorem fade_retireCredential (s : Store) (id : String) : Fade own s (s.retireCredential id) :=
  fade_retire rfl (fun k c => k = id && c.managed && c.state = .pending) rfl

theorem fade_removeServer (s : Store) (id : String) : Fade own s (s.removeServer id) := by
  have hforget : Fade own s (s.forgetSshCredentials id) := fade_retireSsh s fun _ c => c.server = id
  refine hforget.trans (Fade.trans ?_ (fade_retireUnreferenced _))
  exact fade_same rfl rfl

theorem fade_retireStale (s : Store) : Fade own s s.retireStale :=
  (fade_retireSsh s fun _ c => c.state = .pending && s.stale c.created).trans
    (fade_retire rfl (fun _ c => c.managed && c.state = .pending && s.stale c.created) rfl)

theorem fade_forget (s : Store) (credential : RetiredCredential) : Fade own s (s.forgetRetiredCredential credential) := by
  cases credential with
  | environment k =>
    simp only [forgetRetiredCredential]
    split
    · refine ⟨fun id row _ h => ⟨row, h, rfl, .inl rfl⟩, fun id c _ h => ?_⟩
      rw [Table.lookup_erase_if] at h
      split at h
      · cases h
      · exact ⟨c, h, rfl, fun h => h⟩
    · exact .refl _ _
  | ssh k =>
    simp only [forgetRetiredCredential]
    split
    · refine ⟨fun id row _ h => ?_, fun id c _ h => ⟨c, h, rfl, fun h => h⟩⟩
      rw [Table.lookup_erase_if] at h
      split at h
      · cases h
      · exact ⟨row, h, rfl, .inl rfl⟩
    · exact .refl _ _

section Settings

variable {ν : Type} [DecidableEq ν] {r : Rules ν} {server : String}

omit [DecidableEq ν] in
theorem fade_saveSetting {key : String} {setting : StoredSetting ν} (h : s.saveSetting r server key setting = .ok t) :
    Fade own s t := by
  unfold saveSetting at h
  split at h
  · cases h
    exact fade_same rfl rfl
  · split at h
    · next reference _ c hc =>
      split at h
      · cases h
      · next hstate =>
        cases h
        refine ⟨fun id row _ h => ⟨row, h, rfl, .inl rfl⟩, fun id c' _ h => ?_⟩
        rw [Table.lookup_insert_if] at h
        split at h
        · next heq =>
          cases h
          exact ⟨c, heq ▸ hc, rfl, fun hr => absurd hr hstate⟩
        · exact ⟨c', h, rfl, fun h => h⟩
    · cases h

omit [DecidableEq ν] in
theorem fade_saveSettings {l : List (Sigma fun _ : String => StoredSetting ν)}
    (h : saveSettings r server s l = .ok t) : Fade own s t := by
  induction l generalizing s with
  | nil =>
    cases h
    exact .refl _ _
  | cons e l ih =>
    simp only [saveSettings, bind_ok] at h
    obtain ⟨u, hu, h⟩ := h
    exact (fade_saveSetting hu).trans (ih h)

omit [DecidableEq ν] in
theorem fade_save {layer : Layer ν} (h : s.save r server layer = .ok t) : Fade own s t := by
  simp only [save, bind_ok, pure_ok] at h
  obtain ⟨u, hu, rfl⟩ := h
  have hdelete : Fade own s (s.deleteSettings server) := fade_same rfl rfl
  exact hdelete.trans ((fade_saveSettings hu).trans (fade_retireUnreferenced u))

/-- Only settings and their credentials differ. -/
structure Apart (s t : Store) : Prop where
  ssh : t.ssh = s.ssh
  connections : t.connections = s.connections
  revisions : t.revisions = s.revisions
  now : t.now = s.now

theorem Apart.refl (s : Store) : Apart s s := ⟨rfl, rfl, rfl, rfl⟩

theorem Apart.trans (h : Apart s t) (h' : Apart t u) : Apart s u :=
  ⟨h'.ssh.trans h.ssh, h'.connections.trans h.connections, h'.revisions.trans h.revisions, h'.now.trans h.now⟩

omit [DecidableEq ν] in
theorem apart_saveSetting {key : String} {setting : StoredSetting ν} (h : s.saveSetting r server key setting = .ok t) :
    Apart s t := by
  unfold saveSetting at h
  split at h
  · cases h
    exact ⟨rfl, rfl, rfl, rfl⟩
  · split at h
    · split at h <;> cases h
      exact ⟨rfl, rfl, rfl, rfl⟩
    · cases h

omit [DecidableEq ν] in
theorem apart_saveSettings {l : List (Sigma fun _ : String => StoredSetting ν)} (h : saveSettings r server s l = .ok t) :
    Apart s t := by
  induction l generalizing s with
  | nil =>
    cases h
    exact .refl _
  | cons e l ih =>
    simp only [saveSettings, bind_ok] at h
    obtain ⟨u, hu, h⟩ := h
    exact (apart_saveSetting hu).trans (ih h)

omit [DecidableEq ν] in
theorem apart_save {layer : Layer ν} (h : s.save r server layer = .ok t) : Apart s t := by
  simp only [save, bind_ok, pure_ok] at h
  obtain ⟨u, hu, rfl⟩ := h
  obtain ⟨hssh, hconnections, hrevisions, hnow⟩ := apart_saveSettings hu
  exact ⟨hssh, hconnections, hrevisions, hnow⟩

theorem advance_ok (h : s.advance server = .ok t) : ∃ n, s.revisions.lookup server = some n ∧ n < MAX_REVISION ∧
    t = { s with revisions := s.revisions.insert server (n + 1) } := by
  unfold advance at h
  split at h
  · next n hn =>
    split at h
    · next hlt =>
      cases h
      exact ⟨n, hn, hlt, rfl⟩
    · cases h
  · cases h

/-- An update that is accepted has the current revision, and changes nothing or saves a new layer. -/
theorem updateConfig_ok {expected revision : Nat} {change : Layer ν → Except ClientError (Layer ν)}
    (h : s.updateConfig r server expected change = .ok (revision, t)) :
    s.revision server = .ok expected ∧ ∃ before after, s.load r server = .ok before ∧ change before = .ok after ∧
      ((before.same after = true ∧ t = s ∧ revision = expected) ∨
        (before.same after = false ∧ ∃ saved, s.save r server after = .ok saved ∧ saved.advance server = .ok t ∧
          t.revision server = .ok revision)) := by
  simp only [updateConfig, configSnapshot, bind_ok, demand_ok, pure_ok] at h
  obtain ⟨⟨current, before⟩, ⟨_, hrevision, _, hload, _, -, heq⟩, _, hexpected, after, hchange, h⟩ := h
  cases heq
  obtain rfl := of_decide_eq_true hexpected
  refine ⟨hrevision, before, after, hload, hchange, ?_⟩
  unfold replace at h
  split at h
  · next hsame =>
    simp only [bind_ok, pure_ok, Prod.mk.injEq] at h
    obtain ⟨_, hagain, rfl, rfl⟩ := h
    exact .inl ⟨hsame, rfl, Except.ok.inj (hagain.symm.trans hrevision)⟩
  · next hsame =>
    simp only [bind_ok, demand_ok, pure_ok, Prod.mk.injEq] at h
    obtain ⟨-, -, saved, hsave, t', hadvance, _, hnew, rfl, rfl⟩ := h
    exact .inr ⟨by simpa using hsame, saved, hsave, hadvance, hnew⟩

theorem fade_updateConfig {expected revision : Nat} {change : Layer ν → Except ClientError (Layer ν)}
    (h : s.updateConfig r server expected change = .ok (revision, t)) : Fade own s t := by
  obtain ⟨-, _, _, -, -, ⟨-, rfl, -⟩ | ⟨-, saved, hsave, hadvance, -⟩⟩ := updateConfig_ok h
  · exact .refl _ _
  · obtain ⟨n, -, -, rfl⟩ := advance_ok hadvance
    exact (fade_save hsave).trans (fade_same rfl rfl)

theorem updateConfig_ssh {expected k : Nat} {change : Layer ν → Except ClientError (Layer ν)}
    (h : s.updateConfig r server expected change = .ok (k, t)) : t.ssh = s.ssh ∧ t.connections = s.connections := by
  obtain ⟨-, _, _, -, -, ⟨-, rfl, -⟩ | ⟨-, saved, hsave, hadvance, -⟩⟩ := updateConfig_ok h
  · exact ⟨rfl, rfl⟩
  · obtain ⟨n, -, -, rfl⟩ := advance_ok hadvance
    obtain ⟨hssh, hconnections, -⟩ := apart_save hsave
    exact ⟨hssh, hconnections⟩

end Settings

theorem fade_reserveSsh {server id target : String} (h : s.reserveSshCredential server id target = .ok t) :
    server ∈ s.connections ∧ t = { s with ssh := s.ssh.insert id { server, target, created := s.now } } := by
  unfold reserveSshCredential at h
  split at h
  · next hin =>
    cases h
    exact ⟨hin, rfl⟩
  · cases h

theorem activate_ok {server next : String} {expected : Option String}
    (h : s.activateSshCredential server expected next = .ok t) :
    s.sshCredential server = expected ∧ server ∈ s.connections ∧ ∃ row, s.ssh.lookup next = some row ∧
      row.server = server ∧ row.state = .pending ∧
      t = { s with ssh :=
        (s.retireSsh fun _ c => c.server = server && c.state = .active).ssh.insert next { row with state := .active } } := by
  unfold activateSshCredential at h
  split at h
  · cases h
  · next hexpected =>
    dsimp only at h
    split at h
    · next row hrow =>
      split at h
      · next hok =>
        cases h
        simp only [Bool.and_eq_true, decide_eq_true_eq] at hok
        obtain ⟨⟨hserver, hstate⟩, hin⟩ := hok
        simp only [retireSsh, Table.lookup_update, Option.map_eq_some_iff] at hrow
        obtain ⟨old, hold, heq⟩ := hrow
        split at heq
        · subst heq
          cases hstate
        · subst heq
          exact ⟨Decidable.not_not.mp hexpected, hin, old, hold, hserver, hstate, rfl⟩
      · cases h
    · cases h

theorem fade_activate {server next : String} {expected : Option String}
    (h : s.activateSshCredential server expected next = .ok t) : Fade (fun id => id = next) s t := by
  obtain ⟨-, -, row, -, -, -, rfl⟩ := activate_ok h
  refine (fade_retireSsh s fun _ c => c.server = server && c.state = .active).trans
    ⟨fun id row' hne h => ?_, fun id c _ h => ⟨c, h, rfl, fun h => h⟩⟩
  rw [AList.lookup_insert_ne hne] at h
  exact ⟨row', h, rfl, .inl rfl⟩

end Store

end RemoteCodex.Credentials
