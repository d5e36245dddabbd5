import RemoteCodex.Credentials.Consistency
import RemoteCodex.Credentials.Rotation

/-!
# A revision names one layer

While a server is known its revision only grows, and as long as it stays its
settings stay. An entry of the vault is what its writer was given.
-/

namespace RemoteCodex.Credentials

open Interact Store

-- ---------------------------------------------------------------------------
-- The rows of one server
-- ---------------------------------------------------------------------------

namespace Store

variable {ν : Type} [DecidableEq ν] {r : Rules ν} {s t u : Store} {server other : String} {layer : Layer ν}

def rowsOf (s : Store) (server : String) : List (Sigma fun _ : String × String => Setting) :=
  s.settings.entries.filter fun e => e.1.1 = server

theorem load_rows (h : t.rowsOf server = s.rowsOf server) : t.load r server = s.load r server := by
  unfold load
  exact congrArg (Layer.restoreAll r ∅) h

theorem filter_kerase {κ β : Type} [DecidableEq κ] {p : (Sigma fun _ : κ => β) → Bool} {a : κ}
    (hp : ∀ e, p e = true → a ≠ e.1) (l : List (Sigma fun _ : κ => β)) : (l.kerase a).filter p = l.filter p := by
  induction l with
  | nil => rfl
  | cons e l ih =>
    by_cases h : a = e.1
    · have hout : p e = false := by
        cases hpe : p e with
        | false => rfl
        | true => exact absurd h (hp e hpe)
      rw [List.kerase_cons_eq h, List.filter_cons, hout]
      rfl
    · rw [List.kerase_cons_ne h, List.filter_cons, List.filter_cons, ih]

theorem rows_insert {key : String} {row : Setting} (hne : server ≠ other) (hs : t.settings =
    s.settings.insert (other, key) row) : t.rowsOf server = s.rowsOf server := by
  have hout : ∀ e : (Sigma fun _ : String × String => Setting), decide (e.1.1 = server) = true → (other, key) ≠ e.1 := by
    intro e he heq
    rw [← heq] at he
    exact hne (of_decide_eq_true he).symm
  unfold rowsOf
  rw [hs]
  show List.filter _ (⟨(other, key), row⟩ :: List.kerase (other, key) s.settings.entries) = _
  rw [List.filter_cons]
  have hnew : decide (other = server) = false := decide_eq_false fun heq => hne heq.symm
  simp only [hnew, Bool.false_eq_true, if_false]
  exact filter_kerase hout _

theorem rows_deleteSettings (hne : server ≠ other) : (s.deleteSettings other).rowsOf server = s.rowsOf server := by
  unfold rowsOf deleteSettings
  rw [List.filter_filter]
  apply List.filter_congr
  intro e _
  by_cases h : e.1.1 = server
  · simp [h, hne]
  · simp [h]

omit [DecidableEq ν] in
theorem rows_saveSettings {l : List (Sigma fun _ : String => StoredSetting ν)} (hne : server ≠ other)
    (h : saveSettings r other s l = .ok t) : t.rowsOf server = s.rowsOf server := by
  induction l generalizing s with
  | nil =>
    cases h
    rfl
  | cons e l ih =>
    simp only [saveSettings, bind_ok] at h
    obtain ⟨u, hu, h⟩ := h
    refine (ih h).trans ?_
    unfold saveSetting at hu
    split at hu
    · cases hu
      exact rows_insert hne rfl
    · split at hu
      · split at hu <;> cases hu
        exact rows_insert hne rfl
      · cases hu

omit [DecidableEq ν] in
theorem rows_save (hne : server ≠ other) (h : s.save r other layer = .ok t) : t.rowsOf server = s.rowsOf server := by
  simp only [save, bind_ok, pure_ok] at h
  obtain ⟨u, hu, rfl⟩ := h
  exact (rows_saveSettings hne hu).trans (rows_deleteSettings hne)

-- ---------------------------------------------------------------------------
-- Revisions and layers, from one state to another
-- ---------------------------------------------------------------------------

/-- What has become of the settings of a known server. -/
inductive Onward (s t : Store) (server : String) : Prop
  | gone (h : server ∉ t.connections)
  | same (hin : server ∈ t.connections) (hrevision : t.revisions.lookup server = s.revisions.lookup server)
      (hrows : t.rowsOf server = s.rowsOf server)
  | later (hin : server ∈ t.connections) (ha : s.revisions.lookup server = some a)
      (hb : t.revisions.lookup server = some b) (hlt : a < b)

theorem Onward.trans (h : Onward s t server) (h' : Onward t u server) (hout : server ∉ t.connections →
    server ∉ u.connections) : Onward s u server := by
  cases h' with
  | gone h => exact .gone h
  | same hin hrevision hrows =>
    cases h with
    | gone hgone => exact absurd hin (hout hgone)
    | same _ hrevision' hrows' => exact .same hin (hrevision.trans hrevision') (hrows.trans hrows')
    | later _ ha hb hlt => exact .later hin ha (hrevision.trans hb) hlt
  | later hin ha hb hlt =>
    cases h with
    | gone hgone => exact absurd hin (hout hgone)
    | same _ hrevision' hrows' => exact .later hin (hrevision'.symm.trans ha) hb hlt
    | later _ ha' hb' hlt' =>
      obtain rfl := Option.some.inj (hb'.symm.trans ha)
      exact .later hin ha' hb (Nat.lt_trans hlt' hlt)

/-- The same revision has the same settings. -/
theorem Onward.snapshot {layer' : Layer ν} {n : Nat} (h : Onward s t server) (hs : s.configSnapshot r server = .ok (n, layer))
    (ht : t.configSnapshot r server = .ok (n, layer')) : layer = layer' := by
  simp only [configSnapshot, bind_ok, pure_ok] at hs ht
  obtain ⟨_, hrs, l, hls, _, -, heq⟩ := hs
  cases heq
  obtain ⟨_, hrt, l', hlt, _, -, heq⟩ := ht
  cases heq
  have ha := Keyring.revision_lookup hrs
  have hb := Keyring.revision_lookup hrt
  cases h with
  | gone hout =>
    unfold revision at hrt
    rw [if_neg hout] at hrt
    cases hrt
  | same _ hrevision hrows => exact Except.ok.inj (hls.symm.trans ((load_rows hrows).symm.trans hlt))
  | later _ ha' hb' hlt =>
    obtain rfl := Option.some.inj (ha.symm.trans ha')
    obtain rfl := Option.some.inj (hb.symm.trans hb')
    exact absurd hlt (Nat.lt_irrefl _)

end Store

namespace Keyring

variable {ν : Type} [DecidableEq ν] {r : Rules ν} {s t : Keyring} {e : KeyringEvent} {store : Store} {server : String}

/-- A server is known from its `saveConnection` on. -/
theorem Transaction.joined (ht : Transaction r s e store) (hin : server ∈ store.connections) :
    server ∈ s.store.connections ∨ e = .saveConnection server := by
  cases ht with
  | none => exact .inl hin
  | tick => exact .inl hin
  | saveConnection hnew hrevision =>
    rcases List.mem_cons.mp hin with rfl | hin
    · exact .inr rfl
    · exact .inl hin
  | removeServer => exact .inl (List.mem_filter.mp hin).1
  | forgetPassword => exact .inl hin
  | setMany h => exact .inl ((updateConfig_ssh h).2 ▸ hin)
  | unset h => exact .inl ((updateConfig_ssh h).2 ▸ hin)
  | setSecret hw hpurpose hphase h => exact .inl ((updateConfig_ssh h).2 ▸ hin)
  | activate hw hpurpose hphase h =>
    obtain ⟨-, -, _, -, -, -, rfl⟩ := activate_ok h
    exact .inl hin
  | reserveSsh hw hpurpose hphase h =>
    obtain ⟨-, rfl⟩ := fade_reserveSsh h
    exact .inl hin
  | reserve hw hpurpose hphase => exact .inl hin
  | retire hw =>
    refine .inl ?_
    unfold retired at hin
    split at hin <;> exact hin
  | retireStale hc => exact .inl hin
  | forget hc =>
    next credential _ =>
    refine .inl ?_
    cases credential <;> simp only [forgetRetiredCredential] at hin <;> split at hin <;> exact hin

theorem onward_next (h : s.Orderly) (hnext : s.next r e = some t) (hin : server ∈ s.store.connections) :
    Onward s.store t.store server := by
  have ht := transaction_next hnext
  by_cases hstays : server ∈ t.store.connections
  · cases ht.setup h with
    | update hu hupdate =>
      next server' expected change k =>
      obtain ⟨hrevision, before, after, hload, hchange, ⟨-, heq, -⟩ | ⟨hdiffers, saved, hsave, hadvance, -⟩⟩ :=
        updateConfig_ok hupdate
      · rw [heq]
        exact .same hin rfl rfl
      · obtain ⟨n, hn, -, heq⟩ := advance_ok hadvance
        by_cases hserver : server = server'
        · subst hserver
          rw [(apart_save hsave).revisions] at hn
          refine .later hstays hn ?_ (Nat.lt_succ_self n)
          rw [heq]
          exact AList.lookup_insert _
        · refine .same hstays ?_ ?_
          · rw [heq]
            refine (AList.lookup_insert_ne hserver).trans ?_
            rw [(apart_save hsave).revisions]
          · rw [heq]
            show saved.rowsOf server = s.store.rowsOf server
            exact rows_save hserver hsave
    | removeServer he hstore =>
      next server' =>
      have hserver : server ≠ server' := by
        rintro rfl
        rw [hstore] at hstays
        simp [removeServer, retireUnreferenced] at hstays
      refine .same hstays ?_ ?_
      · rw [hstore]
        exact AList.lookup_erase_ne hserver
      · rw [hstore]
        exact rows_deleteSettings hserver
    | saveConnection he hstore =>
      next server' =>
      have hserver : server ≠ server' := by
        rintro rfl
        subst he
        simp only [next] at hnext
        split at hnext
        · cases hnext
        · next hnew => exact hnew (.inl hin)
      refine .same hstays ?_ ?_
      · rw [hstore]
        exact AList.lookup_insert_ne hserver
      · rw [hstore]
        rfl
    | rest hsettings hrevisions hcredentials =>
      refine .same hstays (by rw [hrevisions]) ?_
      unfold rowsOf
      rw [hsettings]
  · exact .gone hstays

-- ---------------------------------------------------------------------------
-- The values of references
-- ---------------------------------------------------------------------------

/-- The value a reference was drawn for. -/
def Written (s : Keyring) (reference value : String) : Prop :=
  ∃ n w, s.writers.lookup n = some w ∧ w.reference = reference ∧ w.value = value

theorem Written.next {reference value : String} (h : s.Written reference value) (hnext : s.next r e = some t) :
    t.Written reference value := by
  obtain ⟨n, w, hw, rfl, rfl⟩ := h
  obtain ⟨w', hw', href, hvalue, -, -⟩ := writer_kept hnext hw
  exact ⟨n, w', hw', href, hvalue⟩

theorem Written.unique {reference a b : String} (hs : s.Orderly) (ha : s.Written reference a)
    (hb : s.Written reference b) : a = b := by
  obtain ⟨n, w, hw, rfl, rfl⟩ := ha
  obtain ⟨m, w', hw', href, rfl⟩ := hb
  obtain rfl := hs.distinct _ _ _ _ hw' hw href
  rw [Option.some.inj (hw.symm.trans hw')]

/-- What the vault has was written. -/
def Vouched (s : Keyring) : Prop := ∀ reference value, s.vault.lookup reference = some value → s.Written reference value

theorem vouched_next (h : s.Vouched) (hnext : s.next r e = some t) : t.Vouched := by
  intro reference value hvalue
  cases deposit_next hnext reference with
  | same hsame => exact (h reference value (hsame ▸ hvalue)).next hnext
  | put hu href hput =>
    obtain rfl := Option.some.inj (hput.symm.trans hvalue)
    exact Written.next ⟨_, _, hu, href, rfl⟩ hnext
  | deleted hid hnone =>
    rw [hnone] at hvalue
    cases hvalue

end Keyring

end RemoteCodex.Credentials
