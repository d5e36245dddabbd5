import RemoteCodex.Tabs.Moves

/-!
# Drafts

What a move leaves of the tabs, and that no read gets at a tab that was closed
or moved since it was called.
-/

namespace RemoteCodex.Tabs

open Interact

variable {s t : State} {server : String} {source destination : Path} {tab : FileTab}

-- ---------------------------------------------------------------------------
-- What a move leaves
-- ---------------------------------------------------------------------------

theorem relocate_keys (hkeys : (s.tabs.map fun tab => tab.key).Nodup) :
    ((s.relocate server source destination).tabs.map fun tab => tab.key).Nodup := by
  obtain ⟨done, hinv, -⟩ := moveLoop_invariant hkeys server source destination
  rw [State.relocate, List.map_map, List.Nodup, List.pairwise_map]
  exact hinv.apart.imp fun hab => hab.2

/-- What becomes of a tab: it is settled, or it gave way while it was not guarded. -/
theorem relocate_cases (hkeys : (s.tabs.map fun tab => tab.key).Nodup) (server : String) (source destination : Path)
    {i : Nat} (htab : s.tabs[i]? = some tab) :
    (∃ u ∈ (s.relocate server source destination).tabs, Settled s.tabs server source destination i tab u) ∨
      ∃ v, Form server source destination tab v ∧ v.guarded = false ∧
        ∃ j other, s.tabs[j]? = some other ∧ j ≠ i ∧ other.Moving server source destination ∧
          other.moves server source destination ∈ (s.relocate server source destination).tabs ∧
          (other.moves server source destination).key = v.key := by
  obtain ⟨done, hinv, hdone⟩ := moveLoop_invariant hkeys server source destination
  by_cases hthere : ∃ slot ∈ (s.moveLoop server source destination).slots, slot.1 = i
  · obtain ⟨slot, hmem, rfl⟩ := hthere
    obtain ⟨orig, horig, hsettled⟩ := hinv.settled slot hmem (hdone _ _ htab)
    obtain rfl := Option.some.inj (horig.symm.trans htab)
    exact .inl ⟨slot.2, List.mem_map_of_mem hmem, hsettled⟩
  · obtain ⟨v, hv, hg, j, -, other, hother, hji, hmoving, hin, hkey⟩ :=
      hinv.gone i tab htab fun slot hmem heq => hthere ⟨slot, hmem, heq⟩
    exact .inr ⟨v, hv, hg, j, other, hother, hji, hmoving, List.mem_map_of_mem hin, hkey⟩

/-- Different places hold different keys. -/
theorem key_ne (hkeys : (s.tabs.map fun tab => tab.key).Nodup) {i j : Nat} {other : FileTab}
    (htab : s.tabs[i]? = some tab) (hother : s.tabs[j]? = some other) (hne : j ≠ i) : other.key ≠ tab.key := by
  obtain ⟨hi, rfl⟩ := List.getElem?_eq_some_iff.mp htab
  obtain ⟨hj, rfl⟩ := List.getElem?_eq_some_iff.mp hother
  have hpairs := List.pairwise_iff_getElem.mp (List.pairwise_map.mp hkeys)
  rcases lt_or_gt_of_ne hne with hlt | hlt
  · exact hpairs j i hj hi hlt
  · exact (hpairs i j hi hj hlt).symm

theorem relocate_outside (hkeys : (s.tabs.map fun tab => tab.key).Nodup) (htab : tab ∈ s.tabs)
    (hstay : ¬ tab.Moving server source destination) :
    tab ∈ (s.relocate server source destination).tabs ∨ (tab.guarded = false ∧
      ∃ other ∈ s.tabs, other.Moving server source destination ∧
        other.moves server source destination ∈ (s.relocate server source destination).tabs ∧
        (other.moves server source destination).key = tab.key) := by
  obtain ⟨i, hi⟩ := List.getElem?_of_mem htab
  rcases relocate_cases hkeys server source destination hi with ⟨u, hu, hsettled⟩ | ⟨v, hform, hg, hrest⟩
  · cases hsettled with
    | stays _ => exact .inl hu
    | waits hm _ => exact absurd hm hstay
    | moves hm => exact absurd hm hstay
  · cases hform with
    | waits hm => exact absurd hm hstay
    | moves hm => exact absurd hm hstay
    | same =>
      obtain ⟨j, other, hother, -, hmoving, hin, hkey⟩ := hrest
      exact .inr ⟨hg, other, List.mem_of_getElem? hother, hmoving, hin, hkey⟩

/-- No other tab that the move concerns lands where `tab` does. -/
def Alone (s : State) (server : String) (source destination : Path) (tab : FileTab) : Prop :=
  ∀ other ∈ s.tabs, other.key ≠ tab.key → other.Moving server source destination →
    other.landingKey server source destination ≠ tab.landingKey server source destination

/-- A guarded tab that gives way was moved to where another one lands, unless unsaved text or a transfer holds it. -/
theorem relocate_guarded (hkeys : (s.tabs.map fun tab => tab.key).Nodup) (htab : tab ∈ s.tabs)
    (hmoving : tab.Moving server source destination)
    (hguard : tab.Fast ∨ (tab.guarded = true ∧ tab.nextPath source destination ≠ [] ∧
      Alone s server source destination tab)) :
    tab.waits source destination ∈ (s.relocate server source destination).tabs ∨
      tab.moves server source destination ∈ (s.relocate server source destination).tabs := by
  obtain ⟨i, hi⟩ := List.getElem?_of_mem htab
  rcases relocate_cases hkeys server source destination hi with ⟨u, hu, hsettled⟩ | ⟨v, hform, hg, hrest⟩
  · cases hsettled with
    | stays hm => exact absurd hmoving hm
    | waits _ _ => exact .inl hu
    | moves _ => exact .inr hu
  · rcases hguard with hfast | ⟨hguarded, hnext, halone⟩
    · have hvfast : v.Fast := by
        cases hform with
        | same => exact hfast
        | waits _ => exact FileTab.fast_waits hfast
        | moves _ => exact FileTab.fast_moves hfast
      exact absurd (FileTab.guarded_of_fast hvfast) (by simp [hg])
    · cases hform with
      | same => exact absurd hguarded (by simp [hg])
      | waits _ => exact absurd (FileTab.guarded_waits hnext) (by simp [hg])
      | moves _ =>
        obtain ⟨j, other, hother, hji, hm, -, hkey⟩ := hrest
        exact absurd hkey (halone other (List.mem_of_getElem? hother) (key_ne hkeys hi hother hji) hm)

/-- A move of a path onto itself takes a tab there that waits for it, when nothing is in its way. -/
theorem relocate_completes (hkeys : (s.tabs.map fun tab => tab.key).Nodup) (htab : tab ∈ s.tabs)
    (hmoving : tab.Moving server source destination) (hguarded : tab.guarded = true)
    (hnext : tab.nextPath source destination ≠ []) (halone : Alone s server source destination tab)
    (hfree : ∀ other ∈ s.tabs, other.key ≠ tab.key → other.key ≠ tab.landingKey server source destination) :
    tab.moves server source destination ∈ (s.relocate server source destination).tabs := by
  obtain ⟨i, hi⟩ := List.getElem?_of_mem htab
  rcases relocate_cases hkeys server source destination hi with ⟨u, hu, hsettled⟩ | ⟨v, hform, hg, hrest⟩
  · cases hsettled with
    | stays hm => exact absurd hmoving hm
    | moves _ => exact hu
    | waits _ hblocked =>
      obtain ⟨j, other, v, hother, hji, hform, hkey⟩ := hblocked
      have hmem := List.mem_of_getElem? hother
      have hne := key_ne hkeys hi hother hji
      cases hform with
      | same => exact absurd hkey (hfree other hmem hne)
      | waits _ => exact absurd hkey (hfree other hmem hne)
      | moves hm => exact absurd hkey (halone other hmem hne hm)
  · cases hform with
    | same => exact absurd hguarded (by simp [hg])
    | waits _ => exact absurd (FileTab.guarded_waits hnext) (by simp [hg])
    | moves _ =>
      obtain ⟨j, other, hother, hji, hm, -, hkey⟩ := hrest
      exact absurd hkey (halone other (List.mem_of_getElem? hother) (key_ne hkeys hi hother hji) hm)

/-- A path below the top lands under its own key. -/
theorem landingKey_eq (tab : FileTab) (server : String) (source destination : Path)
    (h : ∃ rest, tab.nextPath source destination = '/' :: rest) :
    tab.landingKey server source destination = fileKey server (tab.nextPath source destination) [] := by
  unfold FileTab.landingKey FileTab.landing fileKey
  split
  · next path hpath => rw [remotePath_relative hpath h]
  · rw [remotePath_top h]

/-- A move takes the token of every tab that it changes. -/
theorem relocate_reads (hkeys : (s.tabs.map fun tab => tab.key).Nodup) (htab : tab ∈ s.tabs)
    (hgone : tab ∉ (s.relocate server source destination).tabs) :
    (s.relocate server source destination).generations.lookup tab.key = none := by
  obtain ⟨done, hinv, -⟩ := moveLoop_invariant hkeys server source destination
  obtain ⟨i, hi⟩ := List.getElem?_of_mem htab
  rcases hinv.reads i tab hi with hin | hnone
  · exact absurd (List.mem_map_of_mem hin) hgone
  · exact hnone

-- ---------------------------------------------------------------------------
-- Reads
-- ---------------------------------------------------------------------------

theorem Loop.step_generations {loop : Loop} {slot : Nat × FileTab} {key : Key} {token : Nat}
    (h : (Loop.step server source destination loop slot).generations.lookup key = some token) :
    loop.generations.lookup key = some token := by
  have herase : ∀ {t : Table Key Nat} {key' : Key}, (AList.erase key' t).lookup key = some token →
      t.lookup key = some token := by
    intro t key' h
    rw [Table.lookup_erase_if] at h
    split at h
    · cases h
    · exact h
  unfold Loop.step at h
  dsimp only at h
  split at h
  · split at h
    · exact herase h
    · split at h
      · exact herase h
      · exact herase (herase h)
  · exact h

theorem relocate_generations {key : Key} {token : Nat}
    (h : (s.relocate server source destination).generations.lookup key = some token) :
    s.generations.lookup key = some token := by
  have hfold : ∀ (order : List (Nat × FileTab)) (loop : Loop),
      (order.foldl (Loop.step server source destination) loop).generations.lookup key = some token →
        loop.generations.lookup key = some token := by
    intro order
    induction order with
    | nil => exact fun _ h => h
    | cons slot order ih => exact fun loop h => Loop.step_generations (ih _ h)
  exact hfold _ _ h

/-- The read is not current, and its token will not be given again. -/
structure Dead (s : State) (r : Request) : Prop where
  old : r.token < s.next
  key : s.generations.lookup r.file.key ≠ some r.token

/-- Tokens only get fresh ones beside them. -/
structure Tokens (s t : State) : Prop where
  next : s.next ≤ t.next
  given : ∀ {key token}, t.generations.lookup key = some token → s.generations.lookup key = some token ∨ token = s.next

theorem Dead.mono {r : Request} (h : Dead s r) (ht : Tokens s t) : Dead t r where
  old := lt_of_lt_of_le h.old ht.next
  key heq := by
    rcases ht.given heq with heq | heq
    · exact h.key heq
    · exact absurd h.old (by rw [heq]; exact lt_irrefl _)

theorem tokens_load (s : State) (file : File) : Tokens s (s.load file) where
  next := Nat.le_succ _
  given h := by
    simp only [State.load, Table.lookup_insert_if] at h
    split at h
    · exact .inr (Option.some.inj h).symm
    · exact .inl h

theorem tokens_refl (s : State) : Tokens s s := ⟨le_refl _, .inl⟩

theorem tokens_erase (s : State) {tabs : List FileTab} {requests : List Request} (key : Key) :
    Tokens s { s with tabs, requests, generations := AList.erase key s.generations } where
  next := le_refl _
  given h := by
    rw [Table.lookup_erase_if] at h
    split at h
    · cases h
    · exact .inl h

theorem tokens_step {e : Event} (h : s.step e = some t) : Tokens s t := by
  cases e with
  | «open» context server root path =>
    obtain rfl := Option.some.inj h
    unfold State.open
    split
    · exact tokens_refl s
    · exact tokens_load s _
  | retry key =>
    obtain rfl := Option.some.inj h
    unfold State.retry
    split
    · exact tokens_refl s
    · split
      · exact tokens_load s _
      · exact tokens_load s _
      · exact tokens_refl s
  | settle request content =>
    simp only [State.step, State.settle] at h
    split at h
    · cases h
    · split at h
      · obtain rfl := Option.some.inj h
        exact tokens_erase s _
      · obtain rfl := Option.some.inj h
        exact ⟨le_refl _, .inl⟩
  | close key =>
    obtain rfl := Option.some.inj h
    exact tokens_erase s key
  | relocate server source destination =>
    obtain rfl := Option.some.inj h
    exact ⟨le_refl _, fun h => .inl (relocate_generations h)⟩
  | update key values =>
    obtain rfl := Option.some.inj h
    exact ⟨le_refl _, .inl⟩
  | adopt context file =>
    obtain rfl := Option.some.inj h
    exact ⟨le_refl _, .inl⟩
  | setTransfer key transferring =>
    obtain rfl := Option.some.inj h
    exact ⟨le_refl _, .inl⟩
  | bind key context =>
    obtain rfl := Option.some.inj h
    exact ⟨le_refl _, .inl⟩
  | locationFailed key error =>
    obtain rfl := Option.some.inj h
    exact ⟨le_refl _, .inl⟩

/-- A dead read changes no tab. -/
theorem settle_dead {r : Request} (hd : Dead s r) {i : Nat} (hr : s.requests[i]? = some r) {content : Content}
    (h : s.step (.settle i content) = some t) : t.tabs = s.tabs := by
  simp only [State.step, State.settle, hr] at h
  rw [if_neg hd.key] at h
  obtain rfl := Option.some.inj h
  rfl

-- ---------------------------------------------------------------------------
-- Runs
-- ---------------------------------------------------------------------------

structure Sound (s : State) : Prop where
  keys : (s.tabs.map fun tab => tab.key).Nodup
  requests : ∀ r ∈ s.requests, r.token < s.next

theorem mapKey_keys (s : State) (key : Key) {f : FileTab → FileTab} (hf : ∀ tab, tab.key = key → (f tab).key = key) :
    (s.mapKey key f).tabs.map (fun tab => tab.key) = s.tabs.map fun tab => tab.key := by
  simp only [State.mapKey, List.map_map]
  apply List.map_congr_left
  intro tab _
  simp only [Function.comp_apply]
  split
  · next h => exact (hf tab h).trans h.symm
  · rfl

theorem not_mem_keys (h : s.get key = none) : key ∉ s.tabs.map fun tab => tab.key := by
  intro hmem
  obtain ⟨tab, htab, hkey⟩ := List.mem_map.mp hmem
  exact List.find?_eq_none.mp h tab htab (by simpa using hkey)

namespace Sound

theorem mapKey (hs : Sound s) (key : Key) {f : FileTab → FileTab} (hf : ∀ tab, tab.key = key → (f tab).key = key) :
    Sound (s.mapKey key f) where
  keys := by
    rw [mapKey_keys s key hf]
    exact hs.keys
  requests := hs.requests

theorem load (hs : Sound s) (file : File) : Sound (s.load file) where
  keys := by
    simp only [State.load]
    split
    · rw [mapKey_keys s file.key fun _ _ => rfl]
      exact hs.keys
    · next h =>
      rw [List.map_append, List.map_singleton]
      have hnew : file.key ∉ s.tabs.map fun tab => tab.key := not_mem_keys (by simpa using h)
      refine List.nodup_append.mpr ⟨hs.keys, List.nodup_singleton _, ?_⟩
      rintro key hmem key' hmem' rfl
      exact hnew (List.mem_singleton.mp hmem' ▸ hmem)
  requests r hr := by
    rcases List.mem_append.mp hr with hr | hr
    · exact Nat.lt_succ_of_lt (hs.requests r hr)
    · obtain rfl := List.mem_singleton.mp hr
      exact Nat.lt_succ_self _

theorem step (hs : Sound s) {e : Event} (h : s.step e = some t) : Sound t := by
  cases e with
  | «open» context server root path =>
    obtain rfl := Option.some.inj h
    unfold State.open
    split
    · exact hs
    · exact hs.load _
  | retry key =>
    obtain rfl := Option.some.inj h
    unfold State.retry
    split
    · exact hs
    · split
      · exact hs.load _
      · exact hs.load _
      · exact hs
  | settle request content =>
    simp only [State.step, State.settle] at h
    split at h
    · cases h
    · next r _ =>
      have hless : Sound { s with requests := s.requests.eraseIdx request } :=
        ⟨hs.keys, fun r hr => hs.requests r (List.mem_of_mem_eraseIdx hr)⟩
      split at h
      · obtain rfl := Option.some.inj h
        have hcleared : Sound
            { s with
              requests := s.requests.eraseIdx request
              generations := AList.erase r.file.key s.generations } := ⟨hless.keys, hless.requests⟩
        apply hcleared.mapKey
        intro tab _
        rfl
      · obtain rfl := Option.some.inj h
        exact hless
  | close key =>
    obtain rfl := Option.some.inj h
    exact ⟨hs.keys.sublist (List.filter_sublist.map _), hs.requests⟩
  | relocate server source destination =>
    obtain rfl := Option.some.inj h
    exact ⟨relocate_keys hs.keys, hs.requests⟩
  | update key values =>
    obtain rfl := Option.some.inj h
    apply hs.mapKey
    intro tab htab
    unfold State.updated
    split
    · split
      · exact htab
      · exact htab
    · exact htab
  | adopt context file =>
    obtain rfl := Option.some.inj h
    refine ⟨?_, hs.requests⟩
    simp only [State.adopt, List.map_append, List.map_singleton]
    refine List.nodup_append.mpr ⟨hs.keys.sublist (List.filter_sublist.map _), List.nodup_singleton _, ?_⟩
    rintro key hmem key' hmem' rfl
    obtain ⟨tab, htab, hkey⟩ := List.mem_map.mp hmem
    have hne := (List.mem_filter.mp htab).2
    rw [hkey, List.mem_singleton.mp hmem'] at hne
    simp [FileTab.of] at hne
  | setTransfer key transferring =>
    obtain rfl := Option.some.inj h
    apply hs.mapKey
    intro tab htab
    unfold State.withTransfer
    split
    · exact htab
    · exact htab
    · exact htab
  | bind key context =>
    obtain rfl := Option.some.inj h
    apply hs.mapKey
    intro tab htab
    split
    · exact htab
    · exact htab
  | locationFailed key error =>
    obtain rfl := Option.some.inj h
    exact hs.mapKey key fun _ htab => htab

end Sound

theorem run_sound {h : List Event} (hrun : Run State.step Free .fresh h s) : Sound s :=
  hrun.invariant ⟨List.nodup_nil, nofun⟩ fun _ _ _ hs _ hn => hs.step hn

theorem run_dead {h : List Event} {r : Request} (hrun : Run State.step Free s h t) (hd : Dead s r) : Dead t r := by
  apply hrun.invariant (I := fun u => Dead u r) hd
  intro u e v hd _ hn
  exact hd.mono (tokens_step hn)

/-- A read of a tab that is closed or changed by a move is dead. -/
theorem dead_of_gone (hs : Sound s) {r : Request} (hr : r ∈ s.requests) {e : Event} (h : s.step e = some t)
    (he : e = .close r.file.key ∨ ∃ server source destination, e = .relocate server source destination ∧
      ∃ tab ∈ s.tabs, tab.key = r.file.key ∧ tab ∉ t.tabs) : Dead t r := by
  have hold := lt_of_lt_of_le (hs.requests r hr) (tokens_step h).next
  rcases he with rfl | ⟨server, source, destination, rfl, tab, htab, hkey, hgone⟩
  · obtain rfl := Option.some.inj h
    refine ⟨hold, ?_⟩
    rw [State.close, AList.lookup_erase]
    nofun
  · obtain rfl := Option.some.inj h
    refine ⟨hold, ?_⟩
    rw [← hkey, relocate_reads hs.keys htab hgone]
    nofun

/-- Keys are distinct. A move leaves a guarded text as it is, under the key of
its new path or waiting for it, and leaves alone what is outside, but for tabs
that are not guarded and give way to a moved one. A read called before its tab
was closed or moved changes no tab. A move of a path onto itself takes there the
tab that waits for it once nothing else is or waits there. -/
theorem drafts_kept {h : List Event} (hrun : Run State.step Free .fresh h s) :
    (s.tabs.map fun tab => tab.key).Nodup ∧
    (∀ server source destination, ∀ tab ∈ s.tabs,
      (tab.Moving server source destination → tab.isText = true →
        (tab.Fast ∨ (tab.guarded = true ∧ tab.nextPath source destination ≠ [] ∧
          Alone s server source destination tab)) →
        ∃ u ∈ (s.relocate server source destination).tabs, u.text? = tab.text? ∧
          (u.key = tab.landingKey server source destination ∧ u.pendingMove = none ∨
            u.key = tab.key ∧ u.pendingMove = some (tab.nextPath source destination))) ∧
      (¬ tab.Moving server source destination →
        tab ∈ (s.relocate server source destination).tabs ∨ (tab.guarded = false ∧
          ∃ other ∈ s.tabs, other.Moving server source destination ∧
            other.moves server source destination ∈ (s.relocate server source destination).tabs ∧
            (other.moves server source destination).key = tab.key)) ∧
      ((∃ rest, tab.nextPath source destination = '/' :: rest) →
        tab.landingKey server source destination = fileKey server (tab.nextPath source destination) [])) ∧
    (∀ r ∈ s.requests, ∀ e t, s.step e = some t →
      (e = .close r.file.key ∨ ∃ server source destination, e = .relocate server source destination ∧
        ∃ tab ∈ s.tabs, tab.key = r.file.key ∧ tab ∉ t.tabs) →
      ∀ later u, Run State.step Free t later u → ∀ (i : Nat) content v, u.requests[i]? = some r →
        u.step (.settle i content) = some v → v.tabs = u.tabs) ∧
    (∀ tab ∈ s.tabs, ∀ path, tab.pendingMove = some path → path ≠ [] → Alone s tab.server path path tab →
      (∀ other ∈ s.tabs, other.key ≠ tab.key → other.key ≠ tab.landingKey tab.server path path) →
      tab.moves tab.server path path ∈ (s.relocate tab.server path path).tabs) := by
  have hs := run_sound hrun
  refine ⟨hs.keys, ?_, ?_, ?_⟩
  · intro server source destination tab htab
    refine ⟨?_, relocate_outside hs.keys htab, landingKey_eq tab server source destination⟩
    intro hmoving _ hguard
    rcases relocate_guarded hs.keys htab hmoving hguard with hmem | hmem
    · exact ⟨_, hmem, FileTab.waits_text, .inr ⟨rfl, rfl⟩⟩
    · exact ⟨_, hmem, FileTab.moves_text, .inl ⟨rfl, rfl⟩⟩
  · intro r hr e t hn he later u hlater i content v hi hv
    exact settle_dead (run_dead hlater (dead_of_gone hs hr hn he)) hi hv
  · intro tab htab path hpending hne halone hfree
    have hwaiting : tab.waiting = true := by simp [FileTab.waiting, hpending, hne]
    have habsolute : tab.absolute = path := by simp [FileTab.absolute, hpending]
    have hwithin : within path path = true := by simp [within]
    have hnext : tab.nextPath path path = path := by
      simp [FileTab.nextPath, habsolute, movedPath, hwithin]
    refine relocate_completes hs.keys htab ⟨rfl, habsolute ▸ hwithin, .inl hwaiting⟩ ?_
      (by rw [hnext]; exact hne) halone hfree
    simp [FileTab.guarded, hwaiting]

-- Two drafts, the first of which is renamed onto the second.

def nameOf (path : String) : Path := path.toList

def readOf (path : String) : Content := .text ⟨nameOf path, "", ""⟩

def conflicting : List Event :=
  [.open "c" "dev" (nameOf "/") (nameOf "w/a"), .settle 0 (readOf "w/a"),
   .open "c" "dev" (nameOf "/") (nameOf "w/b"), .settle 0 (readOf "w/b"),
   .update (fileKey "dev" (nameOf "/") (nameOf "w/a")) { text := some "mine" },
   .update (fileKey "dev" (nameOf "/") (nameOf "w/b")) { text := some "theirs" },
   .relocate "dev" (nameOf "/w/a") (nameOf "/w/b")]

theorem drafts_kept_one : ∃ s, Run State.step Free .fresh conflicting.reverse s ∧ s.tabs.length = 2 ∧
    (s.tabs.map fun tab => tab.key).Nodup := by
  obtain ⟨s, hs, hlength⟩ : ∃ s, play State.step Free .fresh conflicting = some s ∧ s.tabs.length = 2 := by
    decide
  have hrun := run_of_play_list hs
  exact ⟨s, hrun, hlength, (drafts_kept hrun).1⟩

/-- The tab in the way is closed and the same move made again: the first draft still waits. -/
theorem same_move_waits : ∃ s, Run State.step Free .fresh
    (conflicting ++ [Event.close (fileKey "dev" (nameOf "/") (nameOf "w/b")),
      .relocate "dev" (nameOf "/w/a") (nameOf "/w/b")]).reverse s ∧
    s.tabs.map (fun tab => tab.pendingMove) = [some (nameOf "/w/b")] := by
  obtain ⟨s, hs, hwaits⟩ : ∃ s, play State.step Free .fresh
      (conflicting ++ [Event.close (fileKey "dev" (nameOf "/") (nameOf "w/b")),
        .relocate "dev" (nameOf "/w/a") (nameOf "/w/b")]) = some s ∧
      s.tabs.map (fun tab => tab.pendingMove) = [some (nameOf "/w/b")] := by
    decide
  exact ⟨s, run_of_play_list hs, hwaits⟩

end RemoteCodex.Tabs
