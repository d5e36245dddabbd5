import RemoteCodex.Interact.Runs
import RemoteCodex.Tabs.State

/-!
# A move of the tabs

What one turn of the loop over the tabs keeps: places and keys stay distinct,
each tab that is left is as it was, waits, or is moved, and what gave way was
not guarded at that moment and has its key taken by a moved tab.
-/

namespace RemoteCodex.Tabs

open Interact

variable {tabs : List FileTab} {server : String} {source destination : Path} {tab u : FileTab} {i : Nat}

-- ---------------------------------------------------------------------------
-- One tab
-- ---------------------------------------------------------------------------

namespace FileTab

@[simp] theorem waits_key : (tab.waits source destination).key = tab.key := rfl

@[simp] theorem waits_pendingMove :
    (tab.waits source destination).pendingMove = some (tab.nextPath source destination) := rfl

@[simp] theorem moves_key : (tab.moves server source destination).key = tab.landingKey server source destination := rfl

@[simp] theorem moves_pendingMove : (tab.moves server source destination).pendingMove = none := rfl

@[simp] theorem waits_status : (tab.waits source destination).status = movedStatus tab.status := rfl

theorem moves_status (tab : FileTab) (server : String) (source destination : Path) :
    ∃ path, (tab.moves server source destination).status = conflictAt path (movedStatus tab.status) := ⟨_, rfl⟩

theorem waits_text : (tab.waits source destination).text? = tab.text? := by
  simp only [text?, waits_status]
  cases tab.status <;> rfl

theorem moves_text : (tab.moves server source destination).text? = tab.text? := by
  obtain ⟨path, h⟩ := moves_status tab server source destination
  simp only [text?, h]
  cases tab.status <;> rfl

/-- A tab that cannot give way, moved or not. -/
def Fast (tab : FileTab) : Prop := tab.unsaved = true ∨ tab.isTransferring = true

theorem guarded_of_fast (h : tab.Fast) : tab.guarded = true := by
  rcases h with h | h
  · simp [guarded, h]
  · simp [guarded, h]

theorem fast_waits (h : tab.Fast) : (tab.waits source destination).Fast := by
  simp only [Fast, unsaved, isTransferring, transferring, waits_status] at h ⊢
  cases hs : tab.status <;> simp_all [movedStatus]

theorem fast_moves (h : tab.Fast) : (tab.moves server source destination).Fast := by
  obtain ⟨path, hm⟩ := moves_status tab server source destination
  simp only [Fast, unsaved, isTransferring, transferring, hm] at h ⊢
  cases hs : tab.status <;> simp_all [movedStatus, conflictAt]

theorem guarded_waits (h : tab.nextPath source destination ≠ []) : (tab.waits source destination).guarded = true := by
  simp [guarded, waiting, h]

end FileTab

-- ---------------------------------------------------------------------------
-- The loop
-- ---------------------------------------------------------------------------

/-- What a tab can be while the loop runs. -/
inductive Form (server : String) (source destination : Path) (tab : FileTab) : FileTab → Prop where
  | same : Form server source destination tab tab
  | waits (h : tab.Moving server source destination) : Form server source destination tab (tab.waits source destination)
  | moves (h : tab.Moving server source destination) :
    Form server source destination tab (tab.moves server source destination)

/-- Another tab of the list has, or would have, the key a tab lands under. -/
def Blocked (tabs : List FileTab) (server : String) (source destination : Path) (i : Nat) (tab : FileTab) : Prop :=
  ∃ j other v, tabs[j]? = some other ∧ j ≠ i ∧ Form server source destination other v ∧
    v.key = tab.landingKey server source destination

/-- What a tab is once the loop is past it. -/
inductive Settled (tabs : List FileTab) (server : String) (source destination : Path) (i : Nat) (tab : FileTab) :
    FileTab → Prop where
  | stays (h : ¬ tab.Moving server source destination) : Settled tabs server source destination i tab tab
  | waits (h : tab.Moving server source destination) (hb : Blocked tabs server source destination i tab) :
    Settled tabs server source destination i tab (tab.waits source destination)
  | moves (h : tab.Moving server source destination) :
    Settled tabs server source destination i tab (tab.moves server source destination)

/-- A tab gave way while it was `v`, and a moved tab of another place has its key. -/
def GaveWay (tabs : List FileTab) (server : String) (source destination : Path) (done : List Nat) (loop : Loop)
    (i : Nat) (tab : FileTab) : Prop :=
  ∃ v, Form server source destination tab v ∧ v.guarded = false ∧
    ∃ j ∈ done, ∃ other, tabs[j]? = some other ∧ j ≠ i ∧ other.Moving server source destination ∧
      (j, other.moves server source destination) ∈ loop.slots ∧
      (other.moves server source destination).key = v.key

structure Invariant (tabs : List FileTab) (server : String) (source destination : Path) (done : List Nat)
    (loop : Loop) : Prop where
  apart : loop.slots.Pairwise fun a b => a.1 ≠ b.1 ∧ a.2.key ≠ b.2.key
  todo : ∀ slot ∈ loop.slots, slot.1 ∉ done → tabs[slot.1]? = some slot.2
  settled : ∀ slot ∈ loop.slots, slot.1 ∈ done → ∃ tab, tabs[slot.1]? = some tab ∧
    Settled tabs server source destination slot.1 tab slot.2
  gone : ∀ i tab, tabs[i]? = some tab → (∀ slot ∈ loop.slots, slot.1 ≠ i) →
    GaveWay tabs server source destination done loop i tab
  reads : ∀ i tab, tabs[i]? = some tab → (i, tab) ∈ loop.slots ∨ loop.generations.lookup tab.key = none

variable {done : List Nat} {loop : Loop}

theorem Settled.form (h : Settled tabs server source destination i tab u) : Form server source destination tab u := by
  cases h with
  | stays _ => exact .same
  | waits h _ => exact .waits h
  | moves h => exact .moves h

namespace Invariant

theorem form (h : Invariant tabs server source destination done loop) {slot : Nat × FileTab}
    (hmem : slot ∈ loop.slots) : ∃ tab, tabs[slot.1]? = some tab ∧ Form server source destination tab slot.2 := by
  by_cases hd : slot.1 ∈ done
  · obtain ⟨tab, htab, hs⟩ := h.settled slot hmem hd
    exact ⟨tab, htab, hs.form⟩
  · exact ⟨slot.2, h.todo slot hmem hd, .same⟩

theorem unique (h : Invariant tabs server source destination done loop) {a b : Nat × FileTab}
    (ha : a ∈ loop.slots) (hb : b ∈ loop.slots) (heq : a.1 = b.1) : a = b := by
  have hsymm : Std.Symm fun a b : Nat × FileTab => a.1 ≠ b.1 ∧ a.2.key ≠ b.2.key :=
    ⟨fun _ _ hab => ⟨hab.1.symm, hab.2.symm⟩⟩
  by_contra hne
  exact (h.apart.forall ha hb hne).1 heq

theorem keys_apart (h : Invariant tabs server source destination done loop) {a b : Nat × FileTab}
    (ha : a ∈ loop.slots) (hb : b ∈ loop.slots) (hne : a.1 ≠ b.1) : a.2.key ≠ b.2.key := by
  have hsymm : Std.Symm fun a b : Nat × FileTab => a.1 ≠ b.1 ∧ a.2.key ≠ b.2.key :=
    ⟨fun _ _ hab => ⟨hab.1.symm, hab.2.symm⟩⟩
  refine (h.apart.forall ha hb ?_).2
  rintro rfl
  exact hne rfl

/-- The loop passes a tab that stays. -/
theorem pass (h : Invariant tabs server source destination done loop) (htab : tabs[i]? = some tab) (hi : i ∉ done)
    (hstay : (∃ slot ∈ loop.slots, slot.1 = i) → ¬ tab.Moving server source destination) :
    Invariant tabs server source destination (i :: done) loop where
  apart := h.apart
  todo slot hmem hd := h.todo slot hmem fun hd' => hd (List.mem_cons_of_mem _ hd')
  settled slot hmem hd := by
    rcases List.mem_cons.mp hd with heq | hd
    · have hslot := h.todo slot hmem (heq ▸ hi)
      rw [heq] at hslot
      obtain rfl := Option.some.inj (htab.symm.trans hslot)
      exact ⟨slot.2, heq ▸ htab, .stays (hstay ⟨slot, hmem, heq⟩)⟩
    · exact h.settled slot hmem hd
  gone i' tab' htab' hnone := by
    obtain ⟨v, hv, hg, j, hj, hrest⟩ := h.gone i' tab' htab' hnone
    exact ⟨v, hv, hg, j, List.mem_cons_of_mem _ hj, hrest⟩
  reads := h.reads

/-- A tab is put in its place, changed, and the tabs in `D` give way to it. -/
theorem place {loop' : Loop} {D : Nat × FileTab → Prop} (h : Invariant tabs server source destination done loop)
    (htab : tabs[i]? = some tab) (hi : i ∉ done) (hsettled : Settled tabs server source destination i tab u)
    (hmem : ∀ slot, slot ∈ loop'.slots ↔ slot = (i, u) ∨ (slot ∈ loop.slots ∧ slot.1 ≠ i ∧ ¬ D slot))
    (hapart : loop'.slots.Pairwise fun a b => a.1 ≠ b.1 ∧ a.2.key ≠ b.2.key)
    (hreads : ∀ key, loop.generations.lookup key = none → loop'.generations.lookup key = none)
    (hread : loop'.generations.lookup tab.key = none)
    (hD : ∀ slot ∈ loop.slots, slot.1 ≠ i → D slot → tab.Moving server source destination ∧
      u = tab.moves server source destination ∧ slot.2.guarded = false ∧ slot.2.key = u.key ∧
      loop'.generations.lookup slot.2.key = none) :
    Invariant tabs server source destination (i :: done) loop' := by
  have hnew : (i, u) ∈ loop'.slots := (hmem _).mpr (.inl rfl)
  constructor
  · exact hapart
  · intro slot hs hd
    rcases (hmem slot).mp hs with rfl | ⟨hs, -⟩
    · exact absurd List.mem_cons_self hd
    · exact h.todo slot hs fun hd' => hd (List.mem_cons_of_mem _ hd')
  · intro slot hs hd
    rcases (hmem slot).mp hs with rfl | ⟨hs, hne, -⟩
    · exact ⟨tab, htab, hsettled⟩
    · exact h.settled slot hs ((List.mem_cons.mp hd).resolve_left hne)
  · intro i' tab' htab' hnone
    have hne' : i' ≠ i := fun heq => hnone (i, u) hnew heq.symm
    by_cases hthere : ∃ slot ∈ loop.slots, slot.1 = i'
    · -- it gives way now
      obtain ⟨slot, hs, rfl⟩ := hthere
      have hdrop : D slot := by
        by_contra hD'
        exact hnone slot ((hmem slot).mpr (.inr ⟨hs, hne', hD'⟩)) rfl
      obtain ⟨hmoving, rfl, hg, hkey, -⟩ := hD slot hs hne' hdrop
      obtain ⟨orig, horig, hform⟩ := h.form hs
      obtain rfl := Option.some.inj (horig.symm.trans htab')
      exact ⟨slot.2, hform, hg, i, List.mem_cons_self, tab, htab, hne'.symm, hmoving, hnew, hkey.symm⟩
    · have hnone' : ∀ slot ∈ loop.slots, slot.1 ≠ i' := fun slot hs heq => hthere ⟨slot, hs, heq⟩
      obtain ⟨v, hv, hg, j, hj, other, hother, hji, hmoving, hin, hkey⟩ := h.gone i' tab' htab' hnone'
      have hjne : j ≠ i := by
        rintro rfl
        exact hi hj
      by_cases hdrop : D (j, other.moves server source destination)
      · -- the tab it gave way to gives way itself
        obtain ⟨hmoving', rfl, -, hkey', -⟩ := hD _ hin hjne hdrop
        exact ⟨v, hv, hg, i, List.mem_cons_self, tab, htab, hne'.symm, hmoving', hnew, hkey'.symm.trans hkey⟩
      · exact ⟨v, hv, hg, j, List.mem_cons_of_mem _ hj, other, hother, hji, hmoving,
          (hmem _).mpr (.inr ⟨hin, hjne, hdrop⟩), hkey⟩
  · intro i' tab' htab'
    rcases h.reads i' tab' htab' with hin | hnone
    · by_cases heq : i' = i
      · subst heq
        obtain rfl := Option.some.inj (htab.symm.trans htab')
        exact .inr hread
      · by_cases hdrop : D (i', tab')
        · exact .inr (hD _ hin heq hdrop).2.2.2.2
        · exact .inl ((hmem _).mpr (.inr ⟨hin, heq, hdrop⟩))
    · exact .inr (hreads _ hnone)

/-- What is left stays apart when a tab is put among it under a free key. -/
theorem apart_put (h : Invariant tabs server source destination done loop) {slots : List (Nat × FileTab)}
    (hsub : slots.Sublist loop.slots) (hfree : ∀ slot ∈ slots, slot.1 ≠ i → slot.2.key ≠ u.key) :
    (slots.map fun slot => if slot.1 = i then (i, u) else slot).Pairwise
      fun a b => a.1 ≠ b.1 ∧ a.2.key ≠ b.2.key := by
  rw [List.pairwise_map]
  refine (h.apart.sublist hsub).imp_of_mem ?_
  intro a b ha hb hab
  by_cases hai : a.1 = i
  · have hbi : b.1 ≠ i := fun hbi => hab.1 (hai.trans hbi.symm)
    rw [if_pos hai, if_neg hbi]
    exact ⟨Ne.symm hbi, Ne.symm (hfree b hb hbi)⟩
  · rw [if_neg hai]
    by_cases hbi : b.1 = i
    · rw [if_pos hbi]
      exact ⟨hai, hfree a ha hai⟩
    · rw [if_neg hbi]
      exact hab

theorem mem_put {slots : List (Nat × FileTab)} (hslot : ∃ slot ∈ slots, slot.1 = i) (slot : Nat × FileTab) :
    slot ∈ (slots.map fun slot => if slot.1 = i then (i, u) else slot) ↔ slot = (i, u) ∨ (slot ∈ slots ∧ slot.1 ≠ i) := by
  rw [List.mem_map]
  constructor
  · rintro ⟨old, hold, rfl⟩
    split
    · exact .inl rfl
    · next hne => exact .inr ⟨hold, hne⟩
  · rintro (rfl | ⟨hold, hne⟩)
    · obtain ⟨old, hold, heq⟩ := hslot
      exact ⟨old, hold, if_pos heq⟩
    · exact ⟨slot, hold, if_neg hne⟩

theorem lookup_erase_none {t : Table Key Nat} (key : Key) {key' : Key} (h : t.lookup key' = none) :
    (AList.erase key t).lookup key' = none := by
  rw [Table.lookup_erase_if]
  split
  · rfl
  · exact h

theorem step (h : Invariant tabs server source destination done loop) (htab : tabs[i]? = some tab) (hi : i ∉ done) :
    Invariant tabs server source destination (i :: done) (Loop.step server source destination loop (i, tab)) := by
  unfold Loop.step
  dsimp only
  split
  · next hcond =>
    obtain ⟨hmoving, hslot⟩ := hcond
    have hself : ∀ slot ∈ loop.slots, slot.1 = i → slot.2 = tab := by
      intro slot hs heq
      have := h.todo slot hs (heq ▸ hi)
      rw [heq] at this
      exact (Option.some.inj (htab.symm.trans this)).symm
    split
    · next htarget =>
      -- the destination is free
      have hfree : ∀ slot ∈ loop.slots, slot.1 ≠ i → slot.2.key ≠ (tab.moves server source destination).key := by
        intro slot hs hne hkey
        have := List.find?_eq_none.mp htarget slot hs
        simp [hne] at this
        exact this hkey
      refine h.place (D := fun _ => False) htab hi (.moves hmoving) ?_ (h.apart_put (.refl _) hfree)
        (fun _ hk => lookup_erase_none _ hk) (AList.lookup_erase ..) nofun
      intro slot
      rw [Loop.put, mem_put hslot]
      simp
    · next target htarget =>
      have hin : target ∈ loop.slots := List.mem_of_find?_eq_some htarget
      obtain ⟨hne, hkey⟩ : target.1 ≠ i ∧ target.2.key = tab.landingKey server source destination := by
        simpa using List.find?_some htarget
      split
      · -- it is taken by a tab that does not give way
        have hfree : ∀ slot ∈ loop.slots, slot.1 ≠ i → slot.2.key ≠ (tab.waits source destination).key := by
          intro slot hs hne' hk
          obtain ⟨old, hold, hoi⟩ := hslot
          rw [FileTab.waits_key, ← hself old hold hoi] at hk
          exact h.keys_apart hs hold (hoi ▸ hne') hk
        obtain ⟨other, hother, hform⟩ := h.form hin
        refine h.place (D := fun _ => False) htab hi (.waits hmoving ⟨_, other, _, hother, hne, hform, hkey⟩) ?_
          (h.apart_put (.refl _) hfree) (fun _ hk => lookup_erase_none _ hk) (AList.lookup_erase ..) nofun
        intro slot
        rw [Loop.put, mem_put hslot]
        simp
      · next hguarded =>
        -- the other tab gives way
        have hsub : (loop.slots.filter fun other => other.1 ≠ target.1).Sublist loop.slots := List.filter_sublist
        have hother : ∀ slot, slot ∈ (loop.slots.filter fun other => other.1 ≠ target.1) ↔
            slot ∈ loop.slots ∧ slot.1 ≠ target.1 := by
          intro slot
          rw [List.mem_filter, decide_eq_true_eq]
        refine h.place (D := fun slot => slot.1 = target.1) htab hi (.moves hmoving) ?_ (h.apart_put hsub ?_)
          (fun _ hk => lookup_erase_none _ (lookup_erase_none _ hk)) (lookup_erase_none _ (AList.lookup_erase ..)) ?_
        · intro slot
          obtain ⟨old, hold, hoi⟩ := hslot
          have hold' := (hother old).mpr ⟨hold, hoi ▸ hne.symm⟩
          rw [Loop.put, Loop.drop, mem_put ⟨old, hold', hoi⟩, hother]
          constructor
          · rintro (rfl | ⟨⟨hs, hd⟩, hne'⟩)
            · exact .inl rfl
            · exact .inr ⟨hs, hne', hd⟩
          · rintro (rfl | ⟨hs, hne', hd⟩)
            · exact .inl rfl
            · exact .inr ⟨⟨hs, hd⟩, hne'⟩
        · intro slot hs hne' hk
          obtain ⟨hs, hd⟩ := (hother slot).mp hs
          exact h.keys_apart hs hin hd (hk.trans hkey.symm)
        · intro slot hs _ hd
          obtain rfl := h.unique hs hin hd
          exact ⟨hmoving, rfl, eq_false_of_ne_true hguarded, hkey, AList.lookup_erase ..⟩
  · next hcond =>
    exact h.pass htab hi fun hslot hmoving => hcond ⟨hmoving, hslot⟩

end Invariant

-- ---------------------------------------------------------------------------
-- The whole move
-- ---------------------------------------------------------------------------

theorem mem_slots {slot : Nat × FileTab} : slot ∈ tabs.zipIdx.map Prod.swap ↔ tabs[slot.1]? = some slot.2 := by
  rw [List.mem_map]
  constructor
  · rintro ⟨⟨tab, i⟩, hmem, rfl⟩
    exact List.mk_mem_zipIdx_iff_getElem?.mp hmem
  · intro h
    exact ⟨slot.swap, List.mk_mem_zipIdx_iff_getElem?.mpr h, slot.swap_swap⟩

theorem invariant_start (hkeys : (tabs.map fun tab => tab.key).Nodup) (generations : Table Key Nat) :
    Invariant tabs server source destination [] ⟨tabs.zipIdx.map Prod.swap, generations, []⟩ where
  apart := by
    rw [List.pairwise_map, List.pairwise_iff_getElem]
    intro i j hi hj hij
    rw [List.getElem_zipIdx, List.getElem_zipIdx]
    rw [List.length_zipIdx] at hi hj
    refine ⟨by simpa using ne_of_lt hij, ?_⟩
    have hne := List.pairwise_iff_getElem.mp hkeys i j (by simpa using hi) (by simpa using hj) hij
    simpa using hne
  todo slot hmem _ := mem_slots.mp hmem
  settled slot hmem hd := nomatch hd
  gone i tab htab hnone := absurd rfl (hnone (i, tab) (mem_slots.mpr htab))
  reads i tab htab := .inl (mem_slots.mpr htab)

theorem invariant_foldl {order : List (Nat × FileTab)} (h : Invariant tabs server source destination done loop)
    (horder : (order.map Prod.fst).Nodup) (htabs : ∀ slot ∈ order, tabs[slot.1]? = some slot.2)
    (hdone : ∀ slot ∈ order, slot.1 ∉ done) :
    Invariant tabs server source destination ((order.map Prod.fst).reverse ++ done)
      (order.foldl (Loop.step server source destination) loop) := by
  induction order generalizing done loop with
  | nil => exact h
  | cons slot order ih =>
    obtain ⟨i, tab⟩ := slot
    rw [List.map_cons, List.nodup_cons] at horder
    have hstep := h.step (htabs (i, tab) List.mem_cons_self) (hdone (i, tab) List.mem_cons_self)
    have hrest := ih hstep horder.2 (fun slot hmem => htabs slot (List.mem_cons_of_mem _ hmem)) ?_
    · simpa using hrest
    · intro slot hmem hd
      rcases List.mem_cons.mp hd with heq | hd
      · exact horder.1 (List.mem_map.mpr ⟨slot, hmem, heq⟩)
      · exact hdone slot (List.mem_cons_of_mem _ hmem) hd

theorem moveOrder_perm (tabs : List FileTab) : (State.moveOrder tabs).Perm (tabs.zipIdx.map Prod.swap) := by
  have h := List.filter_append_perm (fun slot : Nat × FileTab => !slot.2.waiting) (tabs.zipIdx.map Prod.swap)
  simpa only [State.moveOrder, Bool.not_not] using h

/-- What the loop leaves when it is through with every tab. -/
theorem moveLoop_invariant {s : State} (hkeys : (s.tabs.map fun tab => tab.key).Nodup) (server : String)
    (source destination : Path) : ∃ done, Invariant s.tabs server source destination done (s.moveLoop server source destination) ∧
      ∀ i tab, s.tabs[i]? = some tab → i ∈ done := by
  have hstart : Invariant s.tabs server source destination [] ⟨s.tabs.zipIdx.map Prod.swap, s.generations, []⟩ :=
    invariant_start hkeys s.generations
  have hperm := moveOrder_perm s.tabs
  have hnodup : ((State.moveOrder s.tabs).map Prod.fst).Nodup := by
    refine (hperm.map Prod.fst).nodup_iff.mpr ?_
    rw [List.Nodup, List.pairwise_map]
    exact hstart.apart.imp fun hab => hab.1
  have hend := invariant_foldl hstart hnodup (fun slot hmem => mem_slots.mp (hperm.subset hmem)) nofun
  refine ⟨_, hend, ?_⟩
  intro i tab htab
  rw [List.append_nil, List.mem_reverse, List.mem_map]
  exact ⟨(i, tab), hperm.symm.subset (mem_slots.mpr htab), rfl⟩

end RemoteCodex.Tabs
