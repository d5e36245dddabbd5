import Mathlib.Order.Lattice
import Mathlib.Data.List.Forall2

/-!
# Maps in the order of their keys

A map is the list of its entries, their keys increasing, so that equal maps are
equal lists.
-/

namespace RemoteCodex.Interact

structure Sorted (κ β : Type) [LinearOrder κ] where
  entries : List (κ × β)
  ascending : entries.Pairwise fun a b => a.1 < b.1

namespace Sorted

variable {κ β : Type} [LinearOrder κ]

theorem ext {m m' : Sorted κ β} (h : m.entries = m'.entries) : m = m' := by
  obtain ⟨entries, _⟩ := m
  obtain ⟨entries', _⟩ := m'
  obtain rfl : entries = entries' := h
  rfl

instance [DecidableEq β] : DecidableEq (Sorted κ β) := fun m m' =>
  decidable_of_iff (m.entries = m'.entries) ⟨ext, fun h => h ▸ rfl⟩

def empty : Sorted κ β := ⟨[], .nil⟩

/-- `entries` with `key` set, in its place in the order. -/
def put (key : κ) (v : β) : List (κ × β) → List (κ × β)
  | [] => [(key, v)]
  | (k, w) :: rest =>
    if key < k then (key, v) :: (k, w) :: rest
    else if key = k then (key, v) :: rest
    else (k, w) :: put key v rest

theorem mem_put {key : κ} {v : β} {entries : List (κ × β)} {e : κ × β} (h : e ∈ put key v entries) :
    e = (key, v) ∨ e ∈ entries := by
  induction entries with
  | nil => exact .inl (List.mem_singleton.mp h)
  | cons head rest ih =>
    unfold put at h
    split at h
    · exact List.mem_cons.mp h
    · split at h
      · rcases List.mem_cons.mp h with h | h
        · exact .inl h
        · exact .inr (List.mem_cons_of_mem _ h)
      · rcases List.mem_cons.mp h with h | h
        · exact .inr (h ▸ List.mem_cons_self)
        · exact (ih h).imp_right (List.mem_cons_of_mem _)

theorem put_ascending (key : κ) (v : β) {entries : List (κ × β)} (h : entries.Pairwise fun a b => a.1 < b.1) :
    (put key v entries).Pairwise fun a b => a.1 < b.1 := by
  induction entries with
  | nil => exact List.pairwise_singleton _ _
  | cons head rest ih =>
    obtain ⟨hhead, hrest⟩ := List.pairwise_cons.mp h
    unfold put
    split
    · next hlt =>
      refine List.pairwise_cons.mpr ⟨?_, h⟩
      intro e he
      rcases List.mem_cons.mp he with rfl | he
      · exact hlt
      · exact lt_trans hlt (hhead e he)
    · next hge =>
      split
      · next heq =>
        refine List.pairwise_cons.mpr ⟨?_, hrest⟩
        intro e he
        exact heq ▸ hhead e he
      · next hne =>
        refine List.pairwise_cons.mpr ⟨?_, ih hrest⟩
        intro e he
        rcases mem_put he with rfl | he
        · exact lt_of_le_of_ne (not_lt.mp hge) (Ne.symm hne)
        · exact hhead e he

def insert (m : Sorted κ β) (key : κ) (v : β) : Sorted κ β := ⟨put key v m.entries, put_ascending key v m.ascending⟩

def get (m : Sorted κ β) (key : κ) : Option β := m.entries.lookup key

@[simp] theorem get_empty (key : κ) : (empty : Sorted κ β).get key = none := rfl

theorem lookup_put (key k : κ) (v : β) (entries : List (κ × β)) :
    (put key v entries).lookup k = if k = key then some v else entries.lookup k := by
  have hcons : ∀ (key : κ) (w : β) (rest : List (κ × β)),
      List.lookup k ((key, w) :: rest) = if k = key then some w else rest.lookup k := by
    intro key w rest
    by_cases h : k = key
    · simp [h]
    · have hb : (k == key) = false := by simpa using h
      simp [List.lookup_cons, hb, h]
  induction entries with
  | nil => exact hcons key v []
  | cons head rest ih =>
    obtain ⟨name, w⟩ := head
    unfold put
    split
    · rw [hcons]
    · split
      · next heq =>
        rw [hcons, hcons, ← heq]
        split <;> rfl
      · next hne =>
        rw [hcons, hcons, ih]
        by_cases h : k = name
        · have : ¬ name = key := fun hn => hne hn.symm
          simp [h, this]
        · simp [h]

theorem get_insert (m : Sorted κ β) (key k : κ) (v : β) :
    (m.insert key v).get k = if k = key then some v else m.get k := lookup_put key k v m.entries

theorem get_eq_some {m : Sorted κ β} {key : κ} {v : β} : m.get key = some v ↔ (key, v) ∈ m.entries := by
  obtain ⟨entries, h⟩ := m
  show entries.lookup key = some v ↔ (key, v) ∈ entries
  induction entries with
  | nil => simp
  | cons head rest ih =>
    obtain ⟨k, w⟩ := head
    obtain ⟨hhead, hrest⟩ := List.pairwise_cons.mp h
    rw [List.lookup_cons]
    by_cases heq : key = k
    · subst heq
      simp only [beq_self_eq_true, List.mem_cons, Prod.mk.injEq, true_and, Option.some.injEq]
      constructor
      · exact fun hw => .inl hw.symm
      · rintro (hw | hin)
        · exact hw.symm
        · exact absurd (hhead _ hin) (lt_irrefl key)
    · have hb : (key == k) = false := by simpa using heq
      simp only [hb, List.mem_cons, Prod.mk.injEq, heq, false_and, false_or]
      exact ih hrest

theorem get_isSome {m : Sorted κ β} {key : κ} : (m.get key).isSome ↔ key ∈ m.entries.map Prod.fst := by
  rw [Option.isSome_iff_exists]
  constructor
  · rintro ⟨v, hv⟩
    exact List.mem_map.mpr ⟨(key, v), get_eq_some.mp hv, rfl⟩
  · intro h
    obtain ⟨⟨k, v⟩, hin, rfl⟩ := List.mem_map.mp h
    exact ⟨v, get_eq_some.mpr hin⟩

theorem keys_ascending (m : Sorted κ β) : (m.entries.map Prod.fst).Pairwise (· < ·) :=
  List.pairwise_map.mpr m.ascending

/-- Maps with the same keys have them in the same order. -/
theorem keys_eq {γ : Type} {m : Sorted κ β} {m' : Sorted κ γ} (h : ∀ key, (m.get key).isSome ↔ (m'.get key).isSome) :
    m.entries.map Prod.fst = m'.entries.map Prod.fst := by
  have hperm : (m.entries.map Prod.fst).Perm (m'.entries.map Prod.fst) := by
    refine (List.perm_ext_iff_of_nodup ?_ ?_).mpr fun key => by rw [← get_isSome, ← get_isSome, h]
    · exact m.keys_ascending.imp ne_of_lt
    · exact m'.keys_ascending.imp ne_of_lt
  refine hperm.eq_of_pairwise ?_ m.keys_ascending m'.keys_ascending
  intro a b _ _ hab hba
  exact absurd (lt_trans hab hba) (lt_irrefl _)

/-- The entries of two maps with the same keys, side by side. -/
theorem forall₂ {γ : Type} {m : Sorted κ β} {m' : Sorted κ γ} {R : κ → β → γ → Prop}
    (hkeys : ∀ key, (m.get key).isSome ↔ (m'.get key).isSome)
    (hvalues : ∀ key v w, m.get key = some v → m'.get key = some w → R key v w) :
    List.Forall₂ (fun e f => e.1 = f.1 ∧ R e.1 e.2 f.2) m.entries m'.entries := by
  have heq := keys_eq hkeys
  have hin : ∀ e ∈ m.entries, m.get e.1 = some e.2 := fun e he => get_eq_some.mpr he
  have hin' : ∀ e ∈ m'.entries, m'.get e.1 = some e.2 := fun e he => get_eq_some.mpr he
  generalize m.entries = l at heq hin
  generalize m'.entries = l' at heq hin'
  induction l generalizing l' with
  | nil =>
    cases l' with
    | nil => exact .nil
    | cons f l' => cases heq
  | cons e l ih =>
    cases l' with
    | nil => cases heq
    | cons f l' =>
      obtain ⟨hfst, hrest⟩ := List.cons.inj heq
      have htail := ih (fun e he => hin e (List.mem_cons_of_mem _ he)) l' hrest fun e he =>
        hin' e (List.mem_cons_of_mem _ he)
      refine .cons ⟨hfst, hvalues e.1 e.2 f.2 (hin e List.mem_cons_self) ?_⟩ htail
      rw [hfst]
      exact hin' f List.mem_cons_self

/-- What a list of distinct keys puts over a map. -/
theorem get_foldl_insert {γ : Type} (f : β → γ) (es : List (κ × β)) (m : Sorted κ γ) (key : κ)
    (hes : (es.map Prod.fst).Pairwise (· < ·)) :
    (es.foldl (fun m e => m.insert e.1 (f e.2)) m).get key = ((es.lookup key).map f).or (m.get key) := by
  induction es generalizing m with
  | nil => rfl
  | cons e es ih =>
    obtain ⟨hhead, hrest⟩ := List.pairwise_cons.mp hes
    rw [List.foldl_cons, ih _ hrest, get_insert, List.lookup_cons]
    by_cases h : key = e.1
    · have hnone : es.lookup key = none := by
        rw [List.lookup_eq_none_iff]
        intro g hg
        have := hhead g.1 (List.mem_map_of_mem hg)
        rw [← h] at this
        simpa using ne_of_lt this
      simp [h ▸ hnone, h]
    · have hb : (key == e.1) = false := by simpa using h
      simp [hb, h]

/-- A map without a key. -/
def erase (m : Sorted κ β) (key : κ) : Sorted κ β :=
  ⟨m.entries.filter fun e => e.1 ≠ key, m.ascending.sublist List.filter_sublist⟩

theorem get_erase (m : Sorted κ β) (key k : κ) : (m.erase key).get k = if k = key then none else m.get k := by
  apply Option.ext
  intro v
  rw [get_eq_some]
  show (k, v) ∈ m.entries.filter _ ↔ _
  rw [List.mem_filter, ← get_eq_some]
  split
  · next heq => simp [heq]
  · next hne => simp [hne]

theorem get_foldl_erase (keys : List κ) (m : Sorted κ β) (k : κ) :
    (keys.foldl erase m).get k = if k ∈ keys then none else m.get k := by
  induction keys generalizing m with
  | nil => simp
  | cons key keys ih =>
    rw [List.foldl_cons, ih, get_erase]
    by_cases h : k = key
    · simp [h]
    · simp [h]

/-- Maps that agree on every key are equal. -/
theorem ext_get {m m' : Sorted κ β} (h : ∀ key, m.get key = m'.get key) : m = m' := by
  apply ext
  have hpairs : List.Forall₂ (fun e f => e.1 = f.1 ∧ e.2 = f.2) m.entries m'.entries := by
    apply forall₂ (R := fun _ v w => v = w) (fun key => by rw [h key])
    intro key v w hv hw
    exact Option.some.inj (hv.symm.trans ((h key).trans hw))
  rw [← List.forall₂_eq_eq_eq]
  exact hpairs.imp fun e f hef => Prod.ext hef.1 hef.2

end Sorted

end RemoteCodex.Interact
