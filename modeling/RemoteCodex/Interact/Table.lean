import Mathlib.Data.List.AList

/-!
# Tables

A table is an association list with distinct keys. What a program needs beside
insertion, removal and lookup is the list of its values: how each operation
changes it, so that values can be counted and followed as they move.
-/

namespace RemoteCodex.Interact

abbrev Table (κ β : Type) := AList fun _ : κ => β

namespace Table

variable {κ β : Type}

def values (t : Table κ β) : List β := t.entries.map Sigma.snd

/-- The entries whose values satisfy `p`. -/
def retain (p : β → Bool) (t : Table κ β) : Table κ β :=
  ⟨t.entries.filter fun e => p e.2, t.nodupKeys.sublist List.filter_sublist⟩

/-- `t` with every value replaced, which may depend on its key. -/
def update (f : κ → β → β) (t : Table κ β) : Table κ β where
  entries := t.entries.map fun e => ⟨e.1, f e.1 e.2⟩
  nodupKeys := by
    have hkeys : (t.entries.map fun e => (⟨e.1, f e.1 e.2⟩ : Sigma fun _ : κ => β)).keys = t.entries.keys := by
      simp [List.keys]
    rw [List.NodupKeys, hkeys]
    exact t.nodupKeys

@[simp] theorem values_empty : values (∅ : Table κ β) = [] := rfl

@[simp] theorem values_retain (p : β → Bool) (t : Table κ β) :
    (t.retain p).values = t.values.filter p := by
  simp only [values, retain, List.filter_map]
  rfl

theorem length_values (t : Table κ β) : t.values.length = t.entries.length := List.length_map _

variable [DecidableEq κ] {t : Table κ β} {k : κ} {v : β}

theorem mem_retain {p : β → Bool} : (t.retain p).lookup k = some v ↔ t.lookup k = some v ∧ p v = true := by
  rw [← Option.mem_def, AList.mem_lookup_iff, ← Option.mem_def, AList.mem_lookup_iff]
  simp [retain]

theorem lookup_update (f : κ → β → β) (t : Table κ β) (k : κ) :
    AList.lookup k (t.update f) = (t.lookup k).map (f k) := by
  have hentries : ∀ es : List (Sigma fun _ : κ => β),
      List.dlookup k (es.map fun e => (⟨e.1, f e.1 e.2⟩ : Sigma fun _ : κ => β)) =
        (List.dlookup k es).map (f k) := by
    intro es
    induction es with
    | nil => rfl
    | cons e es ih =>
      obtain ⟨k', v⟩ := e
      by_cases h : k = k'
      · subst h
        simp
      · simp [List.dlookup_cons_ne, h, ih]
  exact hentries t.entries

theorem mem_values : v ∈ t.values ↔ ∃ k, t.lookup k = some v := by
  simp only [values, List.mem_map]
  constructor
  · rintro ⟨⟨k, w⟩, hmem, rfl⟩
    exact ⟨k, AList.mem_lookup_iff.mpr hmem⟩
  · rintro ⟨k, h⟩
    exact ⟨⟨k, v⟩, AList.mem_lookup_iff.mp h, rfl⟩

theorem values_erase_sublist (k : κ) (t : Table κ β) : (values (AList.erase k t)).Sublist t.values :=
  (List.kerase_sublist k t.entries).map _

/-- What is under a key is one of the values, and removing the key takes it away. -/
theorem values_perm (h : t.lookup k = some v) : t.values.Perm (v :: values (AList.erase k t)) := by
  have hmem : k ∈ t.entries.keys := AList.lookup_isSome.mp (by rw [h]; rfl)
  obtain ⟨w, l₁, l₂, -, hsplit, herase⟩ := List.exists_of_kerase hmem
  have hw : w = v := by
    have : t.lookup k = some w := AList.mem_lookup_iff.mpr (by rw [hsplit]; simp)
    rw [h] at this
    exact (Option.some.inj this).symm
  have herased : values (AList.erase k t) = (l₁ ++ l₂).map Sigma.snd := congrArg _ herase
  rw [herased, values, hsplit, hw, List.map_append, List.map_cons, List.map_append]
  exact List.perm_middle

theorem lookup_insert_if (k k' : κ) (v : β) (t : Table κ β) :
    AList.lookup k' (t.insert k v) = if k' = k then some v else t.lookup k' := by
  split
  · next h => rw [h, AList.lookup_insert]
  · next h => rw [AList.lookup_insert_ne h]

theorem lookup_erase_if (k k' : κ) (t : Table κ β) :
    AList.lookup k' (AList.erase k t) = if k' = k then none else t.lookup k' := by
  split
  · next h => rw [h, AList.lookup_erase]
  · next h => rw [AList.lookup_erase_ne h]

end Table

end RemoteCodex.Interact
