import RemoteCodex.Skills.Manifest
import RemoteCodex.Transfer.Parts

/-!
# The files of a skill

Where the files of a directory are, seen from its root: no path is listed
twice, none leads through another, and each is read back from its text.
-/

namespace RemoteCodex.Skills

open Files.Links (PathPart)
open Transfer (PlainName Component pathComponents rawPart rawParts laterComponent laterComponent_plain rawPart_name)

/-- A directory as the system has it: its names have no `/`, and no name is in it twice. -/
inductive Entry.Proper : Entry → Prop
  | file {bytes : List UInt8} {mode : Nat} : Proper (.file bytes mode)
  | symlink : Proper .symlink
  | special : Proper .special
  | directory {entries : List (OsString × Entry)} (hplain : ∀ s, .text s ∈ entries.map Prod.fst → PlainName s.toList)
      (hdistinct : (entries.map Prod.fst).Nodup) (hproper : ∀ e ∈ entries, e.2.Proper) : Proper (.directory entries)

variable {entries root : List (OsString × Entry)} {entry : Entry} {name : OsString} {names : List String}
variable {s : String} {a b : Asset}

theorem mem_assets_cons : a ∈ assets names ((name, entry) :: entries) ↔
    (∃ s, name = .text s ∧ excluded s = false ∧ a ∈ entry.assets (names ++ [s])) ∨ a ∈ assets names entries := by
  rw [assets.eq_def, List.mem_append]
  refine or_congr_left ?_
  cases name with
  | text s =>
    by_cases h : excluded s = true
    · simp [OsString.toStringLossy, h]
    · simp [OsString.toStringLossy, h]
  | other lossy => simp

theorem mem_assets (hentry : (.text s, entry) ∈ entries) (hs : excluded s = false) (ha : a ∈ entry.assets (names ++ [s])) :
    a ∈ assets names entries := by
  induction entries with
  | nil => cases hentry
  | cons first entries ih =>
    rcases List.mem_cons.mp hentry with rfl | hentry
    · exact mem_assets_cons.mpr (.inl ⟨s, rfl, hs, ha⟩)
    · exact mem_assets_cons.mpr (.inr (ih hentry))

theorem exists_of_mem_assets (h : a ∈ assets names entries) :
    ∃ s entry, (.text s, entry) ∈ entries ∧ a ∈ entry.assets (names ++ [s]) := by
  induction entries with
  | nil => cases h
  | cons first entries ih =>
    obtain ⟨name, entry⟩ := first
    rcases mem_assets_cons.mp h with ⟨s, rfl, -, ha⟩ | h
    · exact ⟨s, entry, List.mem_cons_self, ha⟩
    · obtain ⟨s, entry, hentry, ha⟩ := ih h
      exact ⟨s, entry, List.mem_cons_of_mem _ hentry, ha⟩

/-- The names of a file go on with plain names. -/
theorem Entry.Proper.goes_on (h : entry.Proper) (ha : a ∈ entry.assets names) :
    ∃ rest, a.names = names ++ rest ∧ ∀ n ∈ rest, PlainName n.toList := by
  induction h generalizing names with
  | file =>
    rw [Entry.assets, List.mem_singleton] at ha
    rw [ha]
    exact ⟨[], (List.append_nil _).symm, by simp⟩
  | symlink => cases ha
  | special => cases ha
  | directory hplain _ _ ih =>
    obtain ⟨s, entry, hentry, ha⟩ := exists_of_mem_assets ha
    obtain ⟨rest, hnames, hrest⟩ := ih _ hentry ha
    refine ⟨s :: rest, by rw [hnames, List.append_assoc, List.singleton_append], fun n hn => ?_⟩
    rcases List.mem_cons.mp hn with rfl | hn
    · exact hplain _ (List.mem_map_of_mem hentry)
    · exact hrest n hn

/-- Neither of two files is where the other one is, or below that. -/
def Apart (a b : Asset) : Prop := ¬ a.names <+: b.names ∧ ¬ b.names <+: a.names

instance : Std.Symm Apart := ⟨fun _ _ h => ⟨h.2, h.1⟩⟩

theorem apart_of_ne {t : String} (hne : s ≠ t) (ha : names ++ [s] <+: a.names) (hb : names ++ [t] <+: b.names) : Apart a b := by
  have hboth : ∀ c : List String, names ++ [s] <+: c → ¬ names ++ [t] <+: c := by
    intro c hs ht
    have hsame := (List.prefix_of_prefix_length_le hs ht (by simp)).eq_of_length (by simp)
    exact hne (List.cons.inj (List.append_cancel_left hsame)).1
  exact ⟨fun h => hboth _ (ha.trans h) hb, fun h => hboth _ ha (hb.trans h)⟩

theorem assets_apart (hplain : ∀ s, .text s ∈ entries.map Prod.fst → PlainName s.toList)
    (hdistinct : (entries.map Prod.fst).Nodup) (hproper : ∀ e ∈ entries, e.2.Proper)
    (ih : ∀ e ∈ entries, ∀ names, (e.2.assets names).Pairwise Apart) : (assets names entries).Pairwise Apart := by
  induction entries with
  | nil => exact .nil
  | cons first entries ih' =>
    obtain ⟨name, entry⟩ := first
    rw [List.map_cons, List.nodup_cons] at hdistinct
    have hrest := ih' (fun s hs => hplain s (List.mem_cons_of_mem _ hs)) hdistinct.2
      (fun e he => hproper e (List.mem_cons_of_mem _ he)) fun e he => ih e (List.mem_cons_of_mem _ he)
    rw [assets.eq_def]
    refine List.pairwise_append.mpr ⟨?_, hrest, ?_⟩
    · split
      · exact .nil
      · split
        · exact ih _ List.mem_cons_self _
        · exact .nil
    · intro a ha b hb
      split at ha
      · cases ha
      split at ha
      · next s _ =>
        obtain ⟨t, other, hother, hb⟩ := exists_of_mem_assets hb
        obtain ⟨r, har, -⟩ := (hproper _ List.mem_cons_self).goes_on ha
        obtain ⟨r', hbr, -⟩ := (hproper _ (List.mem_cons_of_mem _ hother)).goes_on hb
        refine apart_of_ne ?_ ⟨r, har.symm⟩ ⟨r', hbr.symm⟩
        rintro rfl
        exact hdistinct.1 (List.mem_map.mpr ⟨_, hother, rfl⟩)
      · cases ha

theorem Entry.Proper.apart (h : entry.Proper) : (entry.assets names).Pairwise Apart := by
  induction h generalizing names with
  | file => exact List.pairwise_singleton _ _
  | symlink => exact .nil
  | special => exact .nil
  | directory hplain hdistinct hproper ih => exact assets_apart hplain hdistinct hproper fun e he _ => ih e he

/-- The files of a skill, from its root. -/
structure Asset.Placed (a : Asset) : Prop where
  nonempty : a.names ≠ []
  plain : ∀ n ∈ a.names, PlainName n.toList

theorem placed_of_mem (h : (Entry.directory root).Proper) (ha : a ∈ assets [] root) : a.Placed := by
  obtain ⟨rest, hnames, hrest⟩ : ∃ rest, a.names = [] ++ rest ∧ ∀ n ∈ rest, PlainName n.toList := h.goes_on ha
  rw [List.nil_append] at hnames
  refine ⟨?_, hnames ▸ hrest⟩
  cases h with
  | directory hplain hdistinct hproper =>
    obtain ⟨s, entry, hentry, ha⟩ := exists_of_mem_assets ha
    obtain ⟨r, hr, -⟩ := (hproper _ hentry).goes_on ha
    rw [hr]
    simp

-- ---------------------------------------------------------------------------
-- Their paths
-- ---------------------------------------------------------------------------

theorem splitOn_joined (hnames : names ≠ []) (hplain : ∀ n ∈ names, PlainName n.toList) :
    (joined names).toList.splitOn '/' = names.map String.toList := by
  have hslash : ("/" : String).toList = ['/'] := rfl
  rw [joined, String.toList_intercalate, hslash, List.splitOn_intercalate]
  · intro cs hcs
    obtain ⟨n, hn, rfl⟩ := List.mem_map.mp hcs
    exact (hplain n hn).slash
  · simpa using hnames

theorem joined_inj {other : List String} (hnames : names ≠ []) (hplain : ∀ n ∈ names, PlainName n.toList)
    (hother : other ≠ []) (hplain' : ∀ n ∈ other, PlainName n.toList) (h : joined names = joined other) : names = other := by
  have hparts := splitOn_joined hnames hplain
  rw [h, splitOn_joined hother hplain'] at hparts
  exact (List.map_injective_iff.mpr (fun _ _ => String.toList_injective) hparts).symm

theorem rawParts_joined (hnames : names ≠ []) (hplain : ∀ n ∈ names, PlainName n.toList) :
    rawParts (joined names) = Files.Links.names names := by
  rw [rawParts, splitOn_joined hnames hplain, List.map_map, Files.Links.names]
  refine List.map_congr_left fun n hn => ?_
  have h := hplain n hn
  rw [Function.comp_apply, rawPart_name h.nonempty h.dot h.parent, String.ofList_toList]

theorem pathComponents_joined (hnames : names ≠ []) (hplain : ∀ n ∈ names, PlainName n.toList) :
    pathComponents (joined names) = names.map .normal := by
  unfold pathComponents
  rw [splitOn_joined hnames hplain]
  cases names with
  | nil => exact absurd rfl hnames
  | cons n rest =>
    have hlater : ∀ rest : List String, (∀ n ∈ rest, PlainName n.toList) →
        (rest.map String.toList).filterMap laterComponent = rest.map .normal := by
      intro rest h
      rw [List.filterMap_map, ← List.filterMap_eq_map]
      refine List.filterMap_congr fun n hn => ?_
      rw [Function.comp_apply, laterComponent_plain (h n hn), String.ofList_toList]
      rfl
    obtain ⟨-, hne, hdot, hparent⟩ := hplain n List.mem_cons_self
    rw [List.map_cons]
    dsimp only
    split
    · next heq => exact absurd heq hne
    · next heq => exact absurd heq hdot
    · next heq => exact absurd heq hparent
    · rw [String.ofList_toList, List.map_cons, List.singleton_append]
      exact congrArg _ (hlater rest fun n hn => hplain n (List.mem_cons_of_mem _ hn))

end RemoteCodex.Skills
