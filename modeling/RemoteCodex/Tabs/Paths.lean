import Mathlib.Data.List.Basic

/-!
# Remote paths

The paths of the file tabs, as the characters of their texts. A path is known by
its names: `remotePath` writes them with one slash before each.
-/

namespace RemoteCodex.Tabs

abbrev Path := List Char

/-- `split('/')`. -/
def split : Path → List Path
  | [] => [[]]
  | c :: cs =>
    if c = '/' then [] :: split cs
    else
      match split cs with
      | name :: rest => (c :: name) :: rest
      | [] => [[c]]

/-- The names of a path. -/
def names (path : Path) : List Path := (split path).filter (· ≠ [])

/-- `join('/')`. -/
def join : List Path → Path
  | [] => []
  | [name] => name
  | name :: rest => name ++ '/' :: join rest

def remotePath (root path : Path) : Path := '/' :: join (names root ++ names path)

def within (directory path : Path) : Bool :=
  directory = ['/'] || directory = path || (directory ++ ['/']).isPrefixOf path

def relativePath (root absolute : Path) : Option Path :=
  let base := remotePath root []
  if within base absolute then some (absolute.drop (if base = ['/'] then 1 else base.length + 1)) else none

def movedPath (path source destination : Path) : Path :=
  if within source path then destination ++ path.drop source.length else path

-- ---------------------------------------------------------------------------
-- Names
-- ---------------------------------------------------------------------------

theorem split_ne_nil (path : Path) : split path ≠ [] := by
  cases path with
  | nil => simp [split]
  | cons c cs =>
    unfold split
    split
    · simp
    · split <;> simp

theorem split_append (a b : Path) : split (a ++ '/' :: b) = split a ++ split b := by
  induction a with
  | nil => simp [split]
  | cons c a ih =>
    rw [List.cons_append, split, split, ih]
    by_cases h : c = '/'
    · simp [h]
    · simp only [h, if_false]
      cases hs : split a with
      | nil => exact absurd hs (split_ne_nil a)
      | cons name rest => rfl

@[simp] theorem names_append (a b : Path) : names (a ++ '/' :: b) = names a ++ names b := by
  rw [names, split_append, List.filter_append]
  rfl

@[simp] theorem names_nil : names [] = [] := rfl

@[simp] theorem names_cons (path : Path) : names ('/' :: path) = names path := names_append [] path

theorem split_of_noslash {name : Path} (h : '/' ∉ name) : split name = [name] := by
  induction name with
  | nil => rfl
  | cons c name ih =>
    rw [List.mem_cons, not_or] at h
    rw [split, if_neg (Ne.symm h.1), ih h.2]

theorem noslash_of_mem_split {path name : Path} (h : name ∈ split path) : '/' ∉ name := by
  induction path generalizing name with
  | nil =>
    obtain rfl := List.mem_singleton.mp h
    simp
  | cons c path ih =>
    rw [split] at h
    split at h
    · rcases List.mem_cons.mp h with rfl | h
      · simp
      · exact ih h
    · next hc =>
      cases hs : split path with
      | nil => exact absurd hs (split_ne_nil path)
      | cons first rest =>
        rw [hs] at h ih
        rcases List.mem_cons.mp h with rfl | h
        · rw [List.mem_cons, not_or]
          exact ⟨Ne.symm hc, ih List.mem_cons_self⟩
        · exact ih (List.mem_cons_of_mem _ h)

/-- What joins names is read back as them. -/
theorem names_join {l : List Path} (h : ∀ name ∈ l, name ≠ [] ∧ '/' ∉ name) : names (join l) = l := by
  induction l with
  | nil => rfl
  | cons name l ih =>
    obtain ⟨hne, hslash⟩ := h name List.mem_cons_self
    have hone : names name = [name] := by simp [names, split_of_noslash hslash, hne]
    cases l with
    | nil => exact hone
    | cons next l =>
      rw [join, names_append, hone, ih fun other hmem => h other (List.mem_cons_of_mem _ hmem)]
      · rfl
      · simp

theorem mem_names {path name : Path} (h : name ∈ names path) : name ≠ [] ∧ '/' ∉ name := by
  obtain ⟨hmem, hne⟩ := List.mem_filter.mp h
  exact ⟨of_decide_eq_true hne, noslash_of_mem_split hmem⟩

@[simp] theorem names_remotePath (root path : Path) : names (remotePath root path) = names root ++ names path := by
  rw [remotePath, names_cons, names_join]
  intro name h
  rcases List.mem_append.mp h with h | h
  · exact mem_names h
  · exact mem_names h

/-- A path below a root is the root and what is relative to it. -/
theorem remotePath_relative {root next path : Path} (h : relativePath root next = some path)
    (habs : ∃ rest, next = '/' :: rest) : remotePath root path = remotePath next [] := by
  have hbase : names (remotePath root []) = names root := by simp
  suffices hnames : names root ++ names path = names next by
    rw [remotePath, remotePath, hnames, names_nil, List.append_nil]
  simp only [relativePath] at h
  split at h
  · next hin =>
    obtain rfl := Option.some.inj h
    by_cases hroot : remotePath root [] = ['/']
    · obtain ⟨rest, rfl⟩ := habs
      rw [if_pos hroot, ← hbase, hroot]
      simp
    · rw [if_neg hroot, ← hbase]
      simp only [within, Bool.or_eq_true, decide_eq_true_eq, List.isPrefixOf_iff_prefix] at hin
      rcases hin with (hin | rfl) | ⟨rest, rfl⟩
      · exact absurd hin hroot
      · rw [List.drop_eq_nil_of_le (Nat.le_succ _)]
        simp
      · have hdrop : (remotePath root [] ++ ['/'] ++ rest).drop ((remotePath root []).length + 1) = rest :=
          List.drop_left' (List.length_append ..)
        rw [hdrop, List.append_assoc, List.singleton_append, names_append]
  · cases h

/-- A path outside is taken from the top. -/
theorem remotePath_top {next : Path} (habs : ∃ rest, next = '/' :: rest) :
    remotePath ['/'] (next.drop 1) = remotePath next [] := by
  obtain ⟨rest, rfl⟩ := habs
  have hroot : names ['/'] = [] := rfl
  simp [remotePath, hroot]

end RemoteCodex.Tabs
