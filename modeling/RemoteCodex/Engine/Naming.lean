import RemoteCodex.Engine.Run
import RemoteCodex.Transfer.Names

/-!
# The names of root items

A selection is accepted by its components, and a target is named after what
stands behind the last `/` of the source as it was written.
-/

namespace RemoteCodex.Engine

open Interact Transfer
open Remote (ClientError)

def isNormal : Component → Bool
  | .normal _ => true
  | _ => false

/-- `relative`. -/
def relative (path : String) (empty : Bool) : Except ClientError Unit :=
  if (!empty && path.isEmpty) || path.utf8ByteSize > 4096 || path.toList.contains '\x00'
      || (pathComponents path).any (fun component => !isNormal component) then
    .error (argument "Select a path inside the workspace.")
  else .ok ()

/-- The source of a selected local path: `parent` and `file_name` of the path. -/
def uploadSource (path : String) : Except ClientError String :=
  match (pathComponents path).getLast? with
  | none | some .rootDir => .error (argument "Select a file or folder inside a directory.")
  | some (.normal name) => (relative name false).map fun _ => name
  | some _ => .error (argument "File name is not supported.")

/-- `TransferService::upload` and `TransferService::download` take the paths. -/
inductive Accepted (destination source : String) : Direction → Prop
  | upload (path : String) : relative destination true = .ok () → uploadSource path = .ok source →
      Accepted destination source .upload
  | download : relative source false = .ok () → Accepted destination source .download

/-- A download goes to the root of its directory. -/
def base (direction : Direction) (destination : String) : String :=
  if direction = .upload then destination else ""

def rootTarget (direction : Direction) (destination source : String) : String :=
  join (base direction destination) (lastName source)

theorem place_root (task : Task) (items : List Item) {item : Item} (hparent : item.parent = none)
    (htarget : item.target.isEmpty = true) :
    (place task items item).target = rootTarget task.view.direction task.view.destination item.source := by
  unfold place
  rw [if_pos htarget, hparent]
  rfl

/-- The target once the user has kept both, once for each of the suffixes. -/
def keptBoth (directory : Bool) (target : String) (suffixes : List Nat) : String :=
  suffixes.foldl (fun target number => alternate target number directory) target

/-- A name with a suffix before its extension. -/
def suffixed (directory : Bool) (name : String) (number : Nat) : String :=
  let (stem, extension) :=
    if directory then (name, "")
    else
      match rsplitOnce '.' name with
      | some (s, e) => if s.isEmpty then (name, "") else (s, "." ++ e)
      | none => (name, "")
  stem ++ " (" ++ toString number ++ ")" ++ extension

theorem alternate_eq (path : String) (number : Nat) (directory : Bool) :
    alternate path number directory =
      join ((rsplitOnce '/' path).getD ("", path)).1
        (suffixed directory ((rsplitOnce '/' path).getD ("", path)).2 number) := rfl

/-- The target that the root item gets is inside the destination and ends with the
last name of its source, or what the suffixes make of it. -/
def Named (task : Task) (items : List Item) (item : Item) (directory : Bool) (suffixes : List Nat) : Prop :=
  ∃ names parts last, components (base task.view.direction task.view.destination) = .ok names ∧
    components item.source = .ok parts ∧ parts.getLast? = some last ∧
    components (keptBoth directory (place task items item).target suffixes) =
      .ok (names ++ [suffixes.foldl (suffixed directory) last])

-- ---------------------------------------------------------------------------
-- Cutting and joining
-- ---------------------------------------------------------------------------

section

variable {c : Char} {s name path : String} {names : List String}

theorem splitOn_last {xs ys : List Char} (h : c ∉ ys) : (xs ++ c :: ys).splitOn c = xs.splitOn c ++ [ys] := by
  rw [List.splitOn_append_cons_self, List.splitOn_eq_singleton h]

theorem rsplitOnce_append {xs ys : List Char} (h : c ∉ ys) :
    rsplitOnce c (String.ofList (xs ++ c :: ys)) = some (String.ofList xs, String.ofList ys) := by
  have hlong : ¬ (xs.splitOn c ++ [ys]).length ≤ 1 := by
    have hne := List.length_pos_iff.mpr (List.splitOn_ne_nil c xs)
    rw [List.length_append, List.length_singleton]
    omega
  unfold rsplitOnce
  simp only [String.toList_ofList, splitOn_last h, if_neg hlong]
  rw [List.dropLast_concat, List.intercalate_splitOn]
  simp

theorem rsplitOnce_none (h : c ∉ s.toList) : rsplitOnce c s = none := by
  unfold rsplitOnce
  rw [List.splitOn_eq_singleton h]
  rfl

/-- A text is cut at the last `c`, if it has one. -/
theorem rsplitOnce_cases (c : Char) (s : String) : c ∉ s.toList ∨
    ∃ xs ys, s = String.ofList (xs ++ c :: ys) ∧ c ∉ ys ∧ rsplitOnce c s = some (String.ofList xs, String.ofList ys) := by
  by_cases hmem : c ∈ s.toList
  · right
    obtain ⟨ys, xs, hsplit, hno⟩ := List.eq_append_cons_of_mem (List.mem_reverse.mpr hmem)
    have hback : s = String.ofList (xs.reverse ++ c :: ys.reverse) := by
      rw [← String.ofList_toList (s := s), ← List.reverse_reverse s.toList, hsplit, List.reverse_append,
        List.reverse_cons, List.append_assoc]
      rfl
    have hno' : c ∉ ys.reverse := fun h => hno (List.mem_reverse.mp h)
    refine ⟨xs.reverse, ys.reverse, hback, hno', ?_⟩
    rw [hback]
    exact rsplitOnce_append hno'
  · exact .inl hmem

theorem join_empty (name : String) : join "" name = name := rfl

theorem join_eq {parent : String} (h : parent.isEmpty = false) (name : String) :
    join parent name = String.ofList (trimEnd parent.toList ++ '/' :: name.toList) := by
  unfold join
  rw [if_neg (by simp [h])]
  rfl

/-- A directory an upload or a download goes to. -/
structure Base (parent : String) (names : List String) : Prop where
  accepted : components parent = .ok names
  trimmed : parent.isEmpty = false → trimEnd parent.toList ≠ []

theorem Base.of_components {parent : String} (h : components parent = .ok names) : Base parent names := by
  refine ⟨h, fun hne => ?_⟩
  obtain ⟨-, -, hparts⟩ := components_ok.mp h
  refine trimEnd_ne_nil ?_ ?_
  · intro hnil
    have hempty : parent = "" := String.toList_inj.mp (by rw [hnil]; rfl)
    rw [hempty] at hne
    cases hne
  · intro component hmem
    rw [String.ofList_toList, hparts] at hmem
    obtain ⟨name, -, rfl⟩ := List.mem_map.mp hmem
    exact ⟨name, rfl⟩

/-- What a joined path has before the name. -/
def baseSize (parent : String) : Nat :=
  if parent.isEmpty then 0 else (String.ofList (trimEnd parent.toList)).utf8ByteSize + 1

theorem join_size (parent name : String) : (join parent name).utf8ByteSize = baseSize parent + name.utf8ByteSize := by
  unfold baseSize
  cases h : parent.isEmpty with
  | true =>
    unfold join
    simp [h]
  | false =>
    rw [join_eq h, if_neg (by simp), show '/' :: name.toList = ['/'] ++ name.toList from rfl, String.ofList_append,
      String.ofList_append, String.utf8ByteSize_append, String.utf8ByteSize_append, String.ofList_toList]
    have hslash : (String.ofList ['/']).utf8ByteSize = 1 := by decide
    omega

theorem mem_of_mem_trimEnd {xs : List Char} (h : c ∈ trimEnd xs) : c ∈ xs := by
  obtain ⟨n, hn⟩ := trimEnd_eq xs
  rw [hn]
  exact List.mem_append_left _ h

theorem join_components {parent : String} (h : Base parent names) (hplain : PlainName name.toList)
    (hzero : '\x00' ∉ name.toList) :
    components (join parent name) = .ok (names ++ [name]) ↔ baseSize parent + name.utf8ByteSize ≤ 4096 := by
  obtain ⟨hzero', -, hparts⟩ := components_ok.mp h.accepted
  rw [components_ok, join_size]
  cases hempty : parent.isEmpty with
  | true =>
    obtain rfl : parent = "" := by simpa using hempty
    obtain rfl : names = [] := by
      have hnil : names.map Component.normal = [] := hparts.symm
      simpa using hnil
    have hself := pathComponents_plain hplain
    rw [String.ofList_toList] at hself
    rw [join_empty]
    simp [hself, hzero]
  | false =>
    have htrim := h.trimmed hempty
    have hself : pathComponents (join parent name) = (names ++ [name]).map .normal := by
      rw [join_eq hempty, pathComponents_join htrim hplain, ← pathComponents_trimEnd htrim, String.ofList_toList, hparts,
        String.ofList_toList, List.map_append]
      rfl
    have hno : '\x00' ∉ (join parent name).toList := by
      rw [join_eq hempty, String.toList_ofList]
      intro hmem
      rcases List.mem_append.mp hmem with hmem | hmem
      · exact hzero' (mem_of_mem_trimEnd hmem)
      · rcases List.mem_cons.mp hmem with heq | hmem
        · cases heq
        · exact hzero hmem
    simp [hself, hno]

-- ---------------------------------------------------------------------------
-- Suffixes
-- ---------------------------------------------------------------------------

theorem digits_toList (n : Nat) : ∀ c ∈ (toString n).toList, c.isDigit = true := by
  intro c hc
  rw [show (toString n).toList = Nat.toDigits 10 n from String.toList_ofList] at hc
  exact Nat.isDigit_of_mem_toDigits (by decide) (by decide) hc

/-- The name is cut in two and the suffix is put there. -/
theorem suffixed_cut (directory : Bool) (name : String) (n : Nat) : ∃ stem extension, name = stem ++ extension ∧
    suffixed directory name n = stem ++ " (" ++ toString n ++ ")" ++ extension := by
  have hwhole : name = name ++ "" := String.append_empty.symm
  unfold suffixed
  cases directory with
  | true => exact ⟨name, "", hwhole, rfl⟩
  | false =>
    rcases rsplitOnce_cases '.' name with hno | ⟨xs, ys, hname, -, hcut⟩
    · rw [rsplitOnce_none hno]
      exact ⟨name, "", hwhole, rfl⟩
    · rw [hcut]
      cases hempty : (String.ofList xs).isEmpty with
      | true => exact ⟨name, "", hwhole, by simp [hempty]⟩
      | false =>
        refine ⟨String.ofList xs, "." ++ String.ofList ys, ?_, by simp [hempty]⟩
        rw [hname, String.ofList_append]
        congr 1
        rw [show '.' :: ys = ['.'] ++ ys from rfl, String.ofList_append]

theorem suffixed_size (directory : Bool) (name : String) (n : Nat) :
    (suffixed directory name n).utf8ByteSize = name.utf8ByteSize + (3 + (toString n).utf8ByteSize) := by
  obtain ⟨stem, extension, rfl, hname⟩ := suffixed_cut directory name n
  have hopen : " (".utf8ByteSize = 2 := by decide
  have hclose : ")".utf8ByteSize = 1 := by decide
  rw [hname]
  simp only [String.utf8ByteSize_append, hopen, hclose]
  omega

/-- A suffix brings blanks, parentheses and digits. -/
theorem mem_suffixed {directory : Bool} {name : String} {n : Nat} {c : Char} (h : c ∈ (suffixed directory name n).toList) :
    c ∈ name.toList ∨ c = ' ' ∨ c = '(' ∨ c = ')' ∨ c.isDigit = true := by
  obtain ⟨stem, extension, rfl, hname⟩ := suffixed_cut directory name n
  rw [hname] at h
  simp only [String.toList_append, List.mem_append] at h ⊢
  rcases h with (((hstem | hopen) | hnumber) | hclose) | hextension
  · exact .inl (.inl hstem)
  · rw [show " (".toList = [' ', '('] from rfl] at hopen
    rcases List.mem_cons.mp hopen with rfl | hopen
    · exact .inr (.inl rfl)
    · exact .inr (.inr (.inl (List.mem_singleton.mp hopen)))
  · exact .inr (.inr (.inr (.inr (digits_toList n _ hnumber))))
  · rw [show ")".toList = [')'] from rfl] at hclose
    exact .inr (.inr (.inr (.inl (List.mem_singleton.mp hclose))))
  · exact .inl (.inr hextension)

theorem paren_mem_suffixed (directory : Bool) (name : String) (n : Nat) : '(' ∈ (suffixed directory name n).toList := by
  obtain ⟨stem, extension, -, hname⟩ := suffixed_cut directory name n
  rw [hname]
  simp only [String.toList_append, List.mem_append]
  exact .inl (.inl (.inl (.inr (by decide))))

/-- A name that a path can end with. -/
structure Nameable (name : String) : Prop where
  plain : PlainName name.toList
  zero : '\x00' ∉ name.toList

theorem Nameable.suffixed (h : Nameable name) (directory : Bool) (n : Nat) : Nameable (suffixed directory name n) := by
  have hparen := paren_mem_suffixed directory name n
  refine ⟨⟨?_, List.ne_nil_of_mem hparen, ?_, ?_⟩, ?_⟩
  · intro hmem
    rcases mem_suffixed hmem with hmem | h | h | h | h
    · exact h.plain.slash hmem
    all_goals cases h
  · intro heq
    rw [heq] at hparen
    exact absurd hparen (by decide)
  · intro heq
    rw [heq] at hparen
    exact absurd hparen (by decide)
  · intro hmem
    rcases mem_suffixed hmem with hmem | h | h | h | h
    · exact h.zero hmem
    all_goals cases h

/-- Keeping both changes the name and leaves the directory. -/
theorem alternate_join {parent : String} (h : Base parent names) (hname : '/' ∉ name.toList) (n : Nat)
    (directory : Bool) : alternate (join parent name) n directory = join parent (suffixed directory name n) := by
  rw [alternate_eq]
  cases hempty : parent.isEmpty with
  | true =>
    obtain rfl : parent = "" := by simpa using hempty
    rw [join_empty, rsplitOnce_none hname]
    rfl
  | false =>
    have htrim := h.trimmed hempty
    have hcut : (String.ofList (trimEnd parent.toList)).isEmpty = false := by
      rw [String.isEmpty_eq_false_iff]
      intro hnil
      apply htrim
      rw [← String.toList_ofList (l := trimEnd parent.toList), hnil]
      rfl
    rw [join_eq hempty, rsplitOnce_append hname]
    simp only [Option.getD_some]
    rw [join_eq hcut, join_eq hempty, String.toList_ofList, trimEnd_idem, String.ofList_toList]

theorem keptBoth_join {parent : String} (h : Base parent names) (directory : Bool) (suffixes : List Nat) :
    Nameable name → Nameable (suffixes.foldl (suffixed directory) name) ∧
      keptBoth directory (join parent name) suffixes = join parent (suffixes.foldl (suffixed directory) name) := by
  induction suffixes generalizing name with
  | nil => exact fun hname => ⟨hname, rfl⟩
  | cons n suffixes ih =>
    intro hname
    obtain ⟨hnameable, hjoin⟩ := ih (hname.suffixed directory n)
    refine ⟨hnameable, ?_⟩
    rw [keptBoth, List.foldl_cons, alternate_join h hname.plain.slash]
    exact hjoin

def suffixSize (n : Nat) : Nat := 3 + (toString n).utf8ByteSize

theorem keptBoth_size (directory : Bool) (name : String) (suffixes : List Nat) :
    (suffixes.foldl (suffixed directory) name).utf8ByteSize = name.utf8ByteSize + (suffixes.map suffixSize).sum := by
  induction suffixes generalizing name with
  | nil => rfl
  | cons n suffixes ih =>
    rw [List.foldl_cons, ih, suffixed_size, List.map_cons, List.sum_cons, suffixSize]
    omega

-- ---------------------------------------------------------------------------
-- What a conflict makes of a target
-- ---------------------------------------------------------------------------

variable {σ : Type} {M : Machine EngineOp EngineAns σ} {t : σ}

/-- The item as it was, but for the target. -/
def Renamed (item item' : Item) (targets : List String) : Prop :=
  item'.source = item.source ∧ item'.stamp = item.stamp ∧ item'.parent = item.parent ∧ item'.target ∈ targets

theorem unusedName_target {item : Item} (original : String) (suffixes : List Nat) :
    Act.Sat M (fun _ _ _ => True) (unusedName item original suffixes) t
      (fun item' _ => Renamed item item' (suffixes.map fun n => alternate original n (item.stamp.kind = .directory)))
      fun _ _ => True := by
  induction suffixes generalizing item t with
  | nil => exact Act.Sat.throw trivial
  | cons n suffixes ih =>
    refine Act.Sat.bind (Act.Sat.any _ _) fun r u _ => ?_
    cases r with
    | none => exact Act.Sat.pure ⟨rfl, rfl, rfl, List.mem_cons_self⟩
    | some stamp =>
      apply Act.Sat.mono ih
      · rintro item' - ⟨hsource, hstamp, hparent, htarget⟩
        exact ⟨hsource, hstamp, hparent, List.mem_cons_of_mem _ htarget⟩
      · exact fun _ _ _ => trivial

/-- Whatever is at the target and whatever the user chooses, the target stays or gets one suffix. -/
theorem destination_target (task : Task) (item : Item) :
    Act.Sat M (fun _ _ _ => True) (destination task item) t
      (fun r _ => Renamed item r.2.1 (item.target ::
        (List.range' 2 9998).map fun n => alternate item.target n (item.stamp.kind = .directory)))
      fun _ _ => True := by
  unfold destination
  split
  · exact Act.Sat.pure ⟨rfl, rfl, rfl, List.mem_cons_self⟩
  · refine Act.Sat.bind (Act.Sat.any _ _) fun r u _ => ?_
    cases r with
    | none => exact Act.Sat.pure ⟨rfl, rfl, rfl, List.mem_cons_self⟩
    | some stamp =>
      simp only
      split
      · exact Act.Sat.pure ⟨rfl, rfl, rfl, List.mem_cons_self⟩
      · split
        · exact Act.Sat.pure ⟨rfl, rfl, rfl, List.mem_cons_self⟩
        · exact Act.Sat.pure ⟨rfl, rfl, rfl, List.mem_cons_self⟩
        · exact Act.Sat.pure ⟨rfl, rfl, rfl, List.mem_cons_self⟩
        · refine Act.Sat.bind (unusedName_target item.target _) ?_
          rintro item' u ⟨hsource, hstamp, hparent, htarget⟩
          exact Act.Sat.pure ⟨hsource, hstamp, hparent, List.mem_cons_of_mem _ htarget⟩
        · exact Act.Sat.pure ⟨rfl, rfl, rfl, List.mem_cons_self⟩

-- ---------------------------------------------------------------------------
-- Accepted sources
-- ---------------------------------------------------------------------------

theorem relative_ok {empty : Bool} (h : relative path empty = .ok ()) :
    (empty = false → path ≠ "") ∧ ∃ parts, components path = .ok parts := by
  unfold relative at h
  split at h
  · cases h
  · next hok =>
    simp only [Bool.or_eq_true, Bool.and_eq_true, Bool.not_eq_true', not_or, not_and, Bool.not_eq_true,
      decide_eq_true_eq, Nat.not_lt, gt_iff_lt, List.any_eq_false] at hok
    obtain ⟨⟨⟨hempty, hsize⟩, hzero⟩, hnormal⟩ := hok
    refine ⟨fun hfalse hpath => ?_, ?_⟩
    · have hne := hempty hfalse
      rw [hpath] at hne
      cases hne
    · have hnames : ∃ parts : List String, pathComponents path = parts.map .normal := by
        generalize pathComponents path = found at hnormal
        clear hempty hsize hzero
        induction found with
        | nil => exact ⟨[], rfl⟩
        | cons component found ih =>
          obtain ⟨parts, rfl⟩ := ih fun x hx => hnormal x (List.mem_cons_of_mem _ hx)
          have hfirst := hnormal component List.mem_cons_self
          cases component with
          | normal name => exact ⟨name :: parts, rfl⟩
          | _ => exact absurd rfl hfirst
      obtain ⟨parts, hparts⟩ := hnames
      exact ⟨parts, components_ok.mpr ⟨by simpa using hzero, hsize, hparts⟩⟩

theorem Accepted.paths {destination source : String} {direction : Direction} (h : Accepted destination source direction) :
    source ≠ "" ∧ (∃ parts, components source = .ok parts) ∧
      ∃ names, components (base direction destination) = .ok names := by
  cases h with
  | upload path hdestination hsource =>
    have hname : relative source false = .ok () := by
      unfold uploadSource at hsource
      split at hsource
      · cases hsource
      · cases hsource
      · next name _ =>
        cases hname : relative name false with
        | error e =>
          rw [hname] at hsource
          cases hsource
        | ok u =>
          rw [hname] at hsource
          obtain rfl : name = source := Except.ok.inj hsource
          exact hname
      · cases hsource
    obtain ⟨hne, hparts⟩ := relative_ok hname
    exact ⟨hne rfl, hparts, (relative_ok hdestination).2⟩
  | download hsource =>
    obtain ⟨hne, hparts⟩ := relative_ok hsource
    exact ⟨hne rfl, hparts, [], rfl⟩

/-- The raw path ends with a separator, or with a separator and a dot. -/
def Trailing (path : String) : Prop := ['/'] <:+ path.toList ∨ ['/', '.'] <:+ path.toList

theorem lastName_append {xs ys : List Char} (h : '/' ∉ ys) :
    lastName (String.ofList (xs ++ '/' :: ys)) = String.ofList ys := by
  unfold lastName
  rw [String.toList_ofList, splitOn_last h]
  simp

theorem lastName_none (h : '/' ∉ path.toList) : lastName path = path := by
  unfold lastName
  rw [List.splitOn_eq_singleton h]
  exact String.ofList_toList

theorem not_mem_normal {component : Component} (h : ∀ name, component ≠ .normal name) (parts : List String) :
    component ∉ parts.map Component.normal := by
  intro hmem
  obtain ⟨name, -, heq⟩ := List.mem_map.mp hmem
  exact h name heq.symm

/-- The last name of a path that does not trail off is its last component. -/
theorem last_component {parts : List String} (h : components path = .ok parts) (hne : path ≠ "")
    (hno : ¬ Trailing path) : Nameable (lastName path) ∧ parts.getLast? = some (lastName path) := by
  obtain ⟨hzero, -, hparts⟩ := components_ok.mp h
  have hcur : Component.curDir ∉ pathComponents path := hparts ▸ not_mem_normal (fun _ => Component.noConfusion) _
  have hup : Component.parentDir ∉ pathComponents path := hparts ▸ not_mem_normal (fun _ => Component.noConfusion) _
  have hroot : Component.rootDir ∉ pathComponents path := hparts ▸ not_mem_normal (fun _ => Component.noConfusion) _
  rcases rsplitOnce_cases '/' path with hslash | ⟨xs, ys, rfl, hslash, -⟩
  · have hplain : PlainName path.toList := by
      refine ⟨hslash, fun hnil => hne (String.toList_inj.mp hnil), fun hdot => hcur ?_, fun hdots => hup ?_⟩
      · rw [← String.ofList_toList (s := path), hdot]
        decide
      · rw [← String.ofList_toList (s := path), hdots]
        decide
    have hself := pathComponents_plain hplain
    rw [String.ofList_toList, hparts] at hself
    rw [lastName_none hslash]
    refine ⟨⟨hplain, hzero⟩, ?_⟩
    have hlast := congrArg List.getLast? hself
    rw [List.getLast?_map] at hlast
    simpa using hlast
  · rw [lastName_append hslash]
    rw [String.toList_ofList] at hzero
    have hxs : xs ≠ [] := by
      rintro rfl
      apply hroot
      unfold pathComponents
      rw [String.toList_ofList, splitOn_last hslash, List.splitOn_nil]
      simp
    have hplain : PlainName ys := by
      refine ⟨hslash, ?_, ?_, fun hdots => hup ?_⟩
      · rintro rfl
        exact hno (.inl ⟨xs, String.toList_ofList.symm⟩)
      · rintro rfl
        exact hno (.inr ⟨xs, String.toList_ofList.symm⟩)
      · rw [hdots, pathComponents_append hxs]
        apply List.mem_append_right
        decide
    refine ⟨⟨by rwa [String.toList_ofList], ?_⟩, ?_⟩
    · rw [String.toList_ofList]
      exact fun hmem => hzero (List.mem_append_right _ (List.mem_cons_of_mem _ hmem))
    · rw [pathComponents_join hxs hplain] at hparts
      have hlast := congrArg List.getLast? hparts
      rw [List.getLast?_map, List.getLast?_concat] at hlast
      cases hpart : parts.getLast? with
      | none =>
        rw [hpart] at hlast
        cases hlast
      | some part =>
        rw [hpart] at hlast
        obtain heq : Component.normal (String.ofList ys) = .normal part := Option.some.inj hlast
        rw [Component.normal.inj heq]

/-- Behind a trailing separator or dot there is no name. -/
theorem join_trailing {parent : String} (h : Base parent names) (htrail : Trailing path) {found : List String}
    (hfound : components (join parent (lastName path)) = .ok found) : found = names := by
  have hname : lastName path = "" ∨ lastName path = "." := by
    rcases htrail with ⟨xs, hxs⟩ | ⟨xs, hxs⟩
    · left
      rw [← String.ofList_toList (s := path), ← hxs]
      exact lastName_append List.not_mem_nil
    · right
      rw [← String.ofList_toList (s := path), ← hxs]
      exact lastName_append (by decide)
  obtain ⟨-, -, hparts⟩ := components_ok.mp h.accepted
  obtain ⟨-, -, hjoined⟩ := components_ok.mp hfound
  suffices hsame : pathComponents (join parent (lastName path)) = pathComponents parent by
    rw [hjoined, hparts] at hsame
    exact List.map_injective_iff.mpr (fun _ _ => Component.normal.inj) hsame
  cases hempty : parent.isEmpty with
  | true =>
    obtain rfl : parent = "" := by simpa using hempty
    rcases hname with hname | hname
    · rw [hname]
      rfl
    · rw [hname, join_empty] at hjoined
      have hdot : Component.curDir ∈ pathComponents "." := by decide
      rw [hjoined] at hdot
      exact absurd hdot (not_mem_normal (fun _ => Component.noConfusion) _)
  | false =>
    have htrim := h.trimmed hempty
    rw [join_eq hempty, pathComponents_append htrim, ← pathComponents_trimEnd htrim, String.ofList_toList]
    rcases hname with hname | hname
    · rw [hname, show "".toList = [] from rfl, List.splitOn_nil]
      simp [laterComponent]
    · rw [hname, show ".".toList = ['.'] from rfl, List.splitOn_eq_singleton (by decide)]
      simp [laterComponent]

-- ---------------------------------------------------------------------------
-- The target of a root item
-- ---------------------------------------------------------------------------

/-- The item is named after its source, in the destination and inside the
endpoint's bound, exactly where its source has a name behind the last `/` and
what the target is made of has room. -/
theorem named_iff {task : Task} {items : List Item} {item : Item} (hparent : item.parent = none)
    (htarget : item.target.isEmpty = true) (h : Accepted task.view.destination item.source task.view.direction)
    (directory : Bool) (suffixes : List Nat) :
    (∀ used, used <+: suffixes → Named task items item directory used) ↔
      ¬ Trailing item.source ∧
        baseSize (base task.view.direction task.view.destination) + (lastName item.source).utf8ByteSize +
          (suffixes.map suffixSize).sum ≤ 4096 := by
  obtain ⟨hne, ⟨parts, hparts⟩, names, hnames⟩ := h.paths
  have hbase := Base.of_components hnames
  have hplace := place_root task items hparent htarget
  constructor
  · intro hall
    have hno : ¬ Trailing item.source := by
      intro htrail
      obtain ⟨names', parts', last, hnames', -, -, hroot⟩ := hall [] List.nil_prefix
      rw [hplace] at hroot
      have hback := join_trailing hbase htrail hroot
      obtain rfl : names = names' := Except.ok.inj (hnames.symm.trans hnames')
      have hlength := congrArg List.length hback
      rw [List.length_append] at hlength
      exact absurd hlength (by simp)
    refine ⟨hno, ?_⟩
    obtain ⟨hname, -⟩ := last_component hparts hne hno
    obtain ⟨names', parts', last, -, -, -, hkept⟩ := hall suffixes List.prefix_rfl
    obtain ⟨-, hsize, -⟩ := components_ok.mp hkept
    rw [hplace, rootTarget, (keptBoth_join hbase directory suffixes hname).2, join_size, keptBoth_size] at hsize
    omega
  · rintro ⟨hno, hsize⟩ used ⟨rest, rfl⟩
    obtain ⟨hname, hlast⟩ := last_component hparts hne hno
    obtain ⟨hnameable, hjoin⟩ := keptBoth_join hbase directory used hname
    refine ⟨names, parts, lastName item.source, hnames, hparts, hlast, ?_⟩
    rw [hplace, rootTarget, hjoin, join_components hbase hnameable.plain hnameable.zero, keptBoth_size]
    rw [List.map_append, List.sum_append] at hsize
    omega

def fetched (source : String) : Task :=
  { view := { workspace := "/work", direction := .download, destination := "/home/user" }, sources := [⟨0, source⟩] }

def rootItem (source : String) : Item :=
  { index := 0, parent := none, root := 0, source, stamp := ⟨.directory, 0, 0, 0, 0, 0o755⟩, token := "" }

theorem named_download : Accepted "/home/user" "docs/a.txt" .download ∧ ∀ used, used <+: [2, 3] →
    Named (fetched "docs/a.txt") [] (rootItem "docs/a.txt") false used := by
  have haccepted : Accepted "/home/user" "docs/a.txt" .download := .download (by decide)
  refine ⟨haccepted, (named_iff rfl rfl haccepted false [2, 3]).mpr ⟨?_, by decide⟩⟩
  unfold Trailing
  decide

/-- A trailing separator leaves the download with the directory itself as the target. -/
theorem download_unnamed : Accepted "/home/user" "docs/" .download ∧
    components (place (fetched "docs/") [] (rootItem "docs/")).target = .ok [] ∧
    ¬ Named (fetched "docs/") [] (rootItem "docs/") true [] := by
  have hroot : components (place (fetched "docs/") [] (rootItem "docs/")).target = .ok [] := by decide
  refine ⟨.download (by decide), hroot, ?_⟩
  rintro ⟨names, parts, last, -, -, -, hkept⟩
  have hnil := Except.ok.inj (hroot.symm.trans hkept)
  exact absurd hnil (by simp)

end

end RemoteCodex.Engine
