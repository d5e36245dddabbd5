import RemoteCodex.Interact.Forest
import RemoteCodex.Transfer.Confined
import RemoteCodex.Transfer.Listing
import RemoteCodex.Engine.Naming

/-!
# What a scan looks at

The trees that sources are selected from, what an endpoint answers about them,
and the forest of everything that is selected.
-/

namespace RemoteCodex.Engine

open Interact Transfer
open Remote (ClientError)

/-- A tree as a file system has one. -/
structure SourceTree where
  disk : Files.Disk
  rooted : ∀ p n, (disk.get (p ++ [n])).isSome = true → p = [] ∨ disk.isDirectory p = true
  named : ∀ p n, (disk.get (p ++ [n])).isSome = true → PlainName n.toList ∧ '\x00' ∉ n.toList

/-- What an endpoint on the tree answers. -/
def served (c : Crates) (owner : String) (tree : SourceTree) (command : Command) : Except Fault (Reply × Files.Bytes) :=
  ((dispatch c ⟨owner, false⟩ command []).run.run Files.machine tree.disk).1

/-- What an entry of a root is. -/
def entryStamp (trees : Nat → SourceTree) (v : Nat × String) : Option Stamp :=
  match components v.2 with
  | .ok names => stampAt (trees v.1).disk names
  | .error _ => none

/-- What an entry contains. -/
def contents (c : Crates) (trees : Nat → SourceTree) (v : Nat × String) : List (Nat × String) :=
  match components v.2 with
  | .ok names =>
    if (trees v.1).disk.isDirectory names then
      (visible c (trees v.1).disk names).map fun name => (v.1, join v.2 name)
    else []
  | .error _ => []

-- ---------------------------------------------------------------------------
-- Trees
-- ---------------------------------------------------------------------------

section

variable {c : Crates} {owner : String} {tree : SourceTree} {trees : Nat → SourceTree} {names : List String}
  {path name : String} {v w : Nat × String}

theorem walks_append {s : Files.Disk} {dir : Files.Path} :
    Walks s dir (names ++ [name]) ↔ Walks s dir names ∧ s.isDirectory (dir ++ names ++ [name]) = true := by
  induction names generalizing dir with
  | nil => simp [Walks]
  | cons first names ih =>
    have hpath : dir ++ [first] ++ names ++ [name] = dir ++ (first :: names) ++ [name] := by simp
    rw [List.cons_append, Walks, Walks, ih, and_assoc, hpath]

theorem SourceTree.walks_directory (tree : SourceTree) (h : tree.disk.isDirectory names = true) : Walks tree.disk [] names := by
  induction names using List.reverseRecOn with
  | nil => trivial
  | append_singleton names name ih =>
    rw [walks_append]
    refine ⟨?_, h⟩
    obtain ⟨a, hget⟩ := Files.Disk.isDirectory_iff.mp h
    rcases tree.rooted names name (by rw [hget]; rfl) with rfl | hdir
    · trivial
    · exact ih hdir

theorem SourceTree.walks_parent (tree : SourceTree) (h : (tree.disk.get (names ++ [name])).isSome = true) :
    Walks tree.disk [] names := by
  rcases tree.rooted names name h with rfl | hdir
  · trivial
  · exact tree.walks_directory hdir

theorem components_empty (h : components path = .ok []) : path = "" := by
  by_contra hne
  obtain ⟨-, -, hparts⟩ := components_ok.mp h
  have hback : ['/'].intercalate (path.toList.splitOn '/') = path.toList := List.intercalate_splitOn '/'
  unfold pathComponents at hparts
  cases hsplit : path.toList.splitOn '/' with
  | nil => exact List.splitOn_ne_nil _ _ hsplit
  | cons first rest =>
    rw [hsplit] at hparts hback
    have hhead := (List.append_eq_nil_iff.mp hparts).1
    split at hhead
    · split at hhead
      · next hrest =>
        rw [List.isEmpty_iff.mp hrest] at hback
        exact hne (String.toList_inj.mp hback.symm)
      · cases hhead
    · cases hhead
    · cases hhead
    · cases hhead

-- ---------------------------------------------------------------------------
-- Answers
-- ---------------------------------------------------------------------------

theorem served_refused {command : Command} (h : ∃ f, components command.path = .error f) :
    ∃ f, served c owner tree command = .error f := by
  obtain ⟨f, hf⟩ := Handles.dispatch_fails (c := c) (e := ⟨owner, false⟩) h []
  exact ⟨f, by rw [served, hf]; rfl⟩

/-- A command without a payload that is not cancelled. -/
theorem served_of {α : Type} {x : M α} {Q : α → Files.Disk → Prop} {E : Fault → Files.Disk → Prop} (c : Crates)
    (owner : String) (command : Command) (g : α → Reply)
    (hcommand : dispatch c ⟨owner, false⟩ command [] = x >>= fun a => pure (g a, []))
    (h : Act.Sat Files.machine (fun _ _ _ => True) x tree.disk Q E) :
    (∃ a t, served c owner tree command = .ok (g a, []) ∧ Q a t) ∨ ∃ f t, served c owner tree command = .error f ∧ E f t := by
  have hall : Act.Sat Files.machine (fun _ _ _ => True) (dispatch c ⟨owner, false⟩ command []) tree.disk
      (fun r t => ∃ a, r = (g a, []) ∧ Q a t) E := by
    rw [hcommand]
    refine .bind (h.mono (fun _ _ h => h) fun _ _ h => h) fun a t ha => ?_
    exact .pure ⟨a, rfl, ha⟩
  rcases sat_run hall with ⟨r, t, hrun, a, rfl, ha⟩ | ⟨f, t, hrun, hf⟩
  · exact .inl ⟨a, t, by rw [served, hrun], ha⟩
  · exact .inr ⟨f, t, by rw [served, hrun], hf⟩

theorem served_stat (h : components path = .ok names) :
    served c owner tree (.stat path) = .ok (.stat (stampAt tree.disk names), []) ∨
      (∃ f, served c owner tree (.stat path) = .error f) ∧ stampAt tree.disk names = none := by
  rcases List.eq_nil_or_concat names with rfl | ⟨dir, name, rfl⟩
  · obtain rfl := components_empty h
    have hlook : Act.Sat Files.machine (fun _ _ _ => True) (Transfer.stat "") tree.disk
        (fun r _ => r = stampAt tree.disk []) fun _ _ => False := by
      unfold Transfer.stat
      refine sat_look (fun _ _ => trivial) rfl ?_
      cases hn : tree.disk.get [] with
      | none =>
        simp only [Files.exec, hn]
        exact .pure (stampAt_none.mpr hn).symm
      | some n =>
        simp only [Files.exec, hn]
        exact .pure (by simp [stampAt, hn])
    rcases served_of c owner (.stat "") Reply.stat rfl hlook with ⟨r, t, hserved, rfl⟩ | ⟨f, t, -, hno⟩
    · exact .inl hserved
    · exact hno.elim
  · have hplace : Transfer.place path = some (dir, name) := by simp [Transfer.place, h]
    have hlook := Transfer.stat_sat (G := fun _ _ _ => True) (s := tree.disk) (fun _ _ => trivial) hplace
    rw [List.concat_eq_append]
    rcases served_of c owner (.stat path) Reply.stat rfl hlook with ⟨r, t, hserved, -, rfl, -⟩ | ⟨f, t, hserved, -, hno⟩
    · exact .inl hserved
    · refine .inr ⟨⟨f, hserved⟩, stampAt_none.mpr ?_⟩
      by_contra hget
      exact hno (tree.walks_parent (Option.isSome_iff_ne_none.mpr hget))

theorem served_entry (c : Crates) (owner : String) (trees : Nat → SourceTree) (root : Nat) (path : String) :
    served c owner (trees root) (.stat path) = .ok (.stat (entryStamp trees (root, path)), []) ∨
      (∃ f, served c owner (trees root) (.stat path) = .error f) ∧ entryStamp trees (root, path) = none := by
  cases hnames : components path with
  | error f =>
    refine .inr ⟨served_refused ⟨f, hnames⟩, ?_⟩
    simp only [entryStamp, hnames]
  | ok names =>
    have hentry : entryStamp trees (root, path) = stampAt (trees root).disk names := by simp only [entryStamp, hnames]
    rw [hentry]
    exact served_stat hnames

theorem served_list (c : Crates) (owner : String) (h : components path = .ok names)
    (hdir : tree.disk.isDirectory names = true) (after : Option String) :
    ∃ page, served c owner tree (.list path after) = .ok (.list page, []) ∧ Listed c tree.disk names after page := by
  have hlook := list_sat (c := c) (e := ⟨owner, false⟩) (G := fun _ _ _ => True) (s := tree.disk) (fun _ _ => trivial) rfl h
    after
  rcases served_of c owner (.list path after) Reply.list rfl hlook with ⟨page, t, hserved, -, -, hlisted⟩ | ⟨f, t, -, -, hno⟩
  · exact ⟨page, hserved, hlisted⟩
  · exact absurd (tree.walks_directory hdir) hno

-- ---------------------------------------------------------------------------
-- Entries
-- ---------------------------------------------------------------------------

theorem entryStamp_some {stamp : Stamp} (h : entryStamp trees v = some stamp) :
    ∃ names, components v.2 = .ok names ∧ stampAt (trees v.1).disk names = some stamp := by
  unfold entryStamp at h
  split at h
  · next names hnames => exact ⟨names, hnames, h⟩
  · cases h

theorem stampAt_directory {s : Files.Disk} {stamp : Stamp} (h : stampAt s names = some stamp) :
    stamp.kind = .directory ↔ s.isDirectory names = true := by
  obtain ⟨n, hn, rfl⟩ := Option.map_eq_some_iff.mp h
  obtain ⟨a, body⟩ := n
  cases body <;> simp [stampOf, stampKind, Files.Node.metadata, Files.Node.isFile, Files.Node.isDirectory,
    Files.Disk.isDirectory, hn]

theorem contents_directory (h : components v.2 = .ok names) (hdir : (trees v.1).disk.isDirectory names = true) :
    contents c trees v = (visible c (trees v.1).disk names).map fun name => (v.1, join v.2 name) := by
  unfold contents
  rw [h]
  exact if_pos hdir

theorem contents_other (h : components v.2 = .ok names) (hno : ¬ (trees v.1).disk.isDirectory names = true) :
    contents c trees v = [] := by
  unfold contents
  rw [h]
  exact if_neg hno

theorem mem_contents : w ∈ contents c trees v ↔ ∃ names name, components v.2 = .ok names ∧
    (trees v.1).disk.isDirectory names = true ∧ name ∈ visible c (trees v.1).disk names ∧ w = (v.1, join v.2 name) := by
  constructor
  · intro h
    unfold contents at h
    split at h
    · next names hnames =>
      split at h
      · next hdir =>
        obtain ⟨name, hname, rfl⟩ := List.mem_map.mp h
        exact ⟨names, name, hnames, hdir, hname, rfl⟩
      · cases h
    · cases h
  · rintro ⟨names, name, hnames, hdir, hname, rfl⟩
    rw [contents_directory hnames hdir]
    exact List.mem_map_of_mem hname

/-- The path of what a directory contains is accepted unless it is too long. -/
theorem components_join (tree : SourceTree) (h : components path = .ok names) (hname : name ∈ visible c tree.disk names) :
    components (join path name) = .ok (names ++ [name]) ∨
      4096 < (join path name).utf8ByteSize ∧ ∃ f, components (join path name) = .error f := by
  obtain ⟨hplain, hzero⟩ := tree.named names name (mem_visible.mp hname).1
  have hjoin := join_components (Base.of_components h) hplain hzero
  rw [← join_size] at hjoin
  rcases Nat.lt_or_ge 4096 (join path name).utf8ByteSize with hlong | hfits
  · refine .inr ⟨hlong, ?_⟩
    cases hparts : components (join path name) with
    | error f => exact ⟨f, rfl⟩
    | ok parts =>
      have hsize := (components_ok.mp hparts).2.1
      omega
  · exact .inl (hjoin.mpr hfits)

theorem contents_components {found : List String} (h : w ∈ contents c trees v) (hw : components w.2 = .ok found) :
    w.1 = v.1 ∧ ∃ names name, components v.2 = .ok names ∧ found = names ++ [name] ∧
      name ∈ visible c (trees v.1).disk names := by
  obtain ⟨names, name, hnames, -, hname, rfl⟩ := mem_contents.mp h
  refine ⟨rfl, names, name, hnames, ?_, hname⟩
  rcases components_join (trees v.1) hnames hname with hok | ⟨-, f, hf⟩
  · exact Except.ok.inj (hw.symm.trans hok)
  · rw [hf] at hw
    cases hw

end

/-- A source, and what the store and the connection may fail with. -/
structure Setting where
  crates : Crates
  owner : String
  trees : Nat → SourceTree
  lost : ClientError → Prop

abbrev Setting.contents (S : Setting) (v : Nat × String) : List (Nat × String) := Engine.contents S.crates S.trees v

-- ---------------------------------------------------------------------------
-- The selected trees
-- ---------------------------------------------------------------------------

/-- The longest path of a tree. -/
def depth (d : Files.Disk) : Nat := (d.nodes.keys.map List.length).foldr max 0

theorem le_foldr_max {n : Nat} {ns : List Nat} (h : n ∈ ns) : n ≤ ns.foldr max 0 := by
  induction ns with
  | nil => cases h
  | cons m ns ih =>
    rcases List.mem_cons.mp h with rfl | h
    · exact Nat.le_max_left _ _
    · exact (ih h).trans (Nat.le_max_right _ _)

theorem length_le_depth {d : Files.Disk} {p : Files.Path} (h : (d.get p).isSome = true) : p.length ≤ depth d := by
  rw [Files.Disk.get, AList.lookup_isSome, AList.mem_keys] at h
  exact le_foldr_max (List.mem_map_of_mem h)

/-- How much deeper a tree may go. -/
def rank (trees : Nat → SourceTree) (v : Nat × String) : Nat :=
  match components v.2 with
  | .ok names => depth (trees v.1).disk + 1 - names.length
  | .error _ => 0

/-- Every selection has its trees, and no others. -/
theorem grows_exists (S : Setting) (roots : List (Nat × String)) : ∃ f, Forest.Grows S.contents roots f := by
  refine Forest.Grows.exists (rank S.trees) ?_ roots
  intro v w hw
  obtain ⟨names, name, hnames, hdir, hname, rfl⟩ := mem_contents.mp hw
  obtain ⟨a, hget⟩ := Files.Disk.isDirectory_iff.mp hdir
  have hlength : names.length ≤ depth (S.trees v.1).disk := length_le_depth (by rw [hget]; rfl)
  have hv : rank S.trees v = depth (S.trees v.1).disk + 1 - names.length := by simp only [rank, hnames]
  rcases components_join (S.trees v.1) hnames hname with hok | ⟨-, f, hf⟩
  · have hw : rank S.trees (v.1, join v.2 name) = depth (S.trees v.1).disk + 1 - (names ++ [name]).length := by
      simp only [rank, hok]
    rw [hv, hw, List.length_append, List.length_singleton]
    omega
  · have hw : rank S.trees (v.1, join v.2 name) = 0 := by simp only [rank, hf]
    omega

/-- Neither is the other or contains it. -/
def Apart (u v : Nat × String) : Prop :=
  u.1 = v.1 → ∀ p q, components u.2 = .ok p → components v.2 = .ok q → ¬ p <+: q ∧ ¬ q <+: p

def Differ (u v : Nat × String) : Prop := u.1 = v.1 → ∀ p q, components u.2 = .ok p → components v.2 = .ok q → p ≠ q

section

variable {S : Setting} {roots : List (Nat × String)} {f : Forest (Nat × String)} {u v w : Nat × String}

theorem Apart.symm (h : Apart u v) : Apart v u := fun hroot p q hp hq => (h hroot.symm q p hq hp).symm

theorem Apart.down (h : Apart u v) (hw : w ∈ S.contents v) : Apart u w := by
  intro hroot p q hp hq
  obtain ⟨hsame, names, name, hnames, rfl, -⟩ := contents_components hw hq
  obtain ⟨hno, hno'⟩ := h (hroot.trans hsame) p names hp hnames
  constructor
  · intro hprefix
    rcases List.prefix_concat_iff.mp hprefix with rfl | hprefix
    · exact hno' (List.prefix_append _ _)
    · exact hno hprefix
  · exact fun hprefix => hno' ((List.prefix_append _ _).trans hprefix)

theorem contents_apart (S : Setting) (v : Nat × String) : (S.contents v).Pairwise Apart := by
  cases hnames : components v.2 with
  | error f =>
    have hnil : S.contents v = [] := by simp only [Setting.contents, contents, hnames]
    rw [hnil]
    exact .nil
  | ok names =>
    by_cases hdir : (S.trees v.1).disk.isDirectory names = true
    · rw [Setting.contents, contents_directory hnames hdir, List.pairwise_map]
      refine (visible_ascending S.crates (S.trees v.1).disk names).imp_of_mem ?_
      intro a b ha hb hlt _ p q hp hq
      have hends : ∀ {n found}, n ∈ visible S.crates (S.trees v.1).disk names → components (join v.2 n) = .ok found →
          found = names ++ [n] := by
        intro n found hn hfound
        rcases components_join (S.trees v.1) hnames hn with hok | ⟨-, f, hf⟩
        · exact Except.ok.inj (hfound.symm.trans hok)
        · cases hfound.symm.trans hf
      rw [hends ha hp, hends hb hq]
      have hne : ¬ a = b := ne_of_lt hlt
      have hne' : ¬ b = a := fun h => hne h.symm
      simp [List.prefix_append_right_inj, hne, hne']
    · rw [Setting.contents, contents_other hnames hdir]
      exact .nil

theorem below_components (h : Forest.Below S.contents v w) {q : List String} (hw : components w.2 = .ok q) :
    w.1 = v.1 ∧ ∃ p, components v.2 = .ok p ∧ p <+: q := by
  induction h generalizing q with
  | refl => exact ⟨rfl, q, hw, List.prefix_refl _⟩
  | tail _ hchild ih =>
    obtain ⟨hsame, names, name, hnames, rfl, -⟩ := contents_components hchild hw
    obtain ⟨hroot, p, hp, hprefix⟩ := ih hnames
    exact ⟨hsame.trans hroot, p, hp, hprefix.trans (List.prefix_append _ _)⟩

/-- If no selected entry contains another, nothing comes twice. -/
theorem preorder_differ (h : Forest.Grows S.contents roots f) (hroots : roots.Pairwise Apart) : f.preorder.Pairwise Differ := by
  refine h.pairwise hroots (contents_apart S) (fun _ _ h => h.symm) (fun _ _ _ h hw => h.down hw) ?_ ?_
  · rintro u v hapart hroot p q hp hq rfl
    exact (hapart hroot p p hp hq).1 (List.prefix_refl _)
  · rintro u v w hchild hbelow - p q hp hq rfl
    obtain ⟨-, names, hnames, hprefix⟩ := below_components hbelow hq
    obtain ⟨-, parent, name, hparent, rfl, -⟩ := contents_components hchild hnames
    cases hp.symm.trans hparent
    have hlength := hprefix.length_le
    rw [List.length_append, List.length_singleton] at hlength
    omega

end

end RemoteCodex.Engine
