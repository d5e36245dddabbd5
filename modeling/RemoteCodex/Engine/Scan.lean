import RemoteCodex.Engine.Accounting
import RemoteCodex.Engine.Sources

/-!
# Scanning what does not change

On trees that nobody changes a scan stores the selected trees in preorder, each
entry with the number of the directory that contains it, or it fails for a
reason that is found in the selection.
-/

namespace RemoteCodex.Engine

open Interact Transfer
open Remote (ClientError)

-- ---------------------------------------------------------------------------
-- Operations
-- ---------------------------------------------------------------------------

/-- The source answers as it does on these trees. The store, or the connection
to the source, may fail with what is in `lost`. -/
structure Unchanging (c : Crates) (owner : String) (trees : Nat → SourceTree) (lost : ClientError → Prop) (s : Scene) :
    Prop where
  answers : ∀ root command r, s.around.answer true root command [] = .ok r → served c owner (trees root) command = .ok r
  faults : ∀ root command err, s.around.answer true root command [] = .error err →
    (∃ f, served c owner (trees root) command = .error f) ∨ lost err
  store : ∀ err, s.around.fails = some err → lost err

def Setting.Holds (S : Setting) (s : Scene) : Prop := Unchanging S.crates S.owner S.trees S.lost s

/-- While the source does not change, `x` ends with `Q`, or it fails for a reason
that is there to be found, or with what is lost. -/
def Scans (S : Setting) (bad : Prop) (x : Engine.E α) (s : Scene) (Q : α → Scene → Prop) : Prop :=
  Act.Sat (machine S.Holds) (fun _ _ _ => True) x s Q fun err _ => bad ∨ S.lost err

section

variable {S : Setting} {bad : Prop} {s : Scene} {α β : Type} {Q : β → Scene → Prop} {R : α → Scene → Prop}

theorem Scans.bind {x : Engine.E α} {f : α → Engine.E β} (h : Scans S bad x s R)
    (hf : ∀ a t, R a t → Scans S bad (f a) t Q) : Scans S bad (x >>= f) s Q := Act.Sat.bind h hf

theorem Scans.mono {x : Engine.E α} {R' : α → Scene → Prop} (h : Scans S bad x s R) (hR : ∀ a t, R a t → R' a t) :
    Scans S bad x s R' := Act.Sat.mono h hR fun _ _ h => h

theorem Scans.pure {a : α} (h : R a s) : Scans S bad (pure a) s R := Act.Sat.pure h

theorem Scans.throw {err : ClientError} (h : bad ∨ S.lost err) : Scans S bad (throw err : Engine.E α) s R := Act.Sat.throw h

theorem Scans.ofExcept {r : Except ClientError α} (hok : ∀ a, r = .ok a → R a s) (herr : ∀ e, r = .error e → bad ∨ S.lost e) :
    Scans S bad (ofExcept r : Engine.E α) s R := Act.Sat.ofExcept hok herr

/-- A transaction is carried out, unless the store fails. -/
theorem commits_scans (h : S.Holds s) (k : Stored) : ((s.commits k).1 = .ok () ∧ (s.commits k).2.kept = k) ∨
    ∃ e, (s.commits k).1 = .error e ∧ S.lost e := by
  unfold Scene.commits
  split
  · next e he => exact .inr ⟨e, rfl, h.store e he⟩
  · exact .inl ⟨rfl, rfl⟩

theorem commit_scans {k : Stored} {r : Except ClientError Unit}
    (h : (r = .ok () ∧ s.kept = k) ∨ ∃ e, r = .error e ∧ S.lost e) :
    Scans S bad (ofExcept r : Engine.E Unit) s fun _ t => t.kept = k := by
  refine .ofExcept (fun _ hok => ?_) fun e he => ?_
  · rcases h with ⟨-, hkept⟩ | ⟨e, he, -⟩
    · exact hkept
    · cases hok.symm.trans he
  · rcases h with ⟨hok, -⟩ | ⟨e', he', hlost⟩
    · cases he.symm.trans hok
    · cases he.symm.trans he'
      exact .inr hlost

theorem saveItem_scans (item : Item) : Scans S bad (saveItem item) s fun _ t => t.kept = s.kept.saveItem item := by
  refine .bind (R := fun r t => (r = .ok () ∧ t.kept = s.kept.saveItem item) ∨ ∃ e, r = .error e ∧ S.lost e)
    (Act.Sat.whole whole ?_) fun r t hr => commit_scans hr
  rintro a ⟨hkept, hholds⟩
  exact ⟨trivial, hkept ▸ commits_scans hholds _⟩

theorem saveTask_scans (task : Task) : Scans S bad (saveTask task) s fun _ t => t.kept = s.kept.saveTask task := by
  refine .bind (R := fun r t => (r = .ok () ∧ t.kept = s.kept.saveTask task) ∨ ∃ e, r = .error e ∧ S.lost e)
    (Act.Sat.whole whole ?_) fun r t hr => commit_scans hr
  rintro a ⟨hkept, hholds⟩
  exact ⟨trivial, hkept ▸ commits_scans hholds _⟩

theorem resetScan_scans : Scans S bad resetScan s fun _ t => t.kept = s.kept.setItems [] := by
  refine .bind (R := fun r t => (r = .ok () ∧ t.kept = s.kept.setItems []) ∨ ∃ e, r = .error e ∧ S.lost e)
    (Act.Sat.whole whole ?_) fun r t hr => commit_scans hr
  rintro a ⟨hkept, hholds⟩
  exact ⟨trivial, hkept ▸ commits_scans hholds _⟩

theorem newToken_scans : Scans S bad newToken s fun _ t => t.kept = s.kept := by
  refine Act.Sat.whole whole ?_
  rintro a ⟨hkept, -⟩
  exact ⟨trivial, hkept⟩

theorem publish_scans (task : Task) : Scans S bad (publish task) s fun _ t => t.kept = s.kept.saveTask task := by
  refine .bind (saveTask_scans task) fun _ t ht => ?_
  refine Act.Sat.whole whole ?_
  rintro a ⟨hkept, -⟩
  exact ⟨trivial, hkept.trans ht⟩

/-- The source answers, or it refuses, or it is lost. -/
theorem call_scans {root : Nat} {command : Command} {Q : Reply × Files.Bytes → Scene → Prop}
    (hok : ∀ r t, served S.crates S.owner (S.trees root) command = .ok r → t.kept = s.kept → Q r t)
    (herror : ∀ f, served S.crates S.owner (S.trees root) command = .error f → bad) :
    Scans S bad (call true root command) s Q := by
  refine .bind (R := fun r t => t.kept = s.kept ∧ t.around.answer true root command [] = r ∧ S.Holds t)
    (Act.Sat.whole whole ?_) ?_
  · rintro a ⟨hkept, hholds⟩
    exact ⟨trivial, hkept, rfl, hholds⟩
  · rintro r t ⟨hkept, hanswer, hholds⟩
    refine .ofExcept (fun a ha => ?_) fun err herr => ?_
    · exact hok a t (hholds.answers root command a (hanswer.trans ha)) hkept
    · exact (hholds.faults root command err (hanswer.trans herr)).imp_left fun ⟨f, hf⟩ => herror f hf

theorem sourceStamp_scans {root : Nat} {path : String} (hbad : entryStamp S.trees (root, path) = none → bad) :
    Scans S bad (sourceStamp root path) s fun stamp t =>
      t.kept = s.kept ∧ entryStamp S.trees (root, path) = some stamp := by
  have hentry := served_entry S.crates S.owner S.trees root path
  refine .bind (R := fun r t => t.kept = s.kept ∧ entryStamp S.trees (root, path) = r) ?_ ?_
  · refine .bind (R := fun r t => t.kept = s.kept ∧ r.1 = .stat (entryStamp S.trees (root, path))) (call_scans ?_ ?_) ?_
    · intro r t hserved hkept
      rcases hentry with hok | ⟨⟨f, hf⟩, -⟩
      · cases hserved.symm.trans hok
        exact ⟨hkept, rfl⟩
      · cases hserved.symm.trans hf
    · intro f hf
      rcases hentry with hok | ⟨-, hnone⟩
      · cases hf.symm.trans hok
      · exact hbad hnone
    · rintro ⟨reply, bytes⟩ t ⟨hkept, rfl⟩
      exact .pure ⟨hkept, rfl⟩
  · rintro r t ⟨hkept, hstamp⟩
    cases r with
    | none => exact .throw (.inl (hbad hstamp))
    | some stamp => exact .pure ⟨hkept, hstamp⟩

-- ---------------------------------------------------------------------------
-- The contents of a directory
-- ---------------------------------------------------------------------------

variable {root waiting : Nat} {path : String} {names : List String}

/-- The pages of a directory, put together. What `pages` bounds does not run
out: a directory with more pages is too large. -/
theorem listing_scans (hnames : components path = .ok names) (hdir : (S.trees root).disk.isDirectory names = true)
    (hmany : MAX_ENTRIES < waiting + (visible S.crates (S.trees root).disk names).length → bad) (pages : Nat)
    (after : Option String) (done : List String)
    (hdone : done ++ Smallest.behind after (visible S.crates (S.trees root).disk names) =
      visible S.crates (S.trees root).disk names)
    (hfit : done.length ≤ MAX_ENTRIES) (hpages : MAX_ENTRIES + 100 ≤ 100 * pages + done.length) :
    Scans S bad (listing root path waiting pages after (done.map (join path))) s fun r t =>
      t.kept = s.kept ∧ r = (visible S.crates (S.trees root).disk names).map (join path) := by
  induction pages generalizing s after done with
  | zero => omega
  | succ pages ih =>
    obtain ⟨page, hserved, hlisted⟩ := served_list S.crates S.owner hnames hdir after
    refine .bind (R := fun r t => t.kept = s.kept ∧ r.1 = .list page) (call_scans ?_ ?_) ?_
    · intro r t hok hkept
      cases hok.symm.trans hserved
      exact ⟨hkept, rfl⟩
    · intro f hf
      cases hf.symm.trans hserved
    rintro ⟨reply, bytes⟩ t ⟨hkept, rfl⟩
    have hchildren : done.map (join path) ++ page.entries.map (fun e => join path e.name) =
        (done ++ (Smallest.behind after (visible S.crates (S.trees root).disk names)).take 100).map (join path) := by
      rw [List.map_append, ← hlisted.names, List.map_map]
      rfl
    dsimp only
    rw [hchildren, hlisted.next]
    have hascending := visible_ascending S.crates (S.trees root).disk names
    cases hnext : Smallest.cursor 100 (Smallest.behind after (visible S.crates (S.trees root).disk names)) with
    | none =>
      rw [List.take_of_length_le (Smallest.cursor_none (by decide) hnext), hdone]
      exact .pure ⟨hkept, rfl⟩
    | some last =>
      obtain ⟨hlong, -⟩ := Smallest.cursor_some hnext
      have hrest := Smallest.behind_cursor hascending hnext
      have hlength := congrArg List.length hdone
      rw [List.length_append] at hlength
      have htaken : (done ++ (Smallest.behind after (visible S.crates (S.trees root).disk names)).take 100).length =
          done.length + 100 := by
        rw [List.length_append, List.length_take]
        omega
      dsimp only
      split
      · next hlarge =>
        rw [List.length_map, htaken] at hlarge
        exact .throw (.inl (hmany (by omega)))
      · next hsmall =>
        rw [List.length_map, htaken] at hsmall
        refine (ih (some last) _ ?_ (by omega) (by omega)).mono fun r u hu => ⟨hu.1.trans hkept, hu.2⟩
        rw [hrest, List.append_assoc, List.take_append_drop, hdone]

theorem children_scans {pages : Nat} (hpages : MAX_ENTRIES + 100 ≤ 100 * pages) {stamp : Stamp}
    (hstamp : entryStamp S.trees (root, path) = some stamp)
    (hmany : MAX_ENTRIES < waiting + (S.contents (root, path)).length → bad) :
    Scans S bad (children pages root path waiting stamp) s fun r t =>
      t.kept = s.kept ∧ S.contents (root, path) = r.map fun path => (root, path) := by
  obtain ⟨names, hnames, hat⟩ := entryStamp_some hstamp
  unfold children
  split
  · next hkind =>
    have hdir := (stampAt_directory hat).mp hkind
    have hcontents := contents_directory (c := S.crates) (v := (root, path)) hnames hdir
    rw [Setting.contents, hcontents, List.length_map] at hmany
    refine Scans.mono (listing_scans hnames hdir hmany pages none [] ?_ (Nat.zero_le _) (by simpa using hpages)) ?_
    · rw [Smallest.behind_none]
      rfl
    · rintro r t ⟨hkept, rfl⟩
      refine ⟨hkept, ?_⟩
      rw [Setting.contents, hcontents, List.map_map]
      rfl
  · next hkind =>
    have hcontents := contents_other (c := S.crates) (v := (root, path)) hnames fun hdir =>
      hkind ((stampAt_directory hat).mpr hdir)
    exact .pure ⟨rfl, by rw [Setting.contents, hcontents]; rfl⟩

/-- What an entry adds to the total. -/
def entryLength (trees : Nat → SourceTree) (v : Nat × String) : Nat :=
  match entryStamp trees v with
  | some stamp => if stamp.kind = .file then stamp.length else 0
  | none => 0

theorem counted_scans {task : Task} {stamp : Stamp} (hbound : task.view.total ≤ U64_MAX)
    (hlarge : U64_MAX < task.view.total + (if stamp.kind = .file then stamp.length else 0) → bad) :
    Scans S bad (counted task stamp) s fun r t =>
      t = s ∧ r ≤ U64_MAX ∧ r = task.view.total + if stamp.kind = .file then stamp.length else 0 := by
  unfold counted
  split
  · next hkind =>
    rw [if_pos hkind] at hlarge
    unfold addLength
    cases hsum : checkedAdd task.view.total stamp.length with
    | some total =>
      obtain ⟨rfl, hle⟩ := checkedAdd_some hsum
      exact .pure ⟨rfl, hle, rfl⟩
    | none =>
      refine .throw (.inl (hlarge ?_))
      unfold checkedAdd at hsum
      split at hsum
      · cases hsum
      · next hbig => exact Nat.lt_of_not_le hbig
  · next hkind =>
    exact .pure ⟨rfl, hbound, rfl⟩

end

-- ---------------------------------------------------------------------------
-- All entries
-- ---------------------------------------------------------------------------

def Item.number (i : Item) : Forest.Numbered (Nat × String) := ⟨i.index, i.parent, (i.root, i.source)⟩

def forestLength (trees : Nat → SourceTree) (f : Forest (Nat × String)) : Nat := (f.preorder.map (entryLength trees)).sum

/-- The task with one more entry. -/
def Task.added (task : Task) (total : Nat) : Task :=
  { task with view := { task.view with total, files := task.view.files + 1 } }

/-- What a scan has stored when it has come to the entry `index`. -/
structure Found (S : Setting) (index : Nat) (numbers : List (Forest.Numbered (Nat × String))) (task : Task) (k : Stored) :
    Prop where
  numbers : k.items.map Item.number = numbers
  indexed : Indexed k.items
  length : k.items.length = index
  stamps : ∀ i ∈ k.items, entryStamp S.trees (i.root, i.source) = some i.stamp
  files : task.view.files = index
  total : task.view.total = filesLength k.items
  bound : task.view.total ≤ U64_MAX

section

variable {S : Setting} {bad : Prop} {s : Scene} {task : Task} {item : Item} {index : Nat} {k : Stored}
  {numbers : List (Forest.Numbered (Nat × String))}

theorem Found.saveTask (h : Found S index numbers task k) (task' : Task) : Found S index numbers task (k.saveTask task') :=
  ⟨h.numbers, h.indexed, h.length, h.stamps, h.files, h.total, h.bound⟩

theorem Found.append (h : Found S index numbers task k) (item : Item) (hindex : item.index = index)
    (hstamp : entryStamp S.trees (item.root, item.source) = some item.stamp) {total : Nat}
    (htotal : total = task.view.total + entryLength S.trees (item.root, item.source)) (hbound : total ≤ U64_MAX) :
    Found S (index + 1) (numbers ++ [item.number]) (task.added total) (k.saveItem item) := by
  have hput : putItem item k.items = k.items ++ [item] := h.indexed.append (hindex.trans h.length.symm)
  have hsize : item.size = entryLength S.trees (item.root, item.source) := by
    unfold Item.size entryLength
    rw [hstamp]
  constructor
  · show (putItem item k.items).map Item.number = _
    rw [hput, List.map_append, h.numbers]
    rfl
  · show Indexed (putItem item k.items)
    rw [hput]
    exact h.indexed.concat (hindex.trans h.length.symm)
  · show (putItem item k.items).length = _
    rw [hput, List.length_append, h.length]
    rfl
  · intro i hi
    replace hi : i ∈ putItem item k.items := hi
    rw [hput] at hi
    rcases List.mem_append.mp hi with hi | hi
    · exact h.stamps i hi
    · rw [List.mem_singleton.mp hi]
      exact hstamp
  · show task.view.files + 1 = _
    rw [h.files]
  · show total = filesLength (putItem item k.items)
    rw [hput, filesLength_append, ← h.total, htotal, hsize]
  · exact hbound

/-- One entry: it is stored, and what it contains comes next. -/
theorem entries_step {pages left root : Nat} {path : String} {parent : Option Nat}
    {pending : List (Nat × String × Option Nat)} {Q : Task → Scene → Prop} (hpages : MAX_ENTRIES + 100 ≤ 100 * pages)
    (hfound : Found S index numbers task s.kept) (hread : entryStamp S.trees (root, path) = none → bad)
    (hlarge : U64_MAX < task.view.total + entryLength S.trees (root, path) → bad)
    (hmany : MAX_ENTRIES < pending.length + (S.contents (root, path)).length → bad)
    (hnext : ∀ task' t, task'.view.total = task.view.total + entryLength S.trees (root, path) →
      Found S (index + 1) (numbers ++ [⟨index, parent, (root, path)⟩]) task' t.kept →
      Scans S bad (entries pages left task' (index + 1)
        ((S.contents (root, path)).map (fun v => (v.1, v.2, some index)) ++ pending)) t Q) :
    Scans S bad (entries pages (left + 1) task index ((root, path, parent) :: pending)) s Q := by
  refine .bind (sourceStamp_scans hread) ?_
  rintro stamp t ⟨ht, hstamp⟩
  have hadds : (if stamp.kind = .file then stamp.length else 0) = entryLength S.trees (root, path) := by
    unfold entryLength
    rw [hstamp]
  refine .bind newToken_scans fun token u hu => ?_
  refine .bind (saveItem_scans _) fun _ w hw => ?_
  refine .bind (counted_scans hfound.bound fun h => hlarge (hadds ▸ h)) ?_
  rintro total x ⟨rfl, hbound, htotal⟩
  rw [hadds] at htotal
  have hstored : Found S (index + 1) (numbers ++ [⟨index, parent, (root, path)⟩]) (task.added total) x.kept := by
    rw [hw, hu, ht]
    exact hfound.append { index, parent, root, source := path, stamp, token } rfl hstamp htotal hbound
  refine .bind (children_scans hpages hstamp hmany) ?_
  rintro paths y ⟨hy, hcontents⟩
  rw [← hy] at hstored
  have hpending : paths.map (fun path => (root, path, some index)) =
      (S.contents (root, path)).map fun v => (v.1, v.2, some index) := by
    rw [hcontents, List.map_map]
    rfl
  refine .bind (R := fun _ t => Found S (index + 1) (numbers ++ [⟨index, parent, (root, path)⟩]) (task.added total) t.kept)
    ?_ fun _ z hz => ?_
  · unfold provided
    split
    · exact (publish_scans _).mono fun _ t ht => ht ▸ hstored.saveTask _
    · exact .pure hstored
  · rw [hpending]
    exact hnext _ z htotal hz

theorem forestLength_node (trees : Nat → SourceTree) (v : Nat × String) (below next : Forest (Nat × String)) :
    forestLength trees (.node v below next) = entryLength trees v + (forestLength trees below + forestLength trees next) := by
  simp [forestLength, Forest.preorder]

/-- The entries of a forest, and what is still pending after them. -/
theorem entries_scans {vs : List (Nat × String)} {f : Forest (Nat × String)} (h : Forest.Grows S.contents vs f) {pages : Nat}
    (hpages : MAX_ENTRIES + 100 ≤ 100 * pages) {left : Nat} {parent : Option Nat}
    {pending : List (Nat × String × Option Nat)} {Q : Task → Scene → Prop} (hleft : left ≤ MAX_ENTRIES)
    (hmany : left < f.size + pending.length → bad) (hread : ∀ v ∈ f.preorder, entryStamp S.trees v = none → bad)
    (hlarge : U64_MAX < task.view.total + forestLength S.trees f → bad) (hfound : Found S index numbers task s.kept)
    (hnext : ∀ left' task' t, left = left' + f.size →
      task'.view.total = task.view.total + forestLength S.trees f →
      Found S (index + f.size) (numbers ++ f.numbered parent index) task' t.kept →
      Scans S bad (entries pages left' task' (index + f.size) pending) t Q) :
    Scans S bad (entries pages left task index (vs.map (fun v => (v.1, v.2, parent)) ++ pending)) s Q := by
  induction h generalizing s task index numbers left parent pending with
  | nil =>
    refine hnext left task s rfl rfl ?_
    rw [Forest.numbered, List.append_nil]
    exact hfound
  | @node v vs below next hbelow hrest ihbelow ihnext =>
    obtain ⟨root, path⟩ := v
    rw [forestLength_node] at hlarge hnext
    have hlen := hbelow.length_le
    have hlen' := hrest.length_le
    have hsize : (Forest.node (root, path) below next).size = below.size + next.size + 1 := rfl
    rw [hsize] at hmany hnext
    cases left with
    | zero => exact .throw (.inl (hmany (by omega)))
    | succ left =>
      show Scans S bad (entries pages (left + 1) task index
        ((root, path, parent) :: (vs.map (fun v => (v.1, v.2, parent)) ++ pending))) s Q
      refine entries_step hpages hfound (hread _ (List.mem_cons_self ..)) (fun h => hlarge (by omega)) (fun h => ?_) ?_
      · rw [List.length_append, List.length_map] at h
        exact hmany (by omega)
      intro task₁ t₁ htotal₁ hfound₁
      refine ihbelow (by omega) (fun h => ?_) (fun v hv => ?_) (fun h => hlarge (by omega)) hfound₁ ?_
      · rw [List.length_append, List.length_map] at h
        exact hmany (by omega)
      · exact hread v (List.mem_cons_of_mem _ (List.mem_append_left _ hv))
      intro left₂ task₂ t₂ hleft₂ htotal₂ hfound₂
      refine ihnext (by omega) (fun h => hmany (by omega)) (fun v hv => ?_) (fun h => hlarge (by omega)) hfound₂ ?_
      · exact hread v (List.mem_cons_of_mem _ (List.mem_append_right _ hv))
      intro left₃ task₃ t₃ hleft₃ htotal₃ hfound₃
      have hindex : index + 1 + below.size + next.size = index + (below.size + next.size + 1) := by omega
      rw [hindex] at hfound₃ ⊢
      refine hnext left₃ task₃ t₃ (by omega) (by omega) ?_
      rw [List.append_assoc, List.append_assoc] at hfound₃
      exact hfound₃

/-- What a scan fails for: too many entries, a source that is not there or whose
path is refused, an entry with too long a path, or too many bytes. -/
inductive Excuse (S : Setting) (roots : List (Nat × String)) (f : Forest (Nat × String)) : Prop
  | many : MAX_ENTRIES < f.size → Excuse S roots f
  | missing {v : Nat × String} : v ∈ roots → entryStamp S.trees v = none → Excuse S roots f
  | long {v : Nat × String} : v ∈ f.preorder → 4096 < v.2.utf8ByteSize → Excuse S roots f
  | large : U64_MAX < forestLength S.trees f → Excuse S roots f

def Task.roots (task : Task) : List (Nat × String) := task.sources.map fun s => (s.root, s.path)

/-- What a directory contains is there. -/
theorem Excuse.unread {roots : List (Nat × String)} {f : Forest (Nat × String)} {v : Nat × String}
    (h : Forest.Grows S.contents roots f) (hv : v ∈ f.preorder) (hnone : entryStamp S.trees v = none) : Excuse S roots f := by
  rcases h.mem_preorder v hv with hroot | ⟨u, -, hchild⟩
  · exact .missing hroot hnone
  · obtain ⟨names, name, hnames, -, hname, rfl⟩ := mem_contents.mp hchild
    rcases components_join (S.trees u.1) hnames hname with hok | ⟨hlong, -⟩
    · exfalso
      unfold entryStamp at hnone
      rw [hok] at hnone
      have hthere := (mem_visible.mp hname).1
      rw [stampAt_none.mp hnone] at hthere
      cases hthere
    · exact .long hv hlong

theorem scan_scans {f : Forest (Nat × String)} (h : Forest.Grows S.contents task.roots f) {pages : Nat}
    (hpages : MAX_ENTRIES + 100 ≤ 100 * pages) :
    Scans S (Excuse S task.roots f) (scan pages task) s fun task' t => Found S f.size (f.numbered none 0) task' t.kept := by
  refine .bind resetScan_scans fun _ t ht => ?_
  refine .bind (publish_scans _) fun _ u hu => ?_
  have hstart : Found S 0 [] { task with view := { task.view with status := .preparing, total := 0, files := 0 } } u.kept := by
    rw [hu, ht]
    refine ⟨rfl, ?_, rfl, ?_, rfl, rfl, Nat.zero_le _⟩
    · intro n i hi
      cases hi
    · intro i hi
      cases hi
  have hpending : task.sources.map (fun s => (s.root, s.path, (none : Option Nat))) =
      task.roots.map (fun v => (v.1, v.2, none)) ++ [] := by
    rw [Task.roots, List.map_map, List.append_nil]
    rfl
  refine .bind (R := fun task' t => Found S f.size (f.numbered none 0) task' t.kept) ?_ ?_
  · show Scans S _ (entries pages MAX_ENTRIES _ 0 (task.sources.map fun s => (s.root, s.path, none))) u _
    rw [hpending]
    refine entries_scans h hpages (Nat.le_refl _) .many (fun v hv => Excuse.unread h hv) (fun hlarge => ?_) hstart ?_
    · rw [Nat.zero_add] at hlarge
      exact .large hlarge
    · intro left' task' v _ _ hfound
      rw [Nat.zero_add, List.nil_append] at hfound
      cases left' with
      | zero => exact .pure hfound
      | succ left' => exact .pure hfound
  · intro task' v hfound
    refine .bind (publish_scans _) fun _ w hw => .pure ?_
    rw [hw]
    exact ⟨hfound.numbers, hfound.indexed, hfound.length, hfound.stamps, hfound.files, hfound.total, hfound.bound⟩

end

/-- What a scan has stored that succeeded: the preorder of the selected trees
`f`, each entry below the directory that contains it. -/
structure Scanned (S : Setting) (roots : List (Nat × String)) (f : Forest (Nat × String)) (task : Task) (items : List Item) :
    Prop where
  preorder : items.map Item.number = f.numbered none 0
  indices : ∀ (n : Nat) (i : Item), items[n]? = some i → i.index = n
  parents : ∀ i ∈ items, i.parent = none ∧ (i.root, i.source) ∈ roots ∨
    ∃ d ∈ items, i.parent = some d.index ∧ d.index < i.index ∧ d.stamp.kind = .directory ∧
      (i.root, i.source) ∈ S.contents (d.root, d.source)
  stamps : ∀ i ∈ items, entryStamp S.trees (i.root, i.source) = some i.stamp
  once : roots.Pairwise Apart → items.Pairwise fun i j => Differ (i.root, i.source) (j.root, j.source)
  files : task.view.files = items.length
  total : task.view.total = ((items.filter fun i => i.stamp.kind = .file).map fun i => i.stamp.length).sum
  bound : task.view.total ≤ U64_MAX

section

variable {S : Setting} {task : Task} {s : Scene} {roots : List (Nat × String)} {f : Forest (Nat × String)} {k : Stored}

theorem Found.scanned (h : Found S f.size (f.numbered none 0) task k) (hgrows : Forest.Grows S.contents roots f) :
    Scanned S roots f task k.items where
  preorder := h.numbers
  indices := h.indexed
  parents i hi := by
    have hnumber : i.number ∈ f.numbered none 0 := h.numbers ▸ List.mem_map_of_mem hi
    rcases hgrows.numbered_parent none 0 _ hnumber with hroot | ⟨e, he, hparent, hlt, hchild⟩
    · exact .inl hroot
    · rw [← h.numbers] at he
      obtain ⟨d, hd, rfl⟩ := List.mem_map.mp he
      refine .inr ⟨d, hd, hparent, hlt, ?_, hchild⟩
      obtain ⟨names, name, hnames, hdir, -, -⟩ := mem_contents.mp hchild
      obtain ⟨names', hnames', hat⟩ := entryStamp_some (h.stamps d hd)
      cases hnames.symm.trans hnames'
      exact (stampAt_directory hat).mpr hdir
  stamps := h.stamps
  once hroots := by
    have hdiffer := preorder_differ hgrows hroots
    rw [← f.map_value_numbered none 0, ← h.numbers, List.map_map, List.pairwise_map] at hdiffer
    exact hdiffer
  files := by rw [h.files, h.length]
  total := by rw [h.total, filesLength_eq]
  bound := h.bound

theorem Found.total_eq (h : Found S f.size (f.numbered none 0) task k) : task.view.total = forestLength S.trees f := by
  have hsizes : k.items.map Item.size = k.items.map fun i => entryLength S.trees i.number.value := by
    refine List.map_congr_left fun i hi => ?_
    unfold Item.size entryLength
    rw [show entryStamp S.trees i.number.value = some i.stamp from h.stamps i hi]
  rw [h.total, filesLength, hsizes, forestLength, ← f.map_value_numbered none 0, ← h.numbers, List.map_map, List.map_map]
  rfl

end

-- ---------------------------------------------------------------------------
-- Small trees
-- ---------------------------------------------------------------------------

theorem components_a : components "a" = .ok ["a"] := by decide

/-- A file of `n` zero bytes. -/
def zeros (n : Nat) : Files.Node := ⟨⟨1, 2, 0o644, 0, 0, 0⟩, .file (List.replicate n 0)⟩

theorem zeros_get {n : Nat} {p : Files.Path} {name : String}
    (h : ((emptyRoot.put ["a"] (zeros n)).get (p ++ [name])).isSome = true) : p = [] ∧ name = "a" := by
  rw [Files.Disk.get_put] at h
  split at h
  · next heq =>
    cases p with
    | nil => exact ⟨rfl, (List.cons.inj heq).1⟩
    | cons first p => simp at heq
  · rw [emptyRoot_get (by simp)] at h
    cases h

/-- The file is all there is. -/
def oneFile (n : Nat) : SourceTree where
  disk := emptyRoot.put ["a"] (zeros n)
  rooted p name h := .inl (zeros_get h).1
  named p name h := by
    obtain ⟨-, rfl⟩ := zeros_get h
    exact ⟨⟨by decide, by decide, by decide, by decide⟩, by decide⟩

/-- Roots with one file each, and nothing that fails by itself. -/
def oneFiles (n : Nat) : Setting := ⟨linked, "o", fun _ => oneFile n, fun _ => False⟩

def selection (roots : List Nat) : Task :=
  { view := { workspace := "/", direction := .upload, destination := "" }, sources := roots.map fun root => ⟨root, "a"⟩ }

def still (S : Setting) : Scene where
  kept := { task := selection [] }
  around :=
    { opens := .error .timeout
      answer := fun _ root command _ => (served S.crates S.owner (S.trees root) command).mapError fun f =>
        .remoteFault f.code f.message f.outcomeUnknown
      token := "t" }

section

variable {S : Setting} {n root : Nat}

theorem still_holds (S : Setting) : S.Holds (still S) where
  answers root command r h := by
    change Except.mapError _ (served S.crates S.owner (S.trees root) command) = _ at h
    cases hserved : served S.crates S.owner (S.trees root) command with
    | ok reply =>
      rw [hserved] at h
      exact congrArg _ (Except.ok.inj h)
    | error f =>
      rw [hserved] at h
      cases h
  faults root command err h := by
    change Except.mapError _ (served S.crates S.owner (S.trees root) command) = _ at h
    cases hserved : served S.crates S.owner (S.trees root) command with
    | ok reply =>
      rw [hserved] at h
      cases h
    | error f => exact .inl ⟨f, rfl⟩
  store err h := by cases h

theorem commits_around (s : Scene) (k : Stored) : (s.commits k).2.around = s.around := by
  unfold Scene.commits
  split <;> rfl

/-- A run that nothing disturbs comes to its end. -/
theorem ends_steady {α : Type} {s : Scene} (h : S.Holds s) (p : Prog EngineOp EngineAns α) :
    ∃ r t, Prog.Ends (machine S.Holds) p s r t := by
  induction p generalizing s with
  | done a => exact ⟨a, s, .done⟩
  | call op next ih =>
    have haround : (Scene.exec op s).2.around = s.around := by
      cases op with
      | saveTask task => exact commits_around s _
      | saveItem item => exact commits_around s _
      | resetScan => exact commits_around s _
      | _ => rfl
    have hafter : S.Holds (Scene.exec op s).2 := by
      constructor
      · rw [haround]
        exact h.answers
      · rw [haround]
        exact h.faults
      · rw [haround]
        exact h.store
    obtain ⟨r, t, hends⟩ := ih (Scene.exec op s).1 hafter
    exact ⟨r, t, .call ⟨rfl, h⟩ hends⟩

theorem entryStamp_oneFile (n root : Nat) :
    entryStamp (oneFiles n).trees (root, "a") = some (stampOf (zeros n).metadata) := by
  unfold entryStamp
  rw [components_a]
  have hget : (emptyRoot.put ["a"] (zeros n)).get ["a"] = some (zeros n) := by rw [Files.Disk.get_put, if_pos rfl]
  show stampAt (emptyRoot.put ["a"] (zeros n)) ["a"] = _
  rw [stampAt, hget]
  rfl

theorem contents_oneFile (n root : Nat) : (oneFiles n).contents (root, "a") = [] := by
  refine contents_other components_a ?_
  show ¬ (emptyRoot.put ["a"] (zeros n)).isDirectory ["a"] = true
  rw [Files.Disk.isDirectory, Files.Disk.get_put, if_pos rfl]
  simp [zeros, Files.Node.isDirectory]

theorem entryLength_oneFile (n root : Nat) : entryLength (oneFiles n).trees (root, "a") = n := by
  unfold entryLength
  rw [entryStamp_oneFile]
  show (List.replicate n (0 : UInt8)).length = n
  exact List.length_replicate

/-- One entry for each root that is selected. -/
def rootForest : List Nat → Forest (Nat × String)
  | [] => .nil
  | root :: roots => .node (root, "a") .nil (rootForest roots)

theorem grows_rootForest (n : Nat) (roots : List Nat) :
    Forest.Grows (oneFiles n).contents (selection roots).roots (rootForest roots) := by
  have hroots : (selection roots).roots = roots.map fun root => (root, "a") := by
    rw [Task.roots, selection, List.map_map]
    rfl
  rw [hroots]
  clear hroots
  induction roots with
  | nil => exact .nil
  | cons root roots ih =>
    refine .node ?_ ih
    rw [contents_oneFile]
    exact .nil

theorem forestLength_rootForest (n : Nat) (roots : List Nat) :
    forestLength (oneFiles n).trees (rootForest roots) = roots.length * n := by
  induction roots with
  | nil => simp [rootForest, forestLength, Forest.preorder]
  | cons root roots ih =>
    have hnil : forestLength (oneFiles n).trees .nil = 0 := rfl
    rw [rootForest, forestLength_node, ih, hnil, entryLength_oneFile, List.length_cons, Nat.succ_mul]
    omega

theorem mem_selection {roots : List Nat} {v : Nat × String} (h : v ∈ (selection roots).roots) :
    ∃ root ∈ roots, v = (root, "a") := by
  obtain ⟨source, hsource, rfl⟩ := List.mem_map.mp h
  obtain ⟨root, hroot, rfl⟩ := List.mem_map.mp hsource
  exact ⟨root, hroot, rfl⟩

end

end RemoteCodex.Engine
