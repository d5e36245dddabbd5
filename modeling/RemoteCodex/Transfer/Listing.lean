import Mathlib.Data.String.Basic
import RemoteCodex.Interact.Smallest
import RemoteCodex.Transfer.LookLaws

/-!
# Listing a directory

The pages of a directory that does not change are its names in their order,
without the staging directories, at most a hundred to a page.
-/

namespace RemoteCodex.Transfer

open Files Interact
open Interact.Smallest (Ascending behind cursor)

/-- What passes for a staging directory: it has the name for a token, and a journal. -/
def isStage (c : Crates) (s : Disk) (dir : Path) (name : String) : Bool :=
  ((name.toList.dropPrefix? (stageName "").toList).bind fun id => c.uuid (String.ofList id)).isSome &&
    s.isDirectory (dir ++ [name]) && (s.file? (dir ++ [name] ++ ["state.json"])).isSome

def namesOf (s : Disk) (dir : Path) : List String :=
  (s.below dir).filterMap fun q => if q.dropLast = dir then q.getLast? else none

/-- The names a directory has for a transfer. -/
def visible (c : Crates) (s : Disk) (dir : Path) : List String :=
  Smallest.sorted ((namesOf s dir).filter fun name => !isStage c s dir name)

/-- The page behind `after`. -/
structure Listed (c : Crates) (s : Disk) (dir : Path) (after : Option String) (page : Page) : Prop where
  names : page.entries.map Entry.name = (behind after (visible c s dir)).take 100
  next : page.after = cursor 100 (behind after (visible c s dir))
  stamps : ∀ entry ∈ page.entries, stampAt s (dir ++ [entry.name]) = some entry.stamp

section

variable {c : Crates} {e : Endpoint} {s : Disk} {dir : Path} {name path : String} {after : Option String}

theorem mem_namesOf : name ∈ namesOf s dir ↔ (s.get (dir ++ [name])).isSome = true := by
  unfold namesOf
  rw [List.mem_filterMap]
  constructor
  · rintro ⟨q, hq, hname⟩
    split at hname
    · next hdrop =>
      obtain ⟨front, rfl⟩ := List.getLast?_eq_some_iff.mp hname
      rw [List.dropLast_concat] at hdrop
      subst hdrop
      exact (Disk.mem_below.mp hq).2.2
    · cases hname
  · intro h
    refine ⟨dir ++ [name], Disk.mem_below.mpr ⟨List.prefix_append _ _, by simp, h⟩, ?_⟩
    rw [if_pos List.dropLast_concat, List.getLast?_concat]

theorem mem_visible : name ∈ visible c s dir ↔ (s.get (dir ++ [name])).isSome = true ∧ isStage c s dir name = false := by
  unfold visible
  rw [Smallest.mem_sorted, List.mem_filter, mem_namesOf, Bool.not_eq_true']

theorem visible_ascending (c : Crates) (s : Disk) (dir : Path) : Ascending (visible c s dir) :=
  Smallest.sorted_ascending _

-- ---------------------------------------------------------------------------
-- A page
-- ---------------------------------------------------------------------------

theorem insertName_eq (name : String) (names : List String) : insertName name names = Smallest.keep 101 name names := by
  unfold insertName Smallest.keep
  simp only [List.contains_eq_mem, decide_eq_true_eq]

/-- Taking one name more than fits tells whether there are more. -/
theorem page_take (rows : List String) :
    (if (rows.take 101).length > 100 then (rows.take 101).dropLast else rows.take 101) = rows.take 100 ∧
      (if (rows.take 101).length > 100 then (rows.take 100).getLast? else none) = cursor 100 rows := by
  have hlong : (rows.take 101).length > 100 ↔ rows.length > 100 := by
    rw [List.length_take]
    omega
  unfold cursor
  constructor
  · split
    · next h =>
      rw [List.dropLast_eq_take, List.take_take]
      congr 1
      rw [List.length_take] at h ⊢
      omega
    · next h =>
      rw [List.take_of_length_le (i := 101), List.take_of_length_le (i := 100)]
      · omega
      · omega
  · simp only [hlong]

/-- Names that are skipped: a staging directory, or one of an earlier page. -/
def skipped (c : Crates) (s : Disk) (dir : Path) (after : Option String) (name : String) : Bool :=
  isStage c s dir name || after.any fun a => decide (name ≤ a)

variable {G : Op → Disk → Disk → Prop} (hG : ∀ op d, G op d d)

include hG

theorem isInternal_sat (dir : Path) (name : String) :
    Act.Sat machine G (isInternal c dir name) s (fun r t => t = s ∧ r = isStage c s dir name) (fun _ _ => False) := by
  unfold isInternal isStage
  cases (name.toList.dropPrefix? (stageName "").toList).bind fun id => c.uuid (String.ofList id) with
  | none => exact .pure ⟨rfl, rfl⟩
  | some token =>
    refine .bind (R := fun r t => t = s ∧ (∀ stage, r = .ok stage → stage = dir ++ [name] ∧ s.isDirectory (dir ++ [name]) = true)
      ∧ ∀ f, r = .error f → s.isDirectory (dir ++ [name]) = false) ?_ ?_
    · refine .attempt ((directory_sat hG dir name).mono ?_ ?_)
      · rintro stage _ ⟨rfl, rfl, hd⟩
        refine ⟨rfl, fun _ heq => ?_, fun _ heq => by cases heq⟩
        obtain rfl := Except.ok.inj heq
        exact ⟨rfl, hd⟩
      · rintro f _ ⟨rfl, hd⟩
        exact ⟨rfl, fun _ heq => (by cases heq), fun _ _ => hd⟩
    rintro r t ⟨rfl, hok, herror⟩
    cases r with
    | error f => exact .pure ⟨rfl, by simp [herror f rfl]⟩
    | ok stage =>
      obtain ⟨rfl, hd⟩ := hok stage rfl
      refine sat_look hG rfl ?_
      generalize dir ++ [name] ++ ["state.json"] = journal
      cases hn : t.get journal with
      | none =>
        simp only [exec, hn]
        exact .pure ⟨rfl, by simp [Disk.file?_none hn]⟩
      | some n =>
        simp only [exec, hn]
        refine .pure ⟨rfl, ?_⟩
        obtain ⟨a, body⟩ := n
        cases body <;> simp [hd, Disk.file?, hn, Node.metadata, Node.isFile]

/-- The names kept so far are the smallest of those seen. -/
theorem listNames_sat (hrunning : e.cancelled = false) {seen : List String} (hseen : Ascending seen) (rest : List String) :
    Act.Sat machine G (listNames c e dir after (seen.take 101) rest) s
      (fun r t => t = s ∧ ∃ all, Ascending all ∧ r = all.take 101 ∧
        ∀ n, n ∈ all ↔ n ∈ seen ∨ n ∈ rest ∧ skipped c s dir after n = false) (fun _ _ => False) := by
  induction rest generalizing seen with
  | nil => exact .pure ⟨rfl, seen, hseen, rfl, by simp⟩
  | cons name rest ih =>
    refine .bind (R := fun _ t => t = s) (.ensure (fun _ => rfl) fun h => ?_) ?_
    · rw [hrunning] at h
      cases h
    rintro _ _ rfl
    refine .bind ((isInternal_sat hG dir name).mono (fun _ _ h => h) fun _ _ h => h) ?_
    rintro internal t ⟨rfl, hinternal⟩
    have hskip : (internal || after.any fun a => decide (name ≤ a)) = skipped c t dir after name := by
      rw [hinternal, skipped]
    rw [hskip]
    cases hskipped : skipped c t dir after name with
    | true =>
      refine (ih hseen).mono ?_ fun _ _ h => h
      rintro r _ ⟨rfl, all, hall, rfl, hmem⟩
      refine ⟨rfl, all, hall, rfl, fun n => ?_⟩
      rw [hmem, List.mem_cons]
      constructor
      · exact fun h => h.imp_right fun h => ⟨.inr h.1, h.2⟩
      · rintro (h | ⟨rfl | h, hn⟩)
        · exact .inl h
        · rw [hskipped] at hn
          cases hn
        · exact .inr ⟨h, hn⟩
    | false =>
      rw [if_neg Bool.false_ne_true, insertName_eq, Smallest.keep_take hseen]
      refine (ih (Smallest.place_ascending hseen name)).mono ?_ fun _ _ h => h
      rintro r _ ⟨rfl, all, hall, rfl, hmem⟩
      refine ⟨rfl, all, hall, rfl, fun n => ?_⟩
      rw [hmem, Smallest.mem_place, List.mem_cons]
      constructor
      · rintro ((rfl | h) | h)
        · exact .inr ⟨.inl rfl, hskipped⟩
        · exact .inl h
        · exact .inr ⟨.inr h.1, h.2⟩
      · rintro (h | ⟨rfl | h, hn⟩)
        · exact .inl (.inr h)
        · exact .inl (.inl rfl)
        · exact .inr ⟨h, hn⟩

theorem stampNames_sat (names : List String) (h : ∀ n ∈ names, (s.get (dir ++ [n])).isSome = true) :
    Act.Sat machine G (stampNames dir names) s
      (fun r t => t = s ∧ r.map Entry.name = names ∧ ∀ entry ∈ r, stampAt s (dir ++ [entry.name]) = some entry.stamp)
      (fun _ _ => False) := by
  induction names with
  | nil => exact .pure ⟨rfl, rfl, by simp⟩
  | cons name names ih =>
    obtain ⟨node, hnode⟩ := Option.isSome_iff_exists.mp (h name (List.mem_cons_self ..))
    refine sat_look hG rfl ?_
    simp only [exec, hnode]
    refine sat_ok (.bind ((ih fun n hn => h n (List.mem_cons_of_mem _ hn)).mono (fun _ _ h => h) fun _ _ h => h) ?_)
    rintro r t ⟨rfl, hnames, hstamps⟩
    refine .pure ⟨rfl, by rw [List.map_cons, hnames], fun entry hentry => ?_⟩
    rcases List.mem_cons.mp hentry with rfl | hentry
    · simp [stampAt, hnode]
    · exact hstamps entry hentry

/-- `list` answers with the page there is. -/
theorem list_sat (hrunning : e.cancelled = false) {names : List String} (hnames : components path = .ok names)
    (after : Option String) :
    Act.Sat machine G (list c e path after) s (fun r t => t = s ∧ Walks s [] names ∧ Listed c s names after r)
      (fun _ t => t = s ∧ ¬ Walks s [] names) := by
  have hopen : Act.Sat machine G (openDirectory path) s (fun r t => t = s ∧ r = names ∧ Walks s [] names)
      (fun _ t => t = s ∧ ¬ Walks s [] names) := by
    refine .bind (R := fun parts t => t = s ∧ parts = names) (sat_ofExcept ?_ ?_) ?_
    · intro parts heq
      rw [hnames] at heq
      exact ⟨rfl, (Except.ok.inj heq).symm⟩
    · intro f heq
      rw [hnames] at heq
      cases heq
    · rintro _ _ ⟨rfl, rfl⟩
      exact walk_sat hG [] _
  refine .bind (hopen.mono (fun _ _ h => h) fun _ _ h => h) ?_
  rintro dir u ⟨rfl, rfl, hwalks⟩
  refine sat_look hG rfl (sat_ok ?_)
  have hempty : Ascending ([] : List String) := .nil
  refine .bind ((listNames_sat hG hrunning hempty (namesOf u dir)).mono (fun _ _ h => h) fun _ _ h => h.elim) ?_
  rintro found t ⟨rfl, all, hall, rfl, hmem⟩
  have hrows : all = behind after (visible c t dir) := by
    refine hall.ext (Smallest.behind_ascending (visible_ascending c t dir) after) fun n => ?_
    rw [hmem, Smallest.behind, List.mem_filter, mem_visible, skipped, Bool.or_eq_false_iff]
    have hnames : n ∈ namesOf t dir ↔ (t.get (dir ++ [n])).isSome = true := mem_namesOf
    cases after with
    | none => simpa using fun _ => hnames
    | some a =>
      simp only [List.not_mem_nil, false_or, Option.any_some, Option.all_some, decide_eq_false_iff_not, not_le,
        decide_eq_true_eq, ← hnames, and_assoc]
  subst hrows
  obtain ⟨hpage, hcursor⟩ := page_take (behind after (visible c t dir))
  have hthere : ∀ n ∈ (behind after (visible c t dir)).take 100, (t.get (dir ++ [n])).isSome = true := fun n hn =>
    (mem_visible.mp (List.mem_of_mem_filter (List.mem_of_mem_take hn))).1
  simp only [hpage]
  refine .bind ((stampNames_sat hG _ hthere).mono (fun _ _ h => h) fun _ _ h => h.elim) ?_
  rintro entries _ ⟨rfl, hentries, hstamps⟩
  exact .pure ⟨rfl, hwalks, hentries, hcursor, hstamps⟩

end

-- ---------------------------------------------------------------------------
-- All pages
-- ---------------------------------------------------------------------------

/-- The pages of `path` from `after` on, each asked for with the cursor of the one before. -/
inductive Pages (c : Crates) (e : Endpoint) (path : String) (s : Disk) : Option String → List Page → Prop
  | last {after : Option String} {page : Page} : (list c e path after).run.run machine s = (.ok page, s) →
      page.after = none → Pages c e path s after [page]
  | more {after : Option String} {page : Page} {next : String} {pages : List Page} :
      (list c e path after).run.run machine s = (.ok page, s) → page.after = some next →
      Pages c e path s (some next) pages → Pages c e path s after (page :: pages)

def pageNames (page : Page) : List String := page.entries.map Entry.name

section

variable {c : Crates} {e : Endpoint} {s : Disk} {path : String} {names : List String}

/-- A program that only looks ends in the tree it began with. -/
theorem sat_run {x : M α} {Q : α → Disk → Prop} {E : Fault → Disk → Prop}
    (h : Act.Sat machine (fun _ _ _ => True) x s Q E) :
    (∃ a t, x.run.run machine s = (.ok a, t) ∧ Q a t) ∨ ∃ f t, x.run.run machine s = (.error f, t) ∧ E f t := by
  have hends := Prog.ends_run machine_rely x.run s
  generalize x.run.run machine s = result at hends
  obtain ⟨f | a, t⟩ := result
  · exact .inr ⟨f, t, rfl, h.fails hends⟩
  · exact .inl ⟨a, t, rfl, h.ends hends⟩

theorem list_run (hrunning : e.cancelled = false) (hnames : components path = .ok names) (hwalks : Walks s [] names)
    (after : Option String) :
    ∃ page, (list c e path after).run.run machine s = (.ok page, s) ∧ Listed c s names after page := by
  rcases sat_run (list_sat (c := c) (s := s) (fun _ _ => trivial) hrunning hnames after) with
    ⟨page, t, hrun, rfl, -, hlisted⟩ | ⟨f, t, -, -, hno⟩
  · exact ⟨page, hrun, hlisted⟩
  · exact absurd hwalks hno

theorem Listed.length (h : Listed c s names after page) : page.entries.length ≤ 100 := by
  have hlength := congrArg List.length h.names
  rw [List.length_map] at hlength
  rw [hlength]
  exact List.length_take_le _ _

theorem pages_behind (hrunning : e.cancelled = false) (hnames : components path = .ok names) (hwalks : Walks s [] names)
    (after : Option String) :
    ∃ pages, Pages c e path s after pages ∧ pages.flatMap pageNames = behind after (visible c s names) ∧
      ∀ page ∈ pages, page.entries.length ≤ 100 := by
  obtain ⟨n, hn⟩ : ∃ n, n = (behind after (visible c s names)).length := ⟨_, rfl⟩
  induction n using Nat.strongRecOn generalizing after with
  | _ n ih =>
    obtain ⟨page, hrun, hlisted⟩ := list_run (c := c) hrunning hnames hwalks after
    have hcut := hlisted.next
    cases hnext : cursor 100 (behind after (visible c s names)) with
    | none =>
      refine ⟨[page], .last hrun (hcut.trans hnext), ?_, by simpa using hlisted.length⟩
      rw [List.flatMap_singleton, pageNames, hlisted.names]
      exact List.take_of_length_le (Smallest.cursor_none (by decide) hnext)
    | some last =>
      have hrest := Smallest.behind_cursor (visible_ascending c s names) hnext
      obtain ⟨hlong, -⟩ := Smallest.cursor_some hnext
      have hfewer : (behind (some last) (visible c s names)).length < n := by
        rw [hrest, List.length_drop]
        omega
      obtain ⟨pages, hpages, hall, hsmall⟩ := ih _ hfewer (some last) rfl
      refine ⟨page :: pages, .more hrun (hcut.trans hnext) hpages, ?_, ?_⟩
      · rw [List.flatMap_cons, hall, hrest, pageNames, hlisted.names, List.take_append_drop]
      · intro other hother
        rcases List.mem_cons.mp hother with rfl | hother
        · exact hlisted.length
        · exact hsmall other hother

end

end RemoteCodex.Transfer
