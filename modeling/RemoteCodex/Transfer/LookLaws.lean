import RemoteCodex.Files.Frame
import RemoteCodex.Transfer.Inspect

/-!
# What looking at files tells

One lemma for each function that only reads: the tree stays as it is, the
result is the one stated, and a failure says which directory or file was in
the way. They hold under any guarantee that allows standing still.
-/

namespace RemoteCodex.Transfer

open Files Interact

/-- Every directory on the way from `dir` along `names` can be opened. -/
def Walks (s : Disk) : Path → List String → Prop
  | _, [] => True
  | dir, name :: names => s.isDirectory (dir ++ [name]) = true ∧ Walks s (dir ++ [name]) names

/-- The directory and the name a path stands for. -/
def place (path : String) : Option (Path × String) :=
  match components path with
  | .ok parts => parts.getLast?.map (parts.dropLast, ·)
  | .error _ => none

/-- What `stat` answers for the node at `p`. -/
def stampAt (s : Disk) (p : Path) : Option Stamp := (s.get p).map fun n => stampOf n.metadata

/-- Names that are none of the special ones are taken as they are. -/
theorem components_of_split {path : String} {names : List (List Char)} (h : path.toList.splitOn '/' = names)
    (hne : ∀ cs ∈ names, cs ≠ [] ∧ cs ≠ ['.'] ∧ cs ≠ ['.', '.'])
    (hzero : '\x00' ∉ path.toList) (hlen : path.utf8ByteSize ≤ 4096) :
    components path = .ok (names.map String.ofList) := by
  have hnormal : pathComponents path = names.map fun cs => .normal (String.ofList cs) := by
    unfold pathComponents
    rw [h]
    cases names with
    | nil => rfl
    | cons first rest =>
      obtain ⟨h1, h2, h3⟩ := hne first (List.mem_cons_self ..)
      refine (congrArg _ (List.filterMap_congr (g := fun cs => some (.normal (String.ofList cs))) ?_)).trans ?_
      · intro cs hcs
        obtain ⟨h1, h2, h3⟩ := hne cs (List.mem_cons_of_mem _ hcs)
        split <;> simp_all
      · split <;> simp_all
  have hname : ∀ names : List (List Char), (names.map fun cs => Component.normal (String.ofList cs)).mapM Component.name =
      .ok (names.map String.ofList) := by
    intro names
    induction names with
    | nil => rfl
    | cons cs names ih => simp [Component.name, ih, Bind.bind, Except.bind, Pure.pure, Except.pure]
  rw [components, if_neg (by simp [hzero]; omega), hnormal, hname]

theorem place_empty : place "" = none := by decide

theorem place_ne_empty (h : place path = some r) : path.isEmpty = false := by
  by_contra he
  obtain rfl : path = "" := by simpa using he
  rw [place_empty] at h
  cases h

theorem Walks.congr {s t : Disk} {dir : Path}
    (hget : ∀ q, q <+: dir ++ names → t.get q = s.get q) (h : Walks s dir names) :
    Walks t dir names := by
  induction names generalizing dir with
  | nil => trivial
  | cons name names ih =>
    obtain ⟨hd, hw⟩ := h
    refine ⟨?_, ih (fun q hq => hget q (by simpa using hq)) hw⟩
    rw [Disk.isDirectory, hget _ (by simp), ← Disk.isDirectory, hd]

theorem Walks.of_directories {s : Disk} {dir : Path} {names : List String}
    (h : ∀ q, dir <+: q → q <+: dir ++ names → s.isDirectory q = true) : Walks s dir names := by
  induction names generalizing dir with
  | nil => trivial
  | cons name names ih =>
    refine ⟨h _ (List.prefix_append _ _) (by simp), ih fun q hq hq' => h q ?_ (by simpa using hq')⟩
    exact (List.prefix_append _ _).trans hq

theorem stampAt_isFile (h : stampAt s p = some st) : st.kind = .file ↔ ∃ b, s.file? p = some b := by
  obtain ⟨n, hn, rfl⟩ := Option.map_eq_some_iff.mp h
  obtain ⟨a, body⟩ := n
  cases body <;> simp [stampOf, stampKind, Node.metadata, Node.isFile, Node.isDirectory,
    Disk.file?, hn]

theorem stampAt_length (h : stampAt s p = some st) (hb : s.file? p = some b) :
    st.length = b.length := by
  obtain ⟨n, hn, rfl⟩ := Option.map_eq_some_iff.mp h
  obtain ⟨a, hb⟩ := Disk.file?_eq_some.mp hb
  obtain rfl := Option.some.inj (hb.symm.trans hn)
  rfl

theorem stampAt_none : stampAt s p = none ↔ s.get p = none := by
  simp [stampAt]

section Laws

variable {G : Op → Disk → Disk → Prop} {s : Disk}

/-- After a call that succeeded. -/
theorem sat_ok {a : α} {f : α → M β} (h : Act.Sat machine G (f a) s Q E) :
    Act.Sat machine G (orIo (.ok a) >>= f) s Q E := h

theorem sat_ofExcept {r : Except Fault α} (hq : ∀ a, r = .ok a → Q a s)
    (he : ∀ e, r = .error e → E e s) : Act.Sat machine G (ofExcept r) s Q E := by
  cases r with
  | ok a => exact .pure (hq a rfl)
  | error e => exact .throw (he e rfl)

/-- A call whose outcome is known, and what follows it. -/
theorem sat_exec {op : Op} {f : Ans op → M α} {r : Ans op} (hx : exec op s = (r, t))
    (hw : op.whole = true) (hg : G op s t) (h : Act.Sat machine G (f r) t Q E) :
    Act.Sat machine G (sys op >>= f) s Q E := by
  refine .bind (R := fun r' t' => r' = r ∧ t' = t) (sat_whole hw ?_ ?_) ?_
  · rwa [hx]
  · rw [hx]
    exact ⟨rfl, rfl⟩
  · rintro _ _ ⟨rfl, rfl⟩
    exact h

variable (hG : ∀ op d, G op d d)

include hG

/-- A call that only reads, and what follows it. -/
theorem sat_look {op : Op} {f : Ans op → M α} (hr : op.reads = true)
    (h : Act.Sat machine G (f (exec op s).1) s Q E) : Act.Sat machine G (sys op >>= f) s Q E := by
  refine .bind (R := fun r t => t = s ∧ r = (exec op s).1) (sat_reads hr hG ⟨rfl, rfl⟩) ?_
  rintro _ _ ⟨rfl, rfl⟩
  exact h

theorem directory_sat (dir : Path) (name : String) :
    Act.Sat machine G (directory dir name) s
      (fun r t => t = s ∧ r = dir ++ [name] ∧ s.isDirectory (dir ++ [name]) = true)
      (fun _ t => t = s ∧ s.isDirectory (dir ++ [name]) = false) := by
  refine sat_look hG rfl ?_
  cases hn : s.get (dir ++ [name]) with
  | none =>
    simp only [exec, hn]
    exact .throw ⟨rfl, by simp [Disk.isDirectory, hn]⟩
  | some n =>
    cases hd : n.isDirectory with
    | false =>
      simp only [exec, hn, hd]
      exact .throw ⟨rfl, by simp [Disk.isDirectory, hn, hd]⟩
    | true =>
      simp only [exec, hn, hd]
      exact .pure ⟨rfl, rfl, by simp [Disk.isDirectory, hn, hd]⟩

theorem walk_sat (dir : Path) (names : List String) :
    Act.Sat machine G (walk dir names) s (fun r t => t = s ∧ r = dir ++ names ∧ Walks s dir names)
      (fun _ t => t = s ∧ ¬ Walks s dir names) := by
  induction names generalizing dir with
  | nil => exact .pure ⟨rfl, by simp, trivial⟩
  | cons name names ih =>
    refine .bind ((directory_sat hG dir name).mono (fun _ _ h => h) ?_) ?_
    · rintro _ _ ⟨rfl, hd⟩
      exact ⟨rfl, fun h => by simp [Walks, hd] at h⟩
    · rintro _ _ ⟨rfl, rfl, hd⟩
      refine (ih _).mono ?_ ?_
      · rintro _ _ ⟨rfl, rfl, hw⟩
        exact ⟨rfl, by simp, hd, hw⟩
      · rintro _ _ ⟨rfl, hw⟩
        exact ⟨rfl, fun h => hw h.2⟩

theorem parent_sat (path : String) :
    Act.Sat machine G (parent path) s
      (fun r t => t = s ∧ place path = some r ∧ Walks s [] r.1)
      (fun _ t => t = s ∧ ∀ r, place path = some r → ¬ Walks s [] r.1) := by
  refine .bind (R := fun parts t => t = s ∧ components path = .ok parts) (sat_ofExcept ?_ ?_) ?_
  · intro parts h
    exact ⟨rfl, h⟩
  · intro e h
    exact ⟨rfl, by simp [place, h]⟩
  · rintro parts _ ⟨rfl, hp⟩
    cases hl : parts.getLast? with
    | none => exact .throw ⟨rfl, by simp [place, hp, hl]⟩
    | some name =>
      have hplace : place path = some (parts.dropLast, name) := by simp [place, hp, hl]
      refine .bind ((walk_sat hG _ _).mono (fun _ _ h => h) ?_) ?_
      · rintro _ _ ⟨rfl, hw⟩
        refine ⟨rfl, ?_⟩
        rintro r hr
        obtain rfl := Option.some.inj (hplace.symm.trans hr)
        exact hw
      · rintro _ _ ⟨rfl, rfl, hw⟩
        exact .pure ⟨rfl, by simpa using hplace, hw⟩

/-- `stat` of a path with a name. -/
theorem stat_sat (hp : place path = some (dir, target)) :
    Act.Sat machine G (stat path) s
      (fun r t => t = s ∧ r = stampAt s (dir ++ [target]) ∧ Walks s [] dir)
      (fun _ t => t = s ∧ ¬ Walks s [] dir) := by
  unfold stat
  rw [if_neg (by simp [place_ne_empty hp])]
  refine .bind (Act.Sat.mono (parent_sat hG path) (fun _ _ h => h) ?_) ?_
  · rintro _ _ ⟨rfl, h⟩
    exact ⟨rfl, h _ hp⟩
  rintro ⟨d, n⟩ t ⟨rfl, hr, hw⟩
  obtain ⟨rfl, rfl⟩ := Prod.mk.inj (Option.some.inj (hp.symm.trans hr))
  refine sat_look hG rfl ?_
  cases hn : t.get (dir ++ [target]) with
  | none =>
    simp only [exec, hn]
    exact .pure ⟨rfl, (stampAt_none.mpr hn).symm, hw⟩
  | some n =>
    simp only [exec, hn]
    exact .pure ⟨rfl, by simp [stampAt, hn], hw⟩

/-- A file is opened for reading or writing, but neither made nor emptied. -/
theorem file_sat (p : Path) (flags : Flags) (hf : flags.create = false ∧ flags.truncate = false) :
    Act.Sat machine G (file p flags) s (fun _ t => t = s ∧ ∃ b, s.file? p = some b)
      (fun _ t => t = s ∧ s.file? p = none) := by
  have hr : (Op.openFile p flags).reads = true := by simp [Op.reads, hf]
  refine sat_look hG hr ?_
  simp only [exec, Disk.openFile, hf]
  cases hn : s.get p with
  | none => exact .throw ⟨rfl, Disk.file?_none hn⟩
  | some n =>
    obtain ⟨a, body⟩ := n
    cases body with
    | file b => exact .pure ⟨rfl, b, Disk.file?_eq_some.mpr ⟨a, hn⟩⟩
    | directory =>
      have hd : s.file? p = none := by simp [Disk.file?, hn]
      cases hw : flags.write <;> exact .throw ⟨rfl, hd⟩
    | symlink => exact .throw ⟨rfl, by simp [Disk.file?, hn]⟩
    | special => exact .throw ⟨rfl, by simp [Disk.file?, hn]⟩

/-- The metadata of a node that is there. -/
theorem lstat_sat (h : s.file? p = some b) {f : Metadata → M α}
    (hf : ∀ m, stampAt s p = some (stampOf m) → m.length = b.length →
      Act.Sat machine G (f m) s Q E) :
    Act.Sat machine G (do let m ← orIo (← sys (.symlinkMetadata p)); f m) s Q E := by
  obtain ⟨a, hn⟩ := Disk.file?_eq_some.mp h
  refine sat_look hG rfl ?_
  simp only [exec, hn]
  exact hf _ (by simp [stampAt, hn]) rfl

theorem source_sat (hp : place path = some (dir, target))
    (hst : stampAt s (dir ++ [target]) = some st) (hfile : st.kind = .file) :
    Act.Sat machine G (source path st) s (fun r t => t = s ∧ r = dir ++ [target])
      (fun _ t => t = s ∧ ¬ Walks s [] dir) := by
  obtain ⟨b, hb⟩ := (stampAt_isFile hst).mp hfile
  refine .bind (Act.Sat.mono (parent_sat hG path) (fun _ _ h => h) ?_) ?_
  · rintro _ _ ⟨rfl, h⟩
    exact ⟨rfl, h _ hp⟩
  rintro ⟨d, n⟩ t ⟨rfl, hr, hw⟩
  obtain ⟨rfl, rfl⟩ := Prod.mk.inj (Option.some.inj (hp.symm.trans hr))
  refine .bind ((file_sat hG _ _ ⟨rfl, rfl⟩).mono (fun _ _ h => h) ?_) ?_
  · rintro _ _ ⟨_, h⟩
    cases hb.symm.trans h
  rintro _ _ ⟨rfl, _⟩
  refine lstat_sat hG hb ?_
  intro m hm hl
  obtain rfl := Option.some.inj (hst.symm.trans hm)
  refine .bind (.ensure (Q := fun _ t => t = _) (fun _ => rfl) ?_) ?_
  · intro h
    simp [stampOf] at h
  · rintro _ _ rfl
    exact .pure ⟨rfl, rfl⟩

theorem hashFile_sat (h : s.file? p = some b) (hc : e.cancelled = false) :
    Act.Sat machine G (hashFile c e p) s (fun r t => t = s ∧ r = c.digest b)
      (fun _ _ => False) := by
  unfold hashFile checkCancelled
  refine .bind (.ensure (Q := fun _ t => t = s) (fun _ => rfl) (by simp [hc])) ?_
  rintro _ _ rfl
  refine sat_look hG rfl ?_
  simp only [exec, h]
  exact .pure ⟨rfl, rfl⟩

/-- The digest of a file that is as it was just found. -/
theorem hash_sat (hp : place path = some (dir, target)) (hst : stampAt s (dir ++ [target]) = some st)
    (hb : s.file? (dir ++ [target]) = some b) (hc : e.cancelled = false) :
    Act.Sat machine G (hash c e path st) s (fun r t => t = s ∧ r = c.digest b)
      (fun _ t => t = s ∧ ¬ Walks s [] dir) := by
  have hfile := (stampAt_isFile hst).mpr ⟨b, hb⟩
  refine .bind (source_sat hG hp hst hfile) ?_
  rintro _ _ ⟨rfl, rfl⟩
  refine .bind ((hashFile_sat hG hb hc).mono (fun _ _ h => h) fun _ _ h => h.elim) ?_
  rintro _ _ ⟨rfl, rfl⟩
  refine .bind (source_sat hG hp hst hfile) ?_
  rintro _ _ ⟨rfl, _⟩
  exact .pure ⟨rfl, rfl⟩

end Laws

end RemoteCodex.Transfer
