import RemoteCodex.Files.Links

/-!
# Changing a tree

Directories are made along a path, trees are removed and moved, modes are set.
Each is told by what is at every place afterwards.
-/

namespace RemoteCodex.Files.Links

open Interact (Table)

variable {ν : Type} [DecidableEq ν]

/-- Where a path leads if a link that it names last is not followed. -/
def locate (v : Volume ν) (links : Nat) (place : List ν) (parts : List (PathPart ν)) : Option (List ν) :=
  match parts.getLast? with
  | some (.name n) => (resolve v links place parts.dropLast).map (· ++ [n])
  | _ => resolve v links place parts

/-- `symlink_metadata`. -/
def lstat (v : Volume ν) (links : Nat) (place : List ν) (parts : List (PathPart ν)) : Option (Node ν) :=
  (locate v links place parts).bind (get v)

/-- `metadata`. -/
def stat (v : Volume ν) (links : Nat) (place : List ν) (parts : List (PathPart ν)) : Option (Node ν) :=
  (resolve v links place parts).bind (get v)

/-- The entries whose keys satisfy `p`. -/
def keep (t : Table (List ν) (Node ν)) (p : List ν → Bool) : Table (List ν) (Node ν) :=
  ⟨t.entries.filter fun e => p e.1, t.nodupKeys.sublist List.filter_sublist⟩

theorem lookup_keep (t : Table (List ν) (Node ν)) (p : List ν → Bool) (q : List ν) :
    (keep t p).lookup q = if p q then t.lookup q else none := by
  refine Option.ext fun node => ?_
  rw [← Option.mem_def, AList.mem_lookup_iff]
  have hmem : (⟨q, node⟩ : Sigma fun _ : List ν => Node ν) ∈ (keep t p).entries ↔ ⟨q, node⟩ ∈ t.entries ∧ p q = true :=
    List.mem_filter
  rw [hmem]
  split
  · next hq => rw [← AList.mem_lookup_iff, Option.mem_def, and_iff_left hq]
  · next hq => simp [hq]

/-- Everything at `p` and below it is removed. -/
def prune (v : Volume ν) (p : List ν) : Volume ν where
  nodes := keep v.nodes fun q => !decide (p <+: q)
  rooted := by
    intro q n h
    rw [lookup_keep] at h ⊢
    split at h
    · next hq =>
      have hparent : ¬ p <+: q := fun hfront => by
        rw [decide_eq_true (hfront.trans (List.prefix_append q [n]))] at hq
        cases hq
      rw [if_pos (by simp [hparent])]
      exact v.rooted q n h
    · cases h

theorem get_prune (v : Volume ν) (p q : List ν) : get (prune v p) q = if p <+: q then none else get v q := by
  refine (lookup_keep _ _ _).trans ?_
  by_cases h : p <+: q <;> simp [h, get]

/-- The node at `p`, changed by `f`. A directory stays one. -/
def change (v : Volume ν) (p : List ν) (f : Node ν → Node ν) (hf : ∀ node, (f node).isDirectory = node.isDirectory) :
    Volume ν where
  nodes := v.nodes.update fun q node => if q = p then f node else node
  rooted := by
    intro q n h
    rw [Table.lookup_update] at h ⊢
    rw [Option.isSome_map] at h
    have hparent := v.rooted q n h
    cases hnode : v.nodes.lookup q with
    | none =>
      rw [hnode] at hparent
      cases hparent
    | some node =>
      rw [hnode] at hparent
      rw [Option.map_some, Option.any_some]
      split
      · rw [hf]
        exact hparent
      · exact hparent

theorem get_change {v : Volume ν} {p : List ν} {f : Node ν → Node ν} {hf : ∀ node, (f node).isDirectory = node.isDirectory}
    (q : List ν) : get (change v p f hf) q = (get v q).map fun node => if q = p then f node else node :=
  Table.lookup_update _ _ _

def Node.withMode (mode : Nat) : Node ν → Node ν
  | .file bytes _ => .file bytes mode
  | .directory _ => .directory mode
  | node => node

def Node.withBytes (bytes : List UInt8) : Node ν → Node ν
  | .file _ mode => .file bytes mode
  | node => node

omit [DecidableEq ν] in
@[simp] theorem Node.withMode_withMode (node : Node ν) (m k : Nat) : (node.withMode m).withMode k = node.withMode k := by
  cases node <;> rfl

omit [DecidableEq ν] in
@[simp] theorem Node.isDirectory_withMode (m : Nat) (node : Node ν) : (node.withMode m).isDirectory = node.isDirectory := by
  cases node <;> rfl

omit [DecidableEq ν] in
@[simp] theorem Node.isDirectory_withBytes (bytes : List UInt8) (node : Node ν) :
    (node.withBytes bytes).isDirectory = node.isDirectory := by
  cases node <;> rfl

/-- `set_permissions`. -/
def setMode (v : Volume ν) (links : Nat) (place : List ν) (parts : List (PathPart ν)) (mode : Nat) : Option (Volume ν) :=
  (resolve v links place parts).map fun p => change v p (Node.withMode mode) (Node.isDirectory_withMode mode)

/-- The whole of a file. A new one is made if there is nothing yet. -/
def write (v : Volume ν) (links : Nat) (place : List ν) (parts : List (PathPart ν)) (n : ν) (bytes : List UInt8) (mode : Nat) :
    Option (Volume ν) :=
  (resolve v links place parts).bind fun directory =>
    match get v (directory ++ [n]) with
    | none =>
      if h : isDirectory v directory = true ∧ isDirectory v (directory ++ [n]) = false then
        some (put v directory n (.file bytes mode) h.1 fun hdirectory => by rw [h.2] at hdirectory; cases hdirectory)
      else none
    | some (.file _ _) => some (change v (directory ++ [n]) (Node.withBytes bytes) (Node.isDirectory_withBytes bytes))
    | some (.symlink _) => (resolve v links directory [.name n]).bind fun p =>
      match get v p with
      | some (.file _ _) => some (change v p (Node.withBytes bytes) (Node.isDirectory_withBytes bytes))
      | _ => none
    | some _ => none

/-- Where a place is after `src` has become `dst`. -/
def shifted (src dst q : List ν) : List ν := dst ++ q.drop src.length

omit [DecidableEq ν] in
theorem shifted_append (src dst r : List ν) : shifted src dst (src ++ r) = dst ++ r := by
  rw [shifted, List.drop_left]

/-- What is at `src` and below it, at `dst` and below that. -/
def moved (t : Table (List ν) (Node ν)) (src dst : List ν) : Table (List ν) (Node ν) where
  entries := (keep t fun q => decide (src <+: q)).entries.map fun e => ⟨shifted src dst e.1, e.2⟩
  nodupKeys := by
    have hkeys : ((keep t fun q => decide (src <+: q)).entries.map fun e =>
        (⟨shifted src dst e.1, e.2⟩ : Sigma fun _ : List ν => Node ν)).keys =
          (keep t fun q => decide (src <+: q)).entries.keys.map (shifted src dst) := by
      simp [List.keys]
    rw [List.NodupKeys, hkeys]
    refine List.Nodup.map_on (fun p hp q hq heq => ?_) (keep t fun q => decide (src <+: q)).nodupKeys
    have hbelow : ∀ {p}, p ∈ (keep t fun q => decide (src <+: q)).entries.keys → src <+: p := by
      intro p hp
      obtain ⟨e, he, rfl⟩ := List.mem_map.mp hp
      exact of_decide_eq_true (List.mem_filter.mp he).2
    obtain ⟨r, rfl⟩ := hbelow hp
    obtain ⟨r', rfl⟩ := hbelow hq
    rw [shifted_append, shifted_append] at heq
    rw [List.append_cancel_left heq]

theorem lookup_moved (t : Table (List ν) (Node ν)) (src dst q : List ν) :
    (moved t src dst).lookup q = if dst <+: q then t.lookup (shifted dst src q) else none := by
  refine Option.ext fun node => ?_
  rw [← Option.mem_def, AList.mem_lookup_iff]
  constructor
  · intro hmem
    obtain ⟨e, he, heq⟩ := List.mem_map.mp hmem
    obtain ⟨he, hbelow⟩ := List.mem_filter.mp he
    obtain ⟨p, node'⟩ := e
    obtain ⟨r, rfl⟩ : src <+: p := of_decide_eq_true hbelow
    rw [Sigma.mk.injEq, shifted_append] at heq
    obtain ⟨rfl, hnode⟩ := heq
    obtain rfl := eq_of_heq hnode
    rw [if_pos (List.prefix_append dst r), shifted_append]
    exact AList.mem_lookup_iff.mpr he
  · intro h
    split at h
    · next hbelow =>
      obtain ⟨r, rfl⟩ := hbelow
      rw [shifted_append] at h
      refine List.mem_map.mpr ⟨⟨src ++ r, node⟩, List.mem_filter.mpr ⟨AList.mem_lookup_iff.mp h, by simp⟩, ?_⟩
      rw [shifted_append]
    · cases h

theorem lookup_union (t u : Table (List ν) (Node ν)) (q : List ν) : (t ∪ u).lookup q = (t.lookup q).or (u.lookup q) := by
  by_cases h : q ∈ t
  · rw [AList.lookup_union_left h]
    cases hlookup : t.lookup q with
    | none => exact absurd h (AList.lookup_eq_none.mp hlookup)
    | some node => rfl
  · rw [AList.lookup_union_right h, AList.lookup_eq_none.mpr h, Option.none_or]

/-- The nodes after `src` has been moved to `dst`. -/
def grafted (t : Table (List ν) (Node ν)) (src dst : List ν) : Table (List ν) (Node ν) :=
  moved t src dst ∪ keep t fun q => !decide (src <+: q) && !decide (dst <+: q)

theorem lookup_grafted (t : Table (List ν) (Node ν)) (src dst q : List ν) : (grafted t src dst).lookup q =
    if dst <+: q then t.lookup (shifted dst src q) else if src <+: q then none else t.lookup q := by
  rw [grafted, lookup_union, lookup_moved, lookup_keep]
  by_cases hdst : dst <+: q <;> by_cases hsrc : src <+: q <;> simp [hdst, hsrc]

omit [DecidableEq ν] in
theorem below_parent {p q : List ν} {n : ν} (h : p <+: q ++ [n]) : p = q ++ [n] ∨ p <+: q := List.prefix_concat_iff.mp h

/-- `src` and what is below it, moved into a directory that is not below it. -/
def graft (v : Volume ν) (src place : List ν) (n : ν) (hplace : isDirectory v place = true) (hout : ¬ src <+: place) :
    Volume ν where
  nodes := grafted v.nodes src (place ++ [n])
  rooted := by
    intro q m h
    have hback : ¬ (place ++ [n] <+: place) := fun hfront => by
      have hlength := hfront.length_le
      rw [List.length_append, List.length_singleton] at hlength
      omega
    rw [lookup_grafted] at h ⊢
    split at h
    · next hbelow =>
      rcases below_parent hbelow with heq | hbelow
      · obtain ⟨rfl, -⟩ := List.append_inj' heq rfl
        rw [if_neg hback, if_neg hout]
        exact hplace
      · obtain ⟨r, rfl⟩ := hbelow
        rw [if_pos (List.prefix_append _ _), shifted_append]
        rw [List.append_assoc (place ++ [n]), shifted_append, ← List.append_assoc] at h
        exact v.rooted (src ++ r) m h
    · next hdst =>
      split at h
      · cases h
      · next hsrc =>
        rw [if_neg fun hbelow => hdst (hbelow.trans (List.prefix_append _ _)),
          if_neg fun hbelow => hsrc (hbelow.trans (List.prefix_append _ _))]
        exact v.rooted q m h

theorem get_graft {v : Volume ν} {src place : List ν} {n : ν} {hplace : isDirectory v place = true}
    {hout : ¬ src <+: place} (q : List ν) : get (graft v src place n hplace hout) q =
      if place ++ [n] <+: q then get v (shifted (place ++ [n]) src q) else if src <+: q then none else get v q :=
  lookup_grafted _ _ _ _

/-- There is nothing in the directory. -/
def isEmpty (v : Volume ν) (p : List ν) : Bool := v.nodes.entries.all fun e => !decide (p <+: e.1) || decide (e.1 = p)

/-- The names in a directory. -/
def children (v : Volume ν) (p : List ν) : List ν :=
  v.nodes.entries.filterMap fun e => if e.1 ≠ [] ∧ e.1.dropLast = p then e.1.getLast? else none

/-- What may be replaced: a file by no directory, an empty directory by a directory. -/
def Replaces (v : Volume ν) (src dst : List ν) : Prop :=
  match get v dst with
  | none => True
  | some (.directory _) => isDirectory v src = true ∧ isEmpty v dst = true
  | some _ => isDirectory v src = false

instance (v : Volume ν) (src dst : List ν) : Decidable (Replaces v src dst) := by
  unfold Replaces
  split <;> infer_instance

/-- What is at `src` becomes the name `n` in the directory `place`. -/
def rehome (v : Volume ν) (src place : List ν) (n : ν) : Option (Volume ν) :=
  if h : isDirectory v place = true ∧ ¬ src <+: place ∧ (get v src).isSome = true ∧ Replaces v src (place ++ [n]) then
    some (graft v src place n h.1 h.2.1)
  else none

def rename (v : Volume ν) (links : Nat) (place : List ν) (src dst : List (PathPart ν)) : Option (Volume ν) :=
  match locate v links place src, resolve v links place dst.dropLast, dst.getLast? with
  | some p, some directory, some (.name n) => rehome v p directory n
  | _, _, _ => none

/-- `remove_dir_all`, of which nothing is reported. -/
def removeAll (v : Volume ν) (links : Nat) (place : List ν) (parts : List (PathPart ν)) : Volume ν :=
  match locate v links place parts with
  | some p => prune v p
  | none => v

/-- `create_dir_all` with a mode for the new directories. -/
def makeAll (v : Volume ν) (links mode : Nat) (place : List ν) : List ν → Bool × Volume ν
  | [] => (isDirectory v place, v)
  | n :: ns =>
    match get v (place ++ [n]) with
    | some (.directory _) => makeAll v links mode (place ++ [n]) ns
    | some (.symlink _) =>
      match resolve v links place [.name n] with
      | some p => if isDirectory v p then makeAll v links mode p ns else (false, v)
      | none => (false, v)
    | some _ => (false, v)
    | none =>
      if h : isDirectory v place = true then makeAll (put v place n (.directory mode) h fun _ => rfl) links mode (place ++ [n]) ns
      else (false, v)

variable {v : Volume ν} {links mode : Nat} {place : List ν}

/-- Along directories and places where nothing is. -/
theorem makeAll_clear {ns : List ν} (hplace : isDirectory v place = true)
    (hclear : ∀ ms, ms <+: ns → get v (place ++ ms) = none ∨ isDirectory v (place ++ ms) = true) :
    ∃ w, makeAll v links mode place ns = (true, w) ∧ ∀ q, get w q =
      if get v q = none ∧ place <+: q ∧ q <+: place ++ ns then some (.directory mode) else get v q := by
  induction ns generalizing v place with
  | nil =>
    refine ⟨v, by rw [makeAll, hplace], fun q => (if_neg ?_).symm⟩
    rintro ⟨hnone, hbelow, habove⟩
    rw [List.append_nil] at habove
    obtain rfl := hbelow.eq_of_length_le habove.length_le
    rw [isDirectory, hnone] at hplace
    cases hplace
  | cons n ns ih =>
    have hdown : ∀ q, get v q = none →
        (place <+: q ∧ q <+: place ++ n :: ns ↔ place ++ [n] <+: q ∧ q <+: place ++ [n] ++ ns) := by
      intro q hnone
      rw [List.append_assoc, List.singleton_append]
      refine ⟨fun ⟨hbelow, habove⟩ => ⟨?_, habove⟩, fun ⟨hbelow, habove⟩ => ⟨(List.prefix_append _ _).trans hbelow, habove⟩⟩
      obtain ⟨r, rfl⟩ := hbelow
      cases r with
      | nil =>
        rw [List.append_nil] at hnone
        rw [isDirectory, hnone] at hplace
        cases hplace
      | cons m r =>
        obtain ⟨rfl, -⟩ := List.cons_prefix_cons.mp ((List.prefix_append_right_inj place).mp habove)
        simp
    have hlater : ∀ ms, ms <+: ns → get v (place ++ [n] ++ ms) = none ∨ isDirectory v (place ++ [n] ++ ms) = true := by
      intro ms hms
      rw [List.append_assoc]
      exact hclear (n :: ms) (List.cons_prefix_cons.mpr ⟨rfl, hms⟩)
    rcases hclear [n] (List.cons_prefix_cons.mpr ⟨rfl, List.nil_prefix⟩) with hnone | hdirectory
    · have hput : ∀ q, get (put v place n (.directory mode) hplace fun _ => rfl) q =
          if q = place ++ [n] then some (.directory mode) else get v q := get_put
      obtain ⟨w, hmake, hw⟩ := ih (v := put v place n (.directory mode) hplace fun _ => rfl)
        (isDirectory_iff.mpr ⟨mode, (hput _).trans (if_pos rfl)⟩) fun ms hms => by
          unfold isDirectory
          rw [hput]
          split
          · exact .inr rfl
          · exact hlater ms hms
      refine ⟨w, ?_, fun q => ?_⟩
      · rw [makeAll]
        split
        next heq => cases hnone.symm.trans heq
        next heq => cases hnone.symm.trans heq
        next heq => cases hnone.symm.trans heq
        next => rw [dif_pos hplace, hmake]
      · rw [hw, hput]
        by_cases hq : q = place ++ [n]
        · subst hq
          have hhere : place ++ [n] <+: place ++ n :: ns := by simp
          simp [hnone, hhere]
        · by_cases hv : get v q = none
          · simp only [if_neg hq, hv, true_and, hdown q hv]
          · simp only [if_neg hq, hv, false_and]
    · obtain ⟨old, hold⟩ := isDirectory_iff.mp hdirectory
      obtain ⟨w, hmake, hw⟩ := ih hdirectory hlater
      refine ⟨w, ?_, fun q => ?_⟩
      · rw [makeAll, hold]
        exact hmake
      · rw [hw]
        by_cases hnone : get v q = none
        · simp only [hnone, true_and, hdown q hnone]
        · simp only [hnone, false_and]

theorem isDirectory_above {p r : List ν} (h : (get v (p ++ r)).isSome = true) (hr : r ≠ []) : isDirectory v p = true := by
  induction r generalizing p with
  | nil => exact absurd rfl hr
  | cons n r ih =>
    cases r with
    | nil => exact isDirectory_parent h
    | cons m r =>
      have hbelow : isDirectory v (p ++ [n]) = true := ih (by rwa [List.append_assoc]) (List.cons_ne_nil m r)
      obtain ⟨mode, hmode⟩ := isDirectory_iff.mp hbelow
      exact isDirectory_parent (by rw [hmode]; rfl)

theorem get_below {p : List ν} (h : get v p = none) (r : List ν) : get v (p ++ r) = none := by
  by_cases hr : r = []
  · rw [hr, List.append_nil, h]
  · by_contra hsome
    have hdirectory := isDirectory_above (Option.isSome_iff_ne_none.mpr hsome) hr
    rw [isDirectory, h] at hdirectory
    cases hdirectory

/-- What is there is come to by its names, if it is no link. -/
theorem resolve_names {ns : List ν} {node : Node ν} (h : get v (place ++ ns) = some node) (hnode : ∀ t, node ≠ .symlink t) :
    resolve v links place (names ns) = some (place ++ ns) := by
  have hadvance : advance v place (names ns) = .reached (place ++ ns) := by
    induction ns generalizing place with
    | nil => rw [List.append_nil]; rfl
    | cons n ns ih =>
      cases ns with
      | nil =>
        show advance v place [.name n] = _
        rw [advance, h]
        cases node with
        | symlink t => exact absurd rfl (hnode t)
        | _ => rfl
      | cons m ns =>
        have hbelow : isDirectory v (place ++ [n]) = true :=
          isDirectory_above (r := m :: ns) (by rw [List.append_assoc, List.singleton_append, h]; rfl) (List.cons_ne_nil m ns)
        obtain ⟨mode, hmode⟩ := isDirectory_iff.mp hbelow
        show advance v place (.name n :: names (m :: ns)) = _
        rw [advance, hmode]
        dsimp only
        rw [ih (by rwa [List.append_assoc]), List.append_assoc, List.singleton_append]
  rw [resolve.eq_def, hadvance]

theorem locate_names {ns : List ν} {n : ν} (hplace : isDirectory v (place ++ ns) = true) :
    locate v links place (names (ns ++ [n])) = some (place ++ ns ++ [n]) := by
  obtain ⟨mode, hmode⟩ := isDirectory_iff.mp hplace
  have hlast : (names (ns ++ [n])).getLast? = some (.name n) := by simp [names]
  have hfirst : (names (ns ++ [n])).dropLast = names ns := by simp [names]
  rw [locate, hlast, hfirst]
  dsimp only
  rw [resolve_names hmode (by simp), Option.map_some]

theorem lstat_names {ns : List ν} {n : ν} (hplace : isDirectory v (place ++ ns) = true) :
    lstat v links place (names (ns ++ [n])) = get v (place ++ ns ++ [n]) := by
  rw [lstat, locate_names hplace, Option.bind_some]

theorem resolve_missing {ns : List ν} {n : ν} (hplace : isDirectory v (place ++ ns) = true)
    (hnone : get v (place ++ ns ++ [n]) = none) : resolve v links place (names (ns ++ [n])) = none := by
  have hadvance : advance v place (names (ns ++ [n])) = .nowhere := by
    induction ns generalizing place with
    | nil =>
      rw [List.append_nil] at hnone
      show advance v place [.name n] = _
      rw [advance, hnone]
    | cons m ns ih =>
      have hhere : isDirectory v (place ++ [m]) = true := by
        cases ns with
        | nil => exact hplace
        | cons k ns =>
          obtain ⟨mode, hmode⟩ := isDirectory_iff.mp hplace
          exact isDirectory_above (r := k :: ns) (by rw [List.append_assoc, List.singleton_append, hmode]; rfl)
            (List.cons_ne_nil k ns)
      obtain ⟨mode, hmode⟩ := isDirectory_iff.mp hhere
      show advance v place (.name m :: names (ns ++ [n])) = _
      rw [advance, hmode]
      exact ih (by rwa [List.append_assoc, List.singleton_append])
        (by rwa [List.append_assoc place, List.singleton_append])
  rw [resolve.eq_def, hadvance]

theorem write_new {ns : List ν} {n : ν} {bytes : List UInt8} (hplace : isDirectory v (place ++ ns) = true)
    (hnone : get v (place ++ ns ++ [n]) = none) : ∃ w, write v links place (names ns) n bytes mode = some w ∧
      ∀ q, get w q = if q = place ++ ns ++ [n] then some (.file bytes mode) else get v q := by
  obtain ⟨old, hold⟩ := isDirectory_iff.mp hplace
  have hfree : isDirectory v (place ++ ns ++ [n]) = false := by
    rw [isDirectory, hnone]
    rfl
  rw [write, resolve_names hold (by simp), Option.bind_some]
  split
  · rw [dif_pos ⟨hplace, hfree⟩]
    exact ⟨_, rfl, fun q => get_put q⟩
  · next heq => cases hnone.symm.trans heq
  · next heq => cases hnone.symm.trans heq
  · next heq => cases hnone.symm.trans heq

theorem mem_children {p : List ν} {n : ν} : n ∈ children v p ↔ (get v (p ++ [n])).isSome = true := by
  have hkey : ∀ {q : List ν}, (if q ≠ [] ∧ q.dropLast = p then q.getLast? else none) = some n ↔ q = p ++ [n] := by
    intro q
    constructor
    · intro h
      split at h
      · next hq => rw [← List.dropLast_append_getLast? n h, hq.2]
      · cases h
    · rintro rfl
      simp
  rw [children, List.mem_filterMap, Option.isSome_iff_exists]
  constructor
  · rintro ⟨e, he, hn⟩
    obtain ⟨q, node⟩ := e
    obtain rfl : q = p ++ [n] := hkey.mp hn
    exact ⟨node, AList.mem_lookup_iff.mpr he⟩
  · rintro ⟨node, hnode⟩
    exact ⟨⟨p ++ [n], node⟩, AList.mem_lookup_iff.mp hnode, hkey.mpr rfl⟩

theorem nodup_children (v : Volume ν) (p : List ν) : (children v p).Nodup := by
  have hkeys : children v p =
      v.nodes.entries.keys.filterMap fun q => if q ≠ [] ∧ q.dropLast = p then q.getLast? else none := by
    rw [List.keys, List.filterMap_map]
    rfl
  rw [hkeys]
  refine v.nodes.nodupKeys.filterMap fun q q' n hq hq' => ?_
  have heq : ∀ {q : List ν}, n ∈ (if q ≠ [] ∧ q.dropLast = p then q.getLast? else none) → q = p ++ [n] := by
    intro q h
    rw [Option.mem_def] at h
    split at h
    · next hdrop => rw [← List.dropLast_append_getLast? n h, hdrop.2]
    · cases h
  rw [heq hq, heq hq']

end RemoteCodex.Files.Links
