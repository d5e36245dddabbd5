import Mathlib.Data.List.AList
import RemoteCodex.Interact.Table

/-!
# Trees with symbolic links

Nodes are kept by their path from the root. A path is resolved one part after
the other: a link that is come to is followed, and `..` goes back from wherever
that has led. The names are of any type.
-/

namespace RemoteCodex.Files.Links

open Interact (Table)

variable {ν : Type} [DecidableEq ν]

/-- A part of a path: a name, `..`, or `.`, which stands for an empty part too. -/
inductive PathPart (ν : Type)
  | name (n : ν)
  | parent
  | here
  deriving DecidableEq, Repr

structure Target (ν : Type) where
  absolute : Bool
  parts : List (PathPart ν)
  deriving DecidableEq, Repr

inductive Node (ν : Type)
  | file (bytes : List UInt8) (mode : Nat)
  | directory (mode : Nat)
  | symlink (target : Target ν)
  | special
  deriving DecidableEq, Repr

def Node.isDirectory : Node ν → Bool
  | .directory _ => true
  | _ => false

/-- Whatever is there is in a directory. -/
structure Volume (ν : Type) [DecidableEq ν] where
  nodes : Table (List ν) (Node ν)
  rooted : ∀ p n, (nodes.lookup (p ++ [n])).isSome = true → (nodes.lookup p).any Node.isDirectory = true

def get (v : Volume ν) (p : List ν) : Option (Node ν) := v.nodes.lookup p

def isDirectory (v : Volume ν) (p : List ν) : Bool := (get v p).any Node.isDirectory

theorem isDirectory_iff {v : Volume ν} {p : List ν} : isDirectory v p = true ↔ ∃ mode, get v p = some (.directory mode) := by
  unfold isDirectory
  cases get v p with
  | none => simp
  | some n => cases n <;> simp [Node.isDirectory]

theorem isDirectory_parent {v : Volume ν} {p : List ν} {n : ν} (h : (get v (p ++ [n])).isSome = true) :
    isDirectory v p = true :=
  v.rooted p n h

/-- A node in a directory. A directory is replaced by another only. -/
def put (v : Volume ν) (p : List ν) (n : ν) (node : Node ν) (hparent : isDirectory v p = true)
    (hnode : isDirectory v (p ++ [n]) = true → node.isDirectory = true) : Volume ν where
  nodes := v.nodes.insert (p ++ [n]) node
  rooted := by
    intro q m h
    rw [Table.lookup_insert_if] at h ⊢
    have hq : isDirectory v q = true := by
      split at h
      · next heq =>
        obtain ⟨rfl, -⟩ := List.append_inj' heq rfl
        exact hparent
      · exact v.rooted q m h
    split
    · next heq =>
      subst heq
      exact hnode hq
    · exact hq

theorem get_put {v : Volume ν} {p : List ν} {n : ν} {node : Node ν} {hparent : isDirectory v p = true}
    {hnode : isDirectory v (p ++ [n]) = true → node.isDirectory = true} (q : List ν) :
    get (put v p n node hparent hnode) q = if q = p ++ [n] then some node else get v q :=
  Table.lookup_insert_if (p ++ [n]) q node v.nodes

def names (p : List ν) : List (PathPart ν) := p.map .name

omit [DecidableEq ν] in
@[simp] theorem names_append (p q : List ν) : names (p ++ q) = names p ++ names q := List.map_append

/-- Where the parts of a link are resolved from. -/
def Target.start (t : Target ν) (place : List ν) : List ν := if t.absolute then [] else place

/-- How far a path leads before a link is to be followed. -/
inductive Arrival (ν : Type)
  | reached (p : List ν)
  | link (place : List ν) (t : Target ν) (rest : List (PathPart ν))
  | nowhere

def advance (v : Volume ν) (place : List ν) : List (PathPart ν) → Arrival ν
  | [] => .reached place
  | .parent :: rest => advance v place.dropLast rest
  | .here :: rest => advance v place rest
  | .name n :: rest =>
    match get v (place ++ [n]) with
    | some (.directory _) => advance v (place ++ [n]) rest
    | some (.symlink t) => .link place t rest
    | some _ => if rest.isEmpty then .reached (place ++ [n]) else .nowhere
    | none => .nowhere

/-- `realpath`, with as many links followed as the system follows. -/
def resolve (v : Volume ν) (links : Nat) (place : List ν) (parts : List (PathPart ν)) : Option (List ν) :=
  match advance v place parts with
  | .reached p => some p
  | .nowhere => none
  | .link place t rest =>
    match links with
    | 0 => none
    | links + 1 => resolve v links (t.start place) (t.parts ++ rest)

/-- The way a path takes. -/
inductive Walks (v : Volume ν) : List ν → List (PathPart ν) → List ν → Prop
  | done {place : List ν} : Walks v place [] place
  | up {place p : List ν} {rest : List (PathPart ν)} : Walks v place.dropLast rest p → Walks v place (.parent :: rest) p
  | stay {place p : List ν} {rest : List (PathPart ν)} : Walks v place rest p → Walks v place (.here :: rest) p
  | enter {place p : List ν} {n : ν} {rest : List (PathPart ν)} {mode : Nat} : get v (place ++ [n]) = some (.directory mode) →
      Walks v (place ++ [n]) rest p → Walks v place (.name n :: rest) p
  | follow {place p : List ν} {n : ν} {rest : List (PathPart ν)} {t : Target ν} : get v (place ++ [n]) = some (.symlink t) →
      Walks v (t.start place) (t.parts ++ rest) p → Walks v place (.name n :: rest) p
  | leaf {place : List ν} {n : ν} {node : Node ν} : get v (place ++ [n]) = some node → node.isDirectory = false →
      (∀ t, node ≠ .symlink t) → Walks v place [.name n] (place ++ [n])

variable {v w : Volume ν} {place p q : List ν} {parts more : List (PathPart ν)} {links : Nat}

theorem walks_reached (h : advance v place parts = .reached p) : Walks v place parts p := by
  fun_induction advance v place parts with
  | case1 place =>
    obtain rfl := Arrival.reached.inj h
    exact .done
  | case2 place rest ih => exact .up (ih h)
  | case3 place rest ih => exact .stay (ih h)
  | case4 place n rest mode hget ih => exact .enter hget (ih h)
  | case5 => cases h
  | case6 place n rest node hdirectory hsymlink hget hrest =>
    obtain rfl := Arrival.reached.inj h
    obtain rfl := List.isEmpty_iff.mp hrest
    refine .leaf hget ?_ hsymlink
    cases node with
    | directory mode => exact absurd rfl (hdirectory mode)
    | _ => rfl
  | case7 => cases h
  | case8 => cases h

theorem walks_link {t : Target ν} {at' : List ν} {rest : List (PathPart ν)} (h : advance v place parts = .link at' t rest)
    (hrest : Walks v (t.start at') (t.parts ++ rest) p) : Walks v place parts p := by
  fun_induction advance v place parts with
  | case1 => cases h
  | case2 place rest ih => exact .up (ih h)
  | case3 place rest ih => exact .stay (ih h)
  | case4 place n rest mode hget ih => exact .enter hget (ih h)
  | case5 place n rest t hget =>
    cases h
    exact .follow hget hrest
  | case6 => cases h
  | case7 => cases h
  | case8 => cases h

theorem walks_resolve (h : resolve v links place parts = some p) : Walks v place parts p := by
  fun_induction resolve v links place parts with
  | case1 links place parts q hadvance =>
    obtain rfl := Option.some.inj h
    exact walks_reached hadvance
  | case2 => cases h
  | case3 => cases h
  | case4 place parts at' t rest hadvance links ih => exact walks_link hadvance (ih h)

/-- A path takes one way. -/
theorem Walks.unique (h : Walks v place parts p) (h' : Walks v place parts q) : p = q := by
  induction h with
  | done =>
    cases h' with
    | done => rfl
  | up _ ih =>
    cases h' with
    | up h' => exact ih h'
  | stay _ ih =>
    cases h' with
    | stay h' => exact ih h'
  | enter hget _ ih =>
    cases h' with
    | enter _ h' => exact ih h'
    | follow hget' _ => cases hget.symm.trans hget'
    | leaf hget' hdirectory _ =>
      obtain rfl := Option.some.inj (hget.symm.trans hget')
      cases hdirectory
  | follow hget _ ih =>
    cases h' with
    | enter hget' _ => cases hget.symm.trans hget'
    | follow hget' h' =>
      cases hget.symm.trans hget'
      exact ih h'
    | leaf hget' _ hsymlink => exact absurd (Option.some.inj (hget'.symm.trans hget)) (hsymlink _)
  | leaf hget hdirectory hsymlink =>
    cases h' with
    | enter hget' _ =>
      obtain rfl := Option.some.inj (hget'.symm.trans hget)
      cases hdirectory
    | follow hget' _ => exact absurd (Option.some.inj (hget.symm.trans hget')) (hsymlink _)
    | leaf => rfl

/-- The way of a path in two pieces. -/
theorem Walks.split (h : Walks v place (parts ++ more) p) : ∃ q, Walks v place parts q ∧ Walks v q more p := by
  generalize hall : parts ++ more = all at h
  induction h generalizing parts with
  | done =>
    obtain ⟨rfl, rfl⟩ := List.append_eq_nil_iff.mp hall
    exact ⟨_, .done, .done⟩
  | up h ih =>
    rcases List.append_eq_cons_iff.mp hall with ⟨rfl, rfl⟩ | ⟨parts', rfl, hrest⟩
    · exact ⟨_, .done, .up h⟩
    · obtain ⟨q, hq, hp⟩ := ih hrest.symm
      exact ⟨q, .up hq, hp⟩
  | stay h ih =>
    rcases List.append_eq_cons_iff.mp hall with ⟨rfl, rfl⟩ | ⟨parts', rfl, hrest⟩
    · exact ⟨_, .done, .stay h⟩
    · obtain ⟨q, hq, hp⟩ := ih hrest.symm
      exact ⟨q, .stay hq, hp⟩
  | enter hget h ih =>
    rcases List.append_eq_cons_iff.mp hall with ⟨rfl, rfl⟩ | ⟨parts', rfl, hrest⟩
    · exact ⟨_, .done, .enter hget h⟩
    · obtain ⟨q, hq, hp⟩ := ih hrest.symm
      exact ⟨q, .enter hget hq, hp⟩
  | @follow place p n rest t hget h ih =>
    rcases List.append_eq_cons_iff.mp hall with ⟨rfl, rfl⟩ | ⟨parts', rfl, hrest⟩
    · exact ⟨_, .done, .follow hget h⟩
    · have hsteps : t.parts ++ parts' ++ more = t.parts ++ rest := by rw [List.append_assoc, hrest]
      obtain ⟨q, hq, hp⟩ := ih hsteps
      exact ⟨q, .follow hget hq, hp⟩
  | leaf hget hdirectory hsymlink =>
    rcases List.append_eq_cons_iff.mp hall with ⟨rfl, rfl⟩ | ⟨parts', rfl, hrest⟩
    · exact ⟨_, .done, .leaf hget hdirectory hsymlink⟩
    · obtain ⟨rfl, rfl⟩ := List.append_eq_nil_iff.mp hrest.symm
      exact ⟨_, .leaf hget hdirectory hsymlink, .done⟩

/-- Two ways, the first of which leads to a directory. -/
theorem Walks.append (h : Walks v place parts q) (hq : isDirectory v q = true) (h' : Walks v q more p) :
    Walks v place (parts ++ more) p := by
  induction h with
  | done => exact h'
  | up _ ih => exact .up (ih hq h')
  | stay _ ih => exact .stay (ih hq h')
  | enter hget _ ih => exact .enter hget (ih hq h')
  | @follow place q n rest t hget _ ih =>
    have hway := ih hq h'
    rw [List.append_assoc] at hway
    exact .follow hget hway
  | leaf hget hdirectory _ =>
    obtain ⟨mode, hmode⟩ := isDirectory_iff.mp hq
    obtain rfl := Option.some.inj (hmode.symm.trans hget)
    cases hdirectory

/-- The parts without those that lead nowhere. -/
def trim (parts : List (PathPart ν)) : List (PathPart ν) := parts.filter (· ≠ .here)

@[simp] theorem trim_nil : trim ([] : List (PathPart ν)) = [] := rfl

@[simp] theorem trim_here (parts : List (PathPart ν)) : trim (.here :: parts) = trim parts := rfl

@[simp] theorem trim_parent (parts : List (PathPart ν)) : trim (.parent :: parts) = .parent :: trim parts := rfl

@[simp] theorem trim_name (n : ν) (parts : List (PathPart ν)) : trim (.name n :: parts) = .name n :: trim parts := by
  simp [trim]

theorem Walks.trim_right (h : Walks v place (parts ++ more) p) : Walks v place (parts ++ trim more) p := by
  generalize hall : parts ++ more = all at h
  induction h generalizing parts more with
  | done =>
    obtain ⟨rfl, rfl⟩ := List.append_eq_nil_iff.mp hall
    exact .done
  | up h ih =>
    rcases List.append_eq_cons_iff.mp hall with ⟨rfl, rfl⟩ | ⟨parts', rfl, hrest⟩
    · rw [List.nil_append, trim_parent]
      exact .up (ih (List.nil_append _))
    · exact .up (ih hrest.symm)
  | stay h ih =>
    rcases List.append_eq_cons_iff.mp hall with ⟨rfl, rfl⟩ | ⟨parts', rfl, hrest⟩
    · rw [List.nil_append, trim_here]
      simpa using ih (List.nil_append _)
    · exact .stay (ih hrest.symm)
  | enter hget h ih =>
    rcases List.append_eq_cons_iff.mp hall with ⟨rfl, rfl⟩ | ⟨parts', rfl, hrest⟩
    · rw [List.nil_append, trim_name]
      exact .enter hget (ih (List.nil_append _))
    · exact .enter hget (ih hrest.symm)
  | @follow place p n rest t hget h ih =>
    rcases List.append_eq_cons_iff.mp hall with ⟨rfl, rfl⟩ | ⟨parts', rfl, hrest⟩
    · rw [List.nil_append, trim_name]
      exact .follow hget (ih rfl)
    · refine .follow hget ?_
      have hsteps : t.parts ++ parts' ++ more = t.parts ++ rest := by rw [List.append_assoc, hrest]
      have hway := ih hsteps
      rwa [List.append_assoc] at hway
  | leaf hget hdirectory hsymlink =>
    rcases List.append_eq_cons_iff.mp hall with ⟨rfl, rfl⟩ | ⟨parts', rfl, hrest⟩
    · rw [List.nil_append, trim_name]
      exact .leaf hget hdirectory hsymlink
    · obtain ⟨rfl, rfl⟩ := List.append_eq_nil_iff.mp hrest.symm
      exact .leaf hget hdirectory hsymlink

/-- The way down through directories. -/
theorem Walks.down {ns : List ν} (h : ∀ ms, ms ≠ [] → ms <+: ns → isDirectory v (place ++ ms) = true) :
    Walks v place (names ns) (place ++ ns) := by
  induction ns generalizing place with
  | nil =>
    rw [List.append_nil]
    exact .done
  | cons n ns ih =>
    obtain ⟨mode, hmode⟩ := isDirectory_iff.mp (h [n] (List.cons_ne_nil n []) (by simp))
    refine .enter hmode ?_
    have hway : Walks v (place ++ [n]) (names ns) (place ++ [n] ++ ns) := ih fun ms _ hms => by
      rw [List.append_assoc]
      exact h (n :: ms) (List.cons_ne_nil n ms) (by simpa using hms)
    rwa [List.append_assoc] at hway

/-- The directories and the links of one volume are still there in another. -/
structure Persists (v w : Volume ν) : Prop where
  directory : ∀ p, isDirectory v p = true → isDirectory w p = true
  symlink : ∀ p t, get v p = some (.symlink t) → get w p = some (.symlink t)

theorem Persists.refl (v : Volume ν) : Persists v v := ⟨fun _ h => h, fun _ _ h => h⟩

theorem Persists.trans {u : Volume ν} (h : Persists u v) (h' : Persists v w) : Persists u w :=
  ⟨fun p hp => h'.directory p (h.directory p hp), fun p t ht => h'.symlink p t (h.symlink p t ht)⟩

theorem Walks.persist (hpersists : Persists v w) (h : Walks v place parts p) (hp : isDirectory v p = true) :
    Walks w place parts p := by
  induction h with
  | done => exact .done
  | up _ ih => exact .up (ih hp)
  | stay _ ih => exact .stay (ih hp)
  | enter hget _ ih =>
    obtain ⟨mode, hmode⟩ := isDirectory_iff.mp (hpersists.directory _ (isDirectory_iff.mpr ⟨_, hget⟩))
    exact .enter hmode (ih hp)
  | follow hget _ ih => exact .follow (hpersists.symlink _ _ hget) (ih hp)
  | leaf hget hdirectory _ =>
    obtain ⟨mode, hmode⟩ := isDirectory_iff.mp hp
    obtain rfl := Option.some.inj (hmode.symm.trans hget)
    cases hdirectory

/-- The way to a directory along names, where each link on it leads back into `root`. -/
theorem Walks.within {root : List ν} {rest : List ν} (hlinks : ∀ place n t q, root <+: place →
      get v (place ++ [n]) = some (.symlink t) → Walks v (t.start place) t.parts q → root <+: q)
    (hplace : root <+: place) (h : Walks v place (names rest) p) : root <+: p := by
  induction rest generalizing place with
  | nil =>
    cases h with
    | done => exact hplace
  | cons n rest ih =>
    have hsteps : Walks v place ([.name n] ++ names rest) p := h
    obtain ⟨q, hq, hp⟩ := hsteps.split
    refine ih ?_ hp
    cases hq with
    | enter _ hq =>
      cases hq with
      | done => exact hplace.trans (List.prefix_append _ _)
    | follow hget hq =>
      rw [List.append_nil] at hq
      exact hlinks _ _ _ q hplace hget hq
    | leaf => exact hplace.trans (List.prefix_append _ _)

end RemoteCodex.Files.Links
