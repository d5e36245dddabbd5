import Mathlib.Logic.Relation
import Mathlib.Data.List.Basic

/-!
# Ordered forests

A forest is grown from a list of roots by a function that tells the children of
each node. Its preorder numbers the nodes, and tells each one the number of its
parent.
-/

namespace RemoteCodex.Interact

/-- The first tree, with its root and what is below it, and the other trees. -/
inductive Forest (α : Type) where
  | nil
  | node (value : α) (children next : Forest α)

namespace Forest

structure Numbered (α : Type) where
  index : Nat
  parent : Option Nat
  value : α

variable {α : Type}

def preorder : Forest α → List α
  | nil => []
  | node v children next => v :: (children.preorder ++ next.preorder)

def size : Forest α → Nat
  | nil => 0
  | node _ children next => children.size + next.size + 1

/-- The preorder from `start` on; the roots have the parent that is given. -/
def numbered : Forest α → Option Nat → Nat → List (Numbered α)
  | nil, _, _ => []
  | node v children next, parent, start =>
    ⟨start, parent, v⟩ :: (children.numbered (some start) (start + 1) ++ next.numbered parent (start + 1 + children.size))

/-- A forest with these roots, where each node has its children. -/
inductive Grows (children : α → List α) : List α → Forest α → Prop
  | nil : Grows children [] .nil
  | node {v : α} {vs : List α} {below next : Forest α} :
      Grows children (children v) below → Grows children vs next → Grows children (v :: vs) (.node v below next)

variable {children : α → List α} {vs : List α} {f g : Forest α}

-- ---------------------------------------------------------------------------
-- Growing
-- ---------------------------------------------------------------------------

theorem Grows.unique (hf : Grows children vs f) (hg : Grows children vs g) : f = g := by
  induction hf generalizing g with
  | nil =>
    cases hg
    rfl
  | node _ _ ihbelow ihnext =>
    cases hg with
    | node hbelow hnext => rw [ihbelow hbelow, ihnext hnext]

/-- A forest grows wherever a rank falls from each node to its children. -/
theorem Grows.exists (rank : α → Nat) (hrank : ∀ v, ∀ w ∈ children v, rank w < rank v) (vs : List α) :
    ∃ f, Grows children vs f := by
  have hbound : ∀ n, ∀ vs : List α, (∀ v ∈ vs, rank v < n) → ∃ f, Grows children vs f := by
    intro n
    induction n with
    | zero =>
      intro vs hvs
      cases vs with
      | nil => exact ⟨.nil, .nil⟩
      | cons v vs => exact absurd (hvs v (List.mem_cons_self ..)) (Nat.not_lt_zero _)
    | succ n ih =>
      intro vs hvs
      induction vs with
      | nil => exact ⟨.nil, .nil⟩
      | cons v vs ihvs =>
        obtain ⟨next, hnext⟩ := ihvs fun w hw => hvs w (List.mem_cons_of_mem _ hw)
        have hv := hvs v (List.mem_cons_self ..)
        obtain ⟨below, hbelow⟩ := ih (children v) fun w hw => Nat.lt_of_lt_of_le (hrank v w hw) (Nat.le_of_lt_succ hv)
        exact ⟨.node v below next, .node hbelow hnext⟩
  obtain ⟨n, hn⟩ : ∃ n, ∀ v ∈ vs, rank v < n := by
    induction vs with
    | nil => exact ⟨0, fun v hv => by cases hv⟩
    | cons v vs ih =>
      obtain ⟨n, hn⟩ := ih
      refine ⟨max (rank v + 1) n, fun w hw => ?_⟩
      rcases List.mem_cons.mp hw with rfl | hw
      · exact Nat.le_max_left _ _
      · exact Nat.lt_of_lt_of_le (hn w hw) (Nat.le_max_right _ _)
  exact hbound n vs hn

theorem Grows.length_le (h : Grows children vs f) : vs.length ≤ f.size := by
  induction h with
  | nil => exact Nat.le_refl _
  | node _ _ _ ihnext =>
    simp only [List.length_cons, size]
    omega

/-- What is in a forest is a root or a child of what is in it. -/
theorem Grows.mem_preorder (h : Grows children vs f) :
    ∀ v ∈ f.preorder, v ∈ vs ∨ ∃ u ∈ f.preorder, v ∈ children u := by
  induction h with
  | nil =>
    intro v hv
    cases hv
  | @node v vs below next _ _ ihbelow ihnext =>
    intro w hw
    simp only [preorder, List.mem_cons, List.mem_append] at hw ⊢
    rcases hw with rfl | hw | hw
    · exact .inl (.inl rfl)
    · right
      rcases ihbelow w hw with hw | ⟨u, hu, hw⟩
      · exact ⟨v, .inl rfl, hw⟩
      · exact ⟨u, .inr (.inl hu), hw⟩
    · rcases ihnext w hw with hw | ⟨u, hu, hw⟩
      · exact .inl (.inr hw)
      · exact .inr ⟨u, .inr (.inr hu), hw⟩

/-- The children of what is in a forest are in it too. -/
theorem Grows.closed (h : Grows children vs f) :
    (∀ v ∈ vs, v ∈ f.preorder) ∧ ∀ u ∈ f.preorder, ∀ v ∈ children u, v ∈ f.preorder := by
  induction h with
  | nil => exact ⟨fun v hv => hv, fun u hu => by cases hu⟩
  | node _ _ ihbelow ihnext =>
    simp only [preorder, List.mem_cons, List.mem_append]
    constructor
    · rintro v (rfl | hv)
      · exact .inl rfl
      · exact .inr (.inr (ihnext.1 v hv))
    · rintro u (rfl | hu | hu) v hv
      · exact .inr (.inl (ihbelow.1 v hv))
      · exact .inr (.inl (ihbelow.2 u hu v hv))
      · exact .inr (.inr (ihnext.2 u hu v hv))

/-- `w` is `v` or below it. -/
def Below (children : α → List α) : α → α → Prop := Relation.ReflTransGen fun v w => w ∈ children v

theorem Grows.beneath (h : Grows children vs f) : ∀ w ∈ f.preorder, ∃ v ∈ vs, Below children v w := by
  induction h with
  | nil =>
    intro w hw
    cases hw
  | @node v vs below next _ _ ihbelow ihnext =>
    intro w hw
    simp only [preorder, List.mem_cons, List.mem_append] at hw
    rcases hw with rfl | hw | hw
    · exact ⟨w, List.mem_cons_self .., .refl⟩
    · obtain ⟨u, hu, hbelow⟩ := ihbelow w hw
      exact ⟨v, List.mem_cons_self .., .head hu hbelow⟩
    · obtain ⟨u, hu, hbelow⟩ := ihnext w hw
      exact ⟨u, List.mem_cons_of_mem _ hu, hbelow⟩

/-- Nodes that are apart stay so further down; with siblings apart, and nodes
distinct from what is below them, all nodes are distinct. -/
theorem Grows.pairwise {A R : α → α → Prop} (h : Grows children vs f) (hroots : vs.Pairwise A)
    (hchildren : ∀ v, (children v).Pairwise A) (hsymm : ∀ u v, A u v → A v u)
    (hdown : ∀ u v w, A u v → w ∈ children v → A u w) (hapart : ∀ u v, A u v → R u v)
    (hself : ∀ u v w, v ∈ children u → Below children v w → R u w) : f.preorder.Pairwise R := by
  have hfall : ∀ {u v w}, A u v → Below children v w → A u w := by
    intro u v w hA hbelow
    induction hbelow with
    | refl => exact hA
    | tail _ hchild ih => exact hdown _ _ _ ih hchild
  induction h with
  | nil => exact .nil
  | @node v vs below next hbelow hnext ihbelow ihnext =>
    obtain ⟨hfirst, hrest⟩ := List.pairwise_cons.mp hroots
    have hcross : ∀ x, Below children v x → ∀ y ∈ next.preorder, R x y := by
      intro x hx y hy
      obtain ⟨u, hu, huy⟩ := hnext.beneath y hy
      exact hapart _ _ (hfall (hsymm _ _ (hfall (hsymm _ _ (hfirst u hu)) hx)) huy)
    simp only [preorder]
    refine List.pairwise_cons.mpr ⟨?_, List.pairwise_append.mpr ⟨ihbelow (hchildren v), ihnext hrest, ?_⟩⟩
    · intro y hy
      rcases List.mem_append.mp hy with hy | hy
      · obtain ⟨u, hu, huy⟩ := hbelow.beneath y hy
        exact hself v u y hu huy
      · exact hcross v .refl y hy
    · intro x hx y hy
      obtain ⟨u, hu, hux⟩ := hbelow.beneath x hx
      exact hcross x (.head hu hux) y hy

-- ---------------------------------------------------------------------------
-- Numbering
-- ---------------------------------------------------------------------------

theorem map_value_numbered (f : Forest α) (parent : Option Nat) (start : Nat) :
    (f.numbered parent start).map Numbered.value = f.preorder := by
  induction f generalizing parent start with
  | nil => rfl
  | node v children next ihchildren ihnext =>
    simp only [numbered, preorder, List.map_cons, List.map_append, ihchildren, ihnext]

/-- The numbers are consecutive. -/
theorem map_index_numbered (f : Forest α) (parent : Option Nat) (start : Nat) :
    (f.numbered parent start).map Numbered.index = List.range' start f.size := by
  induction f generalizing parent start with
  | nil => rfl
  | node v children next ihchildren ihnext =>
    simp only [numbered, size, List.map_cons, List.map_append, ihchildren, ihnext]
    rw [List.range'_succ, ← List.range'_append_1]

/-- A node is a root, or has the number of one that it is a child of. -/
theorem Grows.numbered_parent (h : Grows children vs f) (parent : Option Nat) (start : Nat) :
    ∀ e ∈ f.numbered parent start, e.parent = parent ∧ e.value ∈ vs ∨
      ∃ d ∈ f.numbered parent start, e.parent = some d.index ∧ d.index < e.index ∧ e.value ∈ children d.value := by
  induction h generalizing parent start with
  | nil =>
    intro e he
    cases he
  | @node v vs below next _ _ ihbelow ihnext =>
    intro e he
    simp only [numbered, List.mem_cons, List.mem_append] at he ⊢
    rcases he with rfl | he | he
    · exact .inl ⟨rfl, .inl rfl⟩
    · right
      rcases ihbelow (some start) (start + 1) e he with ⟨hparent, hmem⟩ | ⟨d, hd, hrest⟩
      · refine ⟨⟨start, parent, v⟩, .inl rfl, hparent, ?_, hmem⟩
        have hindex := List.mem_map_of_mem (f := Numbered.index) he
        rw [map_index_numbered] at hindex
        exact (List.mem_range'_1.mp hindex).1
      · exact ⟨d, .inr (.inl hd), hrest⟩
    · rcases ihnext parent _ e he with ⟨hparent, hmem⟩ | ⟨d, hd, hrest⟩
      · exact .inl ⟨hparent, .inr hmem⟩
      · exact .inr ⟨d, .inr (.inr hd), hrest⟩

end Forest

end RemoteCodex.Interact
