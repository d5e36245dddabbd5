import RemoteCodex.Files.Links
import RemoteCodex.Transfer.Names

/-!
# The parts of a path

A path as the system reads it, and that it names what its components name.
-/

namespace RemoteCodex.Transfer

open Files.Links

def rawPart : List Char → PathPart String
  | [] | ['.'] => .here
  | ['.', '.'] => .parent
  | cs => .name (String.ofList cs)

/-- The parts of a path as the system reads them. -/
def rawParts (path : String) : List (PathPart String) := (path.toList.splitOn '/').map rawPart

variable {ns : List String}

/-- One part of a path, as a component and as the system reads it. -/
inductive SamePart : Option Component → PathPart String → Prop
  | none : SamePart none .here
  | curDir : SamePart (some .curDir) .here
  | parent : SamePart (some .parentDir) .parent
  | normal {n : String} : SamePart (some (.normal n)) (.name n)

theorem trim_sameParts {components : List (Option Component)} {parts : List (PathPart String)}
    (hsame : List.Forall₂ SamePart components parts)
    (h : (components.filterMap id).filter (· ≠ .curDir) = ns.map .normal) : trim parts = names ns := by
  induction hsame generalizing ns with
  | nil =>
    obtain rfl := List.map_eq_nil_iff.mp h.symm
    rfl
  | cons hpart _ ih =>
    cases hpart with
    | none => exact ih h
    | curDir => exact ih h
    | parent =>
      cases ns with
      | nil => cases h
      | cons n ns => cases h
    | normal =>
      cases ns with
      | nil => cases h
      | cons n ns =>
        obtain ⟨hn, hrest⟩ := List.cons.inj h
        obtain rfl := Component.normal.inj hn
        rw [trim_name, ih hrest]
        rfl

theorem rawPart_name {cs : List Char} (hnil : cs ≠ []) (hhere : cs ≠ ['.']) (hparent : cs ≠ ['.', '.']) :
    rawPart cs = .name (String.ofList cs) := by
  unfold rawPart
  split
  · exact absurd rfl hnil
  · exact absurd rfl hhere
  · exact absurd rfl hparent
  · rfl

theorem samePart_later (cs : List Char) : SamePart (laterComponent cs) (rawPart cs) := by
  unfold laterComponent
  split
  · exact .none
  · exact .none
  · exact .parent
  · next hnil hhere hparent =>
    rw [rawPart_name hnil hhere hparent]
    exact .normal

theorem samePart_rest (rest : List (List Char)) : List.Forall₂ SamePart (rest.map laterComponent) (rest.map rawPart) :=
  List.forall₂_map_left_iff.mpr (List.forall₂_map_right_iff.mpr (List.forall₂_same.mpr fun cs _ => samePart_later cs))

/-- The system reads the path the way `Path::components` does. -/
theorem trim_rawParts {path : String} (h : (pathComponents path).filter (· ≠ .curDir) = ns.map .normal) :
    trim (rawParts path) = names ns := by
  have hcomponents : ∀ (first : Component) (rest : List (List Char)),
      ((some first :: rest.map laterComponent).filterMap id) = first :: rest.filterMap laterComponent := by
    intro first rest
    rw [List.filterMap_cons, List.filterMap_map]
    rfl
  unfold pathComponents at h
  unfold rawParts
  generalize path.toList.splitOn '/' = css at h ⊢
  cases css with
  | nil => exact trim_sameParts .nil h
  | cons first rest =>
    rw [List.map_cons]
    dsimp only at h
    split at h
    · split at h
      · next hempty =>
        obtain rfl := List.isEmpty_iff.mp hempty
        exact trim_sameParts (.cons .none .nil) h
      · cases ns with
        | nil => cases h
        | cons n ns => cases (List.cons.inj h).1
    · refine trim_sameParts (.cons .curDir (samePart_rest rest)) ?_
      rw [hcomponents]
      exact h
    · cases ns with
      | nil => cases h
      | cons n ns => cases (List.cons.inj h).1
    · next hnil hhere hparent =>
      rw [rawPart_name hnil hhere hparent]
      refine trim_sameParts (.cons .normal (samePart_rest rest)) ?_
      rw [hcomponents]
      exact h

end RemoteCodex.Transfer
