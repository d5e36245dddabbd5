import Mathlib.Algebra.Order.Ring.Int
import Mathlib.Data.List.DropRight
import RemoteCodex.Transfer.Paths

/-!
# Names in a path

What the components of a path are when a name is put after a `/`, and when it
is cut at its last `/` or its last dot.
-/

namespace RemoteCodex.Transfer

/-- A name that a path has as it stands. -/
structure PlainName (cs : List Char) : Prop where
  slash : '/' ∉ cs
  nonempty : cs ≠ []
  dot : cs ≠ ['.']
  parent : cs ≠ ['.', '.']

section

variable {xs ys cs : List Char} {parts : List String}

theorem not_mem_of_mem_splitOn {α : Type} [BEq α] [LawfulBEq α] {a : α} {xs w : List α} (h : w ∈ xs.splitOn a) :
    a ∉ w := by
  induction xs generalizing w with
  | nil =>
    rw [List.splitOn_nil, List.mem_singleton] at h
    rw [h]
    exact List.not_mem_nil
  | cons x xs ih =>
    rw [List.splitOn_cons_eq_if_modifyHead] at h
    split at h
    · rcases List.mem_cons.mp h with rfl | h
      · exact List.not_mem_nil
      · exact ih h
    · next hx =>
      obtain ⟨first, rest, hsplit⟩ := List.exists_cons_of_ne_nil (List.splitOn_ne_nil a xs)
      rw [hsplit, List.modifyHead_cons] at h
      rcases List.mem_cons.mp h with rfl | h
      · have hfirst := ih (w := first) (by rw [hsplit]; exact List.mem_cons_self)
        intro hmem
        rcases List.mem_cons.mp hmem with rfl | hmem
        · exact hx (beq_self_eq_true _)
        · exact hfirst hmem
      · exact ih (by rw [hsplit]; exact List.mem_cons_of_mem _ h)

theorem pathComponents_plain (h : PlainName cs) : pathComponents (String.ofList cs) = [.normal (String.ofList cs)] := by
  unfold pathComponents
  rw [String.toList_ofList, List.splitOn_eq_singleton h.slash]
  obtain ⟨-, hne, hdot, hparent⟩ := h
  split
  · next heq => cases heq
  · next heq =>
    obtain ⟨rfl, rfl⟩ := List.cons.inj heq
    split
    · exact absurd rfl hne
    · exact absurd rfl hdot
    · exact absurd rfl hparent
    · rfl

/-- The component of a part that is not the first one. -/
def laterComponent : List Char → Option Component
  | [] | ['.'] => none
  | ['.', '.'] => some .parentDir
  | cs => some (.normal (String.ofList cs))

theorem laterComponent_plain (h : PlainName cs) : laterComponent cs = some (.normal (String.ofList cs)) := by
  obtain ⟨-, hne, hdot, hparent⟩ := h
  unfold laterComponent
  split
  · exact absurd rfl hne
  · exact absurd rfl hdot
  · exact absurd rfl hparent
  · rfl

/-- What follows a `/` adds its own components. -/
theorem pathComponents_append (hxs : xs ≠ []) : pathComponents (String.ofList (xs ++ '/' :: ys)) =
    pathComponents (String.ofList xs) ++ (ys.splitOn '/').filterMap laterComponent := by
  obtain ⟨first, rest, hsplit⟩ := List.exists_cons_of_ne_nil (List.splitOn_ne_nil '/' xs)
  have hfirst : first = [] → rest ≠ [] := by
    rintro rfl rfl
    have hback : ['/'].intercalate (xs.splitOn '/') = xs := List.intercalate_splitOn '/'
    rw [hsplit] at hback
    exact hxs hback.symm
  unfold pathComponents
  simp only [String.toList_ofList, List.splitOn_append_cons_self, hsplit, List.cons_append, List.filterMap_append,
    ← List.append_assoc]
  congr 2
  split
  · have hne := hfirst rfl
    simp [hne]
  · rfl
  · rfl
  · rfl

theorem pathComponents_join (hxs : xs ≠ []) (h : PlainName cs) : pathComponents (String.ofList (xs ++ '/' :: cs)) =
    pathComponents (String.ofList xs) ++ [.normal (String.ofList cs)] := by
  rw [pathComponents_append hxs, List.splitOn_eq_singleton h.slash]
  simp [laterComponent_plain h]

/-- A `/` at the end adds nothing. -/
theorem pathComponents_slash (hxs : xs ≠ []) :
    pathComponents (String.ofList (xs ++ ['/'])) = pathComponents (String.ofList xs) := by
  rw [pathComponents_append hxs]
  simp [laterComponent]

/-- `trim_end_matches('/')`. -/
def trimEnd (xs : List Char) : List Char := xs.rdropWhile (· = '/')

theorem trimEnd_eq (xs : List Char) : ∃ n, xs = trimEnd xs ++ List.replicate n '/' := by
  have hsplit := List.takeWhile_append_dropWhile (p := fun c => decide (c = '/')) (l := xs.reverse)
  generalize hslashes : xs.reverse.takeWhile (fun c => decide (c = '/')) = slashes at hsplit
  have hall : ∀ c ∈ slashes, c = '/' := by
    intro c hc
    rw [← hslashes] at hc
    have htaken := List.all_takeWhile (p := fun c => decide (c = '/')) (l := xs.reverse)
    exact of_decide_eq_true (List.all_eq_true.mp htaken c hc)
  refine ⟨slashes.length, ?_⟩
  have hback := congrArg List.reverse hsplit
  rw [List.reverse_append, List.reverse_reverse, List.eq_replicate_of_mem hall, List.reverse_replicate] at hback
  exact hback.symm

theorem pathComponents_replicate (hxs : xs ≠ []) (n : Nat) :
    pathComponents (String.ofList (xs ++ List.replicate n '/')) = pathComponents (String.ofList xs) := by
  induction n with
  | zero => rw [List.replicate_zero, List.append_nil]
  | succ n ih =>
    rw [List.replicate_succ', ← List.append_assoc, pathComponents_slash, ih]
    exact List.append_ne_nil_of_left_ne_nil hxs _

theorem pathComponents_trimEnd (h : trimEnd xs ≠ []) :
    pathComponents (String.ofList xs) = pathComponents (String.ofList (trimEnd xs)) := by
  obtain ⟨n, hn⟩ := trimEnd_eq xs
  have hsame := pathComponents_replicate h n
  rw [← hn] at hsame
  exact hsame

/-- A path with a component that is a name does not consist of slashes. -/
theorem trimEnd_ne_nil (hxs : xs ≠ []) (h : ∀ component ∈ pathComponents (String.ofList xs), ∃ name, component = .normal name) :
    trimEnd xs ≠ [] := by
  intro hnil
  obtain ⟨n, hn⟩ := trimEnd_eq xs
  rw [hnil, List.nil_append] at hn
  cases n with
  | zero => exact hxs hn
  | succ n =>
    rw [hn] at h
    have hroot : Component.rootDir ∈ pathComponents (String.ofList (List.replicate (n + 1) '/')) := by
      rw [List.replicate_succ, pathComponents, String.toList_ofList,
        show '/' :: List.replicate n '/' = [] ++ '/' :: List.replicate n '/' from rfl, List.splitOn_append_cons_self]
      simp [List.splitOn_ne_nil]
    obtain ⟨name, hname⟩ := h _ hroot
    cases hname

theorem trimEnd_idem (xs : List Char) : trimEnd (trimEnd xs) = trimEnd xs := List.rdropWhile_idempotent _ _

-- ---------------------------------------------------------------------------
-- Accepted paths
-- ---------------------------------------------------------------------------

theorem mapM_normal (names : List String) : (names.map Component.normal).mapM Component.name = .ok names := by
  induction names with
  | nil => rfl
  | cons name names ih => simp [Component.name, ih, Bind.bind, Except.bind, Pure.pure, Except.pure]

theorem mapM_name_ok {components : List Component} (h : components.mapM Component.name = .ok parts) :
    components = parts.map .normal := by
  induction components generalizing parts with
  | nil =>
    obtain rfl : [] = parts := Except.ok.inj h
    rfl
  | cons component components ih =>
    rw [List.mapM_cons] at h
    cases component with
    | normal name =>
      cases hrest : components.mapM Component.name with
      | error e =>
        rw [hrest] at h
        cases h
      | ok rest =>
        rw [hrest] at h
        obtain rfl : name :: rest = parts := Except.ok.inj h
        rw [ih hrest]
        rfl
    | _ => cases h

/-- What the endpoint accepts as a path. -/
theorem components_ok {path : String} : components path = .ok parts ↔
    '\x00' ∉ path.toList ∧ path.utf8ByteSize ≤ 4096 ∧ pathComponents path = parts.map .normal := by
  unfold components
  constructor
  · intro h
    split at h
    · cases h
    · next hfit =>
      simp only [List.contains_eq_mem, gt_iff_lt, Bool.or_eq_true, decide_eq_true_eq, not_or, Nat.not_lt] at hfit
      exact ⟨hfit.1, hfit.2, mapM_name_ok h⟩
  · rintro ⟨hzero, hsize, hparts⟩
    rw [if_neg (by simp [hzero, hsize]), hparts, mapM_normal]

end

end RemoteCodex.Transfer
