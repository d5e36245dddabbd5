import RemoteCodex.Files.System

/-!
# What a change leaves alone

`Same ps s t`: the trees agree outside the paths `ps`, and the same lock files
are held. Every call of the machine changes one or two paths; a change that is
known to stay within some paths is enough for most of what a program built
from such calls is asked.
-/

namespace RemoteCodex.Files

structure Same (ps : List Path) (s t : Disk) : Prop where
  held : t.held = s.held
  get : ∀ q, q ∉ ps → t.get q = s.get q

namespace Same

theorem refl (ps : List Path) (s : Disk) : Same ps s s := ⟨rfl, fun _ _ => rfl⟩

theorem mono (h : Same ps s t) (hsub : ps ⊆ qs) : Same qs s t :=
  ⟨h.held, fun q hq => h.get q fun hp => hq (hsub hp)⟩

theorem trans (h : Same ps s t) (h' : Same ps t u) : Same ps s u :=
  ⟨h'.held.trans h.held, fun q hq => (h'.get q hq).trans (h.get q hq)⟩

theorem symm (h : Same ps s t) : Same ps t s :=
  ⟨h.held.symm, fun q hq => (h.get q hq).symm⟩

theorem isDirectory (h : Same ps s t) (hq : q ∉ ps) : t.isDirectory q = s.isDirectory q := by
  rw [Disk.isDirectory, h.get q hq, Disk.isDirectory]

theorem file? (h : Same ps s t) (hq : q ∉ ps) : t.file? q = s.file? q := by
  rw [Disk.file?, h.get q hq, Disk.file?]

end Same

section Calls

variable (d : Disk) (p : Path)

theorem same_put (n : Node) : Same [p] d (d.put p n) :=
  ⟨rfl, fun q hq => by rw [d.get_put, if_neg (by simpa using hq)]⟩

theorem same_remove : Same [p] d (d.remove p) :=
  ⟨rfl, fun q hq => by rw [d.get_remove, if_neg (by simpa using hq)]⟩

theorem same_create (mode : Nat) (body : Body) : Same [p] d (d.create p mode body) :=
  ⟨rfl, fun q hq => by rw [d.get_create, if_neg (by simpa using hq)]⟩

theorem same_openFile (flags : Flags) : Same [p] d (d.openFile p flags).2 := by
  unfold Disk.openFile
  split
  · split
    · exact same_create d p _ _
    · exact .refl _ _
  · split
    · split
      · exact same_put d p _
      · exact .refl _ _
    · split <;> exact .refl _ _
    · exact .refl _ _
    · exact .refl _ _

theorem same_setAttr (f : Attr → Attr) : Same [p] d (d.setAttr p f).2 := by
  unfold Disk.setAttr
  split
  · exact .refl _ _
  · exact same_put d p _

theorem same_modify (f : Bytes → Bytes) : Same [p] d (d.modify p f).2 := by
  unfold Disk.modify
  split
  · exact same_put d p _
  · exact .refl _ _

theorem same_move (q : Path) (n : Node) : Same [p, q] d ((d.remove p).put q n) :=
  ((same_remove d p).mono (by simp)).trans ((same_put _ q n).mono (by simp))

end Calls

-- ---------------------------------------------------------------------------
-- Kinds of nodes
-- ---------------------------------------------------------------------------

namespace Disk

theorem isDirectory_iff {d : Disk} {p : Path} :
    d.isDirectory p = true ↔ ∃ a, d.get p = some ⟨a, .directory⟩ := by
  unfold isDirectory Node.isDirectory
  cases h : d.get p with
  | none => simp
  | some n =>
    obtain ⟨a, body⟩ := n
    cases body <;> simp

theorem isDirectory_of_file {d : Disk} {p : Path} (h : d.file? p = some b) :
    d.isDirectory p = false := by
  obtain ⟨a, h⟩ := file?_eq_some.mp h
  simp [isDirectory, Node.isDirectory, h]

theorem file?_none {d : Disk} {p : Path} (h : d.get p = none) : d.file? p = none := by
  simp [file?, h]

theorem file?_put (d : Disk) (p : Path) (a : Attr) (b : Bytes) :
    (d.put p ⟨a, .file b⟩).file? p = some b := by
  rw [file?_eq_some]
  exact ⟨a, by simp [get_put]⟩

/-- A regular file, or nothing: what a file can be opened or made at. -/
def free (d : Disk) (p : Path) : Bool := (d.get p).all (·.isFile)

theorem free_of_none {d : Disk} {p : Path} (h : d.get p = none) : d.free p = true := by
  simp [free, h]

theorem free_of_file {d : Disk} {p : Path} (h : d.file? p = some b) : d.free p = true := by
  obtain ⟨a, h⟩ := file?_eq_some.mp h
  simp [free, Node.isFile, h]

theorem free_iff {d : Disk} {p : Path} :
    d.free p = true ↔ d.get p = none ∨ ∃ b, d.file? p = some b := by
  constructor
  · intro h
    cases hg : d.get p with
    | none => exact .inl rfl
    | some n =>
      obtain ⟨a, body⟩ := n
      cases body with
      | file b => exact .inr ⟨b, file?_eq_some.mpr ⟨a, hg⟩⟩
      | _ => simp [free, Node.isFile, hg] at h
  · rintro (h | ⟨b, h⟩)
    · exact free_of_none h
    · exact free_of_file h

end Disk

/-- Opening a file that may be made: either it is there afterwards, or nothing changed. -/
theorem openFile_create {d : Disk} {p : Path} {flags : Flags} (hc : flags.create = true)
    (hd : d.isDirectory p.dropLast = true) :
    (d.free p = true ∧ ∃ t x, d.openFile p flags = (.ok true, t) ∧ t.file? p = some x ∧
      (flags.truncate = true → x = []) ∧ (flags.truncate = false → t = d ∨ d.get p = none)) ∨
    (d.free p = false ∧ ∃ r, d.openFile p flags = (r, d) ∧ r ≠ .ok true) := by
  cases hn : d.get p with
  | none =>
    refine .inl ⟨Disk.free_of_none hn, d.create p 0o600 (.file []), [], ?_, ?_, fun _ => rfl, fun _ => .inr rfl⟩
    · simp [Disk.openFile, hn, hc, hd]
    · exact Disk.file?_eq_some.mpr ⟨_, by rw [Disk.get_create, if_pos rfl]⟩
  | some node =>
    obtain ⟨a, body⟩ := node
    cases body with
    | file b =>
      have hb : d.file? p = some b := Disk.file?_eq_some.mpr ⟨a, hn⟩
      refine .inl ⟨Disk.free_of_file hb, ?_⟩
      cases ht : flags.truncate with
      | true => exact ⟨d.store p ⟨a, .file b⟩ [], [], by simp [Disk.openFile, hn, ht],
          Disk.file?_put _ _ _ _, fun _ => rfl, by simp⟩
      | false => exact ⟨d, b, by simp [Disk.openFile, hn, ht], hb, by simp, fun _ => .inl rfl⟩
    | directory =>
      refine .inr ⟨by simp [Disk.free, Node.isFile, hn], ?_⟩
      cases hw : flags.write with
      | true => exact ⟨.error .isDirectory, by simp [Disk.openFile, hn, hw], by simp⟩
      | false => exact ⟨.ok false, by simp [Disk.openFile, hn, hw], by simp⟩
    | symlink => exact .inr ⟨by simp [Disk.free, Node.isFile, hn], .error .loop,
        by simp [Disk.openFile, hn], by simp⟩
    | special => exact .inr ⟨by simp [Disk.free, Node.isFile, hn], .ok false,
        by simp [Disk.openFile, hn], by simp⟩

theorem Same.free (h : Same ps s t) (hq : q ∉ ps) : t.free q = s.free q := by
  rw [Disk.free, h.get q hq, Disk.free]

end RemoteCodex.Files
