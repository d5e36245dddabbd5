import Mathlib.Algebra.Order.Ring.Int
import RemoteCodex.Transfer.LookLaws

/-!
# Modification times

A stamp has the modification time as unsigned nanoseconds since 1970. Times
before 1970 and those from the last nanosecond that fits on all have the same
stamp.
-/

namespace RemoteCodex.Transfer

open Files Interact

def LAST_NANOSECOND : Nat := UInt64.size - 1

/-- Within the system's types. -/
structure Timed (m : Metadata) : Prop where
  earliest : -2 ^ 63 ≤ m.attr.seconds
  latest : m.attr.seconds < 2 ^ 63
  nanos : m.attr.nanos < 1000000000

def SameTime (a b : Attr) : Prop := a.seconds = b.seconds ∧ a.nanos = b.nanos

/-- Where a command finds what it applies the metadata of a `kind` to. -/
inductive Target (s : Disk) (path : String) : Kind → Path → Prop
  | file {dir : Path} {last : String} {bytes : Bytes} :
      place path = some (dir, last) → Walks s [] dir → s.file? (dir ++ [last]) = some bytes →
      Target s path .file (dir ++ [last])
  | directory {dir : Path} :
      components path = .ok dir → Walks s [] dir → s.isDirectory dir = true → Target s path .directory dir

/-- No other time has the stamp of `m`, and what the stamp is applied to gets
the permissions and the time of `m`. -/
structure Faithful (m : Metadata) : Prop where
  distinct : ∀ other, Timed other → ¬ SameTime other.attr m.attr → stampOf other ≠ stampOf m
  applied : ∀ s path p, Target s path (stampKind m) p →
    ∃ t node, (metadata path (stampOf m)).run.run machine s = (.ok (), t) ∧ t.get p = some node ∧
      node.attr.mode &&& 0o777 = m.attr.mode &&& 0o777 ∧ SameTime node.attr m.attr

/-- From 1970 on, and before the last nanosecond. -/
def Stampable (m : Metadata) : Prop :=
  0 ≤ m.attr.seconds ∧ m.attr.seconds.toNat * 1000000000 + m.attr.nanos < LAST_NANOSECOND

-- ---------------------------------------------------------------------------
-- The conversion
-- ---------------------------------------------------------------------------

section

variable {m : Metadata} {seconds : Int} {nanos : Nat}

theorem modifiedNs_of_nonneg (hs : 0 ≤ seconds) (hmax : seconds < 2 ^ 63) :
    modifiedNs seconds nanos = min (seconds.toNat * 1000000000 + nanos) LAST_NANOSECOND := by
  have hmod : seconds % (UInt64.size : Int) = seconds := Int.emod_eq_of_lt hs (by simp only [UInt64.size]; omega)
  unfold modifiedNs LAST_NANOSECOND
  rw [hmod]
  omega

/-- Before 1970 the cast to an unsigned number is so large that the product saturates. -/
theorem modifiedNs_of_neg (hs : seconds < 0) (hmin : -2 ^ 63 ≤ seconds) :
    modifiedNs seconds nanos = LAST_NANOSECOND := by
  have hmod : seconds % (UInt64.size : Int) = seconds + UInt64.size := by
    rw [← Int.add_emod_right, Int.emod_eq_of_lt]
    · simp only [UInt64.size]
      omega
    · simp only [UInt64.size]
      omega
  unfold modifiedNs LAST_NANOSECOND
  rw [hmod]
  simp only [UInt64.size]
  omega

theorem modifiedNs_lt (h : Stampable m) (hm : Timed m) :
    modifiedNs m.attr.seconds m.attr.nanos = m.attr.seconds.toNat * 1000000000 + m.attr.nanos := by
  rw [modifiedNs_of_nonneg h.1 hm.latest]
  exact Nat.min_eq_left (Nat.le_of_lt h.2)

theorem modifiedNs_last (h : ¬ Stampable m) (hm : Timed m) :
    modifiedNs m.attr.seconds m.attr.nanos = LAST_NANOSECOND := by
  rcases Int.lt_or_le m.attr.seconds 0 with hneg | hnonneg
  · exact modifiedNs_of_neg hneg hm.earliest
  · rw [modifiedNs_of_nonneg hnonneg hm.latest]
    refine Nat.min_eq_right (Nat.le_of_not_lt fun hlt => ?_)
    exact h ⟨hnonneg, hlt⟩

theorem sameTime_of_modifiedNs {other : Metadata} (h : Stampable m) (hm : Timed m) (hother : Timed other)
    (heq : (stampOf other).modifiedNs = (stampOf m).modifiedNs) : SameTime other.attr m.attr := by
  have hlt := h.2
  replace heq : modifiedNs other.attr.seconds other.attr.nanos = modifiedNs m.attr.seconds m.attr.nanos := heq
  rw [modifiedNs_lt h hm] at heq
  by_cases hs : Stampable other
  · rw [modifiedNs_lt hs hother] at heq
    obtain ⟨hpos, -⟩ := hs
    have hpos' := h.1
    have hnanos := hm.nanos
    have hnanos' := hother.nanos
    constructor
    · omega
    · omega
  · rw [modifiedNs_last hs hother] at heq
    omega

end

-- ---------------------------------------------------------------------------
-- Applying a stamp
-- ---------------------------------------------------------------------------

section

variable {G : Op → Disk → Disk → Prop} {s : Disk} {p : Path} {stamp : Stamp}

def Stamp.attr (stamp : Stamp) (a : Attr) : Attr :=
  { a with
    mode := stamp.mode &&& 0o777
    seconds := stamp.modifiedNs / 1000000000
    nanos := stamp.modifiedNs % 1000000000 }

theorem stamped_sat (hG : ∀ op a b, G op a b) {node : Node} (h : s.get p = some node) :
    Act.Sat machine G (setMetadata p stamp) s (fun _ t => t.get p = some { node with attr := stamp.attr node.attr })
      (fun _ _ => False) := by
  obtain ⟨a, body⟩ := node
  unfold setMetadata
  refine sat_exec (r := .ok ()) (t := s.put p ⟨{ a with mode := stamp.mode &&& 0o777 }, body⟩) ?_ rfl (hG _ _ _) ?_
  · simp only [exec, Disk.setAttr, h]
    rfl
  refine sat_ok ?_
  refine sat_exec (r := .ok ()) (t := (s.put p ⟨{ a with mode := stamp.mode &&& 0o777 }, body⟩).put p
    ⟨stamp.attr a, body⟩) ?_ rfl (hG _ _ _) ?_
  · simp only [exec, Disk.setAttr, Disk.get_put, if_pos, Stamp.attr]
    rfl
  refine sat_ok ?_
  refine sat_look (fun _ _ => hG _ _ _) rfl ?_
  exact .pure (by simp [Disk.get_put])

theorem metadata_sat (hG : ∀ op a b, G op a b) {path : String} (h : Target s path stamp.kind p) :
    Act.Sat machine G (metadata path stamp) s
      (fun _ t => ∃ node, t.get p = some node ∧ ∃ a, node.attr = stamp.attr a) (fun _ _ => False) := by
  have hG' : ∀ op d, G op d d := fun _ _ => hG _ _ _
  unfold metadata
  generalize hkind : stamp.kind = kind at h
  cases h with
  | @file dir last bytes hplace hwalks hfile =>
    rw [if_neg fun heq => by cases heq]
    obtain ⟨a, hget⟩ := Disk.file?_eq_some.mp hfile
    refine .bind ((parent_sat hG' path).mono (fun _ _ h => h) ?_) ?_
    · rintro _ _ ⟨rfl, hno⟩
      exact hno _ hplace hwalks
    rintro ⟨d, n⟩ _ ⟨rfl, heq, -⟩
    obtain ⟨rfl, rfl⟩ := Prod.mk.inj (Option.some.inj (hplace.symm.trans heq))
    refine .bind ((file_sat hG' _ _ ⟨rfl, rfl⟩).mono (fun _ _ h => h) ?_) ?_
    · rintro _ _ ⟨rfl, hnone⟩
      cases hnone.symm.trans hfile
    rintro _ _ ⟨rfl, -⟩
    exact (stamped_sat hG hget).mono (fun _ _ h => ⟨_, h, _, rfl⟩) fun _ _ h => h
  | directory hnames hwalks hdir =>
    rw [if_pos rfl]
    obtain ⟨a, hget⟩ := Disk.isDirectory_iff.mp hdir
    have hopen : Act.Sat machine G (openDirectory path) s (fun r t => t = s ∧ r = p) (fun _ _ => False) := by
      refine .bind (R := fun parts t => t = s ∧ parts = p) (sat_ofExcept ?_ ?_) ?_
      · intro parts heq
        rw [hnames] at heq
        exact ⟨rfl, (Except.ok.inj heq).symm⟩
      · intro e heq
        rw [hnames] at heq
        cases heq
      · rintro _ _ ⟨rfl, rfl⟩
        refine (walk_sat hG' [] _).mono ?_ ?_
        · rintro _ _ ⟨rfl, rfl, -⟩
          exact ⟨rfl, List.nil_append _⟩
        · exact fun _ _ h => h.2 hwalks
    refine .bind (hopen.mono (fun _ _ h => h) fun _ _ h => h) ?_
    rintro _ _ ⟨rfl, rfl⟩
    exact (stamped_sat hG hget).mono (fun _ _ h => ⟨_, h, _, rfl⟩) fun _ _ h => h

theorem stamp_attr_sameTime {m : Metadata} (h : Stampable m) (hm : Timed m) (a : Attr) :
    SameTime ((stampOf m).attr a) m.attr := by
  have hmod : (stampOf m).modifiedNs = _ := modifiedNs_lt h hm
  have hnanos := hm.nanos
  have hpos := h.1
  unfold Stamp.attr SameTime
  simp only [hmod]
  constructor
  · omega
  · omega

end

/-- The stamp of a time is its own exactly from 1970 to before the last
nanosecond that fits. -/
theorem faithful_iff (m : Metadata) (hm : Timed m) : Faithful m ↔ Stampable m := by
  constructor
  · intro h
    by_contra hno
    -- Some other time before 1970 has the same stamp.
    obtain ⟨seconds, hneg, hmin, hne⟩ : ∃ seconds : Int, seconds < 0 ∧ -2 ^ 63 ≤ seconds ∧ seconds ≠ m.attr.seconds := by
      by_cases heq : m.attr.seconds = -1
      · exact ⟨-2, by omega, by omega, by omega⟩
      · exact ⟨-1, by omega, by omega, fun h => heq h.symm⟩
    have hother : Timed { m with attr := { m.attr with seconds } } := ⟨hmin, by simp only; omega, hm.nanos⟩
    refine h.distinct _ hother (fun hsame => hne hsame.1) ?_
    have htime : modifiedNs seconds m.attr.nanos = LAST_NANOSECOND := modifiedNs_of_neg hneg hmin
    rw [← modifiedNs_last hno hm] at htime
    unfold stampOf
    rw [Stamp.mk.injEq]
    exact ⟨rfl, rfl, htime, rfl, rfl, rfl⟩
  · intro h
    constructor
    · intro other hother hdiff heq
      exact hdiff (sameTime_of_modifiedNs h hm hother (by rw [heq]))
    · intro s path p htarget
      have hkind : Target s path (stampOf m).kind p := htarget
      have hsat := metadata_sat (G := fun _ _ _ => True) (fun _ _ _ => trivial) hkind
      have hends := Prog.ends_run machine_rely (metadata path (stampOf m)).run s
      generalize hrun : (metadata path (stampOf m)).run.run machine s = result at hends
      obtain ⟨f | r, t⟩ := result
      · exact (hsat.fails hends).elim
      · obtain ⟨node, hget, a, hattr⟩ := hsat.ends hends
        refine ⟨t, node, rfl, hget, ?_, ?_⟩
        · rw [hattr]
          show (m.attr.mode &&& 0o777 &&& 0o777) &&& 0o777 = _
          simp only [Nat.and_assoc, Nat.and_self]
        · rw [hattr]
          exact stamp_attr_sameTime h hm a

/-- A file of the first second of 1970. -/
def someMetadata : Metadata := ⟨⟨1, 2, 0o644, 0, 5, 0⟩, true, false, 7⟩

theorem faithful_some : Timed someMetadata ∧ Faithful someMetadata :=
  have htimed : Timed someMetadata := ⟨by decide, by decide, by decide⟩
  ⟨htimed, (faithful_iff someMetadata htimed).mpr ⟨by decide, by decide⟩⟩

/-- A file that was modified a second before 1970, and the same a second earlier. -/
theorem not_faithful : stampOf ⟨⟨1, 2, 0o644, -1, 5, 0⟩, true, false, 7⟩ = stampOf ⟨⟨1, 2, 0o644, -2, 5, 0⟩, true, false, 7⟩ ∧
    ¬ Faithful ⟨⟨1, 2, 0o644, -1, 5, 0⟩, true, false, 7⟩ := by
  have hsame : stampOf ⟨⟨1, 2, 0o644, -1, 5, 0⟩, true, false, 7⟩ = stampOf ⟨⟨1, 2, 0o644, -2, 5, 0⟩, true, false, 7⟩ := by
    decide
  refine ⟨hsame, fun h => h.distinct ⟨⟨1, 2, 0o644, -2, 5, 0⟩, true, false, 7⟩ ⟨by decide, by decide, by decide⟩ ?_ hsame.symm⟩
  rintro ⟨hseconds, -⟩
  cases hseconds

end RemoteCodex.Transfer
