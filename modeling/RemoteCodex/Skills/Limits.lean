import Mathlib.Algebra.Order.BigOperators.Group.List
import Mathlib.Algebra.Order.Ring.Nat
import RemoteCodex.Skills.Assets
import RemoteCodex.Skills.Stage

/-!
# What the server takes

The manifest of a directory is valid for the server exactly if its paths are
short and have no control characters. How long its text is follows from the
paths and sizes.
-/

namespace RemoteCodex.Skills

open Protocol (Value encodeInt)
open Transfer (Component pathComponents)
open Wire (Json.utf8 Json.escape Json.digits Json.string)

def hexDigits : List Char := "0123456789abcdef".toList

/-- What `format!("{:x}", ..)` makes of a SHA-256. -/
def Hex (text : String) : Prop := ∃ cs : List Char, text = String.ofList cs ∧ cs.length = 64 ∧ ∀ c ∈ cs, c ∈ hexDigits

theorem utf8_hexDigit {c : Char} (h : c ∈ hexDigits) :
    ∃ b, String.utf8EncodeChar c = [b] ∧ isAsciiHexdigit b = true ∧ Json.escape b = [b] := by
  have hall : hexDigits.all (fun c => (String.utf8EncodeChar c).all isAsciiHexdigit && (String.utf8EncodeChar c).length = 1 &&
      (String.utf8EncodeChar c).flatMap Json.escape = String.utf8EncodeChar c) = true := by decide
  have hc := List.all_eq_true.mp hall c h
  rw [Bool.and_eq_true, Bool.and_eq_true, decide_eq_true_eq, decide_eq_true_eq] at hc
  obtain ⟨⟨hhex, hlength⟩, hescape⟩ := hc
  obtain ⟨b, hb⟩ := List.length_eq_one_iff.mp hlength
  rw [hb] at hhex hescape
  exact ⟨b, hb, by simpa using hhex, by simpa using hescape⟩

theorem Hex.utf8 {text : String} (h : Hex text) : (Json.utf8 text).length = 64 ∧ (Json.utf8 text).all isAsciiHexdigit = true ∧
    (Json.utf8 text).flatMap Json.escape = Json.utf8 text := by
  obtain ⟨cs, rfl, hlength, hdigits⟩ := h
  rw [Wire.Json.utf8_ofList, ← hlength]
  clear hlength
  induction cs with
  | nil => exact ⟨rfl, rfl, rfl⟩
  | cons c cs ih =>
    obtain ⟨b, hb, hhex, hescape⟩ := utf8_hexDigit (hdigits c List.mem_cons_self)
    obtain ⟨hlength, hall, hplain⟩ := ih fun c hc => hdigits c (List.mem_cons_of_mem _ hc)
    rw [List.flatMap_cons, hb, List.singleton_append, List.flatMap_cons, hescape, hplain, List.length_cons, hlength,
      List.all_cons, hhex, hall]
    exact ⟨rfl, rfl, rfl⟩

-- ---------------------------------------------------------------------------
-- Validation
-- ---------------------------------------------------------------------------

variable {sha256 : List UInt8 → String} {paths : List String} {total : Nat} {file : SkillFile} {files : List SkillFile}

theorem refused_eq_false : refused paths file = false ↔ refused [] file = false ∧ file.path ∉ paths := by
  unfold refused
  simp only [Bool.or_eq_false_iff, List.contains_eq_mem, List.not_mem_nil, decide_false, decide_eq_false_iff_not,
    and_true]
  tauto

theorem validateFiles_ok (htotal : total ≤ MAX_BYTES) : validateFiles paths total files = .ok () ↔
    (∀ f ∈ files, refused [] f = false ∧ f.path ∉ paths) ∧ (files.map SkillFile.path).Nodup ∧
      total + (files.map SkillFile.size).sum ≤ MAX_BYTES := by
  induction files generalizing paths total with
  | nil => simp [validateFiles, htotal]
  | cons file files ih =>
    rw [validateFiles, List.forall_mem_cons, List.map_cons, List.map_cons, List.nodup_cons, List.sum_cons]
    split
    · next hrefused =>
      refine iff_of_false (by simp) fun h => ?_
      rw [refused_eq_false.mpr h.1.1] at hrefused
      cases hrefused
    next hfile =>
    rw [Bool.not_eq_true, refused_eq_false] at hfile
    split
    · next hlarge =>
      refine iff_of_false (by simp) fun h => ?_
      have hsum := h.2.2
      omega
    next hsize =>
    rw [ih (Nat.not_lt.mp hsize), Nat.add_assoc]
    constructor
    · rintro ⟨hfiles, hnodup, hsum⟩
      refine ⟨⟨hfile, fun f hf => ⟨(hfiles f hf).1, fun h => (hfiles f hf).2 (List.mem_cons_of_mem _ h)⟩⟩,
        ⟨fun hmem => ?_, hnodup⟩, hsum⟩
      obtain ⟨f, hf, hpath⟩ := List.mem_map.mp hmem
      exact (hfiles f hf).2 (hpath ▸ List.mem_cons_self)
    · rintro ⟨⟨-, hfiles⟩, ⟨hnew, hnodup⟩, hsum⟩
      refine ⟨fun f hf => ⟨(hfiles f hf).1, fun hmem => ?_⟩, hnodup, hsum⟩
      rcases List.mem_cons.mp hmem with hpath | hmem
      · exact hnew (hpath ▸ List.mem_map_of_mem hf)
      · exact (hfiles f hf).2 hmem

/-- A path the server takes. -/
def Takes (path : String) : Prop := path.utf8ByteSize ≤ 1024 ∧ path.toList.any Config.isControl = false

variable {a : Asset} {listed : List Asset}

theorem Asset.Placed.components (h : a.Placed) : pathComponents (joined a.names) = a.names.map .normal :=
  pathComponents_joined h.nonempty h.plain

theorem Asset.Placed.normalNames (h : a.Placed) : normalNames (joined a.names) = a.names := by
  rw [Skills.normalNames, h.components, List.filterMap_map]
  exact List.filterMap_some

theorem refused_skillFile (hsha : Hex (sha256 a.bytes)) (hplaced : a.Placed) (hsize : a.bytes.length ≤ MAX_BYTES) :
    refused [] (a.skillFile sha256) = false ↔ Takes (joined a.names) := by
  obtain ⟨hlength, hall, -⟩ := hsha.utf8
  have hempty : (joined a.names).isEmpty = false := by
    rw [Bool.eq_false_iff]
    intro hempty
    have hcomponents := hplaced.components
    rw [String.isEmpty_iff.mp hempty] at hcomponents
    exact hplaced.nonempty (List.map_eq_nil_iff.mp hcomponents.symm)
  have hnormal : (pathComponents (joined a.names)).any (fun part => !isNormal part) = false := by
    rw [hplaced.components, List.any_map, List.any_eq_false]
    exact fun n _ => by simp [isNormal]
  have hsha' : (sha256 a.bytes).utf8ByteSize = 64 := by rw [← Wire.Json.length_utf8, hlength]
  have hlarge : decide (a.bytes.length > MAX_BYTES) = false := decide_eq_false (Nat.not_lt.mpr hsize)
  simp only [refused, Asset.skillFile, Skills.skillFile, hempty, hnormal, hsha', hall, hlarge, Bool.or_eq_false_iff,
    decide_eq_false_iff_not, gt_iff_lt, not_lt, Takes]
  simp

/-- The manifest of a directory, as the server checks it. -/
theorem validate_listed (hsha : ∀ bytes, Hex (sha256 bytes)) (hplaced : ∀ a ∈ listed, a.Placed)
    (hapart : listed.Pairwise Apart) (hcount : listed.length ≤ 500)
    (hsize : (listed.map fun a => a.bytes.length).sum ≤ MAX_BYTES)
    (hskill : ∃ f ∈ listed.map (Asset.skillFile sha256), f.path = "SKILL.md") :
    validate sha256 (sha256 (toVec (listed.map (Asset.skillFile sha256)))) (listed.map (Asset.skillFile sha256)) = .ok () ↔
      ∀ a ∈ listed, Takes (joined a.names) := by
  have hnonempty : (listed.map (Asset.skillFile sha256)).isEmpty = false := by
    obtain ⟨f, hf, -⟩ := hskill
    exact List.isEmpty_eq_false_iff.mpr (List.ne_nil_of_mem hf)
  have hany : (listed.map (Asset.skillFile sha256)).any (fun f => f.path = "SKILL.md") = true := by
    obtain ⟨f, hf, hpath⟩ := hskill
    exact List.any_eq_true.mpr ⟨f, hf, decide_eq_true hpath⟩
  have hfew : decide ((listed.map (Asset.skillFile sha256)).length > 500) = false := by
    rw [List.length_map]
    exact decide_eq_false (Nat.not_lt.mpr hcount)
  have hnodup : ((listed.map (Asset.skillFile sha256)).map SkillFile.path).Nodup := by
    rw [List.map_map]
    refine List.pairwise_map.mpr (hapart.imp_of_mem fun {a b} ha hb hab hsame => hab.1 ?_)
    have hnames : a.names = b.names := joined_inj (hplaced a ha).nonempty (hplaced a ha).plain (hplaced b hb).nonempty
      (hplaced b hb).plain hsame
    exact hnames ▸ List.prefix_refl _
  have hsum : ((listed.map (Asset.skillFile sha256)).map SkillFile.size).sum ≤ MAX_BYTES := by
    rw [List.map_map]
    exact hsize
  unfold validate
  rw [hnonempty, hany, hfew]
  simp only [Bool.or_self, Bool.not_true, Bool.false_eq_true, if_false, ne_eq, not_true_eq_false]
  rw [validateFiles_ok (Nat.zero_le _), Nat.zero_add]
  simp only [hnodup, hsum, and_true, List.forall_mem_map, List.not_mem_nil, not_false_eq_true]
  refine forall₂_congr fun a ha => refused_skillFile (hsha _) (hplaced a ha) ?_
  exact (List.single_le_sum (fun _ _ => Nat.zero_le _) _ (List.mem_map_of_mem ha)).trans hsize

-- ---------------------------------------------------------------------------
-- How long a manifest is
-- ---------------------------------------------------------------------------

/-- What a file takes in a manifest. -/
def Asset.width (a : Asset) : Nat :=
  107 + (Json.string.put (joined a.names)).length + (Json.digits a.bytes.length).length + if a.mode &&& 0o111 != 0 then 4 else 5

theorem size_value (hsha : Hex (sha256 a.bytes)) : (a.skillFile sha256).value.size = a.width := by
  obtain ⟨hlength, -, hplain⟩ := hsha.utf8
  have hpath : (Json.string.put "path").length = 6 := by decide
  have hsize : (Json.string.put "size").length = 6 := by decide
  have hsha256 : (Json.string.put "sha256").length = 8 := by decide
  have hexecutable : (Json.string.put "executable").length = 12 := by decide
  have htext : (Json.string.put (sha256 a.bytes)).length = 66 := by rw [Wire.Json.length_string, hplain, hlength]
  have hbool : ∀ b : Bool, (Value.bool b).size = if b then 4 else 5 := by decide
  have hint : ∀ n : Nat, (Value.int n).size = (Json.digits n).length := fun _ => rfl
  have hstring : ∀ s : String, (Value.string s).size = (Json.string.put s).length := fun _ => rfl
  rw [SkillFile.value, Protocol.size_object]
  simp only [Asset.skillFile, Skills.skillFile, List.map_cons, List.map_nil, List.sum_cons, List.sum_nil, hpath, hsize,
    hsha256, hexecutable, htext, hbool, hint, hstring, Asset.width]
  omega

theorem length_toVec (hsha : ∀ bytes, Hex (sha256 bytes)) (hne : listed ≠ []) :
    (toVec (listed.map (Asset.skillFile sha256))).length = (listed.map fun a => a.width + 1).sum + 1 := by
  cases listed with
  | nil => exact absurd rfl hne
  | cons a rest =>
    have hrest : ((rest.map (Asset.skillFile sha256)).map SkillFile.value).map (fun item => item.size + 1) =
        rest.map fun a => a.width + 1 := by
      rw [List.map_map, List.map_map]
      exact List.map_congr_left fun a _ => congrArg (· + 1) (size_value (hsha _))
    show (Value.array _).size = _
    rw [List.map_cons, List.map_cons, Protocol.size_array, size_value (hsha _), hrest, List.map_cons, List.sum_cons]
    omega

/-- What both sides of the server take. -/
structure Within (listed : List Asset) : Prop where
  paths : ∀ a ∈ listed, Takes (joined a.names)
  text : (listed.map fun a => a.width + 1).sum + 1 ≤ 256 * 1024

theorem Within.perm {other : List Asset} (h : Within listed) (hperm : listed.Perm other) : Within other where
  paths a ha := h.paths a (hperm.mem_iff.mpr ha)
  text := (hperm.map fun a => a.width + 1).sum_nat ▸ h.text

end RemoteCodex.Skills
