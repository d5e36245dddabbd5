import Mathlib.Data.List.TakeWhile
import RemoteCodex.Wire.Code

/-!
# The texts of JSON values

Numbers, strings and constants as a compact printer writes them, in bytes. A
string is quoted; of its bytes the quote, the backslash and the control
characters are escaped, and the others stand as they are.
-/

namespace RemoteCodex.Wire.Json

def ascii (text : String) : List UInt8 := text.toList.map fun c => UInt8.ofNat c.toNat

-- ---------------------------------------------------------------------------
-- Numbers
-- ---------------------------------------------------------------------------

def isDigit (b : UInt8) : Bool := 48 ≤ b && b ≤ 57

def digits (n : Nat) : List UInt8 := (Nat.toDigits 10 n).map fun c => UInt8.ofNat c.toNat

def value (ds : List UInt8) : Nat := Nat.ofDigitChars 10 (ds.map fun b => Char.ofNat b.toNat) 0

theorem toNat_of_isDigit {c : Char} (h : c.isDigit = true) : 48 ≤ c.toNat ∧ c.toNat ≤ 57 := by
  simpa [Char.isDigit, UInt32.le_iff_toNat_le] using h

theorem isDigit_of_mem_digits (h : b ∈ digits n) : isDigit b = true := by
  obtain ⟨c, hc, rfl⟩ := List.mem_map.mp h
  have hd := toNat_of_isDigit (Nat.isDigit_of_mem_toDigits (by decide) (by decide) hc)
  have hn : (UInt8.ofNat c.toNat).toNat = c.toNat := by simp; omega
  simp only [isDigit, Bool.and_eq_true, decide_eq_true_eq, UInt8.le_iff_toNat_le, hn]
  exact hd

theorem value_digits (n : Nat) : value (digits n) = n := by
  have hback : (digits n).map (fun b => Char.ofNat b.toNat) = Nat.toDigits 10 n := by
    rw [digits, List.map_map]
    conv_rhs => rw [← List.map_id (Nat.toDigits 10 n)]
    refine List.map_congr_left fun c hc => ?_
    have hd := toNat_of_isDigit (Nat.isDigit_of_mem_toDigits (by decide) (by decide) hc)
    have hn : (UInt8.ofNat c.toNat).toNat = c.toNat := by simp; omega
    rw [Function.comp_apply, hn, Char.ofNat_toNat, id]
  rw [value, hback, Nat.ofDigitChars_ten_toDigits]

/-- A number and the byte it ends at. -/
def number (stop : UInt8) (h : isDigit stop = false) : Code UInt8 Nat where
  put n := digits n ++ [stop]
  take input :=
    match input.dropWhile isDigit with
    | [] => none
    | b :: rest => if b = stop then some (value (input.takeWhile isDigit), rest) else none
  take_put n rest := by
    have hall : ∀ b ∈ digits n, isDigit b = true := fun b => isDigit_of_mem_digits
    have hdrop : (digits n ++ [stop] ++ rest).dropWhile isDigit = stop :: rest := by
      rw [List.append_assoc, List.dropWhile_append_of_pos hall]
      simp [h]
    have htake : (digits n ++ [stop] ++ rest).takeWhile isDigit = digits n := by
      rw [List.append_assoc, List.takeWhile_append_of_pos hall]
      simp [h]
    simp only [hdrop, htake, value_digits, ↓reduceIte]

-- ---------------------------------------------------------------------------
-- Strings
-- ---------------------------------------------------------------------------

def hex (n : Nat) : UInt8 := UInt8.ofNat (if n < 10 then 48 + n else 87 + n)

def unhex (b : UInt8) : Nat := if b ≤ 57 then b.toNat - 48 else b.toNat - 87

/-- The short escapes, by the letter behind the backslash. -/
def short : List (UInt8 × UInt8) :=
  [(34, 34), (92, 92), (8, 98), (9, 116), (10, 110), (12, 102), (13, 114)]

def escape (b : UInt8) : List UInt8 :=
  match short.lookup b with
  | some letter => [92, letter]
  | none => if b < 32 then [92, 117, 48, 48, hex (b.toNat / 16), hex (b.toNat % 16)] else [b]

def unescape (letter : UInt8) : Option UInt8 :=
  (short.find? fun x => x.2 == letter).map Prod.fst

/-- The bytes up to the closing quote, and the rest. -/
def unquote : List UInt8 → Option (List UInt8 × List UInt8)
  | 34 :: rest => some ([], rest)
  | 92 :: 117 :: 48 :: 48 :: h :: l :: rest =>
    (unquote rest).map fun (bytes, rest) => (UInt8.ofNat (unhex h * 16 + unhex l) :: bytes, rest)
  | 92 :: letter :: rest =>
    match unescape letter with
    | some b => (unquote rest).map fun (bytes, rest) => (b :: bytes, rest)
    | none => none
  | b :: rest => (unquote rest).map fun (bytes, rest) => (b :: bytes, rest)
  | [] => none

theorem unquote_escape (b : UInt8) (rest : List UInt8) :
    unquote (escape b ++ rest) = (unquote rest).map fun (bytes, rest) => (b :: bytes, rest) := by
  unfold escape
  cases hs : short.lookup b with
  | some letter =>
    have hb : b = 34 ∨ b = 92 ∨ b = 8 ∨ b = 9 ∨ b = 10 ∨ b = 12 ∨ b = 13 := by
      simp only [short, List.lookup_cons] at hs
      grind
    obtain rfl | rfl | rfl | rfl | rfl | rfl | rfl := hb
    all_goals
      obtain rfl := Option.some.inj hs
      rfl
  | none =>
    simp only
    split
    · next hlt =>
      have hback : ∀ n < 32, UInt8.ofNat (unhex (hex (n / 16)) * 16 + unhex (hex (n % 16))) = UInt8.ofNat n := by
        decide
      have := hback b.toNat (by simpa using UInt8.lt_iff_toNat_lt.mp hlt)
      simp only [List.cons_append, List.nil_append, unquote, this, UInt8.ofNat_toNat]
    · have hne : b ≠ 34 ∧ b ≠ 92 := by
        constructor <;> rintro rfl <;> cases hs
      rw [List.singleton_append, unquote]
      · exact hne.1
      · exact fun _ _ _ h _ => hne.2 h
      · exact fun _ _ h _ => hne.2 h

theorem unquote_quote (bytes rest : List UInt8) :
    unquote (bytes.flatMap escape ++ 34 :: rest) = some (bytes, rest) := by
  induction bytes with
  | nil => simp [unquote]
  | cons b bytes ih => rw [List.flatMap_cons, List.append_assoc, unquote_escape, ih]; rfl

def utf8 (s : String) : List UInt8 := s.toByteArray.data.toList

theorem utf8_ofList (cs : List Char) : utf8 (String.ofList cs) = cs.flatMap String.utf8EncodeChar := by
  simp [utf8, List.utf8Encode]

theorem length_utf8 (s : String) : (utf8 s).length = s.utf8ByteSize := by simp [utf8]

def ofUtf8 (bytes : List UInt8) : Option String := String.fromUTF8? ⟨bytes.toArray⟩

theorem ofUtf8_utf8 (s : String) : ofUtf8 (utf8 s) = some s := by
  have h : (⟨(utf8 s).toArray⟩ : ByteArray) = s.toByteArray := by simp [utf8]
  rw [ofUtf8, h, String.fromUTF8?, dif_pos s.isValidUTF8]
  rfl

def string : Code UInt8 String where
  put s := 34 :: ((utf8 s).flatMap escape ++ [34])
  take
    | 34 :: input => (unquote input).bind fun (bytes, rest) => (ofUtf8 bytes).map fun s => (s, rest)
    | _ => none
  take_put s rest := by
    have h := unquote_quote (utf8 s) rest
    simp [h, ofUtf8_utf8]

theorem length_string (s : String) : (string.put s).length = ((utf8 s).flatMap escape).length + 2 := by
  simp [string]

end RemoteCodex.Wire.Json
