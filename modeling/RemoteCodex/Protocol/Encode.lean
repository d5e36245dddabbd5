import Mathlib.Algebra.Order.Ring.Int
import RemoteCodex.Protocol.Value
import RemoteCodex.Wire.Json

/-!
# The text of a JSON value

What the compact printer writes for a value, in bytes.
-/

namespace RemoteCodex.Protocol

open Wire

def encodeInt : Int → List UInt8
  | .ofNat n => Json.digits n
  | .negSucc n => Json.ascii "-" ++ Json.digits (n + 1)

mutual
def Value.encode : Value → List UInt8
  | .null => Json.ascii "null"
  | .bool true => Json.ascii "true"
  | .bool false => Json.ascii "false"
  | .int n => encodeInt n
  | .float text => Json.utf8 text
  | .string text => Json.string.put text
  | .array items => Json.ascii "[" ++ encodeItems items ++ Json.ascii "]"
  | .object fields => Json.ascii "\x7b" ++ encodeFields fields ++ Json.ascii "\x7d"

/-- The items with a comma between any two of them. -/
def encodeItems : List Value → List UInt8
  | [] => []
  | item :: items => item.encode ++ encodeMoreItems items

def encodeMoreItems : List Value → List UInt8
  | [] => []
  | item :: items => Json.ascii "," ++ item.encode ++ encodeMoreItems items

def encodeFields : List (String × Value) → List UInt8
  | [] => []
  | (name, v) :: fields => Json.string.put name ++ Json.ascii ":" ++ v.encode ++ encodeMoreFields fields

def encodeMoreFields : List (String × Value) → List UInt8
  | [] => []
  | (name, v) :: fields =>
    Json.ascii "," ++ Json.string.put name ++ Json.ascii ":" ++ v.encode ++ encodeMoreFields fields
end

/-- How many bytes the text of a value takes. -/
def Value.size (v : Value) : Nat := v.encode.length

theorem length_encodeMoreItems (items : List Value) :
    (encodeMoreItems items).length = (items.map fun item => item.size + 1).sum := by
  induction items with
  | nil => rfl
  | cons item items ih =>
    have hcomma : (Json.ascii ",").length = 1 := rfl
    rw [encodeMoreItems, List.length_append, List.length_append, hcomma, ih, List.map_cons, List.sum_cons, Value.size]
    omega

theorem size_array (item : Value) (items : List Value) :
    (Value.array (item :: items)).size = item.size + (items.map fun item => item.size + 1).sum + 2 := by
  have hopen : (Json.ascii "[").length = 1 := rfl
  have hclose : (Json.ascii "]").length = 1 := rfl
  rw [Value.size, Value.encode, List.length_append, List.length_append, hopen, hclose, encodeItems,
    List.length_append, length_encodeMoreItems, ← Value.size]
  omega

theorem length_encodeMoreFields (fields : List (String × Value)) :
    (encodeMoreFields fields).length =
      (fields.map fun field => (Json.string.put field.1).length + field.2.size + 2).sum := by
  induction fields with
  | nil => rfl
  | cons field fields ih =>
    obtain ⟨name, v⟩ := field
    have hcomma : (Json.ascii ",").length = 1 := rfl
    have hcolon : (Json.ascii ":").length = 1 := rfl
    simp only [encodeMoreFields, List.length_append, hcomma, hcolon, ih, List.map_cons, List.sum_cons, Value.size]
    omega

/-- An object takes its braces, and for each field its name, its value, a colon
and, but for the first, a comma. -/
theorem size_object (field : String × Value) (fields : List (String × Value)) :
    (Value.object (field :: fields)).size =
      ((field :: fields).map fun field => (Json.string.put field.1).length + field.2.size + 2).sum + 1 := by
  obtain ⟨name, v⟩ := field
  have hopen : (Json.ascii "\x7b").length = 1 := rfl
  have hclose : (Json.ascii "\x7d").length = 1 := rfl
  have hcolon : (Json.ascii ":").length = 1 := rfl
  rw [Value.size, Value.encode, List.length_append, List.length_append, hopen, hclose]
  simp only [encodeFields, List.length_append, hcolon, length_encodeMoreFields, List.map_cons, List.sum_cons,
    Value.size]
  omega

/-- A text of `n` letters. -/
def letters (n : Nat) : String := String.ofList (List.replicate n 'a')

theorem length_put_letters (n : Nat) : (Json.string.put (letters n)).length = n + 2 := by
  have hletters : ∀ n, ((List.replicate n 'a').flatMap String.utf8EncodeChar).flatMap Json.escape =
      List.replicate n 97 := by
    intro n
    induction n with
    | zero => rfl
    | succ n ih =>
      rw [List.replicate_succ, List.flatMap_cons, List.flatMap_append, ih]
      rfl
  rw [letters, Json.length_string, Json.utf8_ofList, hletters, List.length_replicate]

end RemoteCodex.Protocol
