import RemoteCodex.Transfer.Protocol

/-!
# JSON values

The values the parties exchange, and the ways the source looks into them. The
fields of an object are ordered by name, each name once. A number that is not
an integer of 64 bits is kept as it is printed.
-/

namespace RemoteCodex.Protocol

/-- The protocol's fault record, which the transfer endpoint shares. -/
abbrev Fault := Transfer.Fault

inductive Value
  | null
  | bool (b : Bool)
  | int (n : Int)
  | float (text : String)
  | string (text : String)
  | array (items : List Value)
  | object (fields : List (String × Value))
  deriving Inhabited

namespace Value

def get (v : Value) (key : String) : Option Value :=
  match v with
  | object fields => fields.lookup key
  | _ => none

/-- `v[key]`: what is missing reads as null. -/
def index (v : Value) (key : String) : Value := (v.get key).getD null

/-- The names the source follows are no numbers, so an array has nothing under them. -/
def pointer (v : Value) : List String → Option Value
  | [] => some v
  | key :: rest => (v.get key).bind fun w => w.pointer rest

def asStr : Value → Option String
  | string text => some text
  | _ => none

def asArray : Value → Option (List Value)
  | array items => some items
  | _ => none

def asI64 : Value → Option Int
  | int n => if n < 9223372036854775808 then some n else none
  | _ => none

def isNull : Value → Bool
  | null => true
  | _ => false

/-- The strings of an array of strings. -/
def asStrings (v : Value) : Option (List String) := v.asArray.bind fun items => items.mapM asStr

/-- `fields` with `key` set, in its place in the order. -/
def setField (key : String) (v : Value) : List (String × Value) → List (String × Value)
  | [] => [(key, v)]
  | (k, w) :: rest =>
    if key < k then (key, v) :: (k, w) :: rest
    else if key = k then (key, v) :: rest
    else (k, w) :: setField key v rest

/-- `v[key] = w`, for an object. -/
def set (v : Value) (key : String) (w : Value) : Value :=
  match v with
  | object fields => object (setField key w fields)
  | _ => v

@[simp] theorem get_object (fields : List (String × Value)) (key : String) :
    (object fields).get key = fields.lookup key := rfl

theorem lookup_cons_if (k key : String) (w : Value) (fields : List (String × Value)) :
    List.lookup k ((key, w) :: fields) = if k = key then some w else fields.lookup k := by
  by_cases h : k = key
  · simp [h]
  · have hb : (k == key) = false := by simpa using h
    simp [List.lookup_cons, hb, h]

theorem lookup_setField (fields : List (String × Value)) (key k : String) (w : Value) :
    (setField key w fields).lookup k = if k = key then some w else fields.lookup k := by
  induction fields with
  | nil => rw [setField, lookup_cons_if]
  | cons field fields ih =>
    obtain ⟨name, v⟩ := field
    unfold setField
    split
    · rw [lookup_cons_if]
    · split
      · next heq =>
        rw [lookup_cons_if, lookup_cons_if, ← heq]
        split <;> rfl
      · next hne =>
        rw [lookup_cons_if, lookup_cons_if, ih]
        by_cases h : k = name
        · have : ¬ name = key := fun hn => hne hn.symm
          simp [h, this]
        · simp [h]

theorem get_set {v : Value} (h : (v.get name).isSome) (key k : String) (w : Value) :
    (v.set key w).get k = if k = key then some w else v.get k := by
  cases v with
  | object fields => exact lookup_setField fields key k w
  | _ => cases h

end Value

end RemoteCodex.Protocol
