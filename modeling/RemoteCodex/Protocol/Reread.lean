import RemoteCodex.Protocol.Value

/-!
# Values that are printed and read again

The crate reads back what it has printed, but for a number that is no integer:
that one may come back as its neighbour.
-/

namespace RemoteCodex.Protocol

mutual
/-- `v` with `f` for the numbers that are no integers. -/
def Value.reread (f : String → String) : Value → Value
  | .float text => .float (f text)
  | .array items => .array (rereadItems f items)
  | .object fields => .object (rereadFields f fields)
  | .null => .null
  | .bool b => .bool b
  | .int n => .int n
  | .string text => .string text

def rereadItems (f : String → String) : List Value → List Value
  | [] => []
  | item :: items => item.reread f :: rereadItems f items

def rereadFields (f : String → String) : List (String × Value) → List (String × Value)
  | [] => []
  | (name, v) :: fields => (name, v.reread f) :: rereadFields f fields
end

mutual
/-- The values there are: each name of an object once, in order, and numbers as they are printed. -/
def Value.Proper (isFloat : String → Prop) : Value → Prop
  | .int n => -9223372036854775808 ≤ n ∧ n < 18446744073709551616
  | .float text => isFloat text
  | .array items => ProperItems isFloat items
  | .object fields => (fields.map Prod.fst).Pairwise (· < ·) ∧ ProperFields isFloat fields
  | .null => True
  | .bool _ => True
  | .string _ => True

def ProperItems (isFloat : String → Prop) : List Value → Prop
  | [] => True
  | item :: items => item.Proper isFloat ∧ ProperItems isFloat items

def ProperFields (isFloat : String → Prop) : List (String × Value) → Prop
  | [] => True
  | (_, v) :: fields => v.Proper isFloat ∧ ProperFields isFloat fields
end

/-- What the crate makes of the values it has printed. -/
structure JsonText (print : Value → String) (parse : String → Option Value) (isFloat : String → Prop) (f : String → String) :
    Prop where
  read : ∀ v : Value, v.Proper isFloat → parse (print v) = some (v.reread f)
  float : ∀ text, isFloat text → isFloat (f text)

variable {f g : String → String} {isFloat : String → Prop}

mutual
theorem reread_reread (v : Value) : (v.reread g).reread f = v.reread fun text => f (g text) := by
  match v with
  | .array items => simp only [Value.reread, rereadItems_reread items]
  | .object fields => simp only [Value.reread, rereadFields_reread fields]
  | .null | .bool _ | .int _ | .string _ | .float _ => rfl

theorem rereadItems_reread (items : List Value) :
    rereadItems f (rereadItems g items) = rereadItems (fun text => f (g text)) items := by
  match items with
  | [] => rfl
  | item :: items => simp only [rereadItems, reread_reread item, rereadItems_reread items]

theorem rereadFields_reread (fields : List (String × Value)) :
    rereadFields f (rereadFields g fields) = rereadFields (fun text => f (g text)) fields := by
  match fields with
  | [] => rfl
  | (_, v) :: fields => simp only [rereadFields, reread_reread v, rereadFields_reread fields]
end

mutual
theorem reread_id (v : Value) : (v.reread fun text => text) = v := by
  match v with
  | .array items => simp only [Value.reread, rereadItems_id items]
  | .object fields => simp only [Value.reread, rereadFields_id fields]
  | .null | .bool _ | .int _ | .string _ | .float _ => rfl

theorem rereadItems_id (items : List Value) : rereadItems (fun text => text) items = items := by
  match items with
  | [] => rfl
  | item :: items => simp only [rereadItems, reread_id item, rereadItems_id items]

theorem rereadFields_id (fields : List (String × Value)) : rereadFields (fun text => text) fields = fields := by
  match fields with
  | [] => rfl
  | (_, v) :: fields => simp only [rereadFields, reread_id v, rereadFields_id fields]
end

theorem names_reread (fields : List (String × Value)) : (rereadFields f fields).map Prod.fst = fields.map Prod.fst := by
  induction fields with
  | nil => rfl
  | cons field fields ih => rw [rereadFields, List.map_cons, List.map_cons, ih]

mutual
theorem Value.Proper.reread (hf : ∀ text, isFloat text → isFloat (f text)) (v : Value) (h : v.Proper isFloat) :
    (v.reread f).Proper isFloat := by
  match v with
  | .float text => exact hf text h
  | .array items => exact ProperItems.reread hf items h
  | .object fields =>
    obtain ⟨hnames, hfields⟩ := h
    refine ⟨?_, ProperFields.reread hf fields hfields⟩
    rw [names_reread]
    exact hnames
  | .null | .bool _ | .int _ | .string _ => exact h

theorem ProperItems.reread (hf : ∀ text, isFloat text → isFloat (f text)) (items : List Value)
    (h : ProperItems isFloat items) : ProperItems isFloat (rereadItems f items) := by
  match items with
  | [] => trivial
  | item :: items => exact ⟨Value.Proper.reread hf item h.1, ProperItems.reread hf items h.2⟩

theorem ProperFields.reread (hf : ∀ text, isFloat text → isFloat (f text)) (fields : List (String × Value))
    (h : ProperFields isFloat fields) : ProperFields isFloat (rereadFields f fields) := by
  match fields with
  | [] => trivial
  | (_, v) :: fields => exact ⟨Value.Proper.reread hf v h.1, ProperFields.reread hf fields h.2⟩
end

namespace Value

theorem get_reread (v : Value) (key : String) : (v.reread f).get key = (v.get key).map (reread f) := by
  cases v with
  | object fields =>
    show (rereadFields f fields).lookup key = (fields.lookup key).map (reread f)
    induction fields with
    | nil => rfl
    | cons field fields ih =>
      rw [rereadFields, lookup_cons_if, lookup_cons_if, ih]
      split <;> rfl
  | _ => rfl

theorem index_reread (v : Value) (key : String) : (v.reread f).index key = (v.index key).reread f := by
  rw [index, get_reread, index]
  cases v.get key <;> rfl

@[simp] theorem asStr_reread (v : Value) : (v.reread f).asStr = v.asStr := by cases v <;> rfl

@[simp] theorem asI64_reread (v : Value) : (v.reread f).asI64 = v.asI64 := by cases v <;> rfl

end Value

-- ---------------------------------------------------------------------------
-- A text for each value
-- ---------------------------------------------------------------------------

def spellNat (n : Nat) : List Char := List.replicate n 'x' ++ ['.']

def spellText (text : String) : List Char := spellNat text.toList.length ++ text.toList

mutual
/-- A text that no other value has, nor begins with. -/
def Value.spell : Value → List Char
  | .null => ['n']
  | .bool b => ['b', if b then 't' else 'f']
  | .int n => 'i' :: (spellNat n.toNat ++ spellNat (-n).toNat)
  | .float text => 'd' :: spellText text
  | .string text => 's' :: spellText text
  | .array items => 'a' :: spellItems items
  | .object fields => 'o' :: spellFields fields

def spellItems : List Value → List Char
  | [] => [']']
  | item :: items => ',' :: (item.spell ++ spellItems items)

def spellFields : List (String × Value) → List Char
  | [] => [']']
  | (name, v) :: fields => ',' :: (spellText name ++ (v.spell ++ spellFields fields))
end

theorem spellNat_inj {n m : Nat} {r s : List Char} (h : spellNat n ++ r = spellNat m ++ s) : n = m ∧ r = s := by
  induction n generalizing m with
  | zero =>
    cases m with
    | zero => exact ⟨rfl, by simpa [spellNat] using h⟩
    | succ m => simp [spellNat, List.replicate_succ] at h
  | succ n ih =>
    cases m with
    | zero => simp [spellNat, List.replicate_succ] at h
    | succ m =>
      have hrest : spellNat n ++ r = spellNat m ++ s := by simpa [spellNat, List.replicate_succ] using h
      obtain ⟨rfl, hrs⟩ := ih hrest
      exact ⟨rfl, hrs⟩

theorem spellText_inj {a b : String} {r s : List Char} (h : spellText a ++ r = spellText b ++ s) : a = b ∧ r = s := by
  rw [spellText, spellText, List.append_assoc, List.append_assoc] at h
  obtain ⟨hlength, hrest⟩ := spellNat_inj h
  obtain ⟨htext, hrs⟩ := List.append_inj hrest hlength
  exact ⟨String.toList_inj.mp htext, hrs⟩

mutual
theorem Value.spell_inj (v w : Value) {r s : List Char} (h : v.spell ++ r = w.spell ++ s) : v = w ∧ r = s := by
  match v with
  | .null => cases w <;> simp_all [Value.spell]
  | .bool b =>
    cases w with
    | bool c => cases b <;> cases c <;> simp_all [Value.spell]
    | _ => simp [Value.spell] at h
  | .int n =>
    cases w with
    | int m =>
      simp only [Value.spell, List.cons_append, List.append_assoc, List.cons.injEq, true_and] at h
      obtain ⟨hpos, hrest⟩ := spellNat_inj h
      obtain ⟨hneg, hrs⟩ := spellNat_inj hrest
      exact ⟨congrArg _ (by omega), hrs⟩
    | _ => simp [Value.spell] at h
  | .float text =>
    cases w with
    | float text' =>
      obtain ⟨rfl, hrs⟩ := spellText_inj (by simpa only [Value.spell, List.cons_append, List.cons.injEq, true_and] using h)
      exact ⟨rfl, hrs⟩
    | _ => simp [Value.spell] at h
  | .string text =>
    cases w with
    | string text' =>
      obtain ⟨rfl, hrs⟩ := spellText_inj (by simpa only [Value.spell, List.cons_append, List.cons.injEq, true_and] using h)
      exact ⟨rfl, hrs⟩
    | _ => simp [Value.spell] at h
  | .array items =>
    cases w with
    | array items' =>
      obtain ⟨rfl, hrs⟩ := spellItems_inj items items'
        (by simpa only [Value.spell, List.cons_append, List.cons.injEq, true_and] using h)
      exact ⟨rfl, hrs⟩
    | _ => simp [Value.spell] at h
  | .object fields =>
    cases w with
    | object fields' =>
      obtain ⟨rfl, hrs⟩ := spellFields_inj fields fields'
        (by simpa only [Value.spell, List.cons_append, List.cons.injEq, true_and] using h)
      exact ⟨rfl, hrs⟩
    | _ => simp [Value.spell] at h

theorem spellItems_inj (items items' : List Value) {r s : List Char} (h : spellItems items ++ r = spellItems items' ++ s) :
    items = items' ∧ r = s := by
  match items, items' with
  | [], [] => exact ⟨rfl, by simpa [spellItems] using h⟩
  | [], _ :: _ => simp [spellItems] at h
  | _ :: _, [] => simp [spellItems] at h
  | item :: items, item' :: items' =>
    simp only [spellItems, List.cons_append, List.append_assoc, List.cons.injEq, true_and] at h
    obtain ⟨rfl, hrest⟩ := Value.spell_inj item item' h
    obtain ⟨rfl, hrs⟩ := spellItems_inj items items' hrest
    exact ⟨rfl, hrs⟩

theorem spellFields_inj (fields fields' : List (String × Value)) {r s : List Char}
    (h : spellFields fields ++ r = spellFields fields' ++ s) : fields = fields' ∧ r = s := by
  match fields, fields' with
  | [], [] => exact ⟨rfl, by simpa [spellFields] using h⟩
  | [], _ :: _ => simp [spellFields] at h
  | _ :: _, [] => simp [spellFields] at h
  | (name, v) :: fields, (name', v') :: fields' =>
    simp only [spellFields, List.cons_append, List.append_assoc, List.cons.injEq, true_and] at h
    obtain ⟨rfl, hrest⟩ := spellText_inj h
    obtain ⟨rfl, hmore⟩ := Value.spell_inj v v' hrest
    obtain ⟨rfl, hrs⟩ := spellFields_inj fields fields' hmore
    exact ⟨rfl, hrs⟩
end

def Value.print (v : Value) : String := String.ofList v.spell

open Classical in
/-- The value with this text. -/
noncomputable def Value.parse (text : String) : Option Value :=
  if h : ∃ v : Value, v.print = text then some h.choose else none

theorem jsonText_print : JsonText Value.print Value.parse (fun _ => True) (fun text => text) where
  read v _ := by
    have hsome : ∃ w : Value, w.print = v.print := ⟨v, rfl⟩
    have hspell := String.ofList_injective hsome.choose_spec
    have hsame : hsome.choose = v := (Value.spell_inj _ _ (r := []) (s := []) (by rw [hspell])).1
    rw [Value.parse, dif_pos hsome, hsame, reread_id]
  float _ h := h

end RemoteCodex.Protocol
