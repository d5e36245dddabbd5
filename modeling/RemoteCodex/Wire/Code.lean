import Mathlib.Data.List.Basic

/-!
# Texts that are read as they are written

A `Code` writes a value and reads it back from the front of a longer text, so
codes follow one another without a separator. No text of a code is the start
of another one, which is why a text that is cut off is noticed.
-/

namespace RemoteCodex.Wire

structure Code (τ α : Type) where
  put : α → List τ
  take : List τ → Option (α × List τ)
  take_put : ∀ a rest, take (put a ++ rest) = some (a, rest)

namespace Code

variable {τ α β : Type}

theorem put_inj (c : Code τ α) (h : c.put a ++ r = c.put b ++ s) : a = b ∧ r = s := by
  have := c.take_put a r
  rw [h, c.take_put] at this
  obtain ⟨rfl, rfl⟩ := Prod.mk.inj (Option.some.inj this)
  exact ⟨rfl, rfl⟩

/-- The value whose whole text this is. -/
def decode [DecidableEq τ] (c : Code τ α) (text : List τ) : Option α :=
  match c.take text with
  | some (a, []) => if c.put a = text then some a else none
  | _ => none

theorem decode_put [DecidableEq τ] (c : Code τ α) (a : α) : c.decode (c.put a) = some a := by
  have h := c.take_put a []
  rw [List.append_nil] at h
  simp [decode, h]

theorem put_of_decode [DecidableEq τ] {c : Code τ α} (h : c.decode text = some a) :
    c.put a = text := by
  unfold decode at h
  split at h
  · split at h
    · next hp => exact Option.some.inj h ▸ hp
    · cases h
  · cases h

theorem decode_cut [DecidableEq τ] (c : Code τ α) (a : α) {n : Nat} (hn : n < (c.put a).length) :
    c.decode ((c.put a).take n) = none := by
  cases h : c.decode ((c.put a).take n) with
  | none => rfl
  | some b =>
    have hb := put_of_decode h
    have hsplit : c.put a ++ [] = c.put b ++ (c.put a).drop n := by
      rw [hb, List.take_append_drop, List.append_nil]
    have hnil := (c.put_inj hsplit).2
    have hlen := congrArg List.length hnil
    simp at hlen
    omega

-- ---------------------------------------------------------------------------
-- Building codes
-- ---------------------------------------------------------------------------

/-- A fixed text that carries nothing. -/
def literal [DecidableEq τ] (text : List τ) : Code τ Unit where
  put _ := text
  take input := if text <+: input then some ((), input.drop text.length) else none
  take_put _ rest := by simp

def seq (c : Code τ α) (d : Code τ β) : Code τ (α × β) where
  put x := c.put x.1 ++ d.put x.2
  take input := (c.take input).bind fun (a, rest) => (d.take rest).map fun (b, rest) => ((a, b), rest)
  take_put x rest := by simp [List.append_assoc, c.take_put, d.take_put]

/-- The values of `β` written as values of `α`. -/
def image (c : Code τ α) (f : α → β) (g : β → α) (h : ∀ b, f (g b) = b) : Code τ β where
  put b := c.put (g b)
  take input := (c.take input).map fun (a, rest) => (f a, rest)
  take_put b rest := by simp [c.take_put, h]

/-- `text` before a value. -/
def after [DecidableEq τ] (text : List τ) (c : Code τ α) : Code τ α :=
  ((literal text).seq c).image Prod.snd (fun a => ((), a)) fun _ => rfl

/-- `text` behind a value. -/
def before [DecidableEq τ] (c : Code τ α) (text : List τ) : Code τ α :=
  (c.seq (literal text)).image Prod.fst (fun a => (a, ())) fun _ => rfl

/-- One of finitely many values by its text: the first that fits. -/
def oneOf [DecidableEq τ] (name : α → List τ) (all : List α)
    (h : ∀ a rest, (all.find? fun b => decide (name b <+: name a ++ rest)) = some a) : Code τ α where
  put := name
  take input := (all.find? fun b => decide (name b <+: input)).map fun a =>
    (a, input.drop (name a).length)
  take_put a rest := by simp [h]

/-- `none` as `text`, which starts no text of `c`. -/
def orElse [DecidableEq τ] (text : List τ) (c : Code τ α)
    (h : ∀ a rest, ¬ text <+: c.put a ++ rest) : Code τ (Option α) where
  put
    | none => text
    | some a => c.put a
  take input :=
    if text <+: input then some (none, input.drop text.length)
    else (c.take input).map fun (a, rest) => (some a, rest)
  take_put a rest := by
    cases a with
    | none => simp
    | some a => simp [h, c.take_put]

end Code

end RemoteCodex.Wire
