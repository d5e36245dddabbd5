import Mathlib.Logic.Relation

/-!
# Programs that act on a shared state

A program asks for one operation at a time and goes on with its answer. What
an operation does is left to a machine, which also says what an operation
that is cut short may leave behind, and what others may do to the state
between two operations. Programs here always end: a loop is a recursion over
something finite.
-/

namespace RemoteCodex.Interact

inductive Prog (Op : Type) (Ans : Op → Type) (α : Type) where
  | done (value : α)
  | call (op : Op) (next : Ans op → Prog Op Ans α)

namespace Prog

variable {Op : Type} {Ans : Op → Type} {α β γ : Type}

def bind : Prog Op Ans α → (α → Prog Op Ans β) → Prog Op Ans β
  | .done a, f => f a
  | .call op next, f => .call op fun r => (next r).bind f

instance : Monad (Prog Op Ans) where
  pure := .done
  bind := Prog.bind

theorem bind_done (p : Prog Op Ans α) : p.bind .done = p := by
  induction p with
  | done a => rfl
  | call op next ih => simp only [Prog.bind, ih]

theorem bind_assoc (p : Prog Op Ans α) (f : α → Prog Op Ans β) (g : β → Prog Op Ans γ) :
    (p.bind f).bind g = p.bind fun a => (f a).bind g := by
  induction p with
  | done a => rfl
  | call op next ih => simp only [Prog.bind, ih]

instance : LawfulMonad (Prog Op Ans) :=
  LawfulMonad.mk' _ bind_done (fun _ _ => rfl) bind_assoc

end Prog

/-- `torn op s t`: `op`, cut short in `s`, may leave `t`. `rely s t`: between
two operations of one program the others may take `s` to `t`. -/
structure Machine (Op : Type) (Ans : Op → Type) (σ : Type) where
  exec : (op : Op) → σ → Ans op × σ
  torn : Op → σ → σ → Prop
  rely : σ → σ → Prop

/-- Nobody else acts while a program of this machine runs. -/
def Machine.Alone (M : Machine Op Ans σ) : Prop := ∀ s t, M.rely s t ↔ s = t

namespace Prog

variable {Op : Type} {Ans : Op → Type} {σ α β : Type} (M : Machine Op Ans σ)

/-- The result of a program nobody disturbs. -/
def run : Prog Op Ans α → σ → α × σ
  | .done a, s => (a, s)
  | .call op next, s => (next (M.exec op s).1).run (M.exec op s).2

/-- The state after the first `n` operations of an undisturbed program. -/
def runFor : Nat → Prog Op Ans α → σ → σ
  | n + 1, .call op next, s => (next (M.exec op s).1).runFor n (M.exec op s).2
  | _, _, s => s

/-- The operation an undisturbed program carries out after `n` others, and the
states before and after it. -/
def stepAt : Nat → Prog Op Ans α → σ → Option (Op × σ × σ)
  | _, .done _, _ => none
  | 0, .call op _, s => some (op, s, (M.exec op s).2)
  | n + 1, .call op next, s => (next (M.exec op s).1).stepAt n (M.exec op s).2

/-- A program started in `s` carries out `op` (or is cut short in it), which
takes `a` to `b`. -/
inductive Occurs {α : Type} : Prog Op Ans α → σ → Op → σ → σ → Prop
  | here {next : Ans op → Prog Op Ans α} : M.rely s a → Occurs (.call op next) s op a (M.exec op a).2
  | torn {next : Ans op → Prog Op Ans α} : M.rely s a → M.torn op a b → Occurs (.call op next) s op a b
  | later {next : Ans op → Prog Op Ans α} : M.rely s a → Occurs (next (M.exec op a).1) (M.exec op a).2 op' b c →
      Occurs (.call op next) s op' b c

/-- A program started in `s` may be stopped, or have ended, when the state is `t`. -/
inductive Stops {α : Type} : Prog Op Ans α → σ → σ → Prop
  | now : Stops p s s
  | before {next : Ans op → Prog Op Ans α} : M.rely s a → Stops (.call op next) s a
  | torn {next : Ans op → Prog Op Ans α} : M.rely s a → M.torn op a b → Stops (.call op next) s b
  | later {next : Ans op → Prog Op Ans α} : M.rely s a → Stops (next (M.exec op a).1) (M.exec op a).2 t →
      Stops (.call op next) s t

/-- `op` takes `a` to `b`, and afterwards the program stops or ends in `t`. -/
inductive StopsAfter {α : Type} : Prog Op Ans α → σ → Op → σ → σ → σ → Prop
  | here {next : Ans op → Prog Op Ans α} : M.rely s a → Stops M (next (M.exec op a).1) (M.exec op a).2 t →
      StopsAfter (.call op next) s op a (M.exec op a).2 t
  | later {next : Ans op → Prog Op Ans α} : M.rely s a → StopsAfter (next (M.exec op a).1) (M.exec op a).2 op' b c t →
      StopsAfter (.call op next) s op' b c t

/-- A program started in `s` may end in `t` with `a`. -/
inductive Ends {α : Type} : Prog Op Ans α → σ → α → σ → Prop
  | done : Ends (.done a) s a s
  | call {next : Ans op → Prog Op Ans α} : M.rely s b → Ends (next (M.exec op b).1) (M.exec op b).2 a t →
      Ends (.call op next) s a t

variable {M}

theorem Ends.stops {p : Prog Op Ans α} (h : Ends M p s a t) : Stops M p s t := by
  induction h with
  | done => exact .now
  | call hr _ ih => exact .later hr ih

theorem ends_run (hM : ∀ s, M.rely s s) (p : Prog Op Ans α) (s : σ) :
    Ends M p s (p.run M s).1 (p.run M s).2 := by
  induction p generalizing s with
  | done a => exact .done
  | call op next ih => exact .call (hM s) (ih _ _)

theorem stops_run (hM : ∀ s, M.rely s s) (p : Prog Op Ans α) (s : σ) :
    Stops M p s (p.run M s).2 := (ends_run hM p s).stops

theorem stops_runFor (hM : ∀ s, M.rely s s) (n : Nat) (p : Prog Op Ans α) (s : σ) :
    Stops M p s (p.runFor M n s) := by
  induction n generalizing p s with
  | zero => exact .now
  | succ n ih =>
    cases p with
    | done a => exact .now
    | call op next => exact .later (hM s) (ih _ _)

theorem Ends.eq_run (hM : M.Alone) {p : Prog Op Ans α} (h : Ends M p s a t) :
    p.run M s = (a, t) := by
  induction h with
  | done => rfl
  | call hr _ ih =>
    obtain rfl := (hM _ _).mp hr
    exact ih

theorem run_bind (p : Prog Op Ans α) (f : α → Prog Op Ans β) (s : σ) :
    (p >>= f).run M s = (f (p.run M s).1).run M (p.run M s).2 := by
  induction p generalizing s with
  | done a => rfl
  | call op next ih => exact ih _ _

theorem StopsAfter.occurs {p : Prog Op Ans α} (h : StopsAfter M p s op a b t) :
    Occurs M p s op a b := by
  induction h with
  | here hr _ => exact .here hr
  | later hr _ ih => exact .later hr ih

/-- What happened may be the last thing that happens. -/
theorem StopsAfter.now {p : Prog Op Ans α} (h : StopsAfter M p s op a b t) :
    StopsAfter M p s op a b b := by
  induction h with
  | here hr _ => exact .here hr .now
  | later hr _ ih => exact .later hr ih

theorem stepAt_stopsAfter (hM : ∀ s, M.rely s s) {p : Prog Op Ans α}
    (h : p.stepAt M n s = some (op, a, b)) : StopsAfter M p s op a b b := by
  induction n generalizing p s with
  | zero =>
    cases p with
    | done => cases h
    | call op next =>
      obtain ⟨rfl, rfl, rfl⟩ := h
      exact .here (hM _) .now
  | succ n ih =>
    cases p with
    | done => cases h
    | call op next => exact .later (hM _) (ih h)

/-- What does not hold at the end any more was lost in some operation. -/
theorem Ends.loses {I : σ → Prop} {p : Prog Op Ans α} (h : Ends M p s r t) (hs : I s) (ht : ¬ I t)
    (hrely : ∀ a b, M.rely a b → I a → I b) : ∃ op a b, StopsAfter M p s op a b t ∧ I a ∧ ¬ I b := by
  induction h with
  | done => exact absurd hs ht
  | @call op _ c _ _ _ hr hends ih =>
    by_cases hI : I (M.exec op c).2
    · obtain ⟨op', a, b, hat, ha, hb⟩ := ih hI ht
      exact ⟨op', a, b, .later hr hat, ha, hb⟩
    · exact ⟨op, c, _, .here hr hends.stops, hrely _ _ hr hs, hI⟩

/-- A step of an undisturbed program, found by looking for it. -/
theorem stepAt_any (hM : ∀ s, M.rely s s) {p : Prog Op Ans α} {P : Op → σ → σ → Bool}
    (h : (p.stepAt M n s).any (fun x => P x.1 x.2.1 x.2.2) = true) :
    ∃ op a b, StopsAfter M p s op a b b ∧ P op a b = true := by
  cases hx : p.stepAt M n s with
  | none => simp [hx] at h
  | some x =>
    obtain ⟨op, a, b⟩ := x
    rw [hx] at h
    exact ⟨op, a, b, stepAt_stopsAfter hM hx, h⟩

theorem StopsAfter.stops {p : Prog Op Ans α} (h : StopsAfter M p s op a b t) :
    Stops M p s t := by
  induction h with
  | here hr hs => exact .later hr hs
  | later hr _ ih => exact .later hr ih

end Prog

/-- A program that may give up with an error. -/
abbrev Act (Op : Type) (Ans : Op → Type) (ε : Type) := ExceptT ε (Prog Op Ans)

section Act

variable {Op : Type} {Ans : Op → Type} {ε α : Type}

def request (op : Op) : Act Op Ans ε (Ans op) := ExceptT.lift (.call op .done)

def ensure (b : Bool) (e : ε) : Act Op Ans ε Unit := if b then pure () else throw e

/-- The outcome of `x` as a value: the program goes on either way. -/
def attempt (x : Act Op Ans ε α) : Act Op Ans ε (Except ε α) := ExceptT.lift x.run

end Act

end RemoteCodex.Interact
