import RemoteCodex.Interact.Guarantee

/-!
# What a program may ask for at all

`Every P p`: whatever it is answered, `p` asks for no operation but those of
`P`. `Seals P Q p`: once `p` has carried out an operation of `P`, it asks for
none but those of `Q`. Neither says anything of the state.
-/

namespace RemoteCodex.Interact

variable {Op : Type} {Ans : Op → Type} {ε α β : Type} {P Q : Op → Prop}

namespace Prog

def Every (P : Op → Prop) : Prog Op Ans α → Prop
  | .done _ => True
  | .call op next => P op ∧ ∀ r, (next r).Every P

def Seals (P Q : Op → Prop) : Prog Op Ans α → Prop
  | .done _ => True
  | .call op next => ∀ r, (next r).Seals P Q ∧ (P op → (next r).Every Q)

theorem Every.mono {p : Prog Op Ans α} (h : p.Every P) (hPQ : ∀ op, P op → Q op) : p.Every Q := by
  induction p with
  | done a => trivial
  | call op next ih => exact ⟨hPQ op h.1, fun r => ih r (h.2 r)⟩

theorem Every.bind {p : Prog Op Ans α} {f : α → Prog Op Ans β} (hp : p.Every P) (hf : ∀ a, (f a).Every P) :
    (p >>= f).Every P := by
  induction p with
  | done a => exact hf a
  | call op next ih => exact ⟨hp.1, fun r => ih r (hp.2 r)⟩

/-- A program that never does what seals it. -/
theorem Every.seals {p : Prog Op Ans α} (h : p.Every fun op => ¬ P op) : p.Seals P Q := by
  induction p with
  | done a => trivial
  | call op next ih => exact fun r => ⟨ih r (h.2 r), fun hop => absurd hop h.1⟩

/-- What comes first never seals, and what follows is sealed by itself. -/
theorem Seals.bind {p : Prog Op Ans α} {f : α → Prog Op Ans β} (hp : p.Every fun op => ¬ P op)
    (hf : ∀ a, (f a).Seals P Q) : (p >>= f).Seals P Q := by
  induction p with
  | done a => exact hf a
  | call op next ih => exact fun r => ⟨ih r (hp.2 r), fun hop => absurd hop hp.1⟩

/-- What the operations of `P` keep, and the others do, holds at the end. -/
theorem Every.sat {σ : Type} {M : Machine Op Ans σ} {I : σ → Prop} {p : Prog Op Ans α} {s : σ} (h : p.Every P)
    (hI : I s) (hrely : ∀ a b, M.rely a b → I a → I b) (hstep : ∀ op a, P op → I a → I (M.exec op a).2) :
    p.Sat M (fun _ _ _ => True) (fun _ => I) s := by
  induction p generalizing s with
  | done a => exact hI
  | call op next ih =>
    intro a ha
    exact ⟨fun _ _ => trivial, trivial, ih _ (h.2 _) (hstep op a h.1 (hrely _ _ ha hI))⟩

end Prog

namespace Act

def Every (P : Op → Prop) (x : Act Op Ans ε α) : Prop := Prog.Every P x.run

variable {x : Act Op Ans ε α} {f : α → Act Op Ans ε β}

theorem Every.pure (a : α) : Every P (pure a : Act Op Ans ε α) := trivial

theorem Every.throw (e : ε) : Every P (throw e : Act Op Ans ε α) := trivial

theorem Every.bind (hx : Every P x) (hf : ∀ a, Every P (f a)) : Every P (x >>= f) := by
  unfold Every at *
  rw [ExceptT.run_bind]
  refine Prog.Every.bind hx fun r => ?_
  cases r with
  | ok a => exact hf a
  | error e => trivial

theorem Every.request {op : Op} (hop : P op) : Every P (Interact.request op : Act Op Ans ε _) :=
  ⟨hop, fun _ => trivial⟩

theorem Every.ensure (b : Bool) (e : ε) : Every P (Interact.ensure b e : Act Op Ans ε Unit) := by
  cases b <;> trivial

theorem Every.ofExcept (r : Except ε α) : Every P (ofExcept r : Act Op Ans ε α) := by
  cases r <;> trivial

theorem Every.attempt (hx : Every P x) : Every P (Interact.attempt x) := by
  unfold Every at *
  rw [Interact.attempt, ExceptT.run_lift]
  exact Prog.Every.bind hx fun _ => trivial

theorem Every.sat {σ : Type} {M : Machine Op Ans σ} {I : σ → Prop} {s : σ} (h : Every P x) (hI : I s)
    (hrely : ∀ a b, M.rely a b → I a → I b) (hstep : ∀ op a, P op → I a → I (M.exec op a).2) :
    Sat M (fun _ _ _ => True) x s (fun _ => I) fun _ => I := by
  refine Prog.Sat.mono (fun _ _ _ h => h) ?_ (Prog.Every.sat h hI hrely hstep)
  rintro (e | a) t ht <;> exact ht

def Seals (P Q : Op → Prop) (x : Act Op Ans ε α) : Prop := Prog.Seals P Q x.run

theorem Every.seals (hx : Every (fun op => ¬ P op) x) : Seals P Q x := Prog.Every.seals hx

theorem Seals.bind (hx : Every (fun op => ¬ P op) x) (hf : ∀ a, Seals P Q (f a)) : Seals P Q (x >>= f) := by
  unfold Seals at *
  rw [ExceptT.run_bind]
  refine Prog.Seals.bind hx fun r => ?_
  cases r with
  | ok a => exact hf a
  | error e => trivial

/-- The operation that seals, and what comes after it. -/
theorem Seals.request {op : Op} {f : Ans op → Act Op Ans ε β} (hf : ∀ r, Seals P Q (f r) ∧ Every Q (f r)) :
    Seals P Q (Interact.request op >>= f) := fun r => ⟨(hf r).1, fun _ => (hf r).2⟩

end Act

end RemoteCodex.Interact
