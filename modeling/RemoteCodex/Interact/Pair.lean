import RemoteCodex.Interact.Program

/-!
# Two undisturbed runs side by side

`Act.eval` is what a program nobody disturbs comes to. `Act.Pair` relates what
two programs come to, each from its own state: they end the same way, with
values and states that are related. The rules go through both at once.
-/

namespace RemoteCodex.Interact

namespace Act

variable {Op : Type} {Ans : Op → Type} {σ ε α β γ δ : Type}

def eval (M : Machine Op Ans σ) (x : Act Op Ans ε α) (s : σ) : Except ε α × σ := Prog.run M x.run s

variable {M : Machine Op Ans σ} {s s' : σ}

@[simp] theorem eval_pure (a : α) : eval M (pure a : Act Op Ans ε α) s = (.ok a, s) := rfl

@[simp] theorem eval_throw (e : ε) : eval M (throw e : Act Op Ans ε α) s = (.error e, s) := rfl

@[simp] theorem eval_request (op : Op) :
    eval M (request op : Act Op Ans ε _) s = (.ok (M.exec op s).1, (M.exec op s).2) := rfl

@[simp] theorem eval_ofExcept (r : Except ε α) : eval M (ofExcept r : Act Op Ans ε α) s = (r, s) := by
  cases r <;> rfl

@[simp] theorem eval_ensure (b : Bool) (e : ε) :
    eval M (ensure b e : Act Op Ans ε Unit) s = (if b then .ok () else .error e, s) := by
  cases b <;> rfl

theorem eval_bind (x : Act Op Ans ε α) (f : α → Act Op Ans ε β) :
    eval M (x >>= f) s =
      match eval M x s with
      | (.ok a, t) => eval M (f a) t
      | (.error e, t) => (.error e, t) := by
  rw [eval, ExceptT.run_bind, Prog.run_bind, eval]
  generalize Prog.run M x.run s = p
  obtain ⟨a | a, t⟩ := p <;> rfl

theorem eval_bind_ok {x : Act Op Ans ε α} {f : α → Act Op Ans ε β} {a : α} {t : σ}
    (h : eval M x s = (.ok a, t)) : eval M (x >>= f) s = eval M (f a) t := by
  rw [eval_bind, h]

theorem eval_bind_error {x : Act Op Ans ε α} {f : α → Act Op Ans ε β} {e : ε} {t : σ}
    (h : eval M x s = (.error e, t)) : eval M (x >>= f) s = (.error e, t) := by
  rw [eval_bind, h]

@[simp] theorem eval_attempt (x : Act Op Ans ε α) :
    eval M (attempt x : Act Op Ans ε _) s = (.ok (eval M x s).1, (eval M x s).2) := by
  rw [eval, attempt, ExceptT.run_lift]
  change Prog.run M (x.run >>= fun r => pure (Except.ok r)) s = _
  rw [Prog.run_bind]
  rfl

-- ---------------------------------------------------------------------------
-- Pairs
-- ---------------------------------------------------------------------------

/-- Two outcomes: both a value or both an error, with states that are related. -/
inductive Related {ε α β σ : Type} (Q : α → β → σ → σ → Prop) (E : ε → ε → σ → σ → Prop) :
    Except ε α × σ → Except ε β × σ → Prop
  | ok : Q a b t t' → Related Q E (.ok a, t) (.ok b, t')
  | error : E e e' t t' → Related Q E (.error e, t) (.error e', t')

def Pair (M : Machine Op Ans σ) (x : Act Op Ans ε α) (y : Act Op Ans ε β) (s s' : σ)
    (Q : α → β → σ → σ → Prop) (E : ε → ε → σ → σ → Prop) : Prop := Related Q E (eval M x s) (eval M y s')

variable {x : Act Op Ans ε α} {y : Act Op Ans ε β} {f : α → Act Op Ans ε γ} {g : β → Act Op Ans ε δ}
  {E : ε → ε → σ → σ → Prop}

theorem Pair.mono {Q R : α → β → σ → σ → Prop} (h : Pair M x y s s' Q E)
    (hQ : ∀ a b t t', Q a b t t' → R a b t t') : Pair M x y s s' R E := by
  unfold Pair at *
  generalize eval M x s = p, eval M y s' = q at *
  cases h with
  | ok h => exact .ok (hQ _ _ _ _ h)
  | error h => exact .error h

theorem Pair.pure {a : α} {b : β} {Q : α → β → σ → σ → Prop} (h : Q a b s s') :
    Pair M (pure a : Act Op Ans ε α) (pure b) s s' Q E := .ok h

theorem Pair.throw {e e' : ε} {Q : α → β → σ → σ → Prop} (h : E e e' s s') :
    Pair M (throw e : Act Op Ans ε α) (throw e') s s' Q E := .error h

theorem Pair.bind {R : α → β → σ → σ → Prop} {Q : γ → δ → σ → σ → Prop} (h : Pair M x y s s' R E)
    (hnext : ∀ a b t t', R a b t t' → Pair M (f a) (g b) t t' Q E) : Pair M (x >>= f) (y >>= g) s s' Q E := by
  unfold Pair at h ⊢
  rw [eval_bind, eval_bind]
  generalize eval M x s = p, eval M y s' = q at *
  cases h with
  | ok h => exact hnext _ _ _ _ h
  | error h => exact .error h

theorem Pair.request {op op' : Op} {Q : Ans op → Ans op' → σ → σ → Prop}
    (h : Q (M.exec op s).1 (M.exec op' s').1 (M.exec op s).2 (M.exec op' s').2) :
    Pair M (request op : Act Op Ans ε _) (request op') s s' Q E := .ok h

theorem Pair.ensure {b : Bool} {e : ε} {Q : Unit → Unit → σ → σ → Prop} (ht : b = true → Q () () s s')
    (hf : b = false → E e e s s') :
    Pair M (Interact.ensure b e : Act Op Ans ε Unit) (Interact.ensure b e) s s' Q E := by
  cases b
  · exact .error (hf rfl)
  · exact .ok (ht rfl)

theorem Pair.ofExcept {r : Except ε α} {Q : α → α → σ → σ → Prop} (hok : ∀ a, r = .ok a → Q a a s s')
    (herr : ∀ e, r = .error e → E e e s s') :
    Pair M (ofExcept r : Act Op Ans ε α) (ofExcept r) s s' Q E := by
  cases r with
  | ok a => exact .ok (hok a rfl)
  | error e => exact .error (herr e rfl)

theorem Pair.attempt {R : α → β → σ → σ → Prop} {Q : Except ε α → Except ε β → σ → σ → Prop}
    (h : Pair M x y s s' R E) (hok : ∀ a b t t', R a b t t' → Q (.ok a) (.ok b) t t')
    (herr : ∀ e e' t t', E e e' t t' → Q (.error e) (.error e') t t') :
    Pair M (attempt x : Act Op Ans ε _) (attempt y) s s' Q E := by
  unfold Pair at h ⊢
  rw [eval_attempt, eval_attempt]
  generalize eval M x s = p, eval M y s' = q at *
  cases h with
  | ok h => exact .ok (hok _ _ _ _ h)
  | error h => exact .ok (herr _ _ _ _ h)

end Act

end RemoteCodex.Interact
