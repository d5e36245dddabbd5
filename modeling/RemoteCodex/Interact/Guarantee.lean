import RemoteCodex.Interact.Program

/-!
# What every step of a program guarantees

`Act.Sat M G x s Q E`: started in `s`, every operation `x` carries out, or is
cut short in, takes the state along `G`, whatever the others do within the
machine's `rely`; if `x` ends, `Q` holds of its value or `E` of its error, and
of the last state. The rules below let a function be used through one lemma
about it, and the last section reads the guarantee back off an execution.
-/

namespace RemoteCodex.Interact

namespace Prog

variable {Op : Type} {Ans : Op → Type} {σ α β : Type}
variable {M : Machine Op Ans σ} {G H : Op → σ → σ → Prop}

def Sat (M : Machine Op Ans σ) (G : Op → σ → σ → Prop) (Q : α → σ → Prop) :
    Prog Op Ans α → σ → Prop
  | .done a, s => Q a s
  | .call op next, s => ∀ a, M.rely s a →
      (∀ b, M.torn op a b → G op a b) ∧ G op a (M.exec op a).2 ∧
        (next (M.exec op a).1).Sat M G Q (M.exec op a).2

theorem Sat.mono {p : Prog Op Ans α} (hG : ∀ op a b, G op a b → H op a b)
    (hQ : ∀ r t, Q r t → R r t) (h : p.Sat M G Q s) : p.Sat M H R s := by
  induction p generalizing s with
  | done a => exact hQ _ _ h
  | call op next ih =>
    intro a ha
    obtain ⟨ht, hg, hn⟩ := h a ha
    exact ⟨fun b hb => hG _ _ _ (ht b hb), hG _ _ _ hg, ih _ hn⟩

theorem Sat.bind {p : Prog Op Ans α} {f : α → Prog Op Ans β}
    (h : p.Sat M G (fun r t => (f r).Sat M G Q t) s) : (p >>= f).Sat M G Q s := by
  induction p generalizing s with
  | done a => exact h
  | call op next ih =>
    intro a ha
    obtain ⟨ht, hg, hn⟩ := h a ha
    exact ⟨ht, hg, ih _ hn⟩

/-- Any program, where nothing is asked of it. -/
theorem Sat.any (p : Prog Op Ans α) (s : σ) : p.Sat M (fun _ _ _ => True) (fun _ _ => True) s := by
  induction p generalizing s with
  | done a => trivial
  | call op next ih => exact fun a _ => ⟨fun _ _ => trivial, trivial, ih _ _⟩

theorem Sat.occurs {p : Prog Op Ans α} (h : p.Sat M G Q s) (ho : Occurs M p s op a b) :
    G op a b := by
  induction ho with
  | here hr => exact (h _ hr).2.1
  | torn hr ht => exact (h _ hr).1 _ ht
  | later hr _ ih => exact ih (h _ hr).2.2

theorem Sat.ends {p : Prog Op Ans α} (h : p.Sat M G Q s) (he : Ends M p s a t) : Q a t := by
  induction he with
  | done => exact h
  | call hr _ ih => exact ih (h _ hr).2.2

theorem Sat.run {p : Prog Op Ans α} (hM : ∀ s, M.rely s s) (h : p.Sat M G Q s) :
    Q (p.run M s).1 (p.run M s).2 := h.ends (ends_run hM p s)

/-- What the steps of a program keep, and the others keep, holds wherever it stops. -/
theorem Sat.stops {I : σ → Prop} {p : Prog Op Ans α} (h : p.Sat M G Q s) (hs : Stops M p s t)
    (hI : I s) (hrely : ∀ a b, M.rely a b → I a → I b)
    (hstep : ∀ op a b, G op a b → I a → I b) : I t := by
  induction hs with
  | now => exact hI
  | before hr => exact hrely _ _ hr hI
  | torn hr ht => exact hstep _ _ _ ((h _ hr).1 _ ht) (hrely _ _ hr hI)
  | later hr _ ih => exact ih (h _ hr).2.2 (hstep _ _ _ (h _ hr).2.1 (hrely _ _ hr hI))

theorem Sat.occurs_inv {I : σ → Prop} {p : Prog Op Ans α} (h : p.Sat M G Q s)
    (ho : Occurs M p s op a b) (hI : I s) (hrely : ∀ a b, M.rely a b → I a → I b)
    (hstep : ∀ op a b, G op a b → I a → I b) : I a := by
  induction ho with
  | here hr => exact hrely _ _ hr hI
  | torn hr _ => exact hrely _ _ hr hI
  | later hr _ ih => exact ih (h _ hr).2.2 (hstep _ _ _ (h _ hr).2.1 (hrely _ _ hr hI))

/-- The same from one operation on. -/
theorem Sat.stopsAfter {I : σ → Prop} {p : Prog Op Ans α} (h : p.Sat M G Q s)
    (hs : StopsAfter M p s op a b t) (hI : I b) (hrely : ∀ a b, M.rely a b → I a → I b)
    (hstep : ∀ op a b, G op a b → I a → I b) : I t := by
  induction hs with
  | here hr ht => exact (h _ hr).2.2.stops ht hI hrely hstep
  | later hr _ ih => exact ih (h _ hr).2.2 hI

end Prog

namespace Act

variable {Op : Type} {Ans : Op → Type} {σ ε α β : Type}
variable {M : Machine Op Ans σ} {G : Op → σ → σ → Prop}

def Sat (M : Machine Op Ans σ) (G : Op → σ → σ → Prop) (x : Act Op Ans ε α) (s : σ)
    (Q : α → σ → Prop) (E : ε → σ → Prop) : Prop :=
  Prog.Sat M G (fun r t => match r with | .ok a => Q a t | .error e => E e t) x.run s

variable {x : Act Op Ans ε α} {f : α → Act Op Ans ε β} {s : σ}

theorem Sat.mono (h : Sat M G x s Q E) (hQ : ∀ r t, Q r t → R r t)
    (hE : ∀ e t, E e t → E' e t) : Sat M G x s R E' := by
  refine Prog.Sat.mono (fun _ _ _ h => h) ?_ h
  rintro (e | r) t h
  · exact hE _ _ h
  · exact hQ _ _ h

theorem Sat.weaken {H : Op → σ → σ → Prop} (h : Sat M G x s Q E) (hG : ∀ op a b, G op a b → H op a b) :
    Sat M H x s Q E := Prog.Sat.mono hG (fun _ _ h => h) h

theorem Sat.ends (h : Sat M G x s Q E) (he : Prog.Ends M x.run s (.ok r) t) : Q r t := by
  unfold Sat at h
  exact h.ends he

theorem Sat.fails {err : ε} (h : Sat M G x s Q E) (he : Prog.Ends M x.run s (.error err) t) :
    E err t := by
  unfold Sat at h
  exact h.ends he

theorem Sat.any (x : Act Op Ans ε α) (s : σ) :
    Sat M (fun _ _ _ => True) x s (fun _ _ => True) fun _ _ => True := by
  refine Prog.Sat.mono (fun _ _ _ h => h) ?_ (Prog.Sat.any x.run s)
  rintro (e | r) t h <;> trivial

theorem Sat.pure {a : α} (h : Q a s) : Sat M G (pure a) s Q E := h

theorem Sat.throw {e : ε} (h : E e s) : Sat M G (throw e : Act Op Ans ε α) s Q E := h

theorem Sat.bind (hx : Sat M G x s R E) (hf : ∀ a t, R a t → Sat M G (f a) t Q E) :
    Sat M G (x >>= f) s Q E := by
  unfold Sat at *
  rw [ExceptT.run_bind]
  refine Prog.Sat.bind (Prog.Sat.mono (fun _ _ _ h => h) ?_ hx)
  rintro (e | r) t h
  · exact h
  · exact hf r t h

theorem Sat.ensure {b : Bool} {e : ε} (ht : b = true → Q () s) (hf : b = false → E e s) :
    Sat M G (Interact.ensure b e : Act Op Ans ε Unit) s Q E := by
  cases b
  · exact hf rfl
  · exact ht rfl

theorem Sat.attempt (h : Sat M G x s (fun a => Q (.ok a)) (fun e => Q (.error e))) :
    Sat M G (Interact.attempt x) s Q E := by
  unfold Sat at *
  rw [Interact.attempt, ExceptT.run_lift]
  change Prog.Sat M G _ (x.run >>= fun r => Pure.pure (Except.ok r)) s
  refine Prog.Sat.bind (Prog.Sat.mono (fun _ _ _ h => h) ?_ h)
  rintro (e | r) t h <;> exact h

theorem Sat.request {op : Op} {Q : Ans op → σ → Prop}
    (h : ∀ a, M.rely s a → (∀ b, M.torn op a b → G op a b) ∧ G op a (M.exec op a).2 ∧
      Q (M.exec op a).1 (M.exec op a).2) :
    Sat M G (Interact.request op : Act Op Ans ε _) s Q E := h

/-- The same for a machine nobody else uses. -/
theorem Sat.request_alone (hM : M.Alone) {op : Op} {Q : Ans op → σ → Prop}
    (ht : ∀ b, M.torn op s b → G op s b)
    (hg : G op s (M.exec op s).2) (hq : Q (M.exec op s).1 (M.exec op s).2) :
    Sat M G (Interact.request op : Act Op Ans ε _) s Q E := by
  refine .request fun a ha => ?_
  obtain rfl := (hM _ _).mp ha
  exact ⟨ht, hg, hq⟩

end Act

end RemoteCodex.Interact
