import RemoteCodex.Interact.Guarantee

/-!
# Programs taken one operation at a time

A system keeps the rest of a program in its state and carries out its next
operation when it gets to it. What is known of the rest stays true whatever
the others do meanwhile, and each operation leaves what is known of what is
left.
-/

namespace RemoteCodex.Interact

variable {Op : Type} {Ans : Op → Type} {σ ε α β : Type}
variable {M : Machine Op Ans σ} {G : Op → σ → σ → Prop}

namespace Prog

/-- Others that act twice act once. -/
theorem Sat.stable {p : Prog Op Ans α} (htrans : ∀ a b c, M.rely a b → M.rely b c → M.rely a c)
    (hQ : ∀ r a b, M.rely a b → Q r a → Q r b) (h : p.Sat M G Q s) (hr : M.rely s t) : p.Sat M G Q t := by
  cases p with
  | done a => exact hQ _ _ _ hr h
  | call op next => exact fun a ha => h a (htrans _ _ _ hr ha)

theorem Sat.step {op : Op} {next : Ans op → Prog Op Ans α} (hrefl : ∀ a, M.rely a a)
    (h : (Prog.call op next).Sat M G Q s) :
    G op s (M.exec op s).2 ∧ (next (M.exec op s).1).Sat M G Q (M.exec op s).2 :=
  (h s (hrefl s)).2

/-- `Sat.stops` where an operation leaves what it leaves, and nothing else. -/
theorem Sat.stops_whole {I : σ → Prop} {p : Prog Op Ans α} (h : p.Sat M G Q s) (hs : Stops M p s t)
    (hwhole : ∀ op a b, ¬ M.torn op a b) (hI : I s) (hrely : ∀ a b, M.rely a b → I a → I b)
    (hstep : ∀ op a, G op a (M.exec op a).2 → I a → I (M.exec op a).2) : I t := by
  induction hs with
  | now => exact hI
  | before hr => exact hrely _ _ hr hI
  | torn _ ht => exact absurd ht (hwhole _ _ _)
  | later hr _ ih => exact ih (h _ hr).2.2 (hstep _ _ (h _ hr).2.1 (hrely _ _ hr hI))

/-- What every operation leaves true, and the others do, holds at the end as well. -/
theorem Sat.keep {I : σ → Prop} {p : Prog Op Ans α} (h : p.Sat M G Q s) (hI : I s)
    (hrely : ∀ a b, M.rely a b → I a → I b) (hstep : ∀ op a, I a → I (M.exec op a).2) :
    p.Sat M G (fun r t => Q r t ∧ I t) s := by
  induction p generalizing s with
  | done a => exact ⟨h, hI⟩
  | call op next ih =>
    intro a ha
    obtain ⟨ht, hg, hn⟩ := h a ha
    exact ⟨ht, hg, ih _ hn (hstep op a (hrely _ _ ha hI))⟩

/-- The same of what each operation leaves by its guarantee. -/
theorem Sat.hold {I : σ → Prop} {p : Prog Op Ans α} (h : p.Sat M G Q s) (hI : I s)
    (hrely : ∀ a b, M.rely a b → I a → I b) (hstep : ∀ op a b, G op a b → I a → I b) :
    p.Sat M G (fun r t => Q r t ∧ I t) s := by
  induction p generalizing s with
  | done a => exact ⟨h, hI⟩
  | call op next ih =>
    intro a ha
    obtain ⟨ht, hg, hn⟩ := h a ha
    exact ⟨ht, hg, ih _ hn (hstep op _ _ hg (hrely _ _ ha hI))⟩

/-- Two guarantees of one program. -/
theorem Sat.and {H : Op → σ → σ → Prop} {R : α → σ → Prop} {p : Prog Op Ans α} (h : p.Sat M G Q s)
    (h' : p.Sat M H R s) : p.Sat M (fun op a b => G op a b ∧ H op a b) (fun r t => Q r t ∧ R r t) s := by
  induction p generalizing s with
  | done a => exact ⟨h, h'⟩
  | call op next ih =>
    intro a ha
    obtain ⟨ht, hg, hn⟩ := h a ha
    obtain ⟨ht', hg', hn'⟩ := h' a ha
    exact ⟨fun b hb => ⟨ht b hb, ht' b hb⟩, ⟨hg, hg'⟩, ih _ hn hn'⟩

/-- Others that may do less. -/
theorem Sat.narrow {rely : σ → σ → Prop} {p : Prog Op Ans α} (h : p.Sat M G Q s)
    (hrely : ∀ a b, rely a b → M.rely a b) : p.Sat { M with rely } G Q s := by
  induction p generalizing s with
  | done a => exact h
  | call op next ih =>
    intro a ha
    obtain ⟨ht, hg, hn⟩ := h a (hrely _ _ ha)
    exact ⟨ht, hg, ih _ hn⟩

/-- Others that may do more. -/
theorem Stops.rely_mono {rely : σ → σ → Prop} {p : Prog Op Ans α} (h : Stops { M with rely } p s t)
    (hrely : ∀ a b, rely a b → M.rely a b) : Stops M p s t := by
  induction h with
  | now => exact .now
  | before hr => exact .before (hrely _ _ hr)
  | torn hr ht => exact .torn (hrely _ _ hr) ht
  | later hr _ ih => exact .later (hrely _ _ hr) ih

end Prog

namespace Act

variable {x : Act Op Ans ε α}

theorem Sat.ofExcept {r : Except ε α} (hok : ∀ a, r = .ok a → Q a s) (herr : ∀ e, r = .error e → E e s) :
    Sat M G (ofExcept r : Act Op Ans ε α) s Q E := by
  cases r with
  | ok a => exact hok a rfl
  | error e => exact herr e rfl

/-- An operation that is never cut short. -/
theorem Sat.whole {op : Op} {Q : Ans op → σ → Prop} (hwhole : ∀ a b, ¬ M.torn op a b)
    (h : ∀ a, M.rely s a → G op a (M.exec op a).2 ∧ Q (M.exec op a).1 (M.exec op a).2) :
    Sat M G (Interact.request op : Act Op Ans ε _) s Q E :=
  .request fun a ha => ⟨fun b hb => absurd hb (hwhole a b), h a ha⟩

theorem Sat.hold {I : σ → Prop} (h : Sat M G x s Q E) (hI : I s) (hrely : ∀ a b, M.rely a b → I a → I b)
    (hstep : ∀ op a b, G op a b → I a → I b) : Sat M G x s (fun r t => Q r t ∧ I t) fun e t => E e t ∧ I t := by
  unfold Sat at *
  refine Prog.Sat.mono (fun _ _ _ h => h) ?_ (h.hold hI hrely hstep)
  rintro (e | r) t h <;> exact h

/-- Errors that are given with more than they have. -/
theorem Sat.adapt {δ : Type} {f : ε → δ} {E : ε → σ → Prop} {E' : δ → σ → Prop} (h : Sat M G x s Q E)
    (hE : ∀ e t, E e t → E' (f e) t) : Sat M G (ExceptT.adapt f x) s Q E' := by
  unfold Sat at *
  have hrun : (ExceptT.adapt f x).run = x.run >>= fun r => Pure.pure (r.mapError f) := rfl
  rw [hrun]
  refine Prog.Sat.bind (Prog.Sat.mono (fun _ _ _ h => h) ?_ h)
  rintro (e | r) t ht
  · exact hE e t ht
  · exact ht

/-- A program that gives up with another error, and whose outcome is a value here. -/
theorem Sat.lift {δ : Type} {y : Act Op Ans δ α} {Q : Except δ α → σ → Prop} {E : ε → σ → Prop}
    (h : Sat M G y s (fun a => Q (.ok a)) fun e => Q (.error e)) :
    Sat M G (ExceptT.lift y.run : Act Op Ans ε (Except δ α)) s Q E := by
  unfold Sat at *
  rw [ExceptT.run_lift]
  change Prog.Sat M G _ (y.run >>= fun r => Pure.pure (Except.ok r)) s
  refine Prog.Sat.bind (Prog.Sat.mono (fun _ _ _ h => h) ?_ h)
  rintro (e | r) t h <;> exact h

end Act

end RemoteCodex.Interact
