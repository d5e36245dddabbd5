/-!
# Runs of a machine driven by events

`next s e` is the state after `e`, if `e` can happen in `s`: whatever the
environment chooses is part of the event. A run carries the events that made
it, the latest first, so what has happened since some event stands in front of
it. `C` limits a run to the steps it allows; `Free` allows all of them.
-/

namespace RemoteCodex.Interact

inductive Run {σ ε : Type} (next : σ → ε → Option σ) (C : σ → ε → Prop) (s₀ : σ) : List ε → σ → Prop
  | start : Run next C s₀ [] s₀
  | step : Run next C s₀ h s → C s e → next s e = some t → Run next C s₀ (e :: h) t

/-- No step is excluded. -/
def Free {σ ε : Type} (_ : σ) (_ : ε) : Prop := True

namespace Run

variable {σ ε : Type} {next : σ → ε → Option σ} {C D : σ → ε → Prop} {s₀ s t : σ} {h : List ε}

/-- What holds at the start and is kept by every step, given what has happened so far. -/
theorem keeps {I : List ε → σ → Prop} (hrun : Run next C s₀ h s) (hstart : I [] s₀)
    (hstep : ∀ h s e t, I h s → C s e → next s e = some t → I (e :: h) t) : I h s := by
  induction hrun with
  | start => exact hstart
  | step _ hc hn ih => exact hstep _ _ _ _ ih hc hn

/-- The same for a property of the states alone. -/
theorem invariant {I : σ → Prop} (hrun : Run next C s₀ h s) (hstart : I s₀)
    (hstep : ∀ s e t, I s → C s e → next s e = some t → I t) : I s :=
  hrun.keeps (I := fun _ => I) hstart fun _ => hstep

theorem mono (hrun : Run next C s₀ h s) (hCD : ∀ s e, C s e → D s e) : Run next D s₀ h s := by
  induction hrun with
  | start => exact .start
  | step _ hc hn ih => exact .step ih (hCD _ _ hc) hn

theorem free (hrun : Run next C s₀ h s) : Run next Free s₀ h s := hrun.mono fun _ _ _ => trivial

/-- The events of a run leave nothing open. -/
theorem unique (hs : Run next C s₀ h s) (ht : Run next D s₀ h t) : s = t := by
  induction hs generalizing t with
  | start =>
    cases ht with
    | start => rfl
  | step _ _ hn ih =>
    cases ht with
    | step ht _ hn' =>
      obtain rfl := ih ht
      exact Option.some.inj (hn.symm.trans hn')

/-- The state a run was in before its latest events. -/
theorem before {later : List ε} (hrun : Run next C s₀ (later ++ h) t) :
    ∃ s, Run next C s₀ h s ∧ Run next C s later t := by
  induction later generalizing t with
  | nil => exact ⟨t, hrun, .start⟩
  | cons e later ih =>
    cases hrun with
    | step hrun hc hn =>
      obtain ⟨s, hs, hl⟩ := ih hrun
      exact ⟨s, hs, .step hl hc hn⟩

/-- The step an event of a run was. -/
theorem at_event {later : List ε} {e : ε} (hrun : Run next C s₀ (later ++ e :: h) t) :
    ∃ s s', Run next C s₀ h s ∧ C s e ∧ next s e = some s' ∧ Run next C s' later t := by
  obtain ⟨s', hs', hl⟩ := hrun.before
  cases hs' with
  | step hs hc hn => exact ⟨_, s', hs, hc, hn, hl⟩

theorem append {later : List ε} (hrun : Run next C s₀ h s) (hl : Run next C s later t) :
    Run next C s₀ (later ++ h) t := by
  induction hl with
  | start => exact hrun
  | step _ hc hn ih => exact .step ih hc hn

end Run

/-- The events of a list one after another, as long as each can happen and `C` allows it. -/
def play {σ ε : Type} (next : σ → ε → Option σ) (C : σ → ε → Prop) [∀ s e, Decidable (C s e)] :
    σ → List ε → Option σ
  | s, [] => some s
  | s, e :: es => if C s e then (next s e).bind fun t => play next C t es else none

theorem run_of_play_list {σ ε : Type} {next : σ → ε → Option σ} {C : σ → ε → Prop}
    [∀ s e, Decidable (C s e)] {s t : σ} {es : List ε} (h : play next C s es = some t) :
    Run next C s es.reverse t := by
  induction es generalizing s with
  | nil =>
    obtain rfl := Option.some.inj h
    exact .start
  | cons e es ih =>
    simp only [play] at h
    split at h
    · next hc =>
      obtain ⟨u, hu, ht⟩ := Option.bind_eq_some_iff.mp h
      rw [List.reverse_cons]
      exact (Run.step .start hc hu).append (ih ht)
    · cases h

/-- A run found by playing its events. -/
theorem run_of_play {σ ε : Type} {next : σ → ε → Option σ} {C : σ → ε → Prop}
    [∀ s e, Decidable (C s e)] {s t : σ} {h : List ε} (hp : play next C s h.reverse = some t) :
    Run next C s h t := by
  have hrun := run_of_play_list hp
  rwa [List.reverse_reverse] at hrun

instance {σ ε : Type} (s : σ) (e : ε) : Decidable (Free s e) := .isTrue trivial

end RemoteCodex.Interact
