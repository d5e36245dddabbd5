import RemoteCodex.Interact.Guarantee

/-!
# Machines that write down what they are asked

`M.noted note` keeps notes beside the state of `M`, the latest first: what is to
be remembered of an operation and of its answer. An operation that is cut short
has no answer, and may have been carried out or not.
-/

namespace RemoteCodex.Interact

variable {Op : Type} {Ans : Op → Type} {σ ν ε α : Type}

def Machine.noted (M : Machine Op Ans σ) (note : (op : Op) → Option (Ans op) → List ν) :
    Machine Op Ans (σ × List ν) where
  exec op s := ((M.exec op s.1).1, (M.exec op s.1).2, note op (some (M.exec op s.1).1) ++ s.2)
  torn op s t := (t.1 = s.1 ∨ M.torn op s.1 t.1) ∧ t.2 = note op none ++ s.2
  rely s t := M.rely s.1 t.1 ∧ t.2 = s.2

variable {M : Machine Op Ans σ} {note : (op : Op) → Option (Ans op) → List ν} {s t : σ × List ν}

/-- One operation of a machine that cuts nothing short by itself: what it leaves without an answer, and with one. -/
theorem Act.Sat.asked {G : Op → σ × List ν → σ × List ν → Prop} {op : Op} {Q : Ans op → σ × List ν → Prop}
    {E : ε → σ × List ν → Prop} (hwhole : ∀ a b, ¬ M.torn op a b)
    (h : ∀ a, M.rely s.1 a → G op (a, s.2) (a, note op none ++ s.2) ∧
      G op (a, s.2) ((M.exec op a).2, note op (some (M.exec op a).1) ++ s.2) ∧
      Q (M.exec op a).1 ((M.exec op a).2, note op (some (M.exec op a).1) ++ s.2)) :
    Act.Sat (M.noted note) G (Interact.request op : Act Op Ans ε _) s Q E := by
  refine .request fun a ha => ?_
  obtain ⟨hrely, hnotes⟩ := ha
  obtain ⟨a, notes⟩ := a
  obtain rfl : notes = s.2 := hnotes
  obtain ⟨hcut, hdone, hq⟩ := h a hrely
  refine ⟨?_, hdone, hq⟩
  rintro ⟨b, later⟩ ⟨hb, rfl⟩
  rcases hb with hb | hb
  · obtain rfl : b = a := hb
    exact hcut
  · exact absurd hb (hwhole _ _)

end RemoteCodex.Interact
