import RemoteCodex.Server.Profiles

/-!
# Where accepted configurations come from

What the service has accepted under a profile was sent to it, and it could read
it; a call that succeeds was accepted.
-/

namespace RemoteCodex.Server.Profiles

open Interact Config Transfer

variable {parseUrl : ParseUrl} {s t : State} {P Q : String → RemoteConfig → Prop}

/-- Every configuration on its way through the service has `P`. -/
structure Stocked (parseUrl : ParseUrl) (P : String → RemoteConfig → Prop) (s : State) : Prop where
  asked : ∀ {id config}, Call.configure id config ∈ s.calls → P id config
  loaded : ∀ {id config runtime}, Call.loaded id config runtime ∈ s.calls → P id config
  holder : ∀ {id config runtime}, s.holder = some (.persist id config runtime) → P id config
  accepted : ∀ {id config}, (id, config) ∈ s.accepted →
    P id config ∧ ∃ inherited runtime, Runtime.load parseUrl inherited config = .ok runtime
  answered : ∀ {answer}, answer ∈ s.answered → answer.fault = none → (answer.id, answer.config) ∈ s.accepted

namespace Stocked

theorem fresh (inherited : Sorted String String) : Stocked parseUrl P (.fresh inherited) where
  asked := by simp [State.fresh]
  loaded := by simp [State.fresh]
  holder := by simp [State.fresh]
  accepted := by simp [State.fresh]
  answered := by simp [State.fresh]

theorem mono (h : Stocked parseUrl P s) (hPQ : ∀ id config, P id config → Q id config) : Stocked parseUrl Q s where
  asked hin := hPQ _ _ (h.asked hin)
  loaded hin := hPQ _ _ (h.loaded hin)
  holder hheld := hPQ _ _ (h.holder hheld)
  accepted hin := ⟨hPQ _ _ (h.accepted hin).1, (h.accepted hin).2⟩
  answered := h.answered

/-- A step that accepts nothing, and whose calls were there or have `P`. -/
theorem keep (h : Stocked parseUrl P s) (haccepted : t.accepted = s.accepted)
    (hasked : ∀ id config, Call.configure id config ∈ t.calls → Call.configure id config ∈ s.calls ∨ P id config)
    (hloaded : ∀ id config runtime, Call.loaded id config runtime ∈ t.calls →
      Call.loaded id config runtime ∈ s.calls ∨ Call.configure id config ∈ s.calls)
    (hholder : ∀ id config runtime, t.holder = some (.persist id config runtime) →
      s.holder = some (.persist id config runtime) ∨ Call.loaded id config runtime ∈ s.calls)
    (hanswered : ∀ answer ∈ t.answered, answer.fault = none → answer ∈ s.answered ∨
      (answer.id, answer.config) ∈ s.accepted) : Stocked parseUrl P t where
  asked hin := (hasked _ _ hin).elim h.asked id
  loaded hin := (hloaded _ _ _ hin).elim h.loaded h.asked
  holder hheld := (hholder _ _ _ hheld).elim h.holder h.loaded
  accepted hin := h.accepted (haccepted ▸ hin)
  answered hin hfault := by
    rw [haccepted]
    rcases hanswered _ hin hfault with hin | hin
    · exact h.answered hin hfault
    · exact hin

theorem load (h : Stocked parseUrl P s) {call : Nat} (hload : s.load parseUrl call = some t) : Stocked parseUrl P t := by
  simp only [State.load] at hload
  split at hload
  · next id config hcall =>
    have hin : Call.configure id config ∈ s.calls := List.mem_of_getElem? hcall
    split at hload
    · next runtime _ =>
      obtain rfl := Option.some.inj hload
      refine h.keep rfl ?_ ?_ (fun _ _ _ => .inl) fun _ hin _ => .inl hin
      · intro id' config' hmem
        rcases List.mem_or_eq_of_mem_set hmem with hmem | heq
        · exact .inl hmem
        · cases heq
      · intro id' config' runtime' hmem
        rcases List.mem_or_eq_of_mem_set hmem with hmem | heq
        · exact .inl hmem
        · cases heq
          exact .inr hin
    · next fault _ =>
      obtain rfl := Option.some.inj hload
      refine h.keep rfl (fun _ _ hmem => .inl (List.mem_of_mem_eraseIdx hmem))
        (fun _ _ _ hmem => .inl (List.mem_of_mem_eraseIdx hmem)) (fun _ _ _ => .inl) ?_
      intro answer hmem hfault
      rcases List.mem_cons.mp hmem with rfl | hmem
      · cases hfault
      · exact .inl hmem
  · cases hload

theorem enter (h : Stocked parseUrl P s) {call : Nat} (henter : s.enter call = some t) : Stocked parseUrl P t := by
  simp only [State.enter] at henter
  split at henter
  · next c hfree hcall =>
    have hin : c ∈ s.calls := List.mem_of_getElem? hcall
    cases c with
    | configure => cases henter
    | loaded id config runtime =>
      obtain rfl := Option.some.inj henter
      refine h.keep rfl (fun _ _ hmem => .inl (List.mem_of_mem_eraseIdx hmem))
        (fun _ _ _ hmem => .inl (List.mem_of_mem_eraseIdx hmem)) ?_ fun _ hin _ => .inl hin
      intro id' config' runtime' heq
      cases heq
      exact .inr hin
    | snapshot id =>
      simp only [State.entered] at henter
      split at henter <;> obtain rfl := Option.some.inj henter
      · refine h.keep rfl (fun _ _ hmem => .inl (List.mem_of_mem_eraseIdx hmem))
          (fun _ _ _ hmem => .inl (List.mem_of_mem_eraseIdx hmem)) (fun _ _ _ => .inl) fun _ hin _ => .inl hin
      · refine h.keep rfl (fun _ _ hmem => .inl (List.mem_of_mem_eraseIdx hmem))
          (fun _ _ _ hmem => .inl (List.mem_of_mem_eraseIdx hmem)) ?_ fun _ hin _ => .inl hin
        intro id' config' runtime' heq
        cases heq
  · cases henter

/-- The holder leaves the lock, or goes on to something other than a commit. -/
theorem pass (h : Stocked parseUrl P s) (haccepted : t.accepted = s.accepted) (hcalls : t.calls = s.calls)
    (hholder : ∀ id config runtime, t.holder ≠ some (.persist id config runtime))
    (hanswered : ∀ answer ∈ t.answered, answer.fault = none → answer ∈ s.answered ∨
      (answer.id, answer.config) ∈ s.accepted) : Stocked parseUrl P t := by
  refine h.keep haccepted ?_ ?_ (fun _ _ _ heq => absurd heq (hholder _ _ _)) hanswered
  · intro id config hmem
    exact .inl (hcalls ▸ hmem)
  · intro id config runtime hmem
    exact .inl (hcalls ▸ hmem)

theorem proceed (h : Stocked parseUrl P s) (hs : Sound parseUrl s) (hh : Highest s) {held : Section}
    (hheld : s.holder = some held) : Stocked parseUrl P (s.proceed parseUrl held) := by
  cases held with
  | persist id config runtime =>
    simp only [State.proceed]
    split
    · refine h.pass rfl rfl (fun _ _ _ heq => by cases heq) ?_
      intro answer hmem hfault
      rcases List.mem_cons.mp hmem with rfl | hmem
      · cases hfault
      · exact .inl hmem
    · constructor
      · exact h.asked
      · exact h.loaded
      · intro id' config' runtime' heq
        cases heq
      · intro id' config' hmem
        rcases List.mem_cons.mp hmem with heq | hmem
        · cases heq
          exact ⟨h.holder hheld, s.inherited, runtime, hs.holder hheld⟩
        · exact h.accepted hmem
      · intro answer hmem hfault
        exact List.mem_cons_of_mem _ (h.answered hmem hfault)
  | publish id config runtime previous =>
    have hrow := hh.row (hs.holder hheld).2
    simp only [State.proceed]
    have hsame : (s.publish id runtime).accepted = s.accepted ∧ (s.publish id runtime).calls = s.calls ∧
        (s.publish id runtime).answered = s.answered := by
      unfold State.publish
      split <;> exact ⟨rfl, rfl, rfl⟩
    refine h.pass hsame.1 hsame.2.1 (fun _ _ _ heq => by cases heq) ?_
    intro answer hmem hfault
    rcases List.mem_cons.mp hmem with rfl | hmem
    · exact .inr hrow
    · exact .inl (hsame.2.2 ▸ hmem)
  | read id =>
    simp only [State.proceed]
    split
    · exact h.pass rfl rfl (fun _ _ _ heq => by cases heq) fun _ hin _ => .inl hin
    · exact h.pass rfl rfl (fun _ _ _ heq => by cases heq) fun _ hin _ => .inl hin
  | load id config =>
    simp only [State.proceed]
    split
    · exact h.pass rfl rfl (fun _ _ _ heq => by cases heq) fun _ hin _ => .inl hin
    · exact h.pass rfl rfl (fun _ _ _ heq => by cases heq) fun _ hin _ => .inl hin

theorem failed (h : Stocked parseUrl P s) {held : Section} (hfailed : s.failed held = some t) :
    Stocked parseUrl P t := by
  cases held with
  | persist id config runtime =>
    obtain rfl := Option.some.inj hfailed
    refine h.pass rfl rfl nofun ?_
    intro answer hmem hfault
    rcases List.mem_cons.mp hmem with rfl | hmem
    · cases hfault
    · exact .inl hmem
  | read id =>
    obtain rfl := Option.some.inj hfailed
    exact h.pass rfl rfl nofun fun _ hin _ => .inl hin
  | publish => cases hfailed
  | load => cases hfailed

theorem next (h : Stocked parseUrl P s) (hs : Sound parseUrl s) (hh : Highest s) {e : Event}
    (hnext : s.next parseUrl e = some t) (hnew : ∀ id config, e = .configure id config → P id config) :
    Stocked parseUrl P t := by
  cases e with
  | configure id config =>
    obtain rfl := Option.some.inj hnext
    refine h.keep rfl ?_ ?_ (fun _ _ _ => .inl) fun _ hin _ => .inl hin
    · intro id' config' hmem
      rcases List.mem_append.mp hmem with hmem | hmem
      · exact .inl hmem
      · cases List.mem_singleton.mp hmem
        exact .inr (hnew id config rfl)
    · intro id' config' runtime hmem
      rcases List.mem_append.mp hmem with hmem | hmem
      · exact .inl hmem
      · cases List.mem_singleton.mp hmem
  | snapshot id =>
    obtain rfl := Option.some.inj hnext
    refine h.keep rfl ?_ ?_ (fun _ _ _ => .inl) fun _ hin _ => .inl hin
    · intro id' config' hmem
      rcases List.mem_append.mp hmem with hmem | hmem
      · exact .inl hmem
      · cases List.mem_singleton.mp hmem
    · intro id' config' runtime hmem
      rcases List.mem_append.mp hmem with hmem | hmem
      · exact .inl hmem
      · cases List.mem_singleton.mp hmem
  | load call => exact h.load hnext
  | enter call => exact h.enter hnext
  | step =>
    obtain ⟨held, hheld, rfl⟩ := Option.map_eq_some_iff.mp hnext
    exact h.proceed hs hh hheld
  | fail =>
    obtain ⟨held, hheld, hnext⟩ := Option.bind_eq_some_iff.mp hnext
    exact h.failed hnext
  | leave subscriber =>
    obtain rfl := Option.some.inj hnext
    exact h.keep rfl (fun _ _ => .inl) (fun _ _ _ => .inl) (fun _ _ _ => .inl) fun _ hin _ => .inl hin
  | restart inherited =>
    obtain rfl := Option.some.inj hnext
    refine h.keep rfl ?_ ?_ ?_ fun _ hin _ => .inl hin
    · simp [State.restart]
    · simp [State.restart]
    · simp [State.restart]

end Stocked

end RemoteCodex.Server.Profiles
