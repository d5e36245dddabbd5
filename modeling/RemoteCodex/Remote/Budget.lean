import RemoteCodex.Remote.Recovery

/-!
# What the recovery budget bounds

A call of `wait` that found an attempt left claims it until it is counted.
Calls that overlap can claim the same attempt, so the bound counts how many
calls are in progress at once.
-/

namespace RemoteCodex.Remote

open Interact

/-- The call has neither returned nor been dropped. -/
def Waiter.active (w : Waiter) : Bool :=
  match w.phase with
  | .returned _ => false
  | .dropped => false
  | _ => true

/-- The call has found an attempt left that it has not taken yet. -/
def Waiter.claims (w : Waiter) : Bool :=
  match w.phase with
  | .classifying used limit => used < limit
  | .deciding used limit _ => used < limit
  | .reconnecting .. => true
  | .sleeping => true
  | .counting manual => !manual
  | _ => false

namespace Recovery

def active (r : Recovery) : Nat := r.waiters.countP Waiter.active

def claims (r : Recovery) : Nat := r.waiters.countP Waiter.claims

/-- At most `W` calls of `wait` are in progress at once. -/
def Within (W : Nat) (r : Recovery) : Event → Prop
  | .start _ => r.active < W
  | _ => True

instance (W : Nat) (r : Recovery) (e : Event) : Decidable (Within W r e) := by
  cases e <;> unfold Within <;> infer_instance

abbrev Reaches (C : Recovery → Event → Prop) (h : List Event) (r : Recovery) : Prop := Run next C {} h r

variable {r r' : Recovery} {w w' : Waiter} {input : Input} {state : EnvironmentState}

theorem publish_cases (r : Recovery) (state : EnvironmentState) :
    r.publish state = r ∨
    state = .ready ∧ r.state ≠ .closed ∧ r.publish state = { r.resetAttempts with readying := true } ∨
    state ≠ .ready ∧ r.state ≠ .closed ∧ r.publish state = { r with state } := by
  unfold publish
  by_cases hc : r.state = .closed
  · exact .inl (by simp [hc])
  · by_cases hs : r.state = state
    · exact .inl (by simp [hs])
    · by_cases hr : state = .ready
      · exact .inr (.inl ⟨hr, hc, by simp [hc, hr]; exact fun h => absurd (h.trans hr.symm) hs⟩)
      · exact .inr (.inr ⟨hr, hc, by simp [hc, hs, hr]⟩)

/-- Telling the user of an attempt leaves the attempts alone. -/
theorem publish_keeps (h : s ≠ .ready) : (r.publish s).attempts = r.attempts ∧
    (r.publish s).passed = r.passed ∧ (r.publish s).waiters = r.waiters ∧
    (r.publish s).rebuilding = r.rebuilding ∧ (r.publish s).readying = r.readying := by
  rcases r.publish_cases s with hp | ⟨hr, -⟩ | ⟨-, -, hp⟩
  · rw [hp]
    exact ⟨rfl, rfl, rfl, rfl, rfl⟩
  · exact absurd hr h
  · rw [hp]
    exact ⟨rfl, rfl, rfl, rfl, rfl⟩

/-- What a step of a waiter does to the attempts and to its own claim. -/
inductive Counts (r r' : Recovery) (w w' : Waiter) : Prop
  | same : r'.attempts = r.attempts → r'.passed = r.passed → (w'.claims = true → w.claims = true) → Counts r r' w w'
  | claim (a : Attempts) : r'.attempts = some a → (r.attempts = some a ∨ r.attempts = none ∧ a.used = 0) →
      r'.passed = r.passed → w.claims = false → (w'.claims = true → a.used < a.limit) → Counts r r' w w'
  | reset : r'.attempts = none → r'.passed = 0 → w'.claims = false → Counts r r' w w'
  | count (a : Attempts) (manual : Bool) : r.attempts = some a →
      r'.attempts = some { a with used := a.used + 1 } →
      r'.passed = (if manual then r.passed else r.passed + 1) → w.claims = !manual → w'.claims = false →
      Counts r r' w w'

theorem advance_counts (h : r.advance w input = some (r', w')) :
    w.active = true ∧ r'.waiters = r.waiters ∧ Counts r r' w w' := by
  obtain ⟨error, phase, notified, announced⟩ := w
  cases input with
  | go =>
    cases phase with
    | reading manual =>
      cases ha : r.attempts with
      | none =>
        simp only [advance, ha] at h
        cases h
        exact ⟨rfl, rfl, .same rfl rfl id⟩
      | some a =>
        simp only [advance, ha] at h
        cases h
        refine ⟨rfl, rfl, .claim a ha (.inl ha) rfl rfl ?_⟩
        cases manual <;> simp [Waiter.claims]
    | inserting manual limit =>
      cases h
      refine ⟨rfl, rfl, .claim _ rfl ?_ rfl rfl ?_⟩
      · cases ha : r.attempts with
        | none => exact .inr ⟨rfl, rfl⟩
        | some a => exact .inl rfl
      · cases manual <;> simp [Waiter.claims]
    | classifying used limit =>
      cases h
      exact ⟨rfl, rfl, .same rfl rfl id⟩
    | deciding used limit recoverable =>
      simp only [advance] at h
      split at h
      · split at h
        · cases h
          exact ⟨rfl, rfl, .same rfl rfl (by simp [Waiter.claims])⟩
        · cases h
          exact ⟨rfl, rfl, .same rfl rfl (by simp [Waiter.claims])⟩
      · next hleft =>
        cases h
        refine ⟨rfl, rfl, .same rfl rfl fun _ => ?_⟩
        have hlt : used < limit := by
          simp only [Bool.or_eq_true, decide_eq_true_eq, not_or, Nat.not_le] at hleft
          exact hleft.2
        simpa [Waiter.claims] using hlt
    | announcing code message =>
      simp only [advance] at h
      split at h
      · cases h
      · cases h
        obtain ⟨ha, hp, hw, -⟩ := publish_keeps (r := r) (s := .actionRequired code message) (by simp)
        exact ⟨rfl, hw, .same ha hp (by simp [Waiter.claims])⟩
    | reconnecting used limit =>
      simp only [advance] at h
      split at h
      · cases h
      · cases h
        obtain ⟨ha, hp, hw, -⟩ :=
          publish_keeps (r := r) (s := .reconnecting (used + 1) limit RETRY_DELAY_MS) (by simp)
        exact ⟨rfl, hw, .same ha hp fun _ => rfl⟩
    | resetting =>
      cases h
      exact ⟨rfl, rfl, .reset rfl rfl rfl⟩
    | counting manual =>
      cases ha : r.attempts with
      | none =>
        simp only [advance, ha] at h
        cases h
        exact ⟨rfl, rfl, .same rfl rfl (by simp [Waiter.claims])⟩
      | some a =>
        simp only [advance, ha] at h
        cases h
        exact ⟨rfl, rfl, .count a manual ha rfl rfl rfl rfl⟩
    | publishing manual attempt limit =>
      simp only [advance] at h
      split at h
      · cases h
      · cases h
        obtain ⟨ha, hp, hw, -⟩ := publish_keeps (r := r) (s := .reconnecting attempt limit 0) (by simp)
        exact ⟨rfl, hw, .same ha hp (by simp [Waiter.claims])⟩
    | _ => cases h
  | configured limit =>
    cases phase with
    | configuring manual =>
      cases limit with
      | none =>
        cases h
        exact ⟨rfl, rfl, .same rfl rfl (by simp [Waiter.claims])⟩
      | some limit =>
        cases h
        exact ⟨rfl, rfl, .same rfl rfl (by simp [Waiter.claims])⟩
    | _ => cases h
  | elapsed =>
    simp only [advance] at h
    split at h
    · next hphase =>
      subst hphase
      cases h
      exact ⟨rfl, rfl, .same rfl rfl fun _ => rfl⟩
    · cases h
  | woken =>
    simp only [advance] at h
    split at h
    · next hphase =>
      cases h
      simp only [Bool.and_eq_true, Bool.or_eq_true, decide_eq_true_eq] at hphase
      refine ⟨?_, rfl, .same rfl rfl (by simp [Waiter.claims])⟩
      rcases hphase.2 with rfl | rfl <;> rfl
    · cases h

-- ---------------------------------------------------------------------------
-- The bound
-- ---------------------------------------------------------------------------

/-- A claim is counted against the limit as if it had been taken. Calls beside
the one that looks may hold claims of their own, which the look does not see. -/
structure Budget (W : Nat) (r : Recovery) : Prop where
  active : r.active ≤ W
  fresh : r.attempts = none → r.passed = 0
  bound : ∀ a, r.attempts = some a → r.passed ≤ a.used ∧ r.passed + r.claims ≤ a.limit + (W - 1)

theorem active_of_claims (h : w.claims = true) : w.active = true := by
  unfold Waiter.claims at h
  unfold Waiter.active
  split <;> simp_all

theorem claims_le_active (r : Recovery) : r.claims ≤ r.active :=
  List.countP_mono_left fun _ _ => active_of_claims

/-- A call that holds no claim leaves one place for its own among those in progress. -/
theorem claims_lt_active {k : Nat} (hk : r.waiters[k]? = some w) (ha : w.active = true) (hc : w.claims = false) :
    r.claims < r.active := by
  obtain ⟨hlt, hget⟩ := List.getElem?_eq_some_iff.mp hk
  have hset := List.countP_set (p := Waiter.claims) (a := { w with phase := .sleeping }) hlt
  have hmono : (r.waiters.set k { w with phase := .sleeping }).countP Waiter.claims ≤
      (r.waiters.set k { w with phase := .sleeping }).countP Waiter.active :=
    List.countP_mono_left fun _ _ => active_of_claims
  have hact := List.countP_set (p := Waiter.active) (a := { w with phase := .sleeping }) hlt
  have hpos : 0 < r.waiters.countP Waiter.active :=
    List.countP_pos_iff.mpr ⟨w, hget ▸ List.getElem_mem hlt, ha⟩
  simp only [hget, hc, ha, Bool.false_eq_true, ↓reduceIte] at hset hact
  simp only [Waiter.claims, Waiter.active, ↓reduceIte] at hset hact
  unfold claims active
  omega

theorem count_set {p : Waiter → Bool} {k : Nat} (hk : r.waiters[k]? = some w) (w' : Waiter) :
    (r.waiters.set k w').countP p + (if p w then 1 else 0) = r.waiters.countP p + (if p w' then 1 else 0) := by
  obtain ⟨hlt, hget⟩ := List.getElem?_eq_some_iff.mp hk
  rw [List.countP_set hlt, hget]
  have : p w = true → 0 < r.waiters.countP p :=
    fun h => List.countP_pos_iff.mpr ⟨w, hget ▸ List.getElem_mem hlt, h⟩
  split
  · next h =>
    have := this h
    omega
  · omega

theorem Budget.advance {W k : Nat} (hb : Budget W r) (hk : r.waiters[k]? = some w)
    (h : r.advance w input = some (r', w')) : Budget W { r' with waiters := r'.waiters.set k w' } := by
  obtain ⟨hactive, hwaiters, hcounts⟩ := advance_counts h
  have hclaims := count_set (p := Waiter.claims) hk w'
  have hact := count_set (p := Waiter.active) hk w'
  have hle := claims_le_active r
  have hlimit := hb.active
  rw [hactive] at hact
  simp only [Recovery.claims, Recovery.active] at *
  rw [hwaiters]
  have hactive' : (r.waiters.set k w').countP Waiter.active ≤ W := by
    simp only [↓reduceIte] at hact
    split at hact <;> omega
  cases hcounts with
  | same ha hp hc =>
    refine ⟨hactive', fun h => hp ▸ hb.fresh (ha ▸ h), fun a h => ?_⟩
    obtain ⟨hused, hbound⟩ := hb.bound a (ha ▸ h)
    simp only [Recovery.claims] at hbound ⊢
    refine ⟨hp ▸ hused, ?_⟩
    rw [hp]
    split at hclaims
    · split at hclaims <;> omega
    · next hno =>
      rw [if_neg fun h => hno (hc h)] at hclaims
      omega
  | claim a ha hold hp hno hc =>
    have hroom := claims_lt_active hk hactive hno
    simp only [Recovery.claims, Recovery.active] at hroom
    refine ⟨hactive', by simp [ha], fun a' h' => ?_⟩
    obtain rfl := Option.some.inj (ha.symm.trans h')
    simp only [Recovery.claims]
    rw [hno] at hclaims
    simp only [Bool.false_eq_true, ↓reduceIte, Nat.add_zero] at hclaims
    rw [hp]
    rcases hold with hsome | ⟨hnone, hzero⟩
    · obtain ⟨hused, hbound⟩ := hb.bound a hsome
      simp only [Recovery.claims] at hbound
      refine ⟨hused, ?_⟩
      split at hclaims
      · next hyes =>
        have := hc hyes
        omega
      · omega
    · have hpassed := hb.fresh hnone
      refine ⟨by omega, ?_⟩
      split at hclaims
      · next hyes =>
        have := hc hyes
        omega
      · omega
  | reset ha hp hc =>
    exact ⟨hactive', fun _ => hp, fun a h' => by rw [ha] at h'; cases h'⟩
  | count a manual hsome ha hp hc hno =>
    refine ⟨hactive', by simp [ha], fun a' h' => ?_⟩
    obtain rfl := Option.some.inj (ha.symm.trans h')
    obtain ⟨hused, hbound⟩ := hb.bound a hsome
    simp only [Recovery.claims] at hbound ⊢
    rw [hc, hno] at hclaims
    cases manual with
    | true =>
      simp only [↓reduceIte] at hp
      simp only [Bool.not_true, Bool.false_eq_true, ↓reduceIte] at hclaims
      exact ⟨by omega, by omega⟩
    | false =>
      simp only [Bool.false_eq_true, ↓reduceIte] at hp
      simp only [Bool.not_false, ↓reduceIte, Bool.false_eq_true] at hclaims
      exact ⟨by omega, by omega⟩

theorem Budget.publish {W : Nat} (hb : Budget W r) (state : EnvironmentState) : Budget W (r.publish state) := by
  rcases r.publish_cases state with hp | ⟨-, -, hp⟩ | ⟨-, -, hp⟩
  · rw [hp]
    exact hb
  · rw [hp]
    exact ⟨hb.active, fun _ => rfl, fun a h => by cases h⟩
  · rw [hp]
    exact ⟨hb.active, hb.fresh, hb.bound⟩

theorem Budget.next {W : Nat} {e : Event} (hb : Budget W r) (hw : Within W r e) (hn : r.next e = some r') :
    Budget W r' := by
  cases e with
  | start error =>
    obtain rfl := Option.some.inj hn
    refine ⟨?_, hb.fresh, fun a ha => ?_⟩
    · have hone : (r.waiters ++ [({ error := error } : Waiter)]).countP Waiter.active = r.active + 1 := by
        simp [Recovery.active, Waiter.active]
      exact le_of_eq_of_le hone hw
    · have := hb.bound a ha
      simpa [Recovery.claims, Waiter.claims] using this
  | advance k input =>
    obtain ⟨w, hk, hn⟩ := Option.bind_eq_some_iff.mp hn
    obtain ⟨⟨r₁, w₁⟩, hadv, rfl⟩ := Option.map_eq_some_iff.mp hn
    exact hb.advance hk hadv
  | drop k =>
    obtain ⟨w, hk, rfl⟩ := Option.map_eq_some_iff.mp hn
    have hclaims := count_set (p := Waiter.claims) hk { w with phase := .dropped }
    have hact := count_set (p := Waiter.active) hk { w with phase := .dropped }
    simp only [Waiter.claims, Waiter.active, Bool.false_eq_true, ↓reduceIte, Nat.add_zero] at hclaims hact
    refine ⟨?_, hb.fresh, fun a ha => ?_⟩
    · have hlimit := hb.active
      simp only [Recovery.active] at hlimit ⊢
      exact le_trans (by omega) hlimit
    · obtain ⟨hused, hbound⟩ := hb.bound a ha
      simp only [Recovery.claims] at hbound ⊢
      exact ⟨hused, le_trans (by omega) hbound⟩
  | publish state =>
    simp only [Recovery.next] at hn
    split at hn
    · cases hn
    · obtain rfl := Option.some.inj hn
      exact hb.publish state
  | readied =>
    simp only [Recovery.next] at hn
    split at hn
    · obtain rfl := Option.some.inj hn
      exact ⟨hb.active, hb.fresh, hb.bound⟩
    · cases hn
  | retry =>
    obtain rfl := Option.some.inj hn
    have hc : (r.waiters.map fun w => { w with notified := true }).countP Waiter.claims = r.claims := by
      rw [List.countP_map]
      rfl
    have ha : (r.waiters.map fun w => { w with notified := true }).countP Waiter.active = r.active := by
      rw [List.countP_map]
      rfl
    refine ⟨le_of_eq_of_le ha hb.active, hb.fresh, fun a h => ?_⟩
    simp only [Recovery.claims, hc]
    exact hb.bound a h
  | beginRebuild =>
    obtain rfl := Option.some.inj hn
    exact ⟨hb.active, hb.fresh, hb.bound⟩

-- ---------------------------------------------------------------------------
-- Errors that only the user can resolve
-- ---------------------------------------------------------------------------

/-- The error is neither transient nor one a rebuild recovers from. -/
def Fatal (error : ClientError) : Prop := transient error = false ∧ error.code ∉ rebuildable

theorem not_recoverable {error : ClientError} (h : Fatal error) (rebuilding : Bool) :
    recoverable error rebuilding = false := by
  simp [recoverable, h.1, h.2]

/-- How far a call with a fatal error can be: past its announcement only parked
or woken by a retry. -/
def Obedient (w : Waiter) : Prop :=
  match w.phase with
  | .reading false => True
  | .configuring false => True
  | .inserting false _ => True
  | .classifying .. => True
  | .deciding _ _ false => True
  | .announcing .. => True
  | .parked => w.announced = true
  | .returned (.error _) => True
  | .dropped => True
  | .reading true => w.announced = true ∧ w.notified = true
  | .configuring true => w.announced = true ∧ w.notified = true
  | .inserting true _ => w.announced = true ∧ w.notified = true
  | .resetting => w.announced = true ∧ w.notified = true
  | .counting true => w.announced = true ∧ w.notified = true
  | .publishing true .. => w.announced = true ∧ w.notified = true
  | .returned (.ok true) => w.announced = true ∧ w.notified = true
  | _ => False

theorem advance_keeps (h : r.advance w input = some (r', w')) :
    w'.error = w.error ∧ w'.notified = w.notified := by
  unfold advance at h
  repeat' split at h
  all_goals cases h
  all_goals exact ⟨rfl, rfl⟩

theorem advance_obedient (hf : Fatal w.error) (ho : Obedient w) (h : r.advance w input = some (r', w')) :
    Obedient w' := by
  obtain ⟨error, phase, notified, announced⟩ := w
  cases input with
  | go =>
    cases phase with
    | reading manual =>
      cases ha : r.attempts <;> cases manual <;> simp only [advance, ha] at h <;> cases h <;> exact ho
    | inserting manual limit =>
      cases manual <;> cases h <;> exact ho
    | classifying used limit =>
      simp only [advance, not_recoverable hf] at h
      cases h
      exact trivial
    | deciding used limit recoverable =>
      cases recoverable with
      | true => exact absurd ho not_false
      | false =>
        simp only [advance, Bool.not_false, Bool.true_or, ↓reduceIte] at h
        split at h <;> cases h <;> exact trivial
    | announcing code message =>
      simp only [advance] at h
      split at h
      · cases h
      · cases h
        exact rfl
    | resetting =>
      cases h
      exact ho
    | counting manual =>
      cases manual with
      | false => exact absurd ho not_false
      | true =>
        cases ha : r.attempts <;> simp only [advance, ha] at h <;> cases h
        · exact trivial
        · exact ho
    | publishing manual attempt limit =>
      cases manual with
      | false => exact absurd ho not_false
      | true =>
        simp only [advance] at h
        split at h
        · cases h
        · cases h
          exact ho
    | reconnecting used limit => exact absurd ho not_false
    | _ => cases h
  | configured limit =>
    cases phase with
    | configuring manual =>
      cases limit <;> cases manual <;> cases h
      · exact trivial
      · exact trivial
      · exact trivial
      · exact ho
    | _ => cases h
  | elapsed =>
    simp only [advance] at h
    split at h
    · next hphase =>
      subst hphase
      exact absurd ho not_false
    · cases h
  | woken =>
    simp only [advance] at h
    split at h
    · next hphase =>
      cases h
      simp only [Bool.and_eq_true, Bool.or_eq_true, decide_eq_true_eq] at hphase
      obtain ⟨hnotified, rfl | rfl⟩ := hphase
      · exact absurd ho not_false
      · exact ⟨ho, hnotified⟩
    · cases h

-- ---------------------------------------------------------------------------
-- Runs
-- ---------------------------------------------------------------------------

/-- Where the waiters after a step come from. -/
inductive Came (r : Recovery) (k : Nat) (w' : Waiter) : Event → Prop
  | stays {e : Event} : (e ≠ .retry) → r.waiters[k]? = some w' → Came r k w' e
  | starts (error : ClientError) : k = r.waiters.length → w' = { error } → Came r k w' (.start error)
  | advances (w : Waiter) (input : Input) (r' : Recovery) : r.waiters[k]? = some w →
      r.advance w input = some (r', w') → Came r k w' (.advance k input)
  | drops (w : Waiter) : r.waiters[k]? = some w → w' = { w with phase := .dropped } → Came r k w' (.drop k)
  | hears (w : Waiter) : r.waiters[k]? = some w → w' = { w with notified := true } → Came r k w' .retry

theorem came {k : Nat} {e : Event} (hn : r.next e = some r') (hk : r'.waiters[k]? = some w') : Came r k w' e := by
  cases e with
  | start error =>
    obtain rfl := Option.some.inj hn
    rcases Nat.lt_trichotomy k r.waiters.length with hlt | rfl | hgt
    · exact .stays (by simp) (by rwa [List.getElem?_append_left hlt] at hk)
    · rw [List.getElem?_concat_length] at hk
      exact .starts error rfl (Option.some.inj hk).symm
    · rw [List.getElem?_eq_none (by simp; omega)] at hk
      cases hk
  | advance j input =>
    obtain ⟨w, hj, hn⟩ := Option.bind_eq_some_iff.mp hn
    obtain ⟨⟨r₁, w₁⟩, hadv, rfl⟩ := Option.map_eq_some_iff.mp hn
    change (r₁.waiters.set j w₁)[k]? = some w' at hk
    rw [(advance_counts hadv).2.1, List.getElem?_set] at hk
    split at hk
    · next hjk =>
      subst hjk
      split at hk
      · obtain rfl := Option.some.inj hk
        exact .advances w input r₁ hj hadv
      · cases hk
    · exact .stays (by simp) hk
  | drop j =>
    obtain ⟨w, hj, rfl⟩ := Option.map_eq_some_iff.mp hn
    rw [List.getElem?_set] at hk
    split at hk
    · next hjk =>
      subst hjk
      split at hk
      · exact .drops w hj (Option.some.inj hk).symm
      · cases hk
    · exact .stays (by simp) hk
  | publish state =>
    simp only [Recovery.next] at hn
    split at hn
    · cases hn
    · obtain rfl := Option.some.inj hn
      refine .stays (by simp) ?_
      rcases r.publish_cases state with hp | ⟨-, -, hp⟩ | ⟨-, -, hp⟩ <;> rwa [hp] at hk
  | readied =>
    simp only [Recovery.next] at hn
    split at hn
    · obtain rfl := Option.some.inj hn
      exact .stays (by simp) hk
    · cases hn
  | retry =>
    obtain rfl := Option.some.inj hn
    rw [List.getElem?_map] at hk
    obtain ⟨w, hw, rfl⟩ := Option.map_eq_some_iff.mp hk
    exact .hears w hw rfl
  | beginRebuild =>
    obtain rfl := Option.some.inj hn
    exact .stays (by simp) hk

/-- The number of calls of `wait` so far. -/
def starts (h : List Event) : Nat := h.countP fun e => match e with | .start _ => true | _ => false

/-- The `k`-th call was started with its error, and what notified it came later. -/
def Begun (h : List Event) (k : Nat) (w : Waiter) : Prop :=
  ∃ later earlier, h = later ++ .start w.error :: earlier ∧ starts earlier = k ∧
    (w.notified = true → .retry ∈ later)

def Parks (w : Waiter) : Prop :=
  match w.phase with
  | .announcing .. => True
  | .parked => True
  | _ => False

structure Known (h : List Event) (r : Recovery) : Prop where
  length : r.waiters.length = starts h
  begun : ∀ (k : Nat) (w : Waiter), r.waiters[k]? = some w → Begun h k w
  obedient : ∀ (k : Nat) (w : Waiter), r.waiters[k]? = some w → Fatal w.error → Obedient w
  unparked : .beginRebuild ∉ h → r.rebuilding = false ∧
    ∀ (k : Nat) (w : Waiter), r.waiters[k]? = some w → ¬ Parks w
  closing : r.readying = true → r.state ≠ .closed

variable {h : List Event} {e : Event} {k : Nat}

theorem Begun.cons (hb : Begun h k w) (he : w'.error = w.error)
    (hn : w'.notified = true → w.notified = true ∨ e = .retry) : Begun (e :: h) k w' := by
  obtain ⟨later, earlier, rfl, hk, hr⟩ := hb
  refine ⟨e :: later, earlier, by rw [he]; rfl, hk, fun hnot => ?_⟩
  rcases hn hnot with hnot | rfl
  · exact List.mem_cons_of_mem _ (hr hnot)
  · exact List.mem_cons_self

theorem obedient_notified (h : Obedient w) : Obedient { w with notified := true } := by
  unfold Obedient at h ⊢
  split at h <;> simp_all

theorem advance_parks (hadv : r.advance w input = some (r', w')) (hw : ¬ Parks w)
    (hr : r.rebuilding = false) : ¬ Parks w' := by
  unfold advance at hadv
  repeat' split at hadv
  all_goals cases hadv
  all_goals first
    | exact not_false
    | simp_all [Parks]

theorem advance_rest (hadv : r.advance w input = some (r', w')) :
    r'.rebuilding = r.rebuilding ∧ r'.readying = r.readying ∧
      (r'.state = r.state ∨ r.state ≠ .closed ∧ r'.state ≠ .closed) := by
  have hpublish : ∀ state : EnvironmentState, state ≠ .ready → state ≠ .closed →
      (r.publish state).rebuilding = r.rebuilding ∧ (r.publish state).readying = r.readying ∧
        ((r.publish state).state = r.state ∨ r.state ≠ .closed ∧ (r.publish state).state ≠ .closed) := by
    intro state hready hclosed
    refine ⟨(publish_keeps hready).2.2.2.1, (publish_keeps hready).2.2.2.2, ?_⟩
    rcases r.publish_cases state with hp | ⟨hr, -⟩ | ⟨-, hc, hp⟩
    · exact .inl (by rw [hp])
    · exact absurd hr hready
    · exact .inr ⟨hc, by rwa [hp]⟩
  unfold advance at hadv
  repeat' split at hadv
  all_goals cases hadv
  all_goals first
    | exact ⟨rfl, rfl, .inl rfl⟩
    | exact hpublish _ (by simp) (by simp)

/-- What a step does to the fields beside the waiters and the attempts. -/
theorem next_rest (hn : r.next e = some r') :
    (r'.rebuilding = true → r.rebuilding = true ∨ e = .beginRebuild) ∧
      (r'.readying = true → r.readying = true ∧ r'.state = r.state ∨ r'.state ≠ .closed) ∧
      (r.state = .closed → r.readying = false → r'.state = .closed) := by
  cases e with
  | start error =>
    obtain rfl := Option.some.inj hn
    exact ⟨.inl, fun h => .inl ⟨h, rfl⟩, fun h _ => h⟩
  | advance k input =>
    obtain ⟨w, -, hn⟩ := Option.bind_eq_some_iff.mp hn
    obtain ⟨⟨r₁, w₁⟩, hadv, rfl⟩ := Option.map_eq_some_iff.mp hn
    obtain ⟨hrebuilding, hreadying, hstate⟩ := advance_rest hadv
    refine ⟨fun h => .inl (hrebuilding ▸ h), fun h => ?_, fun h _ => ?_⟩
    · rcases hstate with hstate | ⟨-, hstate⟩
      · exact .inl ⟨hreadying ▸ h, hstate⟩
      · exact .inr hstate
    · rcases hstate with hstate | ⟨hstate, -⟩
      · exact hstate.trans h
      · exact absurd h hstate
  | drop k =>
    obtain ⟨w, -, rfl⟩ := Option.map_eq_some_iff.mp hn
    exact ⟨.inl, fun h => .inl ⟨h, rfl⟩, fun h _ => h⟩
  | publish state =>
    simp only [Recovery.next] at hn
    split at hn
    · cases hn
    · obtain rfl := Option.some.inj hn
      rcases r.publish_cases state with hp | ⟨-, hc, hp⟩ | ⟨-, hc, hp⟩
      · rw [hp]
        exact ⟨.inl, fun h => .inl ⟨h, rfl⟩, fun h _ => h⟩
      · rw [hp]
        exact ⟨.inl, fun _ => .inr hc, fun h _ => absurd h hc⟩
      · rw [hp]
        next hopen => exact ⟨.inl, fun h => absurd h hopen, fun h _ => absurd h hc⟩
  | readied =>
    simp only [Recovery.next] at hn
    split at hn
    · next hreadying =>
      obtain rfl := Option.some.inj hn
      refine ⟨nofun, nofun, fun _ h => ?_⟩
      rw [hreadying] at h
      cases h
    · cases hn
  | retry =>
    obtain rfl := Option.some.inj hn
    exact ⟨.inl, fun h => .inl ⟨h, rfl⟩, fun h _ => h⟩
  | beginRebuild =>
    obtain rfl := Option.some.inj hn
    exact ⟨fun _ => .inr rfl, fun h => .inl ⟨h, rfl⟩, fun h _ => h⟩

theorem starts_next (hn : r.next e = some r') : r'.waiters.length = r.waiters.length + starts [e] := by
  cases e with
  | start error =>
    obtain rfl := Option.some.inj hn
    exact List.length_append
  | advance k input =>
    obtain ⟨w, -, hn⟩ := Option.bind_eq_some_iff.mp hn
    obtain ⟨⟨r₁, w₁⟩, hadv, rfl⟩ := Option.map_eq_some_iff.mp hn
    exact List.length_set.trans (congrArg List.length (advance_counts hadv).2.1)
  | drop k =>
    obtain ⟨w, -, rfl⟩ := Option.map_eq_some_iff.mp hn
    exact List.length_set
  | publish state =>
    simp only [Recovery.next] at hn
    split at hn
    · cases hn
    · obtain rfl := Option.some.inj hn
      rcases r.publish_cases state with hp | ⟨-, -, hp⟩ | ⟨-, -, hp⟩ <;> rw [hp] <;> rfl
  | readied =>
    simp only [Recovery.next] at hn
    split at hn
    · obtain rfl := Option.some.inj hn
      rfl
    · cases hn
  | retry =>
    obtain rfl := Option.some.inj hn
    exact List.length_map _
  | beginRebuild =>
    obtain rfl := Option.some.inj hn
    rfl

theorem Known.next (hs : Known h r) (hn : r.next e = some r') : Known (e :: h) r' where
  length := by
    rw [starts_next hn, hs.length]
    simp only [starts, List.countP_cons, List.countP_nil]
    omega
  begun k w' hk := by
    cases came hn hk with
    | stays he hk => exact (hs.begun k w' hk).cons rfl .inl
    | starts error hlen hw =>
      subst hw
      exact ⟨[], h, rfl, by rw [hlen, hs.length], nofun⟩
    | advances w input r₁ hk hadv =>
      obtain ⟨he, hnot⟩ := advance_keeps hadv
      exact (hs.begun k w hk).cons he fun h => .inl (hnot ▸ h)
    | drops w hw heq =>
      subst heq
      exact (hs.begun k w hw).cons rfl .inl
    | hears w hw heq =>
      subst heq
      exact (hs.begun k w hw).cons rfl fun _ => .inr rfl
  obedient k w' hk hf := by
    cases came hn hk with
    | stays he hk => exact hs.obedient k w' hk hf
    | starts error hlen hw =>
      subst hw
      exact trivial
    | advances w input r₁ hk hadv =>
      have herror := (advance_keeps hadv).1
      rw [herror] at hf
      exact advance_obedient hf (hs.obedient k w hk hf) hadv
    | drops w hw heq =>
      subst heq
      exact trivial
    | hears w hw heq =>
      subst heq
      exact obedient_notified (hs.obedient k w hw hf)
  unparked he := by
    obtain ⟨hr, hw⟩ := hs.unparked fun h => he (List.mem_cons_of_mem _ h)
    refine ⟨?_, ?_⟩
    · cases hb : r'.rebuilding with
      | false => rfl
      | true =>
        rcases (next_rest hn).1 hb with h | rfl
        · rw [hr] at h
          cases h
        · exact absurd List.mem_cons_self he
    · intro k w' hk
      cases came hn hk with
      | stays _ hk => exact hw k w' hk
      | starts error hlen heq =>
        subst heq
        exact not_false
      | advances w input r₁ hk hadv => exact advance_parks hadv (hw k w hk) hr
      | drops w _ heq =>
        subst heq
        exact not_false
      | hears w hk' heq =>
        subst heq
        exact hw k w hk'
  closing hr := by
    rcases (next_rest hn).2.1 hr with ⟨hr, hstate⟩ | hstate
    · rw [hstate]
      exact hs.closing hr
    · exact hstate

theorem known_of_reaches {C : Recovery → Event → Prop} (hrun : Reaches C h r) : Known h r := by
  induction hrun with
  | start => exact ⟨rfl, by simp, by simp, fun _ => ⟨rfl, by simp⟩, by simp⟩
  | step _ _ hn ih => exact ih.next hn

theorem budget_of_reaches {W : Nat} (hrun : Reaches (Within W) h r) : Budget W r :=
  hrun.invariant ⟨Nat.zero_le _, fun _ => rfl, by simp⟩ fun _ _ _ hb hw hn => hb.next hw hn

/-- A call that has no attempt left, or cannot use one, gives up before a rebuild. -/
theorem refuses {used limit : Nat} {recoverable : Bool} (hphase : w.phase = .deciding used limit recoverable)
    (hnone : recoverable = false ∨ limit ≤ used) (hr : r.rebuilding = false) :
    ∃ fault, r.advance w .go = some (r, { w with phase := .returned (.error fault) }) := by
  refine ⟨.remoteFault (refusal w.error recoverable limit).1 (refusal w.error recoverable limit).2 false, ?_⟩
  have hcond : (!recoverable || decide (limit ≤ used)) = true := by
    rcases hnone with rfl | hle
    · rfl
    · simp [hle]
  simp [advance, hphase, hcond, hr]

/-- Between two resets at most as many calls pass without a retry as the limit
allows, and one more for each further call in progress at once. A call whose
error is fatal passes only after it has told the user and a retry issued after
it began; no call parks before a rebuild; a closed state stays closed. -/
theorem recovery_budget {W : Nat} (hrun : Reaches (Within W) h r) :
    (∀ a, r.attempts = some a → r.passed ≤ a.limit + (W - 1)) ∧
    (∀ (k : Nat) (w : Waiter) (manual : Bool), r.waiters[k]? = some w → Fatal w.error →
      w.phase = .returned (.ok manual) → manual = true ∧ w.announced = true ∧
        ∃ later earlier, h = later ++ .start w.error :: earlier ∧ starts earlier = k ∧ .retry ∈ later) ∧
    (.beginRebuild ∉ h → ∀ (k : Nat) (w : Waiter), r.waiters[k]? = some w → ¬ Parks w) ∧
    (∀ (w : Waiter) (used limit : Nat) (recoverable : Bool), w.phase = .deciding used limit recoverable →
      recoverable = false ∨ limit ≤ used → r.rebuilding = false →
      ∃ fault, r.advance w .go = some (r, { w with phase := .returned (.error fault) })) ∧
    (r.state = .closed → ∀ e r', r.next e = some r' → r'.state = .closed) := by
  have hb := budget_of_reaches hrun
  have hs := known_of_reaches hrun
  refine ⟨?_, ?_, fun he => (hs.unparked he).2, fun _ _ _ _ => refuses, ?_⟩
  · intro a ha
    exact le_trans (Nat.le_add_right _ _) (hb.bound a ha).2
  · intro k w manual hk hf hphase
    have ho := hs.obedient k w hk hf
    unfold Obedient at ho
    rw [hphase] at ho
    cases manual with
    | false => exact absurd ho not_false
    | true =>
      obtain ⟨later, earlier, heq, hstarts, hretry⟩ := hs.begun k w hk
      exact ⟨rfl, ho.1, later, earlier, heq, hstarts, hretry ho.2⟩
  · intro hclosed e r' hn
    refine (next_rest hn).2.2 hclosed ?_
    cases hreadying : r.readying with
    | false => rfl
    | true => exact absurd hclosed (hs.closing hreadying)

/-- Two calls in progress at once take the one attempt there is, and a call
passes on a retry that came before it told the user anything. -/
theorem budget_overrun :
    (∃ h r a, Reaches (Within 2) h r ∧ r.attempts = some a ∧ a.limit < r.passed) ∧
    ∃ earlier later r₁ r₂, Reaches Free earlier r₁ ∧ (∀ w ∈ r₁.waiters, w.announced = false) ∧
      Run next Free r₁ later r₂ ∧ .retry ∉ later ∧
      ∃ w ∈ r₂.waiters, transient w.error = false ∧ w.error.code ∉ rebuildable ∧ w.phase = .returned (.ok true) := by
  constructor
  · refine ⟨[.advance 1 .go, .advance 0 .go, .advance 1 .elapsed, .advance 0 .elapsed,
      .advance 1 .go, .advance 1 .go, .advance 1 .go, .advance 1 .go,
      .advance 0 .go, .advance 0 .go, .advance 0 .go, .advance 0 .go, .advance 0 (.configured (some 1)),
      .advance 0 .go, .start .timeout, .start .timeout],
      { state := .reconnecting 1 1 5000, attempts := some ⟨2, 1⟩, passed := 2,
        waiters := [{ error := .timeout, phase := .publishing false 1 1 },
          { error := .timeout, phase := .publishing false 2 1 }] },
      ⟨2, 1⟩, run_of_play (by decide), rfl, by decide⟩
  · have hearlier : Reaches Free [.retry, .advance 0 .go, .advance 0 .go, .advance 0 .go,
        .advance 0 (.configured (some 10)), .advance 0 .go, .beginRebuild,
        .start (.other "SKILLS_CHANGED" "skills changed")]
        { attempts := some ⟨0, 10⟩, rebuilding := true,
          waiters := [{ error := .other "SKILLS_CHANGED" "skills changed",
                        phase := .announcing "SKILLS_CHANGED" "skills changed", notified := true }] } :=
      run_of_play (by decide)
    have hlater : Run next Free
        { attempts := some ⟨0, 10⟩, rebuilding := true,
          waiters := [{ error := .other "SKILLS_CHANGED" "skills changed",
                        phase := .announcing "SKILLS_CHANGED" "skills changed", notified := true }] }
        [.advance 0 .go, .advance 0 .go, .advance 0 .go, .advance 0 (.configured (some 10)), .advance 0 .go,
          .advance 0 .go, .advance 0 .woken, .advance 0 .go]
        { state := .reconnecting 1 10 0, attempts := some ⟨1, 10⟩, rebuilding := true,
          waiters := [{ error := .other "SKILLS_CHANGED" "skills changed", phase := .returned (.ok true),
                        notified := true, announced := true }] } :=
      run_of_play (by decide)
    exact ⟨_, _, _, _, hearlier, by decide, hlater, by decide, _, List.mem_singleton_self _, by decide, by decide, rfl⟩

theorem recovery_budget_one : ∃ h r a, Reaches (Within 1) h r ∧ r.attempts = some a ∧ r.passed = 1 ∧
    r.passed ≤ a.limit + (1 - 1) := by
  have hrun : Reaches (Within 1) [.advance 0 .go, .advance 0 .elapsed, .advance 0 .go, .advance 0 .go,
      .advance 0 .go, .advance 0 .go, .advance 0 (.configured (some 1)), .advance 0 .go, .start .timeout]
      { state := .reconnecting 1 1 5000, attempts := some ⟨1, 1⟩, passed := 1,
        waiters := [{ error := .timeout, phase := .publishing false 1 1 }] } :=
    run_of_play (by decide)
  exact ⟨_, _, _, hrun, rfl, rfl, (recovery_budget hrun).1 _ rfl⟩

end Recovery

end RemoteCodex.Remote
