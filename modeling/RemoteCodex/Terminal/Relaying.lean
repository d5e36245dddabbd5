import RemoteCodex.Terminal.Slots

/-!
# What a terminal forwards

From where the relay has subscribed to a session, the events it forwards follow
one another without a gap for as long as that session is the current one. Once
another is, what the relay takes from the old stream is not forwarded.
-/

namespace RemoteCodex.Terminal

open Interact

/-- The session the relay looks at, and the version it saw. -/
def Relay.target : Relay → Option (Nat × Nat)
  | .observing | .ended => none
  | .observed m seen | .subscribed m seen _ | .waiting m seen _ | .received m seen _ | .sending m seen _ =>
    some (m, seen)

/-- The next event that is to be forwarded. -/
def Relay.reading : Relay → Option (Nat × Nat)
  | .observing | .ended | .observed _ _ => none
  | .subscribed m _ position | .waiting m _ position | .received m _ position | .sending m _ position =>
    some (m, position)

/-- The next event that is to be taken from the stream. -/
def Relay.ahead : Relay → Option (Nat × Nat)
  | .observing | .ended | .observed _ _ => none
  | .subscribed m _ position | .waiting m _ position => some (m, position)
  | .received m _ position | .sending m _ position => some (m, position + 1)

def Relay.sends (m : Nat) : Relay → Bool
  | .sending m' _ _ => m' = m
  | _ => false

namespace Sessions

variable {s t u : Sessions} {e : TerminalEvent} {m n : Nat} {r : Runtime}

/-- The events of a session that were forwarded. -/
def events (s : Sessions) (m : Nat) : List Nat := (s.forwarded.filter fun p => p.1 = m).map Prod.snd

/-- From where the relay has subscribed, without a gap. -/
def Contiguous (s : Sessions) (m : Nat) : Prop :=
  match s.joined.lookup m with
  | none => s.events m = []
  | some j => ∃ k, s.events m = List.range' j k

/-- What was forwarded of `m` is what lies before `position`. -/
def Aligned (s : Sessions) (m position : Nat) : Prop :=
  ∃ j, s.joined.lookup m = some j ∧ j ≤ position ∧ s.events m = List.range' j (position - j)

structure Relaying (s : Sessions) : Prop where
  target : ∀ m seen, s.relay.target = some (m, seen) →
    (s.sessions.lookup m).isSome = true ∧ seen ≤ s.version ∧ (m = s.current ↔ seen = s.version)
  joined : ∀ m j, s.joined.lookup m = some j → (s.sessions.lookup m).isSome = true
  current : (s.joined.lookup s.current).isSome = true →
    s.relay = .ended ∨ ∃ position, s.relay.reading = some (s.current, position)
  unjoined : ∀ m seen, s.relay = .observed m seen → s.joined.lookup m = none
  events : ∀ m, s.Contiguous m
  reading : ∀ m position, s.relay.reading = some (m, position) →
    m = s.current ∨ s.relay.sends m = true → s.Aligned m position
  ahead : ∀ m position r, s.relay.ahead = some (m, position) → s.sessions.lookup m = some r → position ≤ r.sent

-- ---------------------------------------------------------------------------
-- What a step can do
-- ---------------------------------------------------------------------------

/-- No session goes away or takes an event back. -/
def Grows (s t : Sessions) : Prop :=
  ∀ m r, s.sessions.lookup m = some r → ∃ r', t.sessions.lookup m = some r' ∧ r.sent ≤ r'.sent

/-- A step beside the relay that does not switch. -/
structure Aside (s t : Sessions) : Prop where
  relay : t.relay = s.relay
  joined : t.joined = s.joined
  forwarded : t.forwarded = s.forwarded
  current : t.current = s.current
  version : t.version = s.version
  grows : Grows s t

theorem grows_same (h : t.sessions = s.sessions) : Grows s t := fun _ r hr => ⟨r, h ▸ hr, Nat.le_refl _⟩

theorem Grows.known (h : Grows s t) (hm : (s.sessions.lookup m).isSome = true) :
    (t.sessions.lookup m).isSome = true := by
  obtain ⟨r, hr⟩ := Option.isSome_iff_exists.mp hm
  obtain ⟨r', hr', -⟩ := h m r hr
  rw [hr']
  rfl

theorem grows_insert (hnew : s.sessions.lookup m = none) (h : t.sessions = s.sessions.insert m r) : Grows s t := by
  intro k r' hr'
  refine ⟨r', ?_, Nat.le_refl _⟩
  have hne : k ≠ m := by
    rintro rfl
    rw [hnew] at hr'
    cases hr'
  rw [h, AList.lookup_insert_ne hne]
  exact hr'

theorem Aside.rfl : Aside s s := ⟨.refl _, .refl _, .refl _, .refl _, .refl _, grows_same (.refl _)⟩

theorem Aside.trans (h : Aside s t) (h' : Aside t u) : Aside s u where
  relay := h'.relay.trans h.relay
  joined := h'.joined.trans h.joined
  forwarded := h'.forwarded.trans h.forwarded
  current := h'.current.trans h.current
  version := h'.version.trans h.version
  grows m r hr := by
    obtain ⟨r₁, hr₁, hle₁⟩ := h.grows m r hr
    obtain ⟨r₂, hr₂, hle₂⟩ := h'.grows m r₁ hr₁
    exact ⟨r₂, hr₂, Nat.le_trans hle₁ hle₂⟩

theorem aside_alter (s : Sessions) (session : Nat) {f : Runtime → Runtime} (hf : ∀ r, r.sent ≤ (f r).sent) :
    Aside s (s.alter session f) := by
  refine ⟨.refl _, .refl _, .refl _, .refl _, .refl _, fun m r hr => ?_⟩
  refine ⟨if m = session then f r else r, ?_, ?_⟩
  · simp [alter, Table.lookup_update, hr]
  · split
    · exact hf r
    · exact Nat.le_refl _

theorem aside_setWork (s : Sessions) (n : Nat) (w : Work) : Aside s (s.setWork n w) :=
  ⟨.refl _, .refl _, .refl _, .refl _, .refl _, grows_same (.refl _)⟩

theorem aside_finish (s : Sessions) (n : Nat) : Aside s (s.finish n) :=
  ⟨.refl _, .refl _, .refl _, .refl _, .refl _, grows_same (.refl _)⟩

theorem aside_log (s : Sessions) (session : Nat) (q : Request) : Aside s (s.log session q) :=
  ⟨.refl _, .refl _, .refl _, .refl _, .refl _, grows_same (.refl _)⟩

theorem aside_execute (s : Sessions) (session : Nat) (q : Request) : Aside s (s.execute session q) := by
  unfold execute
  split
  · exact aside_log s session q
  · exact .rfl

theorem aside_shutdown (s : Sessions) (session : Nat) : Aside s (s.shutdown session) :=
  aside_alter s session fun _ => Nat.le_refl _

theorem aside_request (s : Sessions) (q : Request) : Aside s (s.request q) := by
  unfold request
  split
  · exact aside_execute s _ q
  · split
    · exact .rfl
    · split
      · next id hp _ =>
        have hfree : Aside s { s with previous := none } :=
          ⟨.refl _, .refl _, .refl _, .refl _, .refl _, grows_same (.refl _)⟩
        exact hfree.trans (aside_shutdown _ id)
      · exact aside_execute s _ q
      · exact .rfl

theorem aside_locked (s : Sessions) (n : Nat) (q : Request) : Aside s (s.locked n q) := by
  have hheld : ∀ w, Aside s { (s.log s.current q).setWork n w with lock := some (.work n) } := fun _ =>
    ⟨.refl _, .refl _, .refl _, .refl _, .refl _, grows_same (.refl _)⟩
  unfold locked
  split
  · exact aside_setWork s n _
  · split
    · split
      · exact hheld _
      · exact aside_setWork s n _
    · split
      · exact aside_setWork s n _
      · exact hheld _

/-- What a switch does to `s`: `m` is new, and current from now on. -/
structure Switched (s t : Sessions) (m : Nat) : Prop where
  fresh : s.sessions.lookup m = none
  relay : t.relay = s.relay
  joined : t.joined = s.joined
  forwarded : t.forwarded = s.forwarded
  current : t.current = m
  version : t.version = s.version + 1
  grows : Grows s t

theorem next_cases (hnext : s.next e = some t) : ofRelay e = true ∨ Aside s t ∨ ∃ m, Switched s t m := by
  by_cases he : ofRelay e = true
  · exact .inl he
  refine .inr ?_
  cases e with
  | ask n q =>
    left
    simp only [next] at hnext
    split at hnext
    · cases hnext
    · split at hnext <;> cases hnext
      · exact aside_setWork s n _
      · exact aside_setWork s n _
      · exact aside_setWork s n _
      · exact (aside_request s q).trans (aside_setWork _ n _)
  | lock n =>
    left
    simp only [next] at hnext
    split at hnext <;> cases hnext
    exact aside_locked s n _
  | created n session sent registered =>
    simp only [next] at hnext
    split at hnext
    · split at hnext
      · cases hnext
      · next hfresh =>
        rw [Bool.or_eq_true, not_or] at hfresh
        have hnew : s.sessions.lookup session = none := by simpa using hfresh.1
        cases hnext
        split
        · exact .inr ⟨session, hnew, rfl, rfl, rfl, rfl, rfl, grows_insert hnew rfl⟩
        · exact .inl ⟨rfl, rfl, rfl, rfl, rfl, grows_insert hnew rfl⟩
    · cases hnext
  | refused n =>
    left
    simp only [next] at hnext
    split at hnext <;> cases hnext
    exact aside_finish s n
  | reverted n =>
    left
    simp only [next] at hnext
    split at hnext <;> cases hnext
    exact aside_finish s n
  | cancel n =>
    left
    simp only [next] at hnext
    split at hnext <;> cases hnext
    exact aside_finish s n
  | broadcast m =>
    cases hnext
    exact .inl (aside_alter s m fun _ => Nat.le_succ _)
  | shut m =>
    cases hnext
    exact .inl (aside_shutdown s m)
  | revoke m =>
    cases hnext
    exact .inl (aside_alter s m fun _ => Nat.le_refl _)
  | close =>
    left
    simp only [next] at hnext
    split at hnext <;> cases hnext
    exact ⟨rfl, rfl, rfl, rfl, rfl, grows_same rfl⟩
  | closeLocked =>
    left
    simp only [next] at hnext
    split at hnext <;> cases hnext
    have hshut := aside_shutdown s s.current
    exact ⟨rfl, rfl, rfl, rfl, rfl, hshut.grows⟩
  | closePrevious =>
    left
    simp only [next] at hnext
    split at hnext
    · next p _ =>
      cases hnext
      have hshut := aside_shutdown s p
      exact ⟨rfl, rfl, rfl, rfl, rfl, hshut.grows⟩
    · cases hnext
      exact ⟨rfl, rfl, rfl, rfl, rfl, grows_same rfl⟩
    · cases hnext
  | _ => exact absurd rfl he

-- ---------------------------------------------------------------------------
-- Steps beside the relay
-- ---------------------------------------------------------------------------

theorem events_same (h : t.forwarded = s.forwarded) (m : Nat) : t.events m = s.events m := by
  simp only [Sessions.events, h]

theorem Contiguous.same (h : s.Contiguous m) (hjoined : t.joined = s.joined) (hevents : t.events m = s.events m) :
    t.Contiguous m := by
  simpa only [Contiguous, hjoined, hevents] using h

theorem Aligned.same {position : Nat} (h : s.Aligned m position) (hjoined : t.joined = s.joined)
    (hforwarded : t.forwarded = s.forwarded) : t.Aligned m position := by
  simpa only [Aligned, hjoined, events_same hforwarded] using h

theorem ahead_target {relay : Relay} {position : Nat} (h : relay.ahead = some (m, position)) :
    ∃ seen, relay.target = some (m, seen) := by
  cases relay <;> simp_all [Relay.ahead, Relay.target]

theorem reading_target {relay : Relay} {position : Nat} (h : relay.reading = some (m, position)) :
    ∃ seen, relay.target = some (m, seen) := by
  cases relay <;> simp_all [Relay.reading, Relay.target]

/-- What the relay has still to take was broadcast, however the sessions grow. -/
theorem Relaying.grown (h : s.Relaying) (hgrows : Grows s t) (position : Nat)
    (ha : s.relay.ahead = some (m, position)) (hr : t.sessions.lookup m = some r) : position ≤ r.sent := by
  obtain ⟨seen, ht⟩ := ahead_target ha
  obtain ⟨r₀, hr₀⟩ := Option.isSome_iff_exists.mp (h.target m seen ht).1
  obtain ⟨r', hr', hle⟩ := hgrows m r₀ hr₀
  rw [hr] at hr'
  cases hr'
  exact Nat.le_trans (h.ahead m position r₀ ha hr₀) hle

theorem Relaying.aside (h : s.Relaying) (ha : Aside s t) : t.Relaying := by
  constructor
  case target =>
    intro m seen ht
    rw [ha.relay] at ht
    rw [ha.current, ha.version]
    obtain ⟨hknown, hrest⟩ := h.target m seen ht
    exact ⟨ha.grows.known hknown, hrest⟩
  case joined =>
    intro m j hj
    rw [ha.joined] at hj
    exact ha.grows.known (h.joined m j hj)
  case current =>
    rw [ha.joined, ha.current, ha.relay]
    exact h.current
  case unjoined =>
    rw [ha.relay, ha.joined]
    exact h.unjoined
  case events =>
    intro m
    exact (h.events m).same ha.joined (events_same ha.forwarded m)
  case reading =>
    intro m position hread hor
    rw [ha.relay] at hread hor
    rw [ha.current] at hor
    exact (h.reading m position hread hor).same ha.joined ha.forwarded
  case ahead =>
    intro m position r hread hr
    rw [ha.relay] at hread
    exact h.grown ha.grows position hread hr

theorem Relaying.switched (h : s.Relaying) (hs : Switched s t m) : t.Relaying := by
  have hfresh : ∀ k, (s.sessions.lookup k).isSome = true → k ≠ m := by
    rintro k hk rfl
    rw [hs.fresh] at hk
    cases hk
  constructor
  case target =>
    intro k seen ht
    rw [hs.relay] at ht
    obtain ⟨hknown, hle, -⟩ := h.target k seen ht
    rw [hs.current, hs.version]
    refine ⟨hs.grows.known hknown, Nat.le_succ_of_le hle, ?_⟩
    constructor
    · intro heq
      exact absurd heq (hfresh k hknown)
    · intro heq
      exact absurd heq (Nat.ne_of_lt (Nat.lt_succ_of_le hle))
  case joined =>
    intro k j hj
    rw [hs.joined] at hj
    exact hs.grows.known (h.joined k j hj)
  case current =>
    intro hj
    rw [hs.joined, hs.current] at hj
    obtain ⟨j, hj⟩ := Option.isSome_iff_exists.mp hj
    exact absurd rfl (hfresh m (h.joined m j hj))
  case unjoined =>
    rw [hs.relay, hs.joined]
    exact h.unjoined
  case events =>
    intro k
    exact (h.events k).same hs.joined (events_same hs.forwarded k)
  case reading =>
    intro k position hread hor
    rw [hs.relay] at hread hor
    obtain ⟨seen, ht⟩ := reading_target hread
    rw [hs.current] at hor
    have hsends := hor.resolve_left (hfresh k (h.target k seen ht).1)
    exact (h.reading k position hread (.inr hsends)).same hs.joined hs.forwarded
  case ahead =>
    intro k position r hread hr
    rw [hs.relay] at hread
    exact h.grown hs.grows position hread hr

-- ---------------------------------------------------------------------------
-- Steps of the relay
-- ---------------------------------------------------------------------------

/-- The relay goes on with its session without forwarding anything. -/
theorem Relaying.onward (h : s.Relaying) {relay : Relay} {seen p p' q : Nat}
    (htarget : s.relay.target = some (m, seen)) (hread : s.relay.reading = some (m, p))
    (htarget' : relay.target = some (m, seen)) (hread' : relay.reading = some (m, p'))
    (hkeep : m = s.current ∨ relay.sends m = true → p' = p ∧ m = s.current)
    (hahead : relay.ahead = some (m, q)) (hq : ∀ r, s.sessions.lookup m = some r → q ≤ r.sent) :
    (s.relayed relay).Relaying where
  target k seen' ht := by
    have ht' : relay.target = some (k, seen') := ht
    rw [htarget', ← htarget] at ht'
    exact h.target k seen' ht'
  joined := h.joined
  current hj := by
    rcases h.current hj with hended | ⟨position, hcurrent⟩
    · rw [hended] at hread
      cases hread
    · rw [hread] at hcurrent
      cases hcurrent
      exact .inr ⟨p', hread'⟩
  unjoined k seen' hk := by
    rw [show relay = .observed k seen' from hk] at hread'
    cases hread'
  events := h.events
  reading k position hk hor := by
    have hk' : relay.reading = some (k, position) := hk
    rw [hread'] at hk'
    cases hk'
    obtain ⟨rfl, hcurrent⟩ := hkeep hor
    exact h.reading m p' hread (.inl hcurrent)
  ahead k position r hk hr := by
    have hk' : relay.ahead = some (k, position) := hk
    rw [hahead] at hk'
    cases hk'
    exact hq r hr

/-- The relay looks again once its session is not the current one. -/
theorem Relaying.back (h : s.Relaying) {position : Nat} (hread : s.relay.reading = some (m, position))
    (hne : m ≠ s.current) : (s.relayed .observing).Relaying where
  target k seen ht := by cases ht
  joined := h.joined
  current hj := by
    rcases h.current hj with hended | ⟨p, hcurrent⟩
    · rw [hended] at hread
      cases hread
    · rw [hread] at hcurrent
      cases hcurrent
      exact absurd rfl hne
  unjoined k seen hk := by cases hk
  events := h.events
  reading k p hk _ := by cases hk
  ahead k p r hk _ := by cases hk

theorem Relaying.stop (h : s.Relaying) (revoked closed : Bool) : (s.stop revoked closed).Relaying where
  target k seen ht := by cases ht
  joined := h.joined
  current _ := .inl rfl
  unjoined k seen hk := by cases hk
  events := h.events
  reading k p hk _ := by cases hk
  ahead k p r hk _ := by cases hk

/-- The relay is not at the current session, and has not been. -/
theorem Relaying.apart (h : s.Relaying) (hended : s.relay ≠ .ended)
    (hread : ∀ position, s.relay.reading ≠ some (s.current, position)) : s.joined.lookup s.current = none := by
  rw [← Option.not_isSome_iff_eq_none]
  intro hj
  rcases h.current hj with hr | ⟨position, hr⟩
  · exact hended hr
  · exact hread position hr

theorem Relaying.observe (h : s.Relaying) (hslots : s.Slots) (hrelay : s.relay = .observing) :
    (s.relayed (.observed s.current s.version)).Relaying := by
  have hnone : s.joined.lookup s.current = none := by
    apply h.apart <;> simp [hrelay, Relay.reading]
  constructor
  case target =>
    intro k seen ht
    cases ht
    exact ⟨hslots.known, Nat.le_refl _, iff_of_true rfl rfl⟩
  case joined => exact h.joined
  case current =>
    intro hj
    have hj' : (s.joined.lookup s.current).isSome = true := hj
    rw [hnone] at hj'
    cases hj'
  case unjoined =>
    intro k seen hk
    cases hk
    exact hnone
  case events => exact h.events
  case reading =>
    intro k p hk
    cases hk
  case ahead =>
    intro k p r hk
    cases hk

/-- The relay subscribes, and has forwarded nothing of that session. -/
theorem Relaying.subscribe (h : s.Relaying) {seen : Nat} (hrelay : s.relay = .observed m seen)
    (hr : s.sessions.lookup m = some r) :
    Relaying { s.relayed (.subscribed m seen r.sent) with joined := s.joined.insert m r.sent } := by
  have hnone : s.joined.lookup s.current = none := by
    apply h.apart <;> simp [hrelay, Relay.reading]
  have hempty : s.events m = [] := by
    have hevents := h.events m
    rwa [Contiguous, h.unjoined m seen hrelay] at hevents
  constructor
  case target =>
    intro k seen' ht
    cases ht
    exact h.target m seen (congrArg Relay.target hrelay)
  case joined =>
    intro k j hj
    rw [Table.lookup_insert_if] at hj
    split at hj
    · next heq =>
      show (s.sessions.lookup k).isSome = true
      rw [heq, hr]
      rfl
    · exact h.joined k j hj
  case current =>
    intro hj
    have hj' : (AList.lookup s.current (s.joined.insert m r.sent)).isSome = true := hj
    rw [Table.lookup_insert_if] at hj'
    split at hj'
    · next heq => exact .inr ⟨r.sent, congrArg (fun k => some (k, r.sent)) heq.symm⟩
    · rw [hnone] at hj'
      cases hj'
  case unjoined =>
    intro k seen' hk
    cases hk
  case events =>
    intro k
    simp only [Contiguous, Table.lookup_insert_if]
    split
    · next hj =>
      split at hj
      · cases hj
      · have hk := h.events k
        rwa [Contiguous, hj] at hk
    · next j hj =>
      split at hj
      · next heq =>
        rw [heq]
        exact ⟨0, hempty⟩
      · have hk := h.events k
        rwa [Contiguous, hj] at hk
  case reading =>
    intro k p hk _
    cases hk
    refine ⟨r.sent, AList.lookup_insert _, Nat.le_refl _, ?_⟩
    rw [Nat.sub_self]
    exact hempty
  case ahead =>
    intro k p r' hk hr'
    cases hk
    rw [show s.sessions.lookup m = some r' from hr'] at hr
    cases hr
    exact Nat.le_refl _

theorem events_append (s : Sessions) (m k position : Nat) (relay : Relay) :
    Sessions.events { s.relayed relay with forwarded := s.forwarded ++ [(m, position)] } k =
      s.events k ++ if m = k then [position] else [] := by
  simp only [Sessions.events, List.filter_append, List.map_append, List.filter_cons, List.filter_nil]
  by_cases heq : m = k
  · simp [heq]
  · simp [heq]

theorem Aligned.next {position : Nat} (h : s.Aligned m position) (relay : Relay) :
    Aligned { s.relayed relay with forwarded := s.forwarded ++ [(m, position)] } m (position + 1) := by
  obtain ⟨j, hj, hle, hevents⟩ := h
  refine ⟨j, hj, Nat.le_succ_of_le hle, ?_⟩
  rw [events_append, hevents, if_pos rfl, Nat.succ_sub hle, List.range'_concat]
  simp [Nat.add_sub_cancel' hle]

/-- The relay forwards what it has taken. -/
theorem Relaying.send (h : s.Relaying) {seen position : Nat} (hrelay : s.relay = .sending m seen position) :
    Relaying { s.relayed (.waiting m seen (position + 1)) with forwarded := s.forwarded ++ [(m, position)] } := by
  have hsends : s.relay.sends m = true := by simp [hrelay, Relay.sends]
  have haligned : s.Aligned m position := h.reading m position (congrArg Relay.reading hrelay) (.inr hsends)
  have hnext := haligned.next (.waiting m seen (position + 1))
  constructor
  case target =>
    intro k seen' ht
    cases ht
    exact h.target m seen (congrArg Relay.target hrelay)
  case joined => exact h.joined
  case current =>
    intro hj
    rcases h.current hj with hended | ⟨p, hread⟩
    · rw [hrelay] at hended
      cases hended
    · rw [hrelay] at hread
      cases hread
      exact .inr ⟨position + 1, rfl⟩
  case unjoined =>
    intro k seen' hk
    cases hk
  case events =>
    intro k
    by_cases heq : m = k
    · subst heq
      obtain ⟨j, hj, -, hevents⟩ := hnext
      rw [Contiguous, hj]
      exact ⟨_, hevents⟩
    · refine (h.events k).same rfl ?_
      rw [events_append, if_neg heq, List.append_nil]
  case reading =>
    intro k p hk _
    cases hk
    exact hnext
  case ahead =>
    intro k p r hk hr
    cases hk
    exact h.ahead m (position + 1) r (congrArg Relay.ahead hrelay) hr

theorem relaying_relay (h : s.Relaying) (hslots : s.Slots) (he : ofRelay e = true) (hnext : s.next e = some t) :
    t.Relaying := by
  cases e with
  | observe =>
    simp only [next] at hnext
    split at hnext <;> cases hnext
    next hrelay => exact h.observe hslots hrelay
  | subscribe =>
    simp only [next] at hnext
    split at hnext
    · next hrelay =>
      obtain ⟨r, hr, rfl⟩ := Option.map_eq_some_iff.mp hnext
      exact h.subscribe hrelay hr
    · cases hnext
  | attach =>
    simp only [next] at hnext
    split at hnext
    · next m seen position hrelay =>
      obtain ⟨r, hr, rfl⟩ := Option.map_eq_some_iff.mp hnext
      have hread : s.relay.reading = some (m, position) := congrArg Relay.reading hrelay
      split
      · split
        · next hne => exact h.back hread (Ne.symm hne)
        · exact h.stop _ _
      · refine h.onward (congrArg Relay.target hrelay) hread rfl rfl (fun hor => ⟨rfl, ?_⟩) rfl ?_
        · exact hor.resolve_right Bool.noConfusion
        · exact fun r => h.ahead m position r (congrArg Relay.ahead hrelay)
    · cases hnext
  | changed =>
    simp only [next] at hnext
    split at hnext
    · next m seen position hrelay =>
      split at hnext
      · next hseen =>
        cases hnext
        have htarget := (h.target m seen (congrArg Relay.target hrelay)).2.2
        exact h.back (congrArg Relay.reading hrelay) fun heq => hseen (htarget.mp heq).symm
      · cases hnext
    · cases hnext
  | sessionRevoked =>
    simp only [next] at hnext
    split at hnext
    · obtain ⟨r, -, hnext⟩ := Option.bind_eq_some_iff.mp hnext
      split at hnext <;> cases hnext
      exact h.stop _ _
    · cases hnext
  | sessionClosed =>
    simp only [next] at hnext
    split at hnext
    · obtain ⟨r, -, hnext⟩ := Option.bind_eq_some_iff.mp hnext
      split at hnext <;> cases hnext
      exact h.stop _ _
    · cases hnext
  | receive =>
    simp only [next] at hnext
    split at hnext
    · next m seen position hrelay =>
      obtain ⟨r, hr, hnext⟩ := Option.bind_eq_some_iff.mp hnext
      split at hnext
      · next hmore =>
        cases hnext
        refine h.onward (congrArg Relay.target hrelay) (congrArg Relay.reading hrelay) rfl rfl (fun hor => ⟨rfl, ?_⟩) rfl ?_
        · exact hor.resolve_right Bool.noConfusion
        · intro r' hr'
          rw [hr] at hr'
          cases hr'
          simp only [Bool.and_eq_true, decide_eq_true_eq] at hmore
          exact hmore.1
      · cases hnext
    · cases hnext
  | check =>
    simp only [next] at hnext
    split at hnext <;> cases hnext
    next m seen position hrelay =>
    have hahead : ∀ r, s.sessions.lookup m = some r → position + 1 ≤ r.sent := fun r =>
      h.ahead m (position + 1) r (congrArg Relay.ahead hrelay)
    split
    · next hne =>
      refine h.onward (congrArg Relay.target hrelay) (congrArg Relay.reading hrelay) rfl rfl (fun hor => ?_) rfl hahead
      exact absurd (hor.resolve_right Bool.noConfusion).symm hne
    · next heq =>
      have hcurrent : m = s.current := (of_not_not heq).symm
      exact h.onward (congrArg Relay.target hrelay) (congrArg Relay.reading hrelay) rfl rfl (fun _ => ⟨rfl, hcurrent⟩) rfl
        hahead
  | send =>
    simp only [next] at hnext
    split at hnext <;> cases hnext
    next hrelay => exact h.send hrelay
  | lag =>
    simp only [next] at hnext
    split at hnext
    · next m seen position hrelay =>
      obtain ⟨r, hr, hnext⟩ := Option.bind_eq_some_iff.mp hnext
      split at hnext <;> cases hnext
      split
      · next hne =>
        refine h.onward (congrArg Relay.target hrelay) (congrArg Relay.reading hrelay) rfl rfl (fun hor => ?_) rfl ?_
        · exact absurd (hor.resolve_right Bool.noConfusion).symm hne
        · intro r' hr'
          rw [hr] at hr'
          cases hr'
          exact Nat.sub_le _ _
      · exact h.stop _ _
    · cases hnext
  | _ => cases he

theorem relaying_next (h : s.Relaying) (hslots : s.Slots) (hnext : s.next e = some t) : t.Relaying := by
  rcases next_cases hnext with he | haside | ⟨m, hswitched⟩
  · exact relaying_relay h hslots he hnext
  · exact h.aside haside
  · exact h.switched hswitched

theorem relaying_start (sent : Nat) : (start sent).Relaying where
  target m seen ht := by cases ht
  joined m j hj := by cases hj
  current hj := by cases hj
  unjoined m seen hk := by cases hk
  events m := rfl
  reading m position hk _ := by cases hk
  ahead m position r hk _ := by cases hk

end Sessions

end RemoteCodex.Terminal
