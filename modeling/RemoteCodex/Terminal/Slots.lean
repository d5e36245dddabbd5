import RemoteCodex.Terminal.Sessions

/-!
# Which sessions a terminal holds

An open session is the current one or the previous one, until the terminal's
end has closed them both: the lock keeps a session from coming up meanwhile, and
a session that is let go of is closed.
-/

namespace RemoteCodex.Terminal

open Interact

namespace Sessions

variable {s t : Sessions} {e : TerminalEvent} {m n : Nat} {r : Runtime}

def Shut (s : Sessions) (m : Nat) : Prop := ∀ r, s.sessions.lookup m = some r → r.closed = true

structure Slots (s : Sessions) : Prop where
  known : (s.sessions.lookup s.current).isSome = true
  held : ∀ m r, s.sessions.lookup m = some r → r.closed = false →
    m = s.current ∨ s.previous = some m ∨ s.closing = .closing (some m)
  creating : ∀ n source, s.work.lookup n = some (.creating source) →
    s.lock = some (.work n) ∧ source = s.current ∧ s.previous = none
  closing : ∀ p, s.closing = .closing p → s.lock = some .close ∧ s.previous = none ∧ s.Shut s.current
  done : s.closing = .done → s.previous = none ∧ s.Shut s.current ∧
    ∀ n source, s.work.lookup n ≠ some (.creating source)
  /-- A terminal that is ending, or has nobody to forward events, says so. -/
  flags : s.closing ≠ .no ∨ s.relay = .ended → s.closed = true ∨ s.revoked = true

theorem slots_start (sent : Nat) : (start sent).Slots where
  known := by
    simp only [start]
    rw [AList.lookup_insert]
    rfl
  held m r hm _ := by
    simp only [start] at hm ⊢
    rw [Table.lookup_insert_if] at hm
    split at hm
    · next heq => exact .inl heq
    · cases hm
  creating _ _ h := by cases h
  closing _ h := by cases h
  done h := by cases h
  flags h := by rcases h with h | h <;> simp [start] at h

-- ---------------------------------------------------------------------------
-- Steps that leave the slots
-- ---------------------------------------------------------------------------

/-- The sessions are the same, and one that was closed still is. -/
def Lasting (s t : Sessions) : Prop :=
  ∀ m, ((s.sessions.lookup m).isSome = true → (t.sessions.lookup m).isSome = true) ∧
    ∀ r', t.sessions.lookup m = some r' → ∃ r, s.sessions.lookup m = some r ∧ (r.closed = true → r'.closed = true)

theorem lasting_same (h : t.sessions = s.sessions) : Lasting s t := by
  intro m
  rw [h]
  exact ⟨fun hs => hs, fun r' hr => ⟨r', hr, fun hc => hc⟩⟩

theorem lasting_alter (s : Sessions) (session : Nat) {f : Runtime → Runtime}
    (hf : ∀ r, r.closed = true → (f r).closed = true) : Lasting s (s.alter session f) := by
  intro m
  simp only [alter, Table.lookup_update]
  refine ⟨fun hs => by rwa [Option.isSome_map], fun r' hr => ?_⟩
  obtain ⟨r, hold, rfl⟩ := Option.map_eq_some_iff.mp hr
  refine ⟨r, hold, fun hc => ?_⟩
  split
  · exact hf r hc
  · exact hc

theorem Lasting.shut (h : Lasting s t) (hs : s.Shut m) : t.Shut m := by
  intro r' hr'
  obtain ⟨r, hr, hclosed⟩ := (h m).2 r' hr'
  exact hclosed (hs r hr)

theorem Lasting.open (h : Lasting s t) (hr : t.sessions.lookup m = some r) (hopen : r.closed = false) :
    ∃ r', s.sessions.lookup m = some r' ∧ r'.closed = false := by
  obtain ⟨r', hr', hclosed⟩ := (h m).2 r hr
  refine ⟨r', hr', ?_⟩
  rw [Bool.eq_false_iff]
  intro hc
  rw [hclosed hc] at hopen
  cases hopen

/-- A step that keeps the slots, and starts nothing that creates a session. -/
theorem Slots.keep (h : s.Slots) (hlasting : Lasting s t) (hcurrent : t.current = s.current)
    (hprevious : t.previous = s.previous) (hclosing : t.closing = s.closing)
    (hcreating : ∀ n source, t.work.lookup n = some (.creating source) →
      s.work.lookup n = some (.creating source) ∧ (s.lock = some (.work n) → t.lock = some (.work n)))
    (hlock : s.lock = some .close → t.lock = some .close)
    (hflags : t.closing ≠ .no ∨ t.relay = .ended → t.closed = true ∨ t.revoked = true) : t.Slots where
  known := by
    rw [hcurrent]
    exact (hlasting _).1 h.known
  held m r hr hopen := by
    obtain ⟨r', hr', hopen'⟩ := hlasting.open hr hopen
    rw [hcurrent, hprevious, hclosing]
    exact h.held m r' hr' hopen'
  creating n source hw := by
    obtain ⟨hw', hl⟩ := hcreating n source hw
    obtain ⟨hlock', hsource, hnone⟩ := h.creating n source hw'
    exact ⟨hl hlock', hcurrent ▸ hsource, hprevious ▸ hnone⟩
  closing p hp := by
    obtain ⟨hl, hnone, hshut⟩ := h.closing p (hclosing ▸ hp)
    exact ⟨hlock hl, hprevious ▸ hnone, hcurrent ▸ hlasting.shut hshut⟩
  done hd := by
    obtain ⟨hnone, hshut, hno⟩ := h.done (hclosing ▸ hd)
    exact ⟨hprevious ▸ hnone, hcurrent ▸ hlasting.shut hshut, fun n source hw => hno n source (hcreating n source hw).1⟩
  flags := hflags

/-- A step of the relay that does not end it. -/
theorem Slots.relay (h : s.Slots) (relay : Relay) (joined : Table Nat Nat) (forwarded : List (Nat × Nat))
    (hrelay : relay ≠ .ended) : Slots { s with relay, joined, forwarded } :=
  h.keep (lasting_same rfl) rfl rfl rfl (fun _ _ hw => ⟨hw, fun hl => hl⟩) (fun hl => hl)
    fun hor => h.flags (.inl (hor.resolve_right hrelay))

theorem Slots.stop (h : s.Slots) {revoked closed : Bool} (hor : closed = true ∨ revoked = true) :
    (s.stop revoked closed).Slots :=
  h.keep (lasting_same rfl) rfl rfl rfl (fun _ _ hw => ⟨hw, fun hl => hl⟩) (fun hl => hl) fun _ => hor

theorem Slots.alter (h : s.Slots) (session : Nat) {f : Runtime → Runtime}
    (hf : ∀ r, r.closed = true → (f r).closed = true) : (s.alter session f).Slots :=
  h.keep (lasting_alter s session hf) rfl rfl rfl (fun _ _ hw => ⟨hw, fun hl => hl⟩) (fun hl => hl) h.flags

theorem Slots.log (h : s.Slots) (session : Nat) (q : Request) : (s.log session q).Slots :=
  h.keep (lasting_same rfl) rfl rfl rfl (fun _ _ hw => ⟨hw, fun hl => hl⟩) (fun hl => hl) h.flags

theorem Slots.execute (h : s.Slots) (session : Nat) (q : Request) : (s.execute session q).Slots := by
  unfold Sessions.execute
  split
  · exact h.log session q
  · exact h

theorem creating_insert {w : Work} {source : Nat} (hw : (s.setWork n w).work.lookup m = some (.creating source))
    (hne : ∀ source, w ≠ .creating source) : m ≠ n ∧ s.work.lookup m = some (.creating source) := by
  simp only [setWork, Table.lookup_insert_if] at hw
  split at hw
  · exact absurd (Option.some.inj hw) (hne source)
  · next hmn => exact ⟨hmn, hw⟩

theorem Slots.setWork (h : s.Slots) {w : Work} (hne : ∀ source, w ≠ .creating source) : (s.setWork n w).Slots :=
  h.keep (lasting_same rfl) rfl rfl rfl (fun _ _ hw => ⟨(creating_insert hw hne).2, fun hl => hl⟩) (fun hl => hl)
    h.flags

theorem Slots.finish (h : s.Slots) (n : Nat) : (s.finish n).Slots := by
  refine h.keep (lasting_same rfl) rfl rfl rfl (fun m source hw => ?_) (fun hl => ?_) h.flags
  · obtain ⟨hne, hold⟩ := creating_insert hw (fun _ => Work.noConfusion)
    refine ⟨hold, fun hl => ?_⟩
    simp only [Sessions.finish, hl]
    rw [if_neg]
    rintro ⟨⟩
    exact hne rfl
  · simp only [Sessions.finish, hl]
    rfl

theorem Slots.shutdown (h : s.Slots) (session : Nat) : (s.shutdown session).Slots :=
  h.alter session fun _ _ => rfl

-- ---------------------------------------------------------------------------
-- Steps that change them
-- ---------------------------------------------------------------------------

theorem shutdown_lookup (hr : (s.shutdown m).sessions.lookup n = some r) (hopen : r.closed = false) :
    n ≠ m ∧ s.sessions.lookup n = some r := by
  simp only [Sessions.shutdown, Sessions.alter, Table.lookup_update] at hr
  obtain ⟨r', hr', rfl⟩ := Option.map_eq_some_iff.mp hr
  split at hopen
  · cases hopen
  · next hne => exact ⟨hne, by rw [if_neg hne]; exact hr'⟩

theorem shutdown_shut (s : Sessions) (m : Nat) : (s.shutdown m).Shut m := by
  intro r hr
  rw [← Bool.not_eq_false]
  intro hopen
  exact (shutdown_lookup hr hopen).1 rfl

/-- The session that is let go of is closed, and then there is none. -/
theorem Slots.unsubscribe (h : s.Slots) {p : Nat} (hp : s.previous = some p) :
    (({ s with previous := none } : Sessions).shutdown p).Slots := by
  have hlasting : Lasting s (s.shutdown p) := lasting_alter s p fun _ _ => rfl
  have hclosing : ∀ q, s.closing ≠ .closing q := by
    intro q hq
    have hnone := (h.closing q hq).2.1
    rw [hp] at hnone
    cases hnone
  have hdone : s.closing ≠ .done := by
    intro hd
    have hnone := (h.done hd).1
    rw [hp] at hnone
    cases hnone
  constructor
  case known => exact (hlasting _).1 h.known
  case held =>
    intro m r hr hopen
    obtain ⟨hne, hr'⟩ := shutdown_lookup (s := s) hr hopen
    rcases h.held m r hr' hopen with hcurrent | hprevious | hc
    · exact .inl hcurrent
    · rw [hp] at hprevious
      cases hprevious
      exact absurd rfl hne
    · exact absurd hc (hclosing _)
  case creating =>
    intro n source hw
    obtain ⟨-, -, hnone⟩ := h.creating n source hw
    rw [hp] at hnone
    cases hnone
  case closing =>
    intro q hq
    exact absurd hq (hclosing q)
  case done =>
    intro hd
    exact absurd hd hdone
  case flags => exact h.flags

theorem Slots.request (h : s.Slots) (q : Request) : (s.request q).Slots := by
  unfold Sessions.request
  by_cases hcurrent : (q.thread.all fun id => id = s.current) = true
  · rw [if_pos hcurrent]
    exact h.execute _ _
  · rw [if_neg hcurrent]
    by_cases hprevious : s.previous ≠ q.thread
    · rw [if_pos hprevious]
      exact h
    · rw [if_neg hprevious]
      split
      · next hp => exact h.unsubscribe hp
      · exact h.execute _ _
      · exact h

theorem Slots.locked (h : s.Slots) (hlock : s.lock = none) (q : Request) : (s.locked n q).Slots := by
  have hdone : ¬ (s.closed || s.revoked) = true → s.closing = .no := by
    intro hflags
    by_contra hno
    exact hflags (by simpa using h.flags (.inl hno))
  unfold Sessions.locked
  by_cases hflags : (s.closed || s.revoked) = true
  · rw [if_pos hflags]
    exact h.setWork fun _ => Work.noConfusion
  · rw [if_neg hflags]
    have hnone : ∀ m source, s.work.lookup m ≠ some (.creating source) := by
      intro m source hw
      have hheld := (h.creating m source hw).1
      rw [hlock] at hheld
      cases hheld
    split
    · split
      · refine h.keep (lasting_same rfl) rfl rfl rfl (fun m source hw => ?_) (fun hl => ?_) h.flags
        · exact absurd (creating_insert (s := s) hw fun _ => Work.noConfusion).2 (hnone m source)
        · rw [hlock] at hl
          cases hl
      · exact h.setWork fun _ => Work.noConfusion
    · split
      · exact h.setWork fun _ => Work.noConfusion
      · next hfree =>
        have hprevious : s.previous = none := by
          simp only [Bool.or_eq_true, not_or] at hfree
          simpa using hfree.1.1
        refine ⟨h.known, h.held, ?_, ?_, ?_, h.flags⟩
        · intro m source hw
          simp only [Sessions.setWork, Sessions.log, Table.lookup_insert_if] at hw
          split at hw
          · next heq =>
            cases hw
            exact ⟨by rw [heq], rfl, hprevious⟩
          · exact absurd hw (hnone m source)
        · intro p hp
          rw [show s.closing = .closing p from hp] at hdone
          cases hdone hflags
        · intro hd
          rw [show s.closing = .done from hd] at hdone
          cases hdone hflags

/-- A session comes up, and the one before it is the previous one. -/
theorem Slots.registered (h : s.Slots) {source : Nat} (sent : Nat) (hw : s.work.lookup n = some (.creating source)) :
    Slots { s.finish n with
      sessions := s.sessions.insert m { sent }
      previous := some source
      current := m
      version := s.version + 1 } := by
  obtain ⟨hlock, rfl, hprevious⟩ := h.creating n source hw
  have hclosing : ∀ q, s.closing ≠ .closing q := by
    intro q hq
    have hclose := (h.closing q hq).1
    rw [hlock] at hclose
    cases hclose
  constructor
  case known =>
    show (AList.lookup m (s.sessions.insert m _)).isSome = true
    rw [AList.lookup_insert]
    rfl
  case held =>
    intro k r hr hopen
    rw [Table.lookup_insert_if] at hr
    split at hr
    · next heq => exact .inl heq
    · rcases h.held k r hr hopen with hcurrent | hp | hc
      · exact .inr (.inl (congrArg some hcurrent.symm))
      · rw [hprevious] at hp
        cases hp
      · exact absurd hc (hclosing _)
  case creating =>
    intro k source hk
    obtain ⟨hne, hk'⟩ := creating_insert (s := s) hk fun _ => Work.noConfusion
    have hheld := (h.creating k source hk').1
    rw [hlock] at hheld
    cases hheld
    exact absurd rfl hne
  case closing =>
    intro q hq
    exact absurd hq (hclosing q)
  case done =>
    intro hd
    exact absurd hw ((h.done hd).2.2 n _)
  case flags => exact h.flags

/-- A session that could not be registered is closed. -/
theorem Slots.unregistered (h : s.Slots) (sent : Nat) (hnew : s.sessions.lookup m = none) :
    Slots { s with sessions := s.sessions.insert m { sent, closed := true } } := by
  have hlasting : ∀ k, k ≠ m → AList.lookup k (s.sessions.insert m ⟨true, false, sent⟩) = s.sessions.lookup k :=
    fun k hne => AList.lookup_insert_ne hne
  have hcurrent : s.current ≠ m := by
    intro heq
    have hknown := h.known
    rw [heq, hnew] at hknown
    cases hknown
  have hshut : s.Shut s.current →
      Shut { s with sessions := s.sessions.insert m { sent, closed := true } } s.current := by
    intro hs r hr
    exact hs r (by rw [← hlasting _ hcurrent]; exact hr)
  refine ⟨?_, ?_, h.creating, ?_, ?_, h.flags⟩
  · show (AList.lookup s.current (s.sessions.insert m _)).isSome = true
    rw [hlasting _ hcurrent]
    exact h.known
  · intro k r hr hopen
    rw [Table.lookup_insert_if] at hr
    split at hr
    · cases hr
      cases hopen
    · exact h.held k r hr hopen
  · intro p hp
    obtain ⟨hlock, hprevious, hs⟩ := h.closing p hp
    exact ⟨hlock, hprevious, hshut hs⟩
  · intro hd
    obtain ⟨hprevious, hs, hno⟩ := h.done hd
    exact ⟨hprevious, hshut hs, hno⟩

/-- The end has the lock: the current session is closed, and the previous one is its to close. -/
theorem Slots.closeLocked (h : s.Slots) (hwaiting : s.closing = .waiting) (hlock : s.lock = none) :
    Slots { s.shutdown s.current with
      previous := none, lock := some .close, closing := .closing s.previous } := by
  have hnone : ∀ m source, s.work.lookup m ≠ some (.creating source) := by
    intro m source hw
    have hheld := (h.creating m source hw).1
    rw [hlock] at hheld
    cases hheld
  have hlasting : Lasting s (s.shutdown s.current) := lasting_alter s _ fun _ _ => rfl
  constructor
  case known => exact (hlasting _).1 h.known
  case held =>
    intro m r hr hopen
    obtain ⟨hne, hr'⟩ := shutdown_lookup (s := s) hr hopen
    rcases h.held m r hr' hopen with hcurrent | hprevious | hc
    · exact absurd hcurrent hne
    · exact .inr (.inr (congrArg Closing.closing hprevious))
    · rw [hwaiting] at hc
      cases hc
  case creating =>
    intro m source hw
    exact absurd hw (hnone m source)
  case closing =>
    intro p _
    exact ⟨rfl, rfl, shutdown_shut s _⟩
  case done =>
    intro hd
    cases hd
  case flags =>
    intro _
    refine h.flags (.inl ?_)
    rw [hwaiting]
    exact Closing.noConfusion

/-- The end is over once the previous session is closed as well. -/
theorem Slots.closePrevious (h : s.Slots) {p : Option Nat} (hc : s.closing = .closing p) (hlasting : Lasting s t)
    (hopen : ∀ m r, t.sessions.lookup m = some r → r.closed = false → p ≠ some m)
    (hcurrent : t.current = s.current) (hprevious : t.previous = s.previous) (hdone : t.closing = .done)
    (hwork : t.work = s.work) (hflags : t.closed = true ∨ t.revoked = true) : t.Slots := by
  obtain ⟨hlock, hnone, hshut⟩ := h.closing p hc
  have hno : ∀ m source, s.work.lookup m ≠ some (.creating source) := by
    intro m source hw
    have hheld := (h.creating m source hw).1
    rw [hlock] at hheld
    cases hheld
  constructor
  case known =>
    rw [hcurrent]
    exact (hlasting _).1 h.known
  case held =>
    intro m r hr ho
    obtain ⟨r', hr', ho'⟩ := hlasting.open hr ho
    rcases h.held m r' hr' ho' with hm | hm | hm
    · rw [hcurrent]
      exact .inl hm
    · rw [hnone] at hm
      cases hm
    · rw [hc] at hm
      exact absurd (Closing.closing.inj hm) (hopen m r hr ho)
  case creating =>
    intro m source hw
    rw [hwork] at hw
    exact absurd hw (hno m source)
  case closing =>
    intro q hq
    rw [hdone] at hq
    cases hq
  case done =>
    intro _
    rw [hprevious, hcurrent, hwork]
    exact ⟨hnone, hlasting.shut hshut, hno⟩
  case flags => exact fun _ => hflags

/-- The steps of the relay. -/
def ofRelay : TerminalEvent → Bool
  | .observe | .subscribe | .attach | .changed | .sessionRevoked | .sessionClosed | .receive | .check | .send | .lag =>
    true
  | _ => false

theorem slots_relay (h : s.Slots) (he : ofRelay e = true) (hnext : s.next e = some t) : t.Slots := by
  cases e with
  | observe =>
    simp only [next] at hnext
    split at hnext <;> cases hnext
    exact h.relay _ s.joined s.forwarded Relay.noConfusion
  | subscribe =>
    simp only [next] at hnext
    split at hnext
    · obtain ⟨r, -, rfl⟩ := Option.map_eq_some_iff.mp hnext
      exact h.relay _ _ s.forwarded Relay.noConfusion
    · cases hnext
  | attach =>
    simp only [next] at hnext
    split at hnext
    · obtain ⟨r, -, rfl⟩ := Option.map_eq_some_iff.mp hnext
      split
      · next hended =>
        split
        · exact h.relay _ s.joined s.forwarded Relay.noConfusion
        · refine h.stop ?_
          rw [Bool.or_eq_true] at hended
          exact hended.symm
      · exact h.relay _ s.joined s.forwarded Relay.noConfusion
    · cases hnext
  | changed =>
    simp only [next] at hnext
    split at hnext
    · split at hnext <;> cases hnext
      exact h.relay _ s.joined s.forwarded Relay.noConfusion
    · cases hnext
  | sessionRevoked =>
    simp only [next] at hnext
    split at hnext
    · obtain ⟨r, -, hnext⟩ := Option.bind_eq_some_iff.mp hnext
      split at hnext <;> cases hnext
      exact h.stop (.inr rfl)
    · cases hnext
  | sessionClosed =>
    simp only [next] at hnext
    split at hnext
    · obtain ⟨r, -, hnext⟩ := Option.bind_eq_some_iff.mp hnext
      split at hnext <;> cases hnext
      exact h.stop (.inl rfl)
    · cases hnext
  | receive =>
    simp only [next] at hnext
    split at hnext
    · obtain ⟨r, -, hnext⟩ := Option.bind_eq_some_iff.mp hnext
      split at hnext <;> cases hnext
      exact h.relay _ s.joined s.forwarded Relay.noConfusion
    · cases hnext
  | check =>
    simp only [next] at hnext
    split at hnext <;> cases hnext
    split <;> exact h.relay _ s.joined s.forwarded Relay.noConfusion
  | send =>
    simp only [next] at hnext
    split at hnext <;> cases hnext
    exact h.relay _ s.joined _ Relay.noConfusion
  | lag =>
    simp only [next] at hnext
    split at hnext
    · obtain ⟨r, -, hnext⟩ := Option.bind_eq_some_iff.mp hnext
      split at hnext <;> cases hnext
      split
      · exact h.relay _ s.joined s.forwarded Relay.noConfusion
      · exact h.stop (.inl rfl)
    · cases hnext
  | _ => cases he

theorem slots_next (h : s.Slots) (hnext : s.next e = some t) : t.Slots := by
  by_cases he : ofRelay e = true
  · exact slots_relay h he hnext
  cases e with
  | ask n q =>
    simp only [next] at hnext
    split at hnext
    · cases hnext
    · split at hnext <;> cases hnext
      · exact h.setWork fun _ => Work.noConfusion
      · exact h.setWork fun _ => Work.noConfusion
      · exact h.setWork fun _ => Work.noConfusion
      · exact (h.request q).setWork fun _ => Work.noConfusion
  | lock n =>
    simp only [next] at hnext
    split at hnext <;> cases hnext
    next hlock => exact h.locked hlock _
  | created n session sent registered =>
    simp only [next] at hnext
    split at hnext
    · next source hw =>
      split at hnext
      · cases hnext
      · next hfresh =>
        rw [Bool.or_eq_true, not_or] at hfresh
        have hnew : s.sessions.lookup session = none := by simpa using hfresh.1
        cases hnext
        split
        · exact h.registered sent hw
        · exact (h.finish n).unregistered sent hnew
    · cases hnext
  | refused n =>
    simp only [next] at hnext
    split at hnext <;> cases hnext
    exact h.finish n
  | reverted n =>
    simp only [next] at hnext
    split at hnext <;> cases hnext
    exact h.finish n
  | cancel n =>
    simp only [next] at hnext
    split at hnext <;> cases hnext
    exact h.finish n
  | broadcast m =>
    cases hnext
    exact h.alter m fun _ hc => hc
  | shut m =>
    cases hnext
    exact h.shutdown m
  | revoke m =>
    cases hnext
    exact h.alter m fun _ hc => hc
  | close =>
    simp only [next] at hnext
    split at hnext <;> cases hnext
    next hno =>
    refine ⟨h.known, fun m r hr hopen => ?_, h.creating, ?_, ?_, fun _ => .inl rfl⟩
    · rcases h.held m r hr hopen with hm | hm | hm
      · exact .inl hm
      · exact .inr (.inl hm)
      · rw [hno] at hm
        cases hm
    · intro p hp
      cases hp
    · intro hd
      cases hd
  | closeLocked =>
    simp only [next] at hnext
    split at hnext
    · next hok =>
      cases hnext
      simp only [Bool.and_eq_true, decide_eq_true_eq, Option.isNone_iff_eq_none] at hok
      exact h.closeLocked hok.1 hok.2
    · cases hnext
  | closePrevious =>
    simp only [next] at hnext
    split at hnext
    · next p hc =>
      cases hnext
      refine h.closePrevious hc (lasting_alter s p fun _ _ => rfl) ?_ rfl rfl rfl rfl (h.flags (.inl ?_))
      · intro m r hr hopen heq
        cases heq
        exact (shutdown_lookup (s := s) hr hopen).1 rfl
      · rw [hc]
        exact Closing.noConfusion
    · next hc =>
      cases hnext
      refine h.closePrevious hc (lasting_same rfl) ?_ rfl rfl rfl rfl (h.flags (.inl ?_))
      · intro m r hr hopen heq
        cases heq
      · rw [hc]
        exact Closing.noConfusion
    · cases hnext
  | _ => exact absurd rfl he

-- ---------------------------------------------------------------------------
-- What the slots say
-- ---------------------------------------------------------------------------

/-- At most one open session is not the current one. -/
theorem Slots.held_one (h : s.Slots) {m' : Nat} (hm : s.isOpen m = true) (hm' : s.isOpen m' = true)
    (hne : m ≠ s.current) (hne' : m' ≠ s.current) : m = m' := by
  have hopen : ∀ {k}, s.isOpen k = true → k ≠ s.current →
      s.previous = some k ∨ s.closing = .closing (some k) := by
    intro k hk hne
    simp only [isOpen, Option.any_eq_true, Bool.and_eq_true, Bool.not_eq_true'] at hk
    obtain ⟨r, hr, hclosed, -⟩ := hk
    exact (h.held k r hr hclosed).resolve_left hne
  rcases hopen hm hne with hp | hp <;> rcases hopen hm' hne' with hp' | hp'
  · exact Option.some.inj (hp.symm.trans hp')
  · rw [(h.closing _ hp').2.1] at hp
    cases hp
  · rw [(h.closing _ hp).2.1] at hp'
    cases hp'
  · exact Option.some.inj (Closing.closing.inj (hp.symm.trans hp'))

/-- Once the end is over, every session is closed. -/
theorem Slots.all_closed (h : s.Slots) (hd : s.closing = .done) (hr : s.sessions.lookup m = some r) :
    r.closed = true := by
  obtain ⟨hprevious, hshut, -⟩ := h.done hd
  rw [← Bool.not_eq_false]
  intro hopen
  rcases h.held m r hr hopen with rfl | hp | hc
  · rw [hshut r hr] at hopen
    cases hopen
  · rw [hprevious] at hp
    cases hp
  · rw [hd] at hc
    cases hc

end Sessions

end RemoteCodex.Terminal
