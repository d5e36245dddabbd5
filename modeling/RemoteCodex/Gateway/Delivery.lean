import RemoteCodex.Gateway.Serve

/-!
# Each request once on each connection

A connection remembers ids, and forgets one when its resolution is sent. That
is enough as long as no process asks under an id that an earlier one has used
and that was not resolved since.
-/

namespace RemoteCodex.Gateway

open Interact

namespace Session

variable {s t : Session} {e : SessionEvent} {c : Connection} {r : Request} {h : List SessionEvent}

-- ---------------------------------------------------------------------------
-- Once on every connection
-- ---------------------------------------------------------------------------

/-- A pending request that was due was sent once, and stands. -/
def Steady (s : Session) : Prop :=
  ∀ c, s.frontend = some c → c.failed = false → ∀ id r, s.pending.lookup id = some r → r ∈ s.due →
    c.sent.count (.request r) = 1 ∧ Connection.outstanding r.id c.sent = some r

/-- What is sent next finds no other request in its place, and takes away none that is pending. -/
def Unhindered (s : Session) (c : Connection) : Event → Bool
  | .request r => s.pending.lookup r.id ≠ some r || c.clear r
  | .resolved id => !(s.pending.lookup id).any fun r => .request r ∈ c.sent
  | .notice => true

theorem steady_forward (h : s.Sound) (hs : s.Steady) (ev : Event)
    (hcalm : ∀ c, s.frontend = some c → c.failed = false → s.Unhindered c ev = true) : (s.forward ev).Steady := by
  unfold forward
  split
  · next c hc =>
    intro c' hc' hok id r hr hdue
    cases hc'
    have hfailed := Connection.send_failed hok
    have ht := h.tracks c hc hfailed
    have hun := hcalm c hc hfailed
    have hlookup : s.pending.lookup r.id = some r := by
      rw [(h.current id r hr).1]
      exact hr
    by_cases hin : r ∈ s.due
    · obtain ⟨hcount, hout⟩ := hs c hc hfailed id r hr hin
      refine Connection.send_stands ht hok hcount hout fun heq => ?_
      -- Its resolution is not what is sent.
      cases ev <;> cases heq
      have hsent : .request r ∈ c.sent := Connection.mem_of_outstanding hout
      simp [Unhindered, hlookup, hsent] at hun
    · have hnew : .request r ∉ c.sent := fun hsent => hin (h.sent c r hc hsent)
      cases ev with
      | request r' =>
        rcases List.mem_cons.mp hdue with rfl | hdue
        · refine Connection.send_once ht hok ?_ hnew
          simpa [Unhindered, hlookup] using hun
        · exact absurd hdue hin
      | resolved x => exact absurd hdue hin
      | notice => exact absurd hdue hin
  · exact hs

/-- A connection that has been sent a request is as clear for the others as before. -/
theorem clear_send {c : Connection} {r r' : Request} (ht : c.Tracks) (hok : (c.send (.request r')).failed = false)
    (hclear : c.clear r = true) (hsame : r'.id = r.id → r' = r) : (c.send (.request r')).clear r = true := by
  unfold Connection.clear
  rw [Connection.send_request ht hok]
  split
  · exact hclear
  · simp only [Connection.outstanding]
    split
    · next heq => simp [hsame heq]
    · exact hclear

theorem steady_replay (h : s.Sound) (hs : s.Steady) {order : List Request}
    (hpending : ∀ r ∈ order, s.pending.lookup r.id = some r)
    (hclear : ∀ c, s.frontend = some c → c.failed = false → ∀ r ∈ order, c.clear r = true) :
    (s.replay order).Steady := by
  unfold replay
  induction order generalizing s with
  | nil => exact hs
  | cons r order ih =>
    have hmade := h.made (hpending r List.mem_cons_self)
    have hsound : (s.forward (.request r)).Sound := by
      refine sound_forward h _ fun r' heq => ?_
      cases heq
      exact hmade
    have hpending' : (s.forward (.request r)).pending = s.pending := (apart_forward s _).pending
    refine ih hsound (steady_forward h hs _ fun c hc hok => ?_) (fun r' hr' => ?_) fun c' hc' hok r' hr' => ?_
    · simp [Unhindered, hclear c hc hok r List.mem_cons_self]
    · rw [hpending']
      exact hpending r' (List.mem_cons_of_mem _ hr')
    · have hsent := (forward_frontend s (.request r)).symm.trans hc'
      obtain ⟨c, hc, rfl⟩ := Option.map_eq_some_iff.mp hsent
      have hfailed := Connection.send_failed hok
      refine clear_send (h.tracks c hc hfailed) hok (hclear c hc hfailed r' (List.mem_cons_of_mem _ hr')) fun hid => ?_
      have hother := hpending r' (List.mem_cons_of_mem _ hr')
      rw [← hid, hpending r List.mem_cons_self] at hother
      exact Option.some.inj hother

/-- No reply stands in a request's place. -/
theorem clear_reply {c : Connection} {r : Request} {maker : Nat} (hok : (c.send (.reply maker)).failed = false)
    (hclear : c.clear r = true) : (c.send (.reply maker)).clear r = true := by
  simp only [Connection.send] at hok ⊢
  rw [(Connection.enqueue_ok hok).2]
  exact hclear

theorem steady_answered (h : s.Sound) (hs : s.Steady) {a : Ask} (ha : a.maker = a.epoch) {ok : Bool}
    {order : List Request} (hpending : ∀ r ∈ order, s.pending.lookup r.id = some r)
    (hclear : ∀ c, s.frontend = some c → c.failed = false → a.epoch = s.epoch → a.resume && ok →
      ∀ r ∈ order, c.clear r = true) :
    (s.answered a ok order).Steady := by
  unfold answered
  split
  · next c hc =>
    split
    · next hepoch =>
      -- The gateway remembers the connection by its epoch.
      have hsound := sound_reply h hc ((ha.trans hepoch).trans (h.number c hc).symm)
      have hsteady : Steady { s with frontend := some (c.send (.reply a.maker)) } := by
        intro c' hc' hok id r hr hin
        cases hc'
        obtain ⟨hcount, hout⟩ := hs c hc (Connection.send_failed hok) id r hr hin
        exact Connection.send_stands (h.tracks c hc (Connection.send_failed hok)) hok hcount hout Message.noConfusion
      dsimp only
      split
      · next hresume =>
        refine steady_replay hsound hsteady hpending fun c' hc' hok r hr => ?_
        cases hc'
        exact clear_reply hok (hclear c hc (Connection.send_failed hok) hepoch hresume r hr)
      · exact hsteady
    · exact hs
  · exact hs

/-- Nothing is hindered by what the connection was sent before: no request by one
of an earlier process with the same id, which was not resolved since, and none is
taken away by the resolution of an earlier one. -/
def undisturbed (s : Session) : SessionEvent → Bool
  | .receive =>
    match s.stream, s.frontend with
    | e :: _, some c => c.failed || s.Unhindered c e
    | _, _ => true
  | .reply i ok order =>
    match s.asked[i]?, s.frontend with
    | some a, some c => !(a.epoch = s.epoch && a.resume && ok) || c.failed || order.all c.clear
    | _, _ => true
  | _ => true

def Undisturbed (s : Session) (e : SessionEvent) : Prop := s.undisturbed e = true

instance (s : Session) (e : SessionEvent) : Decidable (Undisturbed s e) := inferInstanceAs (Decidable (_ = true))

/-- The pending requests that are left were pending before, and the connection is the same. -/
theorem Steady.fewer (hs : s.Steady) (hpending : ∀ id r, t.pending.lookup id = some r → s.pending.lookup id = some r)
    (hfrontend : t.frontend = s.frontend) (hdue : t.due = s.due) : t.Steady := by
  intro c hc hok id r hr hin
  exact hs c (hfrontend ▸ hc) hok id r (hpending id r hr) (hdue ▸ hin)

theorem steady_step (h : s.Sound) (hs : s.Steady) (hcalm : Undisturbed s e) (hstep : s.step e = some t) : t.Steady := by
  have herase : ∀ (x : String) id r, (s.pending.erase x).lookup id = some r → s.pending.lookup id = some r := by
    intro x id r hr
    rw [Table.lookup_erase_if] at hr
    split at hr
    · cases hr
    · exact hr
  cases e with
  | request id method =>
    simp only [step] at hstep
    split at hstep
    · cases hstep
    · next hok =>
      split at hstep <;> cases hstep
      · exact hs.fewer (fun _ _ hr => hr) rfl rfl
      · intro c hc hfailed x r hr hin
        rw [Table.lookup_insert_if] at hr
        split at hr
        · -- The request is new, and was due to nobody.
          cases hr
          have hused := (h.due _ hin).2 rfl
          simp [hused] at hok
        · exact hs c hc hfailed x r hr hin
  | resolved id =>
    simp only [step] at hstep
    split at hstep <;> cases hstep
    exact hs.fewer (herase id) rfl rfl
  | notice =>
    cases hstep
    exact hs.fewer (fun _ _ hr => hr) rfl rfl
  | publish =>
    obtain ⟨ev, -, rfl⟩ := Option.map_eq_some_iff.mp hstep
    exact hs.fewer (fun _ _ hr => hr) rfl rfl
  | rebuild =>
    simp only [step] at hstep
    split at hstep <;> cases hstep
    exact hs.fewer (fun _ _ hr => by cases hr) rfl rfl
  | replaced =>
    simp only [step] at hstep
    split at hstep <;> cases hstep
    exact hs.fewer (fun _ _ hr => hr) rfl rfl
  | answer id =>
    simp only [step] at hstep
    split at hstep <;> cases hstep
    · exact hs.fewer (herase id) rfl rfl
    · exact hs.fewer (fun _ _ hr => hr) rfl rfl
  | attach =>
    cases hstep
    intro c hc hok id r hr hin
    cases hin
  | detach =>
    cases hstep
    intro c hc
    cases hc
  | written =>
    obtain ⟨c, hc, rfl⟩ := Option.map_eq_some_iff.mp hstep
    intro c' hc' hok id r hr hin
    cases hc'
    exact hs c hc hok id r hr hin
  | receive =>
    simp only [step] at hstep
    split at hstep
    · next ev rest hstream =>
      cases hstep
      have hrest : Sound { s with stream := rest } :=
        ⟨h.current, h.rebuilt, h.hand, fun r hr => h.stream r (hstream ▸ List.mem_cons_of_mem _ hr), h.due, h.number,
          h.asked, h.replies, h.tracks, h.sent⟩
      refine steady_forward hrest hs ev fun c hc hok => ?_
      have hfrontend : s.frontend = some c := hc
      have hun : s.Unhindered c ev = true := by simpa [Undisturbed, undisturbed, hstream, hfrontend, hok] using hcalm
      exact hun
    · cases hstep
  | lag skipped =>
    cases hstep
    intro c hc
    cases hc
  | ask resume =>
    obtain ⟨c, hc, rfl⟩ := Option.map_eq_some_iff.mp hstep
    split <;> exact hs.fewer (fun _ _ hr => hr) rfl rfl
  | reply i ok order =>
    obtain ⟨a, ha, hstep⟩ := Option.bind_eq_some_iff.mp hstep
    split at hstep
    · next hperm =>
      cases hstep
      have hrest : Sound { s with asked := s.asked.eraseIdx i } :=
        ⟨h.current, h.rebuilt, h.hand, h.stream, h.due, h.number,
          fun a ha => h.asked a (List.mem_of_mem_eraseIdx ha), h.replies, h.tracks, h.sent⟩
      refine steady_answered hrest hs (h.asked a (List.mem_of_getElem? ha)) (fun r hr => ?_)
        fun c hc hok hepoch hresume r hr => ?_
      · obtain ⟨id, hid⟩ := Table.mem_values.mp ((List.isPerm_iff.mp hperm).mem_iff.mp hr)
        rw [(h.current id r hid).1]
        exact hid
      · have hfrontend : s.frontend = some c := hc
        have hall : order.all c.clear = true := by
          have hepoch' : a.epoch = s.epoch := hepoch
          simp only [Bool.and_eq_true] at hresume
          simpa [Undisturbed, undisturbed, ha, hfrontend, hok, hepoch', hresume.1, hresume.2] using hcalm
        exact List.all_eq_true.mp hall r hr
    · cases hstep
  | close =>
    cases hstep
    exact hs.fewer (fun _ _ hr => hr) rfl rfl

-- ---------------------------------------------------------------------------
-- Runs
-- ---------------------------------------------------------------------------

/-- Every request that is neither answered nor resolved, and that the gateway was to
send to the connection, was sent exactly once; the others were not. -/
def Exact (s : Session) : Prop :=
  ∀ c, s.frontend = some c → c.failed = false → ∀ id r, s.pending.lookup id = some r →
    c.sent.count (.request r) = if r ∈ s.due then 1 else 0

theorem Steady.exact (h : s.Sound) (hs : s.Steady) : s.Exact := by
  intro c hc hok id r hr
  split
  · next hin => exact (hs c hc hok id r hr hin).1
  · next hnot => exact List.count_eq_zero_of_not_mem fun hsent => hnot (h.sent c r hc hsent)

theorem sound_run {C : Session → SessionEvent → Prop} (hrun : Run next C {} h s) : s.Sound :=
  hrun.invariant sound_start fun _ _ _ h _ hnext => sound_next h hnext

theorem steady_run (hrun : Run next Undisturbed {} h s) : s.Steady := by
  have hboth : s.Sound ∧ s.Steady := by
    refine hrun.invariant (I := fun s => s.Sound ∧ s.Steady) ⟨sound_start, fun _ hc => by cases hc⟩ ?_
    rintro s e t ⟨hsound, hsteady⟩ hcalm hnext
    refine ⟨sound_next hsound hnext, ?_⟩
    unfold next at hnext
    split at hnext
    · cases hnext
    · exact steady_step hsound hsteady hcalm hnext
  exact hboth.2

theorem forward_due (hsome : s.frontend.isSome = true) : r ∈ (s.forward (.request r)).due := by
  obtain ⟨c, hc⟩ := Option.isSome_iff_exists.mp hsome
  simp [forward, hc]

theorem due_forward (s : Session) (ev : Event) (h : r ∈ s.due) : r ∈ (s.forward ev).due := by
  unfold forward
  split
  · cases ev with
    | request r' => exact List.mem_cons_of_mem _ h
    | resolved id => exact h
    | notice => exact h
  · exact h

theorem due_replay {order : List Request} (h : r ∈ s.due) : r ∈ (s.replay order).due := by
  unfold replay
  induction order generalizing s with
  | nil => exact h
  | cons r' order ih => exact ih (due_forward s _ h)

theorem replay_due {order : List Request} (hsome : s.frontend.isSome = true) (hin : r ∈ order) :
    r ∈ (s.replay order).due := by
  induction order generalizing s with
  | nil => cases hin
  | cons r' order ih =>
    rcases List.mem_cons.mp hin with rfl | hin
    · exact due_replay (s := s.forward (.request r)) (forward_due hsome)
    · refine ih ?_ hin
      rw [forward_frontend, Option.isSome_map]
      exact hsome

/-- Replies go to the connection that asked, a request is due when the stream has
it and when a thread was resumed; and in a run in which nothing is hindered by what
an earlier process has asked, what is due is sent exactly once. -/
theorem delivery_exact (hrun : Run next Free {} h s) :
    (∀ c maker, s.frontend = some c → .reply maker ∈ c.sent → maker = c.number) ∧
    (∀ r rest t, s.stream = .request r :: rest → s.frontend.isSome = true → s.next .receive = some t → r ∈ t.due) ∧
    (∀ i a order t, s.asked[i]? = some a → a.resume = true → a.epoch = s.epoch → s.frontend.isSome = true →
      s.next (.reply i true order) = some t → ∀ id r, s.pending.lookup id = some r → r ∈ t.due) ∧
    (Run next Undisturbed {} h s → s.Exact) := by
  have hsound := sound_run hrun
  refine ⟨hsound.replies, fun r rest t hstream hsome hnext => ?_,
    fun i a order t ha hresume hepoch hsome hnext id r hr => ?_, fun hcalm => (steady_run hcalm).exact hsound⟩
  · unfold next at hnext
    split at hnext
    · cases hnext
    · simp only [step, hstream] at hnext
      cases hnext
      exact forward_due hsome
  · unfold next at hnext
    split at hnext
    · cases hnext
    · simp only [step, ha, Option.bind_some] at hnext
      split at hnext
      · next hperm =>
        cases hnext
        have hin : r ∈ order := (List.isPerm_iff.mp hperm).mem_iff.mpr (Table.mem_values.mpr ⟨id, hr⟩)
        obtain ⟨c, hc⟩ := Option.isSome_iff_exists.mp hsome
        simp only [answered, hc, hepoch, hresume, if_true, Bool.and_self]
        exact replay_due rfl hin
      · cases hnext

/-- A prompt that is open when its process is lost, and another process that asks with the same id. -/
def resolvedPrompt : List SessionEvent :=
  [.attach, .request "1" "first", .publish, .receive, .rebuild, .replaced, .receive, .request "1" "second", .publish,
    .receive]

theorem delivery_exact_resolved : ∃ s c, Run next Undisturbed {} resolvedPrompt.reverse s ∧ s.frontend = some c ∧
    c.failed = false ∧ s.pending.lookup "1" = some ⟨1, "1", "second"⟩ ∧
    c.sent.count (.request ⟨1, "1", "second"⟩) = if ⟨1, "1", "second"⟩ ∈ s.due then 1 else 0 := by
  have hplay : ((play next Undisturbed {} resolvedPrompt).bind fun s => s.frontend.map fun c =>
      (c.failed, decide (s.pending.lookup "1" = some ⟨1, "1", "second"⟩))) = some (false, true) := by
    decide
  obtain ⟨s, hs, hrest⟩ := Option.bind_eq_some_iff.mp hplay
  obtain ⟨c, hc, heq⟩ := Option.map_eq_some_iff.mp hrest
  simp only [Prod.mk.injEq, decide_eq_true_eq] at heq
  have hrun := run_of_play_list hs
  exact ⟨s, c, hrun, hc, heq.1, heq.2, (delivery_exact hrun.free).2.2.2 hrun c hc heq.1 "1" _ heq.2⟩

/-- The prompt is answered, and its process is lost before it says so. -/
def answeredPrompt : List SessionEvent :=
  [.attach, .request "1" "first", .publish, .receive, .answer "1", .rebuild, .replaced, .request "1" "second", .publish,
    .receive]

/-- The second prompt never reaches the frontend. -/
theorem delivery_dropped : ∃ s c, Run next Free {} answeredPrompt.reverse s ∧ s.frontend = some c ∧
    c.failed = false ∧ s.pending.lookup "1" = some ⟨1, "1", "second"⟩ ∧ ⟨1, "1", "second"⟩ ∈ s.due ∧
    s.stream = [] ∧ c.sent.count (.request ⟨1, "1", "second"⟩) = 0 := by
  have hplay : ((play next Free {} answeredPrompt).bind fun s => s.frontend.map fun c =>
      (c.failed, decide (s.pending.lookup "1" = some ⟨1, "1", "second"⟩ ∧ ⟨1, "1", "second"⟩ ∈ s.due ∧ s.stream = [] ∧
        c.sent.count (.request ⟨1, "1", "second"⟩) = 0))) = some (false, true) := by
    decide
  obtain ⟨s, hs, hrest⟩ := Option.bind_eq_some_iff.mp hplay
  obtain ⟨c, hc, heq⟩ := Option.map_eq_some_iff.mp hrest
  simp only [Prod.mk.injEq, decide_eq_true_eq] at heq
  exact ⟨s, c, run_of_play_list hs, hc, heq⟩

end Session

end RemoteCodex.Gateway
