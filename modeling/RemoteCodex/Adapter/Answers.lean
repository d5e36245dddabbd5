import RemoteCodex.Adapter.Driver

/-!
# What a request is answered

Every answer a caller gets is a response with the identity of its request, an
error that leaves the outcome open, or the refusal of a request that was never
written and never will be.
-/

namespace RemoteCodex.Adapter

open Interact Protocol

variable {s t u : State} {id : Nat} {answer : Answer}

/-- Why a request is answered so. -/
inductive Explained (s : State) (id : Nat) (answer : Answer) : Prop where
  | response (v : Value) (hv : v ∈ s.messages) (hid : responseId v = some id) (hw : id ∈ s.written)
      (hanswer : answer = answerOf v)
  | open (fault : Fault) (hunknown : fault.outcomeUnknown = true) (hanswer : answer = .error fault)
  | refused (fault : Fault) (hw : id ∉ s.written) (ho : id ∉ s.owned) (hn : id < s.next)
      (hanswer : answer = .error fault)

/-- `t` is later than `s`: only requests that were somewhere are written, and
the only new ones are fresh. -/
structure Later (s t : State) : Prop where
  next : s.next ≤ t.next
  messages : ∀ v ∈ s.messages, v ∈ t.messages
  written : ∀ id ∈ s.written, id ∈ t.written
  wrote : ∀ id ∈ t.written, id ∈ s.written ∨ id ∈ s.owned
  owned : ∀ id ∈ t.owned, id ∈ s.owned ∨ s.next ≤ id

theorem Explained.mono (h : Explained s id answer) (hst : Later s t) : Explained t id answer := by
  cases h with
  | response v hv hid hw hanswer => exact .response v (hst.messages v hv) hid (hst.written id hw) hanswer
  | «open» fault hunknown hanswer => exact .open fault hunknown hanswer
  | refused fault hw ho hn hanswer =>
    refine .refused fault ?_ ?_ (lt_of_lt_of_le hn hst.next) hanswer
    · intro hmem
      rcases hst.wrote id hmem with hmem | hmem
      · exact hw hmem
      · exact ho hmem
    · intro hmem
      rcases hst.owned id hmem with hmem | hle
      · exact ho hmem
      · exact absurd hn (not_lt.mpr hle)

/-- The requests that are not written yet. -/
def State.unwritten (s : State) : List Nat := s.starting.map Request.id ++ s.queue.filterMap CommandMessage.id?

/-- The driver is still in its loop. -/
def Phase.looping : Phase → Bool
  | .running | .writing => true
  | _ => false

structure Sound (s : State) : Prop where
  distinct : s.owned.Nodup
  fresh : ∀ id ∈ s.owned, id < s.next
  alive : ∀ r ∈ s.starting, ∃ caller, s.callers.lookup r.id = some caller
  known : ∀ {id caller}, s.callers.lookup id = some caller → id < s.next ∧ id ∉ s.received.map Prod.fst
  unwritten : ∀ id ∈ s.unwritten, id ∉ s.written
  wrote : ∀ id ∈ s.written, id < s.next
  pending : s.phase.looping = true → ∀ id ∈ s.pending, id ∈ s.written
  room : s.queue.length ≤ 64 ∧ s.pending.length ≤ 64
  failure : ∀ {fault expected}, s.phase = .closing (some fault) expected → fault.outcomeUnknown = true
  waiting : ∀ {id caller}, s.callers.lookup id = some caller → id ∈ s.owned → caller.inbox = none
  inbox : ∀ {id caller answer}, s.callers.lookup id = some caller → caller.inbox = some answer →
    Explained s id answer
  once : (s.received.map Prod.fst).Nodup
  past : ∀ entry ∈ s.received, entry.1 < s.next
  received : ∀ {id answer}, (id, answer) ∈ s.received →
    ∃ label sent, answer = State.relabel label sent ∧ Explained s id sent

-- ---------------------------------------------------------------------------
-- Steps of the driver
-- ---------------------------------------------------------------------------

/-- Requests move from one place to the next, or are dropped; no caller notices. -/
structure Moves (s t : State) : Prop where
  next : t.next = s.next
  callers : t.callers = s.callers
  messages : t.messages = s.messages
  received : t.received = s.received
  owned : t.owned.Subperm s.owned
  starting : ∀ r ∈ t.starting, r ∈ s.starting
  unwritten : ∀ id ∈ t.unwritten, id ∈ s.unwritten ∧ (id ∈ t.written → id ∈ s.written)
  written : ∀ id ∈ s.written, id ∈ t.written
  wrote : ∀ id ∈ t.written, id ∈ s.written ∨ id ∈ s.owned
  pending : t.phase.looping = true → ∀ id ∈ t.pending, id ∈ t.written
  room : t.queue.length ≤ 64 ∧ t.pending.length ≤ 64
  failure : ∀ {fault expected}, t.phase = .closing (some fault) expected → fault.outcomeUnknown = true

theorem Moves.later (h : Moves s t) : Later s t where
  next := le_of_eq h.next.symm
  messages _ hv := h.messages ▸ hv
  written := h.written
  wrote := h.wrote
  owned _ hid := .inl (h.owned.subset hid)

theorem perm_eraseIdx {α : Type} {l : List α} {i : Nat} {a : α} (h : l[i]? = some a) :
    (a :: l.eraseIdx i).Perm l := by
  obtain ⟨hlt, rfl⟩ := List.getElem?_eq_some_iff.mp h
  rw [List.eraseIdx_eq_take_drop_succ]
  conv_rhs => rw [← List.take_append_drop i l, List.drop_eq_getElem_cons hlt]
  exact List.perm_middle.symm

theorem relabel_none (answer : Answer) : State.relabel none answer = answer := by
  cases answer <;> rfl

namespace Sound

theorem moves (hs : Sound s) (h : Moves s t) : Sound t where
  distinct := by
    obtain ⟨l, hperm, hsub⟩ := h.owned
    exact hperm.nodup_iff.mp (hs.distinct.sublist hsub)
  fresh id hid := by
    rw [h.next]
    exact hs.fresh id (h.owned.subset hid)
  alive r hr := by
    rw [h.callers]
    exact hs.alive r (h.starting r hr)
  known hc := by
    rw [h.callers] at hc
    rw [h.next, h.received]
    exact hs.known hc
  unwritten id hid hw := by
    obtain ⟨hu, hback⟩ := h.unwritten id hid
    exact hs.unwritten id hu (hback hw)
  wrote id hw := by
    rw [h.next]
    rcases h.wrote id hw with hw | ho
    · exact hs.wrote id hw
    · exact hs.fresh id ho
  pending := h.pending
  room := h.room
  failure := h.failure
  waiting hc hid := by
    rw [h.callers] at hc
    exact hs.waiting hc (h.owned.subset hid)
  inbox hc hin := by
    rw [h.callers] at hc
    exact (hs.inbox hc hin).mono h.later
  once := by
    rw [h.received]
    exact hs.once
  past entry hmem := by
    rw [h.received] at hmem
    rw [h.next]
    exact hs.past entry hmem
  received hmem := by
    rw [h.received] at hmem
    obtain ⟨label, sent, hanswer, hex⟩ := hs.received hmem
    exact ⟨label, sent, hanswer, hex.mono h.later⟩

/-- Commands and requests are dropped, and the phase changes. -/
theorem shed (hs : Sound s) {starting : List Request} {queue : List CommandMessage} {pending : List Nat}
    {phase : Phase} (hstarting : starting.Sublist s.starting) (hqueue : queue.Sublist s.queue)
    (hpending : pending.Sublist s.pending) (hloop : phase.looping = true → s.phase.looping = true)
    (hfailure : ∀ {fault expected}, phase = .closing (some fault) expected → fault.outcomeUnknown = true) :
    Sound { s with starting, queue, pending, phase } := by
  have hunwritten : (starting.map Request.id ++ queue.filterMap CommandMessage.id?).Sublist s.unwritten :=
    (hstarting.map _).append (hqueue.filterMap _)
  apply hs.moves
  constructor
  · rfl
  · rfl
  · rfl
  · rfl
  · exact (hunwritten.append hpending).subperm
  · exact fun r hr => hstarting.subset hr
  · exact fun id hid => ⟨hunwritten.subset hid, fun hw => hw⟩
  · exact fun id hw => hw
  · exact fun id hw => .inl hw
  · exact fun hl id hid => hs.pending (hloop hl) id (hpending.subset hid)
  · exact ⟨hqueue.length_le.trans hs.room.1, hpending.length_le.trans hs.room.2⟩
  · exact hfailure

/-- The loop ends with a failure. -/
theorem fail (hs : Sound s) {fault : Fault} (h : fault.outcomeUnknown = true) : Sound (s.fail fault) := by
  refine hs.shed (.refl _) (.refl _) (.refl _) nofun ?_
  intro fault' expected heq
  obtain ⟨heq, -⟩ := Phase.closing.inj heq
  rw [← Option.some.inj heq]
  exact h

theorem abort (hs : Sound s) : Sound s.abort :=
  hs.shed (.refl _) (List.nil_sublist _) (List.nil_sublist _) nofun nofun

/-- An answer is sent to requests whose sender is used up. -/
theorem deliver (hs : Sound s) {ids : List Nat} (hfree : ∀ id ∈ ids, id ∉ s.owned)
    (hex : ∀ id ∈ ids, Explained s id answer) : Sound (s.deliver ids answer) := by
  have hlater : Later s (s.deliver ids answer) :=
    ⟨le_refl _, fun _ hv => hv, fun _ hw => hw, fun _ hw => .inl hw, fun _ ho => .inl ho⟩
  have hlook : ∀ {id caller}, (s.deliver ids answer).callers.lookup id = some caller →
      ∃ old, s.callers.lookup id = some old ∧
        (if id ∈ ids then { old with inbox := some answer } else old) = caller := by
    intro id caller h
    rw [State.deliver, Table.lookup_update] at h
    exact Option.map_eq_some_iff.mp h
  constructor
  · exact hs.distinct
  · exact hs.fresh
  · intro r hr
    obtain ⟨caller, hcaller⟩ := hs.alive r hr
    rw [State.deliver, Table.lookup_update, hcaller]
    exact ⟨_, rfl⟩
  · intro id caller h
    obtain ⟨old, hold, -⟩ := hlook h
    exact hs.known hold
  · exact hs.unwritten
  · exact hs.wrote
  · exact hs.pending
  · exact hs.room
  · exact hs.failure
  · intro id caller h ho
    obtain ⟨old, hold, rfl⟩ := hlook h
    rw [if_neg fun hmem => hfree id hmem ho]
    exact hs.waiting hold ho
  · intro id caller sent h hin
    obtain ⟨old, hold, rfl⟩ := hlook h
    split at hin
    · next hmem =>
      obtain rfl := Option.some.inj hin
      exact (hex id hmem).mono hlater
    · exact (hs.inbox hold hin).mono hlater
  · exact hs.once
  · exact hs.past
  · intro id sent hmem
    obtain ⟨label, raw, hanswer, hex⟩ := hs.received hmem
    exact ⟨label, raw, hanswer, hex.mono hlater⟩

/-- A request ends for its caller. -/
theorem receive (hs : Sound s) {caller : Caller} (hc : s.callers.lookup id = some caller)
    (hstart : id ∉ s.starting.map Request.id) (label : Option String) (hex : Explained s id answer) :
    Sound (s.receive id (State.relabel label answer)) := by
  have hlater : Later s (s.receive id (State.relabel label answer)) :=
    ⟨le_refl _, fun _ hv => hv, fun _ hw => hw, fun _ hw => .inl hw, fun _ ho => .inl ho⟩
  have hlook : ∀ {id' caller'}, (s.receive id (State.relabel label answer)).callers.lookup id' = some caller' →
      id' ≠ id ∧ s.callers.lookup id' = some caller' := by
    intro id' caller' h
    rw [State.receive, Table.lookup_erase_if] at h
    split at h
    · cases h
    · next hne => exact ⟨hne, h⟩
  constructor
  · exact hs.distinct
  · exact hs.fresh
  · intro r hr
    have hne : r.id ≠ id := by
      rintro rfl
      exact hstart (List.mem_map_of_mem hr)
    rw [State.receive, Table.lookup_erase_if, if_neg hne]
    exact hs.alive r hr
  · intro id' caller' h
    obtain ⟨hne, h⟩ := hlook h
    refine ⟨(hs.known h).1, ?_⟩
    rw [State.receive, List.map_cons, List.mem_cons, not_or]
    exact ⟨hne, (hs.known h).2⟩
  · exact hs.unwritten
  · exact hs.wrote
  · exact hs.pending
  · exact hs.room
  · exact hs.failure
  · intro id' caller' h ho
    exact hs.waiting (hlook h).2 ho
  · intro id' caller' sent h hin
    exact (hs.inbox (hlook h).2 hin).mono hlater
  · exact List.nodup_cons.mpr ⟨(hs.known hc).2, hs.once⟩
  · intro entry hmem
    rcases List.mem_cons.mp hmem with rfl | hmem
    · exact (hs.known hc).1
    · exact hs.past entry hmem
  · intro id' sent hmem
    rcases List.mem_cons.mp hmem with heq | hmem
    · obtain ⟨rfl, rfl⟩ := Prod.mk.inj heq
      exact ⟨label, answer, rfl, hex.mono hlater⟩
    · obtain ⟨label', raw, hanswer, hex'⟩ := hs.received hmem
      exact ⟨label', raw, hanswer, hex'.mono hlater⟩

/-- A message is read. -/
theorem read (hs : Sound s) (v : Value) : Sound { s with messages := v :: s.messages } := by
  have hlater : Later s { s with messages := v :: s.messages } :=
    ⟨le_refl _, fun _ hv => List.mem_cons_of_mem _ hv, fun _ hw => hw, fun _ hw => .inl hw, fun _ ho => .inl ho⟩
  constructor
  · exact hs.distinct
  · exact hs.fresh
  · exact hs.alive
  · exact hs.known
  · exact hs.unwritten
  · exact hs.wrote
  · exact hs.pending
  · exact hs.room
  · exact hs.failure
  · exact hs.waiting
  · exact fun h hin => (hs.inbox h hin).mono hlater
  · exact hs.once
  · exact hs.past
  · intro id answer hmem
    obtain ⟨label, sent, hanswer, hex⟩ := hs.received hmem
    exact ⟨label, sent, hanswer, hex.mono hlater⟩

theorem «begin» (hs : Sound s) (label : Option String) (method : String) (params : Value) :
    Sound (s.begin label method params) := by
  unfold State.begin
  split
  · let t : State :=
      { s with
        next := s.next + 1
        starting := s.starting ++ [⟨s.next, method, params⟩]
        callers := s.callers.insert s.next ⟨label, none⟩ }
    change Sound t
    have howned : t.owned.Perm (s.next :: s.owned) := by
      simp only [t, State.owned, List.map_append, List.map_cons, List.map_nil, List.append_assoc, List.singleton_append]
      exact List.perm_middle
    have hunwritten : t.unwritten.Perm (s.next :: s.unwritten) := by
      simp only [t, State.unwritten, List.map_append, List.map_cons, List.map_nil, List.append_assoc,
        List.singleton_append]
      exact List.perm_middle
    have hmem : ∀ {id}, id ∈ t.owned → id = s.next ∨ id ∈ s.owned := fun h => List.mem_cons.mp (howned.subset h)
    have hlater : Later s t := by
      refine ⟨Nat.le_succ _, fun _ hv => hv, fun _ hw => hw, fun _ hw => .inl hw, ?_⟩
      intro id h
      rcases hmem h with rfl | h
      · exact .inr (le_refl _)
      · exact .inl h
    have hlook : ∀ id', t.callers.lookup id' = if id' = s.next then some ⟨label, none⟩ else s.callers.lookup id' :=
      fun id' => Table.lookup_insert_if _ _ _ _
    constructor
    · refine howned.nodup_iff.mpr (List.nodup_cons.mpr ⟨?_, hs.distinct⟩)
      exact fun h => lt_irrefl _ (hs.fresh _ h)
    · intro id h
      rcases hmem h with rfl | h
      · exact Nat.lt_succ_self _
      · exact Nat.lt_succ_of_lt (hs.fresh id h)
    · intro r hr
      rw [hlook]
      split
      · exact ⟨_, rfl⟩
      · next hne =>
        rcases List.mem_append.mp hr with hr | hr
        · exact hs.alive r hr
        · obtain rfl := List.mem_singleton.mp hr
          exact absurd rfl hne
    · intro id caller h
      rw [hlook] at h
      split at h
      · next heq =>
        refine ⟨heq ▸ Nat.lt_succ_self _, ?_⟩
        intro hmem
        obtain ⟨entry, hentry, hid⟩ := List.mem_map.mp hmem
        exact absurd (hs.past entry hentry) (by rw [hid, heq]; exact lt_irrefl _)
      · exact ⟨Nat.lt_succ_of_lt (hs.known h).1, (hs.known h).2⟩
    · intro id hid hw
      rcases List.mem_cons.mp (hunwritten.subset hid) with rfl | hid
      · exact lt_irrefl _ (hs.wrote _ hw)
      · exact hs.unwritten id hid hw
    · exact fun id hw => Nat.lt_succ_of_lt (hs.wrote id hw)
    · exact hs.pending
    · exact hs.room
    · exact hs.failure
    · intro id caller h ho
      rw [hlook] at h
      split at h
      · rw [← Option.some.inj h]
      · next hne => exact hs.waiting h ((hmem ho).resolve_left hne)
    · intro id caller sent h hin
      rw [hlook] at h
      split at h
      · rw [← Option.some.inj h] at hin
        cases hin
      · exact (hs.inbox h hin).mono hlater
    · exact hs.once
    · exact fun entry h => Nat.lt_succ_of_lt (hs.past entry h)
    · intro id sent hmem
      obtain ⟨label', raw, hanswer, hex⟩ := hs.received hmem
      exact ⟨label', raw, hanswer, hex.mono hlater⟩
  · exact hs

theorem enqueue (hs : Sound s) {start : Nat} (h : s.enqueue start = some t) : Sound t := by
  simp only [State.enqueue] at h
  split at h
  · cases h
  · next r hr =>
    have hperm : (r.id :: (s.starting.eraseIdx start).map Request.id).Perm (s.starting.map Request.id) :=
      (perm_eraseIdx hr).map Request.id
    have howned : (r.id :: State.owned { s with starting := s.starting.eraseIdx start }).Perm s.owned := by
      exact (hperm.append_right _).append_right _
    have hunwritten : (r.id :: State.unwritten { s with starting := s.starting.eraseIdx start }).Perm s.unwritten := by
      exact hperm.append_right _
    have hmem : r.id ∈ s.owned := howned.subset List.mem_cons_self
    have hnodup := List.nodup_cons.mp (howned.nodup_iff.mpr hs.distinct)
    split at h
    · -- there is room: the request moves on
      next hroom =>
      obtain rfl := Option.some.inj h
      have hlength : s.queue.length < 64 := by
        unfold State.accepts at hroom
        split at hroom
        · cases hroom
        · exact of_decide_eq_true hroom
      have hmoved : ∀ tail : List Nat, ((s.starting.eraseIdx start).map Request.id ++
          (s.queue ++ [CommandMessage.request r]).filterMap CommandMessage.id? ++ tail).Perm
            (r.id :: ((s.starting.eraseIdx start).map Request.id ++ s.queue.filterMap CommandMessage.id? ++ tail)) := by
        intro tail
        rw [List.filterMap_append]
        simp only [List.filterMap_cons, CommandMessage.id?, List.filterMap_nil, List.append_assoc,
          List.singleton_append]
        rw [← List.append_assoc, ← List.append_assoc]
        exact List.perm_middle
      apply hs.moves
      constructor
      · rfl
      · rfl
      · rfl
      · rfl
      · exact ((hmoved s.pending).trans howned).subperm
      · exact fun r' hr' => List.mem_of_mem_eraseIdx hr'
      · intro id hid
        refine ⟨?_, fun hw => hw⟩
        have hm := hmoved []
        rw [List.append_nil, List.append_nil] at hm
        exact (hm.trans hunwritten).subset hid
      · exact fun id hw => hw
      · exact fun id hw => .inl hw
      · exact hs.pending
      · refine ⟨?_, hs.room.2⟩
        rw [List.length_append]
        exact hlength
      · exact hs.failure
    · -- the request is refused and was never queued
      obtain rfl := Option.some.inj h
      obtain ⟨caller, hcaller⟩ := hs.alive r (List.mem_of_getElem? hr)
      have hshed : Sound { s with starting := s.starting.eraseIdx start } :=
        hs.shed (List.eraseIdx_sublist _ _) (.refl _) (.refl _) (fun hl => hl) hs.failure
      have hex : Explained { s with starting := s.starting.eraseIdx start } r.id (.error queueFull) := by
        refine .refused queueFull ?_ hnodup.1 (hs.fresh _ hmem) rfl
        exact hs.unwritten r.id (hunwritten.subset List.mem_cons_self)
      have hstart : r.id ∉ (s.starting.eraseIdx start).map Request.id :=
        fun hm => hnodup.1 (List.mem_append_left _ (List.mem_append_left _ hm))
      have := hshed.receive hcaller hstart none hex
      rwa [relabel_none] at this

/-- Where a request is that is taken from the queue, and where it is not. -/
theorem taken (hs : Sound s) {r : Request} {queue : List CommandMessage} (hqueue : s.queue = .request r :: queue) :
    r.id ∉ s.written ∧ r.id < s.next ∧
      r.id ∉ s.starting.map Request.id ++ queue.filterMap CommandMessage.id? ++ s.pending := by
  have howned : s.owned.Perm
      (r.id :: (s.starting.map Request.id ++ queue.filterMap CommandMessage.id? ++ s.pending)) := by
    simp only [State.owned, hqueue, List.filterMap_cons, CommandMessage.id?, List.append_assoc, List.cons_append]
    exact List.perm_middle
  have hmem : r.id ∈ s.unwritten := by
    rw [State.unwritten, hqueue]
    exact List.mem_append_right _ List.mem_cons_self
  exact ⟨hs.unwritten _ hmem, hs.fresh _ (List.mem_append_left _ hmem),
    (List.nodup_cons.mp (howned.nodup_iff.mp hs.distinct)).1⟩

/-- A request that is taken is written, or ends the loop by its size. -/
theorem sent (hs : Sound s) {r : Request} {queue : List CommandMessage} {pending : List Nat} {phase : Phase}
    {written : List Nat} (hqueue : s.queue = .request r :: queue) (hpending : pending.Sublist s.pending)
    (hlength : pending.length < 64) (hloop : s.phase.looping = true)
    (hwritten : written = r.id :: s.written ∨ (written = s.written ∧ phase.looping = false))
    (hfailure : ∀ {fault expected}, phase = .closing (some fault) expected → fault.outcomeUnknown = true) :
    Sound { s with queue, pending := r.id :: pending, phase, written } := by
  obtain ⟨hnew, hlt, hnot⟩ := hs.taken hqueue
  have hmem : r.id ∈ s.owned := by
    rw [State.owned, hqueue]
    exact List.mem_append_left _ (List.mem_append_right _ List.mem_cons_self)
  have hw : ∀ id ∈ written, id = r.id ∨ id ∈ s.written := by
    rintro id hid
    rcases hwritten with rfl | ⟨rfl, -⟩
    · exact List.mem_cons.mp hid
    · exact .inr hid
  have hkept : ∀ id ∈ s.written, id ∈ written := by
    rintro id hid
    rcases hwritten with rfl | ⟨rfl, -⟩
    · exact List.mem_cons_of_mem _ hid
    · exact hid
  apply hs.moves
  constructor
  · rfl
  · rfl
  · rfl
  · rfl
  · simp only [State.owned, hqueue, List.filterMap_cons, CommandMessage.id?]
    refine (List.perm_middle.subperm).trans ?_
    simp only [List.append_assoc, List.cons_append]
    refine List.Subperm.trans ?_ List.perm_middle.symm.subperm
    refine (List.subperm_cons _).mpr ?_
    rw [← List.append_assoc, ← List.append_assoc]
    exact (hpending.append_left _).subperm
  · exact fun r hr => hr
  · intro id hid
    constructor
    · rw [State.unwritten, hqueue]
      rcases List.mem_append.mp hid with hid | hid
      · exact List.mem_append_left _ hid
      · exact List.mem_append_right _ (List.mem_cons_of_mem _ hid)
    · intro hmem
      rcases hw id hmem with rfl | hmem
      · exact absurd (List.mem_append_left _ hid) hnot
      · exact hmem
  · exact hkept
  · intro id hid
    rcases hw id hid with rfl | hid
    · exact .inr hmem
    · exact .inl hid
  · intro hl id hid
    rcases hwritten with rfl | ⟨-, hphase⟩
    · rcases List.mem_cons.mp hid with rfl | hid
      · exact List.mem_cons_self
      · exact List.mem_cons_of_mem _ (hs.pending hloop id (hpending.subset hid))
    · exact absurd (hl.symm.trans hphase) nofun
  · refine ⟨?_, hlength⟩
    have := hs.room.1
    rw [hqueue, List.length_cons] at this
    exact Nat.le_of_succ_le this
  · exact hfailure

theorem request (hs : Sound s) {r : Request} {queue : List CommandMessage} (hqueue : s.queue = .request r :: queue)
    (hloop : s.phase.looping = true) : Sound (State.request { s with queue } r) := by
  have hsub : (s.pending.filter (State.alive { s with queue })).Sublist s.pending := List.filter_sublist
  obtain ⟨hnew, hlt, hnot⟩ := hs.taken hqueue
  simp only [State.request]
  split
  · -- too many are pending: the request is told so and was not written
    have hshed : Sound { s with queue, pending := s.pending.filter (State.alive { s with queue }) } :=
      hs.shed (.refl _) (hqueue ▸ List.sublist_cons_self _ _) hsub (fun hl => hl) hs.failure
    have hfree : r.id ∉
        State.owned { s with queue, pending := s.pending.filter (State.alive { s with queue }) } := by
      intro hmem
      rcases List.mem_append.mp hmem with hmem | hmem
      · exact hnot (List.mem_append_left _ hmem)
      · exact hnot (List.mem_append_right _ (hsub.subset hmem))
    apply hshed.deliver
    · simpa using hfree
    · intro id hid
      obtain rfl := List.mem_singleton.mp hid
      exact .refused busy hnew hfree hlt rfl
  · next hlength =>
    have hlength := Nat.lt_of_not_ge hlength
    simp only [State.write]
    split
    · refine hs.sent hqueue hsub hlength hloop (.inr ⟨rfl, rfl⟩) ?_
      intro fault expected heq
      obtain ⟨heq, -⟩ := Phase.closing.inj heq
      rw [← Option.some.inj heq]
      rfl
    · exact hs.sent hqueue hsub hlength hloop (.inl rfl) nofun

theorem take (hs : Sound s) (h : s.take = some t) : Sound t := by
  simp only [State.take] at h
  split at h
  · next hphase hqueue =>
    obtain rfl := Option.some.inj h
    exact hs.request hqueue (by rw [hphase]; rfl)
  · next value queue hphase hqueue =>
    obtain rfl := Option.some.inj h
    have hsub : queue.Sublist s.queue := hqueue ▸ List.sublist_cons_self _ _
    simp only [State.write]
    split
    · exact (hs.shed (.refl _) hsub (.refl _) (fun hl => hl) hs.failure).fail rfl
    · exact hs.shed (.refl _) hsub (.refl _) (fun _ => by rw [hphase]; rfl) nofun
  · next queue hphase hqueue =>
    obtain rfl := Option.some.inj h
    exact hs.shed (.refl _) (hqueue ▸ List.sublist_cons_self _ _) (.refl _) nofun nofun
  · cases h

theorem message (hs : Sound s) (hloop : s.phase.looping = true) (v : Value) : Sound (s.message v) := by
  have hread := hs.read v
  simp only [State.message]
  split
  · exact hread
  · next hmethod =>
    split
    · exact hread.fail rfl
    · next id hid =>
      split
      · next hpending =>
        have hsub : (s.pending.erase id).Sublist s.pending := List.erase_sublist
        have hperm : s.owned.Perm
            (id :: (s.starting.map Request.id ++ s.queue.filterMap CommandMessage.id? ++ s.pending.erase id)) :=
          ((List.perm_cons_erase hpending).append_left _).trans List.perm_middle
        have hfree := (List.nodup_cons.mp (hperm.nodup_iff.mp hs.distinct)).1
        have hshed : Sound { s with messages := v :: s.messages, pending := s.pending.erase id } :=
          hread.shed (.refl _) (.refl _) hsub (fun hl => hl) hs.failure
        apply hshed.deliver
        · intro id' hid'
          obtain rfl := List.mem_singleton.mp hid'
          exact hfree
        · intro id' hid'
          obtain rfl := List.mem_singleton.mp hid'
          refine .response v List.mem_cons_self ?_ (hs.pending hloop _ hpending) rfl
          rw [responseId, if_neg hmethod, hid]
      · exact hread

theorem closingFault_unknown (hs : Sound s) {failure : Option Fault} {expected : Bool}
    (hphase : s.phase = .closing failure expected) (status : Option String) :
    (State.closingFault failure expected status).outcomeUnknown = true := by
  cases failure with
  | some fault => exact hs.failure hphase
  | none =>
    simp only [State.closingFault]
    split <;> rfl

theorem close (hs : Sound s) {failure : Option Fault} {expected : Bool}
    (hphase : s.phase = .closing failure expected) (status : Option String) :
    Sound (s.deliver s.pending (.error (State.closingFault failure expected status))).abort := by
  apply hs.abort.deliver
  · intro id hid hmem
    simp only [State.owned, State.abort, List.filterMap_nil, List.append_nil] at hmem
    exact List.disjoint_of_nodup_append hs.distinct (List.mem_append_left _ hmem) hid
  · exact fun id _ => .open _ (hs.closingFault_unknown hphase status) rfl

theorem finish (hs : Sound s) (hstart : id ∉ s.starting.map Request.id) (h : s.finish id = some t) : Sound t := by
  simp only [State.finish] at h
  split at h
  · cases h
  · next caller hcaller =>
    split at h
    · next answer hinbox =>
      obtain rfl := Option.some.inj h
      exact hs.receive hcaller hstart _ (hs.inbox hcaller hinbox)
    · split at h
      · cases h
      · obtain rfl := Option.some.inj h
        exact hs.receive hcaller hstart _ (.open _ rfl rfl)

theorem timeout (hs : Sound s) (hstart : id ∉ s.starting.map Request.id) (h : s.timeout id = some t) : Sound t := by
  simp only [State.timeout] at h
  split at h
  · cases h
  · next caller hcaller =>
    obtain rfl := Option.some.inj h
    exact hs.receive hcaller hstart _ (.open _ rfl rfl)

theorem abandon (hs : Sound s) (hstart : id ∉ s.starting.map Request.id) :
    Sound { s with callers := AList.erase id s.callers } := by
  have hlater : Later s { s with callers := AList.erase id s.callers } :=
    ⟨le_refl _, fun _ hv => hv, fun _ hw => hw, fun _ hw => .inl hw, fun _ ho => .inl ho⟩
  have hlook : ∀ {id' caller}, (AList.erase id s.callers).lookup id' = some caller →
      s.callers.lookup id' = some caller := by
    intro id' caller h
    rw [Table.lookup_erase_if] at h
    split at h
    · cases h
    · exact h
  constructor
  · exact hs.distinct
  · exact hs.fresh
  · intro r hr
    have hne : r.id ≠ id := by
      rintro rfl
      exact hstart (List.mem_map_of_mem hr)
    rw [Table.lookup_erase_if, if_neg hne]
    exact hs.alive r hr
  · exact fun h => hs.known (hlook h)
  · exact hs.unwritten
  · exact hs.wrote
  · exact hs.pending
  · exact hs.room
  · exact hs.failure
  · exact fun h => hs.waiting (hlook h)
  · exact fun h hin => (hs.inbox (hlook h) hin).mono hlater
  · exact hs.once
  · exact hs.past
  · intro id' sent hmem
    obtain ⟨label, raw, hanswer, hex⟩ := hs.received hmem
    exact ⟨label, raw, hanswer, hex.mono hlater⟩

/-- A command that is no request is queued. -/
theorem queued (hs : Sound s) {command : CommandMessage} (hid : command.id? = none) (hroom : s.accepts = true) :
    Sound { s with queue := s.queue ++ [command] } := by
  have hlength : s.queue.length < 64 := by
    unfold State.accepts at hroom
    split at hroom
    · cases hroom
    · exact of_decide_eq_true hroom
  have hids : (s.queue ++ [command]).filterMap CommandMessage.id? = s.queue.filterMap CommandMessage.id? := by
    rw [List.filterMap_append, List.filterMap_cons, hid, List.filterMap_nil, List.append_nil]
  apply hs.moves
  constructor
  · rfl
  · rfl
  · rfl
  · rfl
  · rw [State.owned, hids]
    exact .refl _
  · exact fun r hr => hr
  · intro id h
    rw [State.unwritten, hids] at h
    exact ⟨h, fun hw => hw⟩
  · exact fun id hw => hw
  · exact fun id hw => .inl hw
  · exact hs.pending
  · exact ⟨by rw [List.length_append]; exact hlength, hs.room.2⟩
  · exact hs.failure

theorem fresh_state : Sound .fresh := by
  constructor <;> simp [State.fresh, State.owned, State.unwritten]

theorem step (hs : Sound s) {e : Event} (h : s.step e = some t) : Sound t := by
  cases e with
  | «begin» label method params =>
    obtain rfl := Option.some.inj h
    exact hs.begin label method params
  | enqueue start => exact hs.enqueue h
  | send value =>
    obtain rfl := Option.some.inj h
    split
    · next hroom => exact hs.queued rfl hroom
    · exact hs
  | stop =>
    obtain rfl := Option.some.inj h
    split
    · next hroom => exact hs.queued rfl hroom
    · exact hs.abort
  | hangup =>
    simp only [State.step] at h
    split at h
    · obtain rfl := Option.some.inj h
      exact hs.shed (.refl _) (.refl _) (.refl _) nofun nofun
    · cases h
  | take => exact hs.take h
  | wrote =>
    simp only [State.step] at h
    split at h
    · next hphase =>
      obtain rfl := Option.some.inj h
      exact hs.shed (.refl _) (.refl _) (.refl _) (fun _ => by rw [hphase]; rfl) nofun
    · cases h
  | writeFailed error =>
    simp only [State.step] at h
    split at h
    · obtain rfl := Option.some.inj h
      exact hs.fail rfl
    · cases h
  | message v =>
    simp only [State.step] at h
    split at h
    · next hphase =>
      obtain rfl := Option.some.inj h
      exact hs.message (by rw [hphase]; rfl) v
    · cases h
  | eof =>
    simp only [State.step] at h
    split at h
    · obtain rfl := Option.some.inj h
      exact hs.shed (.refl _) (.refl _) (.refl _) nofun nofun
    · cases h
  | readFailed error =>
    simp only [State.step] at h
    split at h
    · obtain rfl := Option.some.inj h
      exact hs.fail rfl
    · cases h
  | close status =>
    simp only [State.step] at h
    split at h
    · next failure expected hphase =>
      obtain rfl := Option.some.inj h
      exact hs.close hphase status
    · cases h
  | abort =>
    obtain rfl := Option.some.inj h
    exact hs.abort
  | finish id =>
    simp only [State.step] at h
    split at h
    · cases h
    · next hstart => exact hs.finish hstart h
  | timeout id =>
    simp only [State.step] at h
    split at h
    · cases h
    · next hstart => exact hs.timeout hstart h
  | abandon id =>
    simp only [State.step] at h
    split at h
    · cases h
    · next hstart =>
      obtain rfl := Option.some.inj h
      exact hs.abandon hstart

end Sound

-- ---------------------------------------------------------------------------
-- Runs
-- ---------------------------------------------------------------------------

theorem run_sound {h : List Event} (hrun : Run State.step Free .fresh h s) : Sound s :=
  hrun.invariant .fresh_state fun _ _ _ hs _ hn => hs.step hn

/-- What `call` puts in front of an error leaves the rest of it. -/
theorem relabel_error {label : Option String} {fault : Fault} (h : State.relabel label answer = .error fault) :
    ∃ sent : Fault, answer = .error sent ∧ sent.outcomeUnknown = fault.outcomeUnknown := by
  cases label with
  | none =>
    rw [relabel_none] at h
    exact ⟨fault, h, rfl⟩
  | some method =>
    cases answer with
    | ok value => cases h
    | error sent =>
      obtain rfl := Except.error.inj h
      exact ⟨sent, rfl, rfl⟩

theorem answerOf_error {v : Value} {fault : Fault} (h : answerOf v = .error fault) :
    fault.outcomeUnknown = true ∨
      ∃ error, v.get "result" = none ∧ v.get "error" = some error ∧ fault = rejection error := by
  unfold answerOf at h
  split at h
  · cases h
  · next error hresult herror => exact .inr ⟨error, hresult, herror, (Except.error.inj h).symm⟩
  · obtain rfl := Except.error.inj h
    exact .inl rfl

/-- A request, its response with a second one behind it, and the caller. -/
def exchange : List Event :=
  [.begin (some "thread/read") "thread/read" .null, .enqueue 0, .take, .wrote,
   .message (.object [("id", .int 1), ("result", .null)]),
   .message (.object [("id", .int 1), ("result", .bool true)]), .finish 1]

end RemoteCodex.Adapter
