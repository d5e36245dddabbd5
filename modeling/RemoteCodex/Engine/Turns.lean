import RemoteCodex.Engine.Rounds

/-!
# From one turn to the next

What a scan stores, and what `TransferService` does around the runs of the
engine, leaves the store regular as well; so it is wherever a history has come.
-/

namespace RemoteCodex.Engine

open Interact Transfer
open Remote (ClientError transient)

section

variable {answers : List Answer} {s : Scene × List Asked} {task : Task} {items : List Item} {item : Item} {k : Stored}
  {log : List Asked} {index : Nat}

-- ---------------------------------------------------------------------------
-- Scanning
-- ---------------------------------------------------------------------------

theorem listing_guards (h : Regular answers s.1.kept s.2) (root : Nat) (path : String) (waiting pages : Nat)
    (after : Option String) (children : List String) :
    Guarded answers (listing root path waiting pages after children) s fun _ t => Grown s t := by
  induction pages generalizing s after children with
  | zero => exact Act.Sat.throw trivial
  | succ pages ih =>
    refine Act.Sat.bind ((plain_guards h (by nofun) []).mono (fun _ _ ht => ht) fun _ _ _ => trivial) ?_
    rintro ⟨reply, bytes⟩ t ⟨hkept, hlog⟩
    have hgrown : Grown s t := grown_cons hkept hlog (by nofun)
    cases reply with
    | list page =>
      simp only
      split
      · exact Act.Sat.pure hgrown
      · split
        · exact Act.Sat.throw trivial
        · exact (ih (hgrown.regular h) _ _).mono (fun _ _ hu => hgrown.trans hu) fun _ _ he => he
    | _ => exact Act.Sat.throw trivial

theorem children_guards (h : Regular answers s.1.kept s.2) (pages root : Nat) (path : String) (waiting : Nat) (stamp : Stamp) :
    Guarded answers (children pages root path waiting stamp) s fun _ t => Grown s t := by
  unfold children
  split
  · exact listing_guards h root path waiting pages none []
  · exact Act.Sat.pure (Still.refl s).grown

theorem counted_guards (task : Task) (stamp : Stamp) : Guarded answers (counted task stamp) s fun _ t => t = s := by
  unfold counted
  split
  · exact guarded_addLength _ _
  · exact Act.Sat.pure rfl

/-- A task as a run has it beside the stored one. -/
structure Opened (task : Task) (k : Stored) : Prop where
  alike : Alike task k.task
  current : task.current = k.task.current
  conflict : task.view.conflict = k.task.view.conflict
  running : k.task.view.status.ended = false

/-- A scan that has `index` entries. -/
structure Gathering (answers : List Answer) (task : Task) (index : Nat) (k : Stored) (log : List Asked) : Prop
    extends Opened task k where
  regular : Regular answers k log
  unscanned : k.task.scanned = false
  length : k.items.length = index
  runningTask : task.view.status.ended = false

theorem Gathering.publish (h : Gathering answers task index s.1.kept s.2) :
    Guarded answers (publish task) s fun _ t => Gathering answers task index t.1.kept t.2 := by
  have hafter := h.regular.retask h.alike h.current h.conflict (.inr h.runningTask)
  refine (publish_guards h.regular hafter).mono ?_ fun _ _ he => he
  rintro _ t ⟨hkept, hlog⟩
  rw [hkept, hlog]
  exact ⟨⟨.refl task, rfl, rfl, h.runningTask⟩, hafter, h.alike.scanned.trans h.unscanned, h.length, h.runningTask⟩

theorem Gathering.grown (h : Gathering answers task index s.1.kept s.2) {t : Scene × List Asked} (hgrown : Grown s t) :
    Gathering answers task index t.1.kept t.2 := by
  have hregular := hgrown.regular h.regular
  rw [hgrown.kept] at hregular ⊢
  exact { h with regular := hregular }

/-- The store before and after an entry of a scan. -/
theorem Regular.append (h : Regular answers k log) (hunscanned : k.task.scanned = false)
    (hrunning : k.task.view.status.ended = false) (hindex : item.index = k.items.length)
    (hparent : ∀ p, item.parent = some p → p < item.index) (huntouched : item.Untouched)
    (hseen : Said log true item.root (.stat item.source) (.stat (some item.stamp))) :
    (k.saveItem item).items = k.items ++ [item] ∧ Regular answers (k.saveItem item) log := by
  have hput : putItem item k.items = k.items ++ [item] := h.indexed.append hindex
  rw [show k.saveItem item = k.setItems (k.items ++ [item]) from congrArg k.setItems hput]
  obtain ⟨hcurrent, hall⟩ := h.unscanned hunscanned
  have huntouched' : ∀ i ∈ k.items ++ [item], i.Untouched := by
    intro i hi
    rcases List.mem_append.mp hi with hi | hi
    · exact hall i hi
    · rw [List.mem_singleton.mp hi]
      exact huntouched
  refine ⟨rfl, h.indexed.concat hindex, ?_, ?_, ?_, ?_, ?_, h.policy, ?_, ?_, ?_, ?_, ?_⟩
  · intro i hi p hp
    rcases List.mem_append.mp hi with hi | hi
    · exact h.parents i hi p hp
    · rw [List.mem_singleton.mp hi] at hp ⊢
      exact hparent p hp
  · intro i hi
    have hi' := huntouched' i hi
    refine ⟨?_, fun c hc => ?_, fun hp => ?_, fun hd => ?_⟩
    · rcases List.mem_append.mp hi with hi | hi
      · exact (h.sound i hi).seen
      · rw [List.mem_singleton.mp hi]
        exact hseen
    · rw [hi'.choice] at hc
      cases hc
    · rw [hi'.prepared] at hp
      cases hp
    · rw [hi'.done] at hd
      cases hd
  · intro i hi hstanding
    have hi' := huntouched' i hi
    rcases hstanding with hd | ht | hp
    · rw [hi'.done] at hd
      cases hd
    · exact absurd hi'.target ht
    · rw [hi'.prepared] at hp
      cases hp
  · exact fun m n i j _ hj _ _ => huntouched' j (List.mem_of_getElem? hj)
  · intro c hc
    rw [show (k.setItems (k.items ++ [item])).task.current = none from hcurrent] at hc
    cases hc
  · exact fun _ i hi hreplaces => absurd hreplaces (huntouched' i hi).replaces
  · intro x hx
    obtain ⟨i, hi, hstaged⟩ := h.stages x hx
    exact ⟨i, List.mem_append_left _ hi, hstaged⟩
  · exact fun _ => ⟨hcurrent, huntouched'⟩
  · intro hcompleted
    rw [show k.task.view.status = .completed from hcompleted] at hrunning
    cases hrunning
  · intro hended
    rw [show k.task.view.status.ended = true from hended] at hrunning
    cases hrunning

theorem entries_guards (h : Gathering answers task index s.1.kept s.2) (pages left : Nat)
    {pending : List (Nat × String × Option Nat)} (hpending : ∀ e ∈ pending, ∀ p, e.2.2 = some p → p < index) :
    Guarded answers (entries pages left task index pending) s fun task' t =>
      ∃ index, Gathering answers task' index t.1.kept t.2 := by
  induction left generalizing s task index pending with
  | zero =>
    cases pending with
    | nil => exact Act.Sat.pure ⟨index, h⟩
    | cons => exact Act.Sat.throw trivial
  | succ left ih =>
    cases pending with
    | nil => exact Act.Sat.pure ⟨index, h⟩
    | cons next pending =>
      obtain ⟨root, path, parent⟩ := next
      refine Act.Sat.bind (sourceStamp_guards h.regular root path) ?_
      rintro stamp t ⟨ht, hsaid⟩
      refine Act.Sat.bind (quiet_guards (ht.regular h.regular) (fun _ => rfl) fun _ => rfl) ?_
      rintro token u ⟨hu, -⟩
      have hscan := h.grown (ht.trans hu.grown)
      have huntouched : Item.Untouched { index, parent, root, source := path, stamp, token } := ⟨rfl, rfl, rfl, rfl, rfl, rfl⟩
      obtain ⟨hitems, hregular⟩ := hscan.regular.append hscan.unscanned hscan.running hscan.length.symm
        (hpending _ List.mem_cons_self) huntouched (hsaid.mono hu.grown.log)
      refine Act.Sat.bind ((saveItem_guards hscan.regular hregular).mono (fun _ _ hv => hv) fun _ _ _ => trivial) ?_
      rintro _ v ⟨hkept, hlog⟩
      refine Act.Sat.bind (counted_guards task stamp) ?_
      rintro total w rfl
      have hnext : Gathering answers { task with view := { task.view with total, files := task.view.files + 1 } }
          (index + 1) w.1.kept w.2 := by
        rw [hkept, hlog]
        have halike := hscan.alike
        refine ⟨⟨⟨halike.base, halike.policy, halike.scanned, halike.cancel⟩, hscan.current, hscan.conflict, hscan.running⟩,
          hregular, hscan.unscanned, ?_, hscan.runningTask⟩
        rw [hitems, List.length_append, hscan.length]
        rfl
      refine Act.Sat.bind (children_guards hnext.regular pages root path pending.length stamp) fun names x hx => ?_
      refine Act.Sat.bind (R := fun _ y => Gathering answers
        { task with view := { task.view with total, files := task.view.files + 1 } } (index + 1) y.1.kept y.2) ?_
        fun _ y hy => ih hy fun e he p hp => ?_
      · exact guarded_provided (fun _ => (hnext.grown hx).publish) fun _ => hnext.grown hx
      · rcases List.mem_append.mp he with he | he
        · obtain ⟨name, -, rfl⟩ := List.mem_map.mp he
          cases hp
          exact Nat.lt_succ_self _
        · exact Nat.lt_succ_of_lt (hpending e (List.mem_cons_of_mem _ he) p hp)

theorem Regular.reset (h : Regular answers k log) (hunscanned : k.task.scanned = false)
    (hrunning : k.task.view.status.ended = false) : Regular answers (k.setItems []) log := by
  obtain ⟨hcurrent, hall⟩ := h.unscanned hunscanned
  have hnone : ∀ i : Item, i ∉ (k.setItems []).items := fun _ => List.not_mem_nil
  refine ⟨fun n i hi => ?_, fun i hi => absurd hi (hnone i), fun i hi => absurd hi (hnone i), fun i hi => absurd hi (hnone i),
    fun m n i j hi => ?_, fun c hc => ?_, h.policy, fun _ i hi => absurd hi (hnone i), fun x hx => ?_,
    fun _ => ⟨hcurrent, fun i hi => absurd hi (hnone i)⟩, fun hcompleted => ?_, fun hended => ?_⟩
  · exact absurd (List.mem_of_getElem? hi) (hnone i)
  · exact absurd (List.mem_of_getElem? hi) (hnone i)
  · rw [show (k.setItems []).task.current = none from hcurrent] at hc
    cases hc
  · obtain ⟨i, hi, hstaged, -⟩ := h.stages x hx
    rw [(hall i hi).staged] at hstaged
    cases hstaged
  · rw [show k.task.view.status = .completed from hcompleted] at hrunning
    cases hrunning
  · rw [show k.task.view.status.ended = true from hended] at hrunning
    cases hrunning

theorem scan_guards (h : Regular answers s.1.kept s.2) (hopened : Opened task s.1.kept) (hscanned : task.scanned = false)
    (pages : Nat) :
    Guarded answers (scan pages task) s fun task' t =>
      Regular answers t.1.kept t.2 ∧ Opened task' t.1.kept ∧ task'.scanned = true := by
  have halike := hopened.alike
  have hunscanned : s.1.kept.task.scanned = false := halike.scanned.symm.trans hscanned
  have hreset := h.reset hunscanned hopened.running
  refine Act.Sat.bind ((resetScan_guards h hreset).mono (fun _ _ ht => ht) fun _ _ _ => trivial) ?_
  rintro _ t ⟨hkept, hlog⟩
  have hstart : Gathering answers { task with view := { task.view with status := .preparing, total := 0, files := 0 } } 0
      t.1.kept t.2 := by
    rw [hkept, hlog]
    exact ⟨⟨⟨halike.base, halike.policy, halike.scanned, halike.cancel⟩, hopened.current, hopened.conflict, hopened.running⟩,
      hreset, hunscanned, rfl, rfl⟩
  refine Act.Sat.bind hstart.publish fun _ u hu => ?_
  refine Act.Sat.bind (entries_guards hu _ _ fun e he p hp => ?_) ?_
  · obtain ⟨source, -, rfl⟩ := List.mem_map.mp he
    cases hp
  rintro task' v ⟨index, hv⟩
  obtain ⟨hcurrent, hall⟩ := hv.regular.unscanned hv.unscanned
  have hnone : task'.current = none := hv.current.trans hcurrent
  have hafter : Regular answers (v.1.kept.saveTask { task' with scanned := true }) v.2 := by
    refine hv.regular.saveTask hv.alike.base ?_ ?_ ?_ ?_ ?_ ?_
    · intro c hc
      cases hnone.symm.trans hc
    · exact fun choice hp => hv.regular.policy choice (hv.alike.policy.symm.trans hp)
    · exact fun _ i hi hreplaces => absurd hreplaces (hall i hi).replaces
    · intro hs
      cases hs
    · intro hs
      have hopen := hv.runningTask
      rw [show task'.view.status = .completed from hs] at hopen
      cases hopen
    · intro hs
      cases hv.runningTask.symm.trans hs
  refine Act.Sat.bind (publish_guards hv.regular hafter) ?_
  rintro _ w ⟨hkept', hlog'⟩
  refine Act.Sat.pure ?_
  rw [hkept', hlog']
  exact ⟨hafter, ⟨.refl _, rfl, rfl, hv.runningTask⟩, rfl⟩

-- ---------------------------------------------------------------------------
-- A run of the engine
-- ---------------------------------------------------------------------------

theorem openTask_guards (h : Regular answers s.1.kept s.2) (hrunning : s.1.kept.task.view.status.ended = false)
    (remote : ServerIdentity) :
    Guarded answers (openTask remote) s fun task t => Regular answers t.1.kept t.2 ∧ Opened task t.1.kept := by
  refine Act.Sat.bind (loadTask_guards h) ?_
  rintro task t ⟨ht, rfl⟩
  refine Act.Sat.bind guarded_ensure ?_
  rintro _ t ⟨-, rfl⟩
  refine Act.Sat.bind guarded_ensure ?_
  rintro _ t ⟨-, rfl⟩
  refine Act.Sat.bind (openPeers_guards (ht.regular h) _ _) fun root u hu => ?_
  have hstill := ht.trans hu
  refine Act.Sat.pure ⟨hstill.regular h, ?_⟩
  rw [hstill.1]
  exact ⟨⟨rfl, rfl, rfl, rfl⟩, rfl, rfl, hrunning⟩

theorem run_guards (digest : Files.Bytes → String) (pages : Nat) (remote : ServerIdentity) (h : Regular answers s.1.kept s.2)
    (hrunning : s.1.kept.task.view.status.ended = false) : Guarded answers (run digest pages remote) s fun _ _ => True := by
  refine Act.Sat.bind (openTask_guards h hrunning remote) ?_
  rintro task t ⟨ht, hopened⟩
  refine Act.Sat.bind (R := fun task u => Regular answers u.1.kept u.2 ∧ Opened task u.1.kept ∧
    (task.cancel = false → task.scanned = true)) ?_ ?_
  · unfold scanned
    split
    · next hwanted =>
      simp only [Bool.and_eq_true, Bool.not_eq_true'] at hwanted
      exact (scan_guards ht hopened hwanted.1 pages).mono (fun _ _ hu => ⟨hu.1, hu.2.1, fun _ => hu.2.2⟩) fun _ _ he => he
    · next hno =>
      refine Act.Sat.pure ⟨ht, hopened, fun hcancel => ?_⟩
      simpa [hcancel] using hno
  · rintro task' u ⟨hu, hopened', hscanned⟩
    refine Act.Sat.bind (loadItems_guards hu) ?_
    rintro items v ⟨hv, rfl⟩
    have hregular := hv.regular hu
    rw [← hv.1] at hopened' ⊢
    exact runItems_guards digest hregular hopened'.alike hopened'.current hopened'.conflict hscanned

-- ---------------------------------------------------------------------------
-- Around the runs
-- ---------------------------------------------------------------------------

theorem Regular.publish (h : Regular answers s.1.kept s.2) (halike : Alike task s.1.kept.task)
    (hcurrent : task.current = s.1.kept.task.current) (hconflict : task.view.conflict = s.1.kept.task.view.conflict)
    (hstatus : task.view.status = s.1.kept.task.view.status ∨ task.view.status.ended = false) :
    Guarded answers (publish task) s fun _ t => Regular answers t.1.kept t.2 ∧ t.1.kept.task = task := by
  have hafter := h.retask halike hcurrent hconflict hstatus
  refine (publish_guards h hafter).mono ?_ fun _ _ he => he
  rintro _ t ⟨hkept, hlog⟩
  rw [hkept, hlog]
  exact ⟨hafter, rfl⟩

theorem queue_guards (h : Regular answers s.1.kept s.2) : Guarded answers queue s fun _ _ => True := by
  refine Act.Sat.bind (loadTask_guards h) ?_
  rintro task t ⟨ht, rfl⟩
  split
  · exact Act.Sat.pure trivial
  · have hregular := ht.regular h
    rw [← ht.1]
    exact Act.Sat.mono (hregular.publish ⟨rfl, rfl, rfl, rfl⟩ rfl rfl (.inr rfl)) (fun _ _ _ => trivial) fun _ _ he => he

theorem reconnect_guards (h : Regular answers s.1.kept s.2) :
    Guarded answers reconnect s fun _ t => Regular answers t.1.kept t.2 ∧ t.1.kept.task.view.status.ended = false := by
  refine Act.Sat.bind (loadTask_guards h) ?_
  rintro task t ⟨ht, rfl⟩
  have hregular := ht.regular h
  rw [← ht.1]
  refine Act.Sat.mono (hregular.publish ⟨rfl, rfl, rfl, rfl⟩ rfl rfl (.inr rfl)) ?_ fun _ _ he => he
  rintro _ u ⟨hu, htask⟩
  refine ⟨hu, ?_⟩
  rw [htask]
  rfl

theorem regular_rely {a b : Scene × List Asked} (hr : recorded.rely a b) (h : Regular answers a.1.kept a.2) :
    Regular answers b.1.kept b.2 := by
  obtain ⟨⟨hkept, -⟩, hlog⟩ := hr
  rw [hkept, hlog]
  exact h

theorem attempts_guards (digest : Files.Bytes → String) (rounds : List Attempt) (h : Regular answers s.1.kept s.2)
    (hrunning : s.1.kept.task.view.status.ended = false) : Guarded answers (attempts digest rounds) s fun _ _ => True := by
  induction rounds generalizing s with
  | nil => exact Act.Sat.throw trivial
  | cons a rest ih =>
    refine Act.Sat.bind (R := fun _ t => Regular answers t.1.kept t.2) (Act.Sat.attempt ?_) fun r t ht => ?_
    · have hround : Guarded answers (do
          let remote ← ofExcept a.remote
          run digest a.pages remote) s fun _ _ => True := by
        refine Act.Sat.bind (R := fun _ t => t = s) (Act.Sat.ofExcept (fun _ _ => rfl) fun _ _ => trivial) ?_
        rintro remote t rfl
        exact run_guards digest a.pages remote h hrunning
      -- wherever the round has failed, the store is regular
      have hheld := hround.hold h (fun _ _ hr => regular_rely hr) fun _ _ _ hg _ => hg.1
      exact hheld.mono (fun _ _ hu => hu.2) fun _ _ hu => hu.2
    · cases r with
      | ok => exact Act.Sat.pure trivial
      | error e =>
        simp only
        split
        · refine Act.Sat.bind (reconnect_guards ht) ?_
          rintro _ u ⟨hu, hopen⟩
          exact ih hu hopen
        · exact Act.Sat.throw trivial

theorem execute_guards (digest : Files.Bytes → String) (connected : Except ClientError Unit) (rounds : List Attempt)
    (h : Regular answers s.1.kept s.2) : Guarded answers (execute digest connected rounds) s fun _ _ => True := by
  refine Act.Sat.bind (loadTask_guards h) ?_
  rintro task t ⟨ht, rfl⟩
  split
  · exact Act.Sat.pure trivial
  · have hregular := ht.regular h
    rw [← ht.1]
    refine Act.Sat.bind (hregular.publish ⟨rfl, rfl, rfl, rfl⟩ rfl rfl (.inr rfl)) ?_
    rintro _ u ⟨hu, htask⟩
    refine Act.Sat.bind (R := fun _ v => v = u) (Act.Sat.ofExcept (fun _ _ => rfl) fun _ _ => trivial) ?_
    rintro _ v rfl
    refine attempts_guards digest rounds hu ?_
    rw [htask]
    rfl

theorem settle_guards (result : Except ClientError Unit) (h : Regular answers s.1.kept s.2) :
    Guarded answers (settle result) s fun _ _ => True := by
  refine Act.Sat.bind (loadTask_guards h) ?_
  rintro task t ⟨ht, rfl⟩
  refine Act.Sat.bind (loadProgress_guards (ht.regular h)) fun counters u hu => ?_
  have hstill := ht.trans hu
  have hregular := hstill.regular h
  obtain ⟨bytes, completed, skipped⟩ := counters
  rw [← hstill.1]
  refine (hregular.publish ?_ ?_ ?_ ?_).mono (fun _ _ _ => trivial) fun _ _ he => he
  · cases result <;> exact ⟨rfl, rfl, rfl, rfl⟩
  · rfl
  · cases result <;> rfl
  · cases result <;> cases hs : u.1.kept.task.view.status <;> simp [Status.ended]

-- ---------------------------------------------------------------------------
-- What the user does
-- ---------------------------------------------------------------------------

/-- The item as it was, but for what the user has said about it. -/
def Item.Marked (item item' : Item) : Prop := ∃ choice restart restage, item' = { item with choice, restart, restage }

theorem Item.Marked.shown {i i' : Item} (h : i.Marked i') : i'.done = i.done ∧ i'.skipped = i.skipped ∧
    i'.target = i.target := by
  obtain ⟨choice, restart, restage, rfl⟩ := h
  exact ⟨rfl, rfl, rfl⟩

/-- The user speaks about the item in hand. -/
theorem Regular.mark (h : Regular answers k log) (hitem : item ∈ k.items) (hcurrent : k.task.current = some item.index)
    {item' : Item} (hmarked : item.Marked item') (hchoices : ∀ choice, item'.choice = some choice → Chose answers choice)
    (hchosen : k.task.cancel = false → item'.Replaces →
      ∃ conflict, k.task.view.conflict = some conflict ∧ Shown answers conflict.expected) :
    (k.saveItem item').items = k.items.set item.index item' ∧ Regular answers (k.saveItem item') log := by
  obtain ⟨n, hn⟩ := List.mem_iff_getElem?.mp hitem
  have hindex : item.index = n := h.indexed n item hn
  have hlt : n < k.items.length := (List.getElem?_eq_some_iff.mp hn).1
  have hindex' : item'.index = item.index := by
    obtain ⟨choice, restart, restage, rfl⟩ := hmarked
    rfl
  have hput : putItem item' k.items = k.items.set item.index item' := by
    rw [h.indexed.put (by rw [hindex', hindex]; exact hlt), hindex']
  rw [hindex] at hput hcurrent ⊢
  rw [show k.saveItem item' = k.setItems (k.items.set n item') from congrArg k.setItems hput]
  have hself : (k.items.set n item')[n]? = some item' := List.getElem?_set_self hlt
  -- each item is the one that is marked, or was there before
  have hget : ∀ (m : Nat) (i : Item), (k.items.set n item')[m]? = some i →
      m = n ∧ i = item' ∨ m ≠ n ∧ k.items[m]? = some i := by
    intro m i hi
    by_cases heq : m = n
    · subst heq
      exact .inl ⟨rfl, (Option.some.inj (hself.symm.trans hi)).symm⟩
    · rw [List.getElem?_set_ne (Ne.symm heq)] at hi
      exact .inr ⟨heq, hi⟩
  have hmem : ∀ i ∈ k.items.set n item', i = item' ∨ i ∈ k.items := by
    intro i hi
    obtain ⟨m, hm⟩ := List.mem_iff_getElem?.mp hi
    rcases hget m i hm with ⟨-, rfl⟩ | ⟨-, hold⟩
    · exact .inl rfl
    · exact .inr (List.mem_of_getElem? hold)
  obtain ⟨hdone, hskipped, htarget⟩ := hmarked.shown
  have hplaced : ∀ i : Item, i.Placed log answers k.task.base k.items →
      i.Placed log answers k.task.base (k.items.set n item') := by
    intro i hi
    refine hi.along fun p above _ habove => ?_
    by_cases heq : n = p
    · subst heq
      obtain rfl := Option.some.inj (hn.symm.trans habove)
      exact ⟨item', hself, hdone, hskipped, htarget⟩
    · exact ⟨above, by rw [List.getElem?_set_ne heq, habove], rfl, rfl, rfl⟩
  refine ⟨rfl, ?_, ?_, ?_, ?_, ?_, ?_, h.policy, ?_, ?_, ?_, ?_, h.ended⟩
  · intro m i hi
    rcases hget m i hi with ⟨rfl, rfl⟩ | ⟨-, hold⟩
    · exact hindex'.trans hindex
    · exact h.indexed m i hold
  · intro i hi p hp
    rcases hmem i hi with rfl | hi
    · obtain ⟨choice, restart, restage, rfl⟩ := hmarked
      exact h.parents item hitem p hp
    · exact h.parents i hi p hp
  · intro i hi
    rcases hmem i hi with rfl | hi
    · obtain ⟨choice, restart, restage, rfl⟩ := hmarked
      exact ⟨(h.sound item hitem).seen, hchoices, (h.sound item hitem).prepared, (h.sound item hitem).finished⟩
    · exact h.sound i hi
  · intro i hi hstanding
    rcases hmem i hi with rfl | hi
    · obtain ⟨choice, restart, restage, rfl⟩ := hmarked
      have hold := hplaced item (h.placed item hitem hstanding)
      exact hold.same ⟨rfl, rfl, rfl⟩ rfl rfl rfl
    · exact hplaced i (h.placed i hi hstanding)
  · intro m m' i j hi hj hm hundone
    rcases hget m i hi with ⟨rfl, rfl⟩ | ⟨-, hold⟩ <;> rcases hget m' j hj with ⟨rfl, rfl⟩ | ⟨-, hold'⟩
    · exact absurd hm (Nat.lt_irrefl _)
    · exact h.inTurn m m' item j hn hold' hm (hdone ▸ hundone)
    · rw [h.current _ hcurrent m i hold hm] at hundone
      cases hundone
    · exact h.inTurn m m' i j hold hold' hm hundone
  · intro c hc m i hi hm
    rcases hget m i hi with ⟨rfl, rfl⟩ | ⟨-, hi⟩
    · rw [hdone]
      exact h.current c hc m item hn hm
    · exact h.current c hc m i hi hm
  · intro hcancel i hi hreplaces
    rcases hmem i hi with rfl | hi
    · exact hchosen hcancel hreplaces
    · exact h.chosen hcancel i hi hreplaces
  · intro x hx
    obtain ⟨i, hi, hstaged, rfl⟩ := h.stages x hx
    obtain ⟨m, hm⟩ := List.mem_iff_getElem?.mp hi
    by_cases heq : n = m
    · subst heq
      obtain rfl := Option.some.inj (hn.symm.trans hm)
      refine ⟨item', List.mem_of_getElem? hself, ?_⟩
      obtain ⟨choice, restart, restage, rfl⟩ := hmarked
      exact ⟨hstaged, rfl⟩
    · exact ⟨i, List.mem_iff_getElem?.mpr ⟨m, (List.getElem?_set_ne heq).trans hm⟩, hstaged, rfl⟩
  · intro hscanned
    rw [(h.unscanned hscanned).1] at hcurrent
    cases hcurrent
  · intro hcompleted
    refine ⟨(h.completed hcompleted).1, fun i hi => ?_⟩
    rcases hmem i hi with rfl | hi
    · exact hdone.trans ((h.completed hcompleted).2 item hitem)
    · exact (h.completed hcompleted).2 i hi

theorem resolve_guards (choice : Choice) (all : Bool) (h : Regular answers s.1.kept s.2)
    (hanswers : (Turn.resolve choice all).answers s.1.kept ⊆ answers) :
    Guarded answers (resolve choice all) s fun _ _ => True := by
  refine Act.Sat.bind (loadTask_guards h) ?_
  rintro task t ⟨ht, rfl⟩
  have hregular := ht.regular h
  rw [← ht.1] at hanswers ⊢
  cases hconflict : t.1.kept.task.view.conflict with
  | none => exact Act.Sat.throw trivial
  | some conflict =>
    refine Act.Sat.bind guarded_ensure ?_
    rintro _ t ⟨hoffered, rfl⟩
    refine Act.Sat.bind (loadItems_guards hregular) ?_
    rintro items u ⟨hu, rfl⟩
    have hafter := hu.regular hregular
    rw [← hu.1] at hanswers hconflict ⊢
    have hanswer : ⟨conflict, choice, all⟩ ∈ answers := by
      refine hanswers ?_
      simp [Turn.answers, hconflict, hoffered]
    cases hfound : u.1.kept.items.find? fun i => some i.index = u.1.kept.task.current with
    | none => exact Act.Sat.throw trivial
    | some item =>
      have hitem : item ∈ u.1.kept.items := List.mem_of_find?_eq_some hfound
      have hcurrent : u.1.kept.task.current = some item.index := by
        have hsame := List.find?_some hfound
        exact (of_decide_eq_true hsame).symm
      have hmarked := hafter.mark hitem hcurrent ⟨some choice, item.restart, item.prepared, rfl⟩
        (fun _ hc => ⟨_, hanswer, Option.some.inj hc⟩) fun _ hreplaces =>
          ⟨conflict, hconflict, ⟨conflict, choice, all⟩, hanswer, Option.some.inj hreplaces.2.2, rfl⟩
      refine Act.Sat.bind ((saveItem_guards hafter hmarked.2).mono (fun _ _ hv => hv) fun _ _ _ => trivial) ?_
      rintro _ v ⟨hkept, hlog⟩
      have hsaved : Regular answers v.1.kept v.2 := by
        rw [hkept, hlog]
        exact hmarked.2
      have htask : v.1.kept.task = u.1.kept.task := by
        rw [hkept]
        rfl
      have hlast : Regular answers (v.1.kept.saveTask
          (if all then { u.1.kept.task with policy := some choice } else u.1.kept.task)) v.2 := by
        rw [← htask]
        cases all with
        | false => exact hsaved.retask (.refl _) rfl rfl (.inl rfl)
        | true =>
          refine hsaved.saveTask rfl hsaved.current (fun _ hp => ?_) hsaved.chosen hsaved.unscanned hsaved.completed hsaved.ended
          exact ⟨_, hanswer, Option.some.inj hp, rfl⟩
      exact (saveTask_guards hsaved hlast).mono (fun _ _ _ => trivial) fun _ _ _ => trivial

theorem restartFile_guards (h : Regular answers s.1.kept s.2) : Guarded answers restartFile s fun _ _ => True := by
  refine Act.Sat.bind (loadTask_guards h) ?_
  rintro task t ⟨ht, rfl⟩
  refine Act.Sat.bind (loadItems_guards (ht.regular h)) ?_
  rintro items u ⟨hu, rfl⟩
  have hstill := ht.trans hu
  have hregular := hstill.regular h
  rw [← hu.1, show s.1.kept.task = u.1.kept.task by rw [hstill.1]]
  cases hfound : u.1.kept.items.find? fun i => some i.index = u.1.kept.task.current && !i.done with
  | none => exact Act.Sat.throw trivial
  | some item =>
    have hitem : item ∈ u.1.kept.items := List.mem_of_find?_eq_some hfound
    have hsame : u.1.kept.task.current = some item.index ∧ item.done = false := by
      have hboth := List.find?_some hfound
      simp only [Bool.and_eq_true, decide_eq_true_eq, Bool.not_eq_true'] at hboth
      exact ⟨hboth.1.symm, hboth.2⟩
    obtain ⟨hcurrent, hundone⟩ := hsame
    have hmarked := hregular.mark hitem hcurrent ⟨item.choice, true, item.restage, rfl⟩ (hregular.sound item hitem).choices
      fun _ hreplaces => by cases hreplaces.2.1
    refine Act.Sat.bind ((saveItem_guards hregular hmarked.2).mono (fun _ _ hv => hv) fun _ _ _ => trivial) ?_
    rintro _ v ⟨hkept, hlog⟩
    have hsaved : Regular answers v.1.kept v.2 := by
      rw [hkept, hlog]
      exact hmarked.2
    have htask : v.1.kept.task = u.1.kept.task := by
      rw [hkept]
      rfl
    have hget : v.1.kept.items[item.index]? = some { item with restart := true } := by
      rw [hkept, hmarked.1]
      obtain ⟨n, hn⟩ := List.mem_iff_getElem?.mp hitem
      rw [hregular.indexed n item hn]
      exact List.getElem?_set_self (List.getElem?_eq_some_iff.mp hn).1
    have hlast : Regular answers (v.1.kept.saveTask
        { u.1.kept.task with view := { u.1.kept.task.view with conflict := none } }) v.2 := by
      rw [← htask]
      refine hsaved.saveTask rfl hsaved.current hsaved.policy (fun _ i hi hreplaces => ?_) hsaved.unscanned hsaved.completed
        hsaved.ended
      -- the items before it are done, and those after it untouched
      obtain ⟨m, hm⟩ := List.mem_iff_getElem?.mp hi
      rcases Nat.lt_trichotomy m item.index with hlt | rfl | hgt
      · have hd := hsaved.current item.index (by rw [htask, hcurrent]) m i hm hlt
        rw [hreplaces.1] at hd
        cases hd
      · obtain rfl := Option.some.inj (hget.symm.trans hm)
        cases hreplaces.2.1
      · exact absurd hreplaces (hsaved.inTurn _ m _ i hget hm hgt hundone).replaces
    exact (saveTask_guards hsaved hlast).mono (fun _ _ _ => trivial) fun _ _ _ => trivial

theorem cancelTask_guards (h : Regular answers s.1.kept s.2) : Guarded answers cancelTask s fun _ _ => True := by
  refine Act.Sat.bind (loadTask_guards h) ?_
  rintro task t ⟨ht, rfl⟩
  have hregular := ht.regular h
  rw [← ht.1]
  refine (saveTask_guards hregular ?_).mono (fun _ _ _ => trivial) fun _ _ _ => trivial
  exact hregular.saveTask rfl hregular.current hregular.policy (fun hno => by cases hno) hregular.unscanned
    (fun hs => by cases hs) fun hs => by cases hs

-- ---------------------------------------------------------------------------
-- Every history
-- ---------------------------------------------------------------------------

theorem turn_guards (digest : Files.Bytes → String) (turn : Turn) (h : Regular answers s.1.kept s.2)
    (hanswers : turn.answers s.1.kept ⊆ answers) : Guarded answers (turn.program digest) s fun _ _ => True := by
  cases turn with
  | queue => exact queue_guards h
  | execute connected rounds => exact execute_guards digest connected rounds h
  | settle result => exact settle_guards result h
  | resolve choice all => exact resolve_guards choice all h hanswers
  | restartFile => exact restartFile_guards h
  | cancel => exact cancelTask_guards h

namespace Chronicle

variable {s t : Chronicle} {turn : Turn} {digest : Files.Bytes → String}

theorem Created.regular (h : s.Created) : Regular s.answers s.scene.kept s.asked := by
  have hnone : ∀ i : Item, i ∉ s.scene.kept.items := fun i hi => by
    rw [h.items] at hi
    cases hi
  refine ⟨fun n i hi => ?_, fun i hi => absurd hi (hnone i), fun i hi => absurd hi (hnone i), fun i hi => absurd hi (hnone i),
    fun m n i j hi => ?_, fun c hc => ?_, fun _ hp => ?_, fun _ i hi => absurd hi (hnone i), fun x hx => ?_,
    fun _ => ⟨h.current, fun i hi => absurd hi (hnone i)⟩, fun hs => ?_, fun hs => ?_⟩
  · exact absurd (List.mem_of_getElem? hi) (hnone i)
  · exact absurd (List.mem_of_getElem? hi) (hnone i)
  · rw [h.current] at hc
    cases hc
  · rw [h.policy] at hp
    cases hp
  · rw [h.asked] at hx
    cases hx
  · rw [h.status] at hs
    cases hs
  · rw [h.asked]
    rfl

/-- What a turn does wherever a history has come. -/
theorem Follows.guards (digest : Files.Bytes → String) (turn : Turn) (h : Regular s.answers s.scene.kept s.asked) :
    Guarded (turn.answers s.scene.kept ++ s.answers) (turn.program digest) (s.scene, s.asked) fun _ _ => True :=
  turn_guards digest turn (h.answered (List.subset_append_right _ _)) (List.subset_append_left _ _)

theorem History.regular (h : History digest s) : Regular s.answers s.scene.kept s.asked := by
  induction h with
  | created h => exact h.regular
  | @turn s turn t _ hturn ih =>
    obtain ⟨hstops, hanswers⟩ := hturn
    rw [hanswers]
    have hguards := Follows.guards digest turn ih
    unfold Guarded Act.Sat at hguards
    exact hguards.stops hstops (ih.answered (List.subset_append_right _ _)) (fun _ _ hr => regular_rely hr)
      fun _ _ _ hg _ => hg.1

end Chronicle

end

end RemoteCodex.Engine
