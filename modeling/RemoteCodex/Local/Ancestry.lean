import Mathlib.Logic.Relation
import RemoteCodex.Local.Permissions

/-!
# The threads a binding covers

`contains` walks up the parents the native process reports of a thread. While
it waits for an answer the binding may change, so it looks at the binding again
before every question and before it records the threads it has passed; later
walks end at these.
-/

namespace RemoteCodex.Local

open Interact Protocol

/-- `Codex::parent_thread`, given what `thread/read` came to. -/
def parentThread (thread : String) (response : Except Fault Value) : Except Fault (Option String) :=
  response.bind fun response =>
    let metadata := response.index "thread"
    if (metadata.index "id").asStr ≠ some thread then
      .error (Transfer.fault "INVALID_THREAD_METADATA" "Codex returned metadata for a different thread")
    else
      .ok (((metadata.pointer ["source", "subAgent", "thread_spawn", "parent_thread_id"]).bind
        Value.asStr).filter (· ≠ ""))

inductive WalkPhase
  | looking
  | asking
  | recording
  | ended (result : Except Fault Bool)

/-- A call of `contains`; `channel` and `root` are the binding it began with. -/
structure Walk where
  thread : String
  channel : String
  root : String
  path : List String := []
  current : String
  phase : WalkPhase := .looking

namespace Walk

def ends (w : Walk) (result : Except Fault Bool) : Walk := { w with phase := .ended result }

/-- Up to the first question; `native` tells whether a native process is attached. -/
def start (s : Permissions) (native : Bool) (thread : String) : Walk :=
  let w : Walk := { thread, channel := s.channel, root := s.thread, current := thread }
  if thread = "" || s.thread = "" then w.ends (.ok false)
  else if thread = s.thread || thread ∈ s.children then w.ends (.ok true)
  else if !native then w.ends (.ok false)
  else w

def look (s : Permissions) (w : Walk) : Walk :=
  if s.channel ≠ w.channel || s.thread ≠ w.root then w.ends (.ok false)
  else if w.current = w.root || w.current ∈ s.children then { w with phase := .recording }
  else if w.current ∈ w.path then w.ends (.ok false)
  else { w with path := w.path ++ [w.current], phase := .asking }

def answer (w : Walk) (response : Except Fault Value) : Walk :=
  match parentThread w.current response with
  | .error fault => w.ends (.error fault)
  | .ok none => w.ends (.ok false)
  | .ok (some parent) => { w with current := parent, phase := .looking }

/-- The grants of the threads passed; `uuid` names them. -/
def grants (w : Walk) (uuid : String → String) : List (String × SessionPermissions) :=
  w.path.map fun child => (child, { id := uuid child, channel := w.channel, thread := child })

def record (s : Permissions) (w : Walk) (uuid : String → String) : Walk × Permissions :=
  if s.channel ≠ w.channel || s.thread ≠ w.root then (w.ends (.ok false), s)
  else (w.ends (.ok true), s.adopt w.channel w.root (w.grants uuid))

end Walk

/-- The permissions of a session with the calls of `contains` under way. -/
structure Scope where
  permissions : Permissions := {}
  native : Bool := false
  walks : Table Nat Walk := ∅

/-- Every other method is one `call`. -/
inductive ScopeEvent
  | call (call : PermissionCall)
  | attach
  | contains (n : Nat) (thread : String)
  | look (n : Nat)
  | answer (n : Nat) (response : Except Fault Value)
  | record (n : Nat) (uuid : String → String)

namespace Scope

def setWalk (s : Scope) (n : Nat) (w : Walk) : Scope := { s with walks := s.walks.insert n w }

def next (s : Scope) : ScopeEvent → Option Scope
  | .call (.adopt ..) => none
  | .call (.restore channel thread fullAccess uuid) =>
    some { s with permissions := .restore channel thread fullAccess uuid, native := false }
  | .call .clear => some { s with permissions := {}, native := false }
  | .call c => (s.permissions.next c).map fun p => { s with permissions := p }
  | .attach => some { s with native := true }
  | .contains n thread =>
    match s.walks.lookup n with
    | none => some (s.setWalk n (.start s.permissions s.native thread))
    | some _ => none
  | .look n =>
    match s.walks.lookup n with
    | some w =>
      match w.phase with
      | .looking => some (s.setWalk n (w.look s.permissions))
      | _ => none
    | none => none
  | .answer n response =>
    match s.walks.lookup n with
    | some w =>
      match w.phase with
      | .asking => some (s.setWalk n (w.answer response))
      | _ => none
    | none => none
  | .record n uuid =>
    match s.walks.lookup n with
    | some w =>
      match w.phase with
      | .recording =>
        let (w', p) := w.record s.permissions uuid
        some ({ s with permissions := p }.setWalk n w')
      | _ => none
    | none => none

/-- The native process reports `parent`, whenever it is asked and answers. -/
def Reported (parent : String → Option String) (s : Scope) : ScopeEvent → Prop
  | .answer n response => ∀ w, s.walks.lookup n = some w →
      ∀ p, parentThread w.current response = .ok p → parent w.current = p
  | _ => True

abbrev Reaches (parent : String → Option String) (h : List ScopeEvent) (s : Scope) : Prop :=
  Run next (Reported parent) {} h s

/-- The walk whose step an event is. -/
def walker : ScopeEvent → Option Nat
  | .contains n _ | .look n | .answer n _ | .record n _ => some n
  | _ => none

/-- The walk that looks at the binding in an event. -/
def looker : ScopeEvent → Option Nat
  | .contains n _ | .look n | .record n _ => some n
  | _ => none

/-- How many steps the walk `n` has taken. -/
def steps (n : Nat) (h : List ScopeEvent) : Nat := h.countP fun e => walker e = some n

/-- Whenever the walk `n` looked, the binding was of `channel` and `root`. -/
def Kept (parent : String → Option String) (n : Nat) (channel root : String) (h : List ScopeEvent) : Prop :=
  ∀ later e earlier s, h = later ++ e :: earlier → looker e = some n → Reaches parent earlier s →
    s.permissions.channel = channel ∧ s.permissions.thread = root

end Scope

/-- `b` is `a` or is reached from it through the parents. -/
abbrev Above (parent : String → Option String) : String → String → Prop :=
  Relation.ReflTransGen fun a b => parent a = some b

/-- `a` is a descendant of `b`. -/
abbrev Descends (parent : String → Option String) : String → String → Prop :=
  Relation.TransGen fun a b => parent a = some b

-- ---------------------------------------------------------------------------
-- The children of a binding
-- ---------------------------------------------------------------------------

section

variable {parent : String → Option String} {s t : Permissions} {w : Walk}

/-- The recorded threads descend from the bound one, each with its own grant. -/
def Permissions.Scoped (parent : String → Option String) (s : Permissions) : Prop :=
  ∀ child grant, s.children.lookup child = some grant →
    Descends parent child s.thread ∧ grant.thread = child ∧ grant.channel = s.channel

theorem Permissions.scoped_of_empty (h : s.children = ∅) : s.Scoped parent := by
  intro child grant hg
  rw [h] at hg
  cases hg

theorem Permissions.Scoped.same (hs : s.Scoped parent) (hchildren : t.children = s.children)
    (hchannel : t.channel = s.channel) (hthread : t.thread = s.thread) : t.Scoped parent := by
  intro child grant hg
  rw [hthread, hchannel]
  exact hs child grant (hchildren ▸ hg)

theorem Permissions.commit_children (s : Permissions) (uuid : String) :
    (s.commit uuid).children = s.children ∧ (s.commit uuid).channel = s.channel ∧
      (s.commit uuid).thread = s.thread := by
  unfold Permissions.commit
  split
  · split <;> exact ⟨rfl, rfl, rfl⟩
  · exact ⟨rfl, rfl, rfl⟩

/-- Following the settings leaves the binding and its children alone. -/
theorem Permissions.next_children {call : PermissionCall} (hr : ¬ Permissions.Rebinds call)
    (ha : ∀ channel root path, call ≠ .adopt channel root path) (hn : s.next call = some t) :
    t.children = s.children ∧ t.channel = s.channel ∧ t.thread = s.thread := by
  cases call with
  | restore => exact absurd trivial hr
  | clear => exact absurd trivial hr
  | adopt channel root path => exact absurd rfl (ha channel root path)
  | begin full supported uuid =>
    obtain rfl := Option.some.inj hn
    unfold Permissions.begin
    split
    · exact ⟨rfl, rfl, rfl⟩
    · split
      · exact ⟨rfl, rfl, rfl⟩
      · split <;> exact ⟨rfl, rfl, rfl⟩
  | acknowledge id success uuid =>
    obtain rfl := Option.some.inj hn
    exact commit_children _ uuid
  | observe thread full uuid =>
    obtain rfl := Option.some.inj hn
    unfold Permissions.observe
    split
    · exact ⟨rfl, rfl, rfl⟩
    · exact commit_children _ uuid
  | timeout id =>
    obtain rfl := Option.some.inj hn
    exact ⟨rfl, rfl, rfl⟩

theorem Permissions.lookup_adopted (path : List (String × SessionPermissions))
    (children : Table String SessionPermissions) {child : String} {grant : SessionPermissions}
    (h : (path.foldl (fun t x => if x.1 ∈ t then t else t.insert x.1 x.2) children).lookup child = some grant) :
    children.lookup child = some grant ∨ (child, grant) ∈ path := by
  induction path generalizing children with
  | nil => exact .inl h
  | cons x path ih =>
    rcases ih _ h with h | h
    · dsimp only at h
      split at h
      · exact .inl h
      · rw [Table.lookup_insert_if] at h
        split at h
        · next heq =>
          obtain rfl := Option.some.inj h
          subst heq
          exact .inr (List.mem_cons_self ..)
        · exact .inl h
    · exact .inr (List.mem_cons_of_mem _ h)

end

-- ---------------------------------------------------------------------------
-- One walk
-- ---------------------------------------------------------------------------

namespace Walk

variable {parent : String → Option String} {s : Permissions} {w : Walk} {thread : String}

/-- The walk has gone from its thread through its path to where it is, and has
not met the root before the end. -/
structure Sound (parent : String → Option String) (w : Walk) : Prop where
  here : Above parent w.thread w.current
  passed : ∀ x ∈ w.path, Above parent w.thread x ∧ Above parent x w.current
  distinct : w.path.Nodup
  apart : w.root ∉ w.path
  arrived : w.phase = .recording ∨ w.phase = .ended (.ok true) → Above parent w.current w.root

theorem Sound.ends (hw : w.Sound parent) {result : Except Fault Bool}
    (h : result = .ok true → Above parent w.current w.root) : (w.ends result).Sound parent := by
  refine ⟨hw.here, hw.passed, hw.distinct, hw.apart, ?_⟩
  rintro (hp | hp)
  · cases hp
  · exact h (WalkPhase.ended.inj hp)

theorem above_of_child (hs : s.Scoped parent) (h : thread ∈ s.children) : Above parent thread s.thread := by
  obtain ⟨grant, hg⟩ := Option.isSome_iff_exists.mp (AList.lookup_isSome.mpr h)
  exact (hs thread grant hg).1.to_reflTransGen

theorem sound_start (hs : s.Scoped parent) (native : Bool) : (start s native thread).Sound parent := by
  have hw : Sound parent { thread, channel := s.channel, root := s.thread, current := thread } := by
    refine ⟨.refl, by simp, .nil, by simp, ?_⟩
    rintro (hp | hp) <;> cases hp
  unfold start
  dsimp only
  split
  · exact hw.ends (by simp)
  · split
    · next h =>
      refine hw.ends fun _ => ?_
      simp only [Bool.or_eq_true, decide_eq_true_eq] at h
      rcases h with rfl | h
      · exact .refl
      · exact above_of_child hs h
    · split
      · exact hw.ends (by simp)
      · exact hw

theorem Sound.look (hw : w.Sound parent) (hs : s.Scoped parent) : (w.look s).Sound parent := by
  unfold Walk.look
  split
  · exact hw.ends (by simp)
  · next hbound =>
    simp only [Bool.or_eq_true, decide_eq_true_eq, not_or, not_not] at hbound
    split
    · next h =>
      refine ⟨hw.here, hw.passed, hw.distinct, hw.apart, fun _ => ?_⟩
      simp only [Bool.or_eq_true, decide_eq_true_eq] at h
      rcases h with h | h
      · rw [h]
      · exact hbound.2 ▸ above_of_child hs h
    · next h =>
      simp only [Bool.or_eq_true, decide_eq_true_eq, not_or] at h
      split
      · exact hw.ends (by simp)
      · next hnew =>
        refine ⟨hw.here, ?_, ?_, ?_, ?_⟩
        · intro x hx
          rcases List.mem_append.mp hx with hx | hx
          · exact hw.passed x hx
          · obtain rfl := List.mem_singleton.mp hx
            exact ⟨hw.here, .refl⟩
        · exact hw.distinct.append (List.nodup_singleton _) (by simpa using hnew)
        · simpa using ⟨hw.apart, fun heq => h.1 heq.symm⟩
        · rintro (hp | hp) <;> cases hp

theorem Sound.answer (hw : w.Sound parent) {response : Except Fault Value}
    (hr : ∀ p, parentThread w.current response = .ok p → parent w.current = p) : (w.answer response).Sound parent := by
  unfold Walk.answer
  split
  · exact hw.ends (by simp)
  · exact hw.ends (by simp)
  · next p hp =>
    have hup : Above parent w.current p := .single (hr _ hp)
    refine ⟨hw.here.trans hup, fun x hx => ⟨(hw.passed x hx).1, (hw.passed x hx).2.trans hup⟩, hw.distinct,
      hw.apart, ?_⟩
    rintro (hp | hp) <;> cases hp

theorem Sound.record (hw : w.Sound parent) (hp : w.phase = .recording) (uuid : String → String) :
    (w.record s uuid).1.Sound parent := by
  unfold Walk.record
  split
  · exact hw.ends (by simp)
  · exact hw.ends fun _ => hw.arrived (.inl hp)

/-- What a walk records are descendants of the root. -/
theorem Sound.adopted (hw : w.Sound parent) (hp : w.phase = .recording) (hs : s.Scoped parent)
    (uuid : String → String) : (w.record s uuid).2.Scoped parent := by
  unfold Walk.record
  split
  · exact hs
  · next hbound =>
    simp only [Bool.or_eq_true, decide_eq_true_eq, not_or, not_not] at hbound
    intro child grant hg
    simp only [Permissions.adopt, hbound.1, hbound.2, ne_eq, not_true_eq_false, decide_false, Bool.or_self,
      Bool.false_eq_true, if_false] at hg ⊢
    rcases Permissions.lookup_adopted _ _ hg with hg | hg
    · rw [← hbound.1, ← hbound.2]
      exact hs child grant hg
    · obtain ⟨x, hx, heq⟩ := List.mem_map.mp hg
      obtain ⟨rfl, rfl⟩ := Prod.mk.inj heq
      have hup : Above parent x w.root := (hw.passed x hx).2.trans (hw.arrived (.inl hp))
      refine ⟨?_, rfl, rfl⟩
      rcases Relation.reflTransGen_iff_eq_or_transGen.mp hup with heq | hup
      · exact absurd (heq ▸ hx) hw.apart
      · exact hup

theorem binding_look (s : Permissions) (w : Walk) :
    (w.look s).thread = w.thread ∧ (w.look s).channel = w.channel ∧ (w.look s).root = w.root := by
  unfold Walk.look
  split
  · exact ⟨rfl, rfl, rfl⟩
  · split
    · exact ⟨rfl, rfl, rfl⟩
    · split <;> exact ⟨rfl, rfl, rfl⟩

theorem binding_answer (w : Walk) (response : Except Fault Value) :
    (w.answer response).channel = w.channel ∧ (w.answer response).root = w.root := by
  unfold Walk.answer
  split <;> exact ⟨rfl, rfl⟩

theorem binding_record (s : Permissions) (w : Walk) (uuid : String → String) :
    (w.record s uuid).1.channel = w.channel ∧ (w.record s uuid).1.root = w.root := by
  unfold Walk.record
  split <;> exact ⟨rfl, rfl⟩

/-- No refusal and no fault so far. -/
def Agrees (w : Walk) : Prop := ∀ result, w.phase = .ended result → result = .ok true

theorem agrees_of_running (h : ∀ result, w.phase ≠ .ended result) : w.Agrees :=
  fun result hp => absurd hp (h result)

theorem not_agrees_ends {result : Except Fault Bool} (h : result ≠ .ok true) : ¬ (w.ends result).Agrees :=
  fun hw => h (hw result rfl)

/-- A walk that goes on after a look has found the binding it began with. -/
theorem bound_of_look (h : (w.look s).Agrees) : s.channel = w.channel ∧ s.thread = w.root := by
  unfold Walk.look at h
  split at h
  · exact absurd h (not_agrees_ends (by simp))
  · next hbound =>
    simp only [Bool.or_eq_true, decide_eq_true_eq, not_or, not_not] at hbound
    exact hbound

theorem bound_of_record {uuid : String → String} (h : (w.record s uuid).1.Agrees) :
    s.channel = w.channel ∧ s.thread = w.root := by
  unfold Walk.record at h
  split at h
  · exact absurd h (not_agrees_ends (by simp))
  · next hbound =>
    simp only [Bool.or_eq_true, decide_eq_true_eq, not_or, not_not] at hbound
    exact hbound

/-- What `k` steps have come to: each question adds a thread to the path. -/
def Spent (w : Walk) (k : Nat) : Prop :=
  match w.phase with
  | .looking => k = 2 * w.path.length + 1
  | .asking => k = 2 * w.path.length
  | .recording => k = 2 * w.path.length + 2
  | .ended _ => k ≤ 2 * w.path.length + 3

theorem spent_start (s : Permissions) (native : Bool) (thread : String) : (start s native thread).Spent 1 := by
  have hends (w : Walk) (result : Except Fault Bool) : (w.ends result).Spent 1 := by
    simp only [Spent, ends]
    omega
  unfold start
  dsimp only
  split
  · exact hends _ _
  · split
    · exact hends _ _
    · split
      · exact hends _ _
      · rfl

theorem Spent.look (h : w.Spent k) (hp : w.phase = .looking) : (w.look s).Spent (k + 1) := by
  simp only [Spent, hp] at h
  unfold Walk.look
  split
  · simp only [Spent, ends]
    omega
  · split
    · simp only [Spent]
      omega
    · split
      · simp only [Spent, ends]
        omega
      · simp only [Spent, List.length_append, List.length_singleton]
        omega

theorem Spent.answer (h : w.Spent k) (hp : w.phase = .asking) (response : Except Fault Value) :
    (w.answer response).Spent (k + 1) := by
  simp only [Spent, hp] at h
  unfold Walk.answer
  split <;> simp only [Spent, ends] <;> omega

theorem Spent.record (h : w.Spent k) (hp : w.phase = .recording) (uuid : String → String) :
    (w.record s uuid).1.Spent (k + 1) := by
  simp only [Spent, hp] at h
  unfold Walk.record
  split <;> simp only [Spent, ends] <;> omega

theorem Spent.le (h : w.Spent k) : k ≤ 2 * w.path.length + 3 := by
  unfold Spent at h
  split at h <;> omega

/-- Among finitely many threads a walk passes each at most once. -/
theorem Sound.length_path (hw : w.Sound parent) {all : List String} (hthread : w.thread ∈ all)
    (hall : ∀ x ∈ all, ∀ p, parent x = some p → p ∈ all) : w.path.length ≤ all.length := by
  have hclosed : ∀ x, Above parent w.thread x → x ∈ all := by
    intro x hx
    induction hx with
    | refl => exact hthread
    | tail _ hup ih => exact hall _ ih _ hup
  have hsub : w.path ⊆ all := fun x hx => hclosed x (hw.passed x hx).1
  exact (List.subperm_of_subset hw.distinct hsub).length_le

end Walk

-- ---------------------------------------------------------------------------
-- All walks
-- ---------------------------------------------------------------------------

namespace Scope

variable {parent : String → Option String} {h : List ScopeEvent} {s t : Scope} {e : ScopeEvent} {n : Nat}
variable {channel root : String}

theorem walker_of_looker (h : looker e = some n) : walker e = some n := by
  cases e <;> first | exact h | cases h

theorem steps_cons (n : Nat) (e : ScopeEvent) (h : List ScopeEvent) :
    steps n (e :: h) = steps n h + if walker e = some n then 1 else 0 := by
  simp [steps, List.countP_cons]

theorem kept_of_fresh (hsteps : steps n h = 0) : Kept parent n channel root h := by
  rintro later e earlier s rfl hlook -
  have := List.countP_eq_zero.mp hsteps e (by simp)
  simp [walker_of_looker hlook] at this

theorem Kept.cons (hk : Kept parent n channel root h) (hrun : Reaches parent h s)
    (he : looker e = some n → s.permissions.channel = channel ∧ s.permissions.thread = root) :
    Kept parent n channel root (e :: h) := by
  rintro later e' earlier s' heq hlook hs'
  cases later with
  | nil =>
    obtain ⟨rfl, rfl⟩ := List.cons.inj heq
    obtain rfl := Run.unique hs' hrun
    exact he hlook
  | cons e'' later =>
    obtain ⟨rfl, rfl⟩ := List.cons.inj heq
    exact hk later e' earlier s' rfl hlook hs'

structure Sound (parent : String → Option String) (h : List ScopeEvent) (s : Scope) : Prop where
  children : s.permissions.Scoped parent
  walk : ∀ n w, s.walks.lookup n = some w → w.Sound parent ∧ w.Spent (steps n h) ∧
    (w.Agrees → Kept parent n w.channel w.root h)
  fresh : ∀ n, s.walks.lookup n = none → steps n h = 0

/-- A step that is no walk's. -/
theorem Sound.other (hs : Sound parent h s) (hrun : Reaches parent h s) (he : walker e = none)
    (hp : t.permissions.Scoped parent) (hwalks : t.walks = s.walks) : Sound parent (e :: h) t := by
  have hsteps (n : Nat) : steps n (e :: h) = steps n h := by simp [steps_cons, he]
  refine ⟨hp, ?_, ?_⟩
  · intro n w hw
    rw [hsteps]
    obtain ⟨hw, hspent, hkept⟩ := hs.walk n w (hwalks ▸ hw)
    refine ⟨hw, hspent, fun hagrees => (hkept hagrees).cons hrun fun hlook => ?_⟩
    cases he.symm.trans (walker_of_looker hlook)
  · intro n hn
    rw [hsteps]
    exact hs.fresh n (hwalks ▸ hn)

/-- A step of the walk `n`. -/
theorem Sound.walks (hs : Sound parent h s) (hrun : Reaches parent h s) (he : walker e = some n)
    {p : Permissions} (hp : p.Scoped parent) {w : Walk} (hw : w.Sound parent) (hspent : w.Spent (steps n h + 1))
    (hkept : w.Agrees → Kept parent n w.channel w.root (e :: h)) :
    Sound parent (e :: h) ({ s with permissions := p }.setWalk n w) := by
  refine ⟨hp, ?_, ?_⟩
  · intro m w' hm
    rw [steps_cons, he]
    simp only [setWalk, Table.lookup_insert_if] at hm
    split at hm
    · next heq =>
      obtain rfl := Option.some.inj hm
      rw [heq, if_pos rfl]
      exact ⟨hw, hspent, hkept⟩
    · next hne =>
      rw [if_neg fun heq => hne (Option.some.inj heq).symm]
      obtain ⟨hw', hspent', hkept'⟩ := hs.walk m w' hm
      refine ⟨hw', hspent', fun hagrees => (hkept' hagrees).cons hrun fun hlook => ?_⟩
      exact absurd (Option.some.inj ((walker_of_looker hlook).symm.trans he)) hne
  · intro m hm
    rw [steps_cons, he]
    simp only [setWalk, Table.lookup_insert_if] at hm
    split at hm
    · cases hm
    · next hne =>
      rw [if_neg fun heq => hne (Option.some.inj heq).symm]
      exact hs.fresh m hm

theorem next_call {call : PermissionCall} (hr : ¬ Permissions.Rebinds call)
    (ha : ∀ channel root path, call ≠ .adopt channel root path) :
    s.next (.call call) = (s.permissions.next call).map fun p => { s with permissions := p } := by
  cases call with
  | restore => exact absurd trivial hr
  | clear => exact absurd trivial hr
  | adopt channel root path => exact absurd rfl (ha channel root path)
  | _ => rfl

/-- A new binding has no children yet. -/
theorem rebound {call : PermissionCall} (hr : Permissions.Rebinds call) (hn : s.next (.call call) = some t) :
    t.permissions.children = ∅ ∧ t.walks = s.walks := by
  cases call with
  | restore channel thread fullAccess uuid =>
    obtain rfl := Option.some.inj hn
    exact ⟨rfl, rfl⟩
  | clear =>
    obtain rfl := Option.some.inj hn
    exact ⟨rfl, rfl⟩
  | _ => cases hr

theorem Sound.call (hs : Sound parent h s) (hrun : Reaches parent h s) {call : PermissionCall}
    (hn : s.next (.call call) = some t) : Sound parent (.call call :: h) t := by
  have ha : ∀ channel root path, call ≠ .adopt channel root path := by
    rintro channel root path rfl
    cases hn
  by_cases hr : Permissions.Rebinds call
  · obtain ⟨hchildren, hwalks⟩ := rebound hr hn
    exact hs.other hrun rfl (Permissions.scoped_of_empty hchildren) hwalks
  · rw [next_call hr ha] at hn
    obtain ⟨p, hp, rfl⟩ := Option.map_eq_some_iff.mp hn
    obtain ⟨hchildren, hchannel, hthread⟩ := Permissions.next_children hr ha hp
    exact hs.other hrun rfl (hs.children.same hchildren hchannel hthread) rfl

theorem Sound.step (hs : Sound parent h s) (hrun : Reaches parent h s) (hr : Reported parent s e)
    (hn : s.next e = some t) : Sound parent (e :: h) t := by
  cases e with
  | call call => exact hs.call hrun hn
  | attach =>
    obtain rfl := Option.some.inj hn
    exact hs.other hrun rfl hs.children rfl
  | contains n thread =>
    simp only [next] at hn
    split at hn
    · next hnone =>
      obtain rfl := Option.some.inj hn
      have hfresh := hs.fresh n hnone
      refine hs.walks hrun rfl hs.children (Walk.sound_start hs.children s.native) ?_ ?_
      · rw [hfresh]
        exact Walk.spent_start _ _ _
      · intro _
        refine (kept_of_fresh hfresh).cons hrun fun _ => ?_
        unfold Walk.start
        dsimp only
        split
        · exact ⟨rfl, rfl⟩
        · split
          · exact ⟨rfl, rfl⟩
          · split <;> exact ⟨rfl, rfl⟩
    · cases hn
  | look n =>
    simp only [next] at hn
    split at hn
    · next w hw =>
      obtain ⟨hsound, hspent, hkept⟩ := hs.walk n w hw
      split at hn
      · next hp =>
        obtain rfl := Option.some.inj hn
        refine hs.walks hrun rfl hs.children (hsound.look hs.children) (hspent.look hp) ?_
        intro hagrees
        obtain ⟨-, hc, hroot⟩ := Walk.binding_look s.permissions w
        rw [hc, hroot]
        exact (hkept (Walk.agrees_of_running (by simp [hp]))).cons hrun fun _ => Walk.bound_of_look hagrees
      · cases hn
    · cases hn
  | answer n response =>
    simp only [next] at hn
    split at hn
    · next w hw =>
      obtain ⟨hsound, hspent, hkept⟩ := hs.walk n w hw
      split at hn
      · next hp =>
        obtain rfl := Option.some.inj hn
        refine hs.walks hrun rfl hs.children (hsound.answer (hr w hw)) (hspent.answer hp response) ?_
        intro _
        obtain ⟨hc, hroot⟩ := Walk.binding_answer w response
        rw [hc, hroot]
        exact (hkept (Walk.agrees_of_running (by simp [hp]))).cons hrun nofun
      · cases hn
    · cases hn
  | record n uuid =>
    simp only [next] at hn
    split at hn
    · next w hw =>
      obtain ⟨hsound, hspent, hkept⟩ := hs.walk n w hw
      split at hn
      · next hp =>
        obtain rfl := Option.some.inj hn
        refine hs.walks hrun rfl (hsound.adopted hp hs.children uuid) (hsound.record hp uuid) (hspent.record hp uuid) ?_
        intro hagrees
        obtain ⟨hc, hroot⟩ := Walk.binding_record s.permissions w uuid
        rw [hc, hroot]
        exact (hkept (Walk.agrees_of_running (by simp [hp]))).cons hrun fun _ => Walk.bound_of_record hagrees
      · cases hn
    · cases hn

theorem sound_of_reaches (hrun : Reaches parent h s) : Sound parent h s := by
  induction hrun with
  | start => exact ⟨Permissions.scoped_of_empty rfl, fun _ _ hw => (by cases hw), fun _ _ => rfl⟩
  | step hrun hr hn ih => exact ih.step hrun hr hn

/-- A walk that has not ended can take its next step, whatever it is told. -/
theorem goes_on {w : Walk} (hw : s.walks.lookup n = some w) (hp : ∀ result, w.phase ≠ .ended result) :
    (s.next (.look n)).isSome ∨ (∀ response, (s.next (.answer n response)).isSome) ∨
      ∀ uuid, (s.next (.record n uuid)).isSome := by
  cases hphase : w.phase with
  | looking => simp [next, hw, hphase]
  | asking => simp [next, hw, hphase]
  | recording => simp [next, hw, hphase]
  | ended result => exact absurd hphase (hp result)

/-- Only descendants of the bound thread are recorded or told to belong to it,
by walks that found the same binding whenever they looked; walks end, and a new
binding starts without children. -/
theorem walks_scoped (hrun : Reaches parent h s) :
    s.permissions.Scoped parent ∧
      (∀ n w, s.walks.lookup n = some w →
        (w.phase = .ended (.ok true) → Above parent w.thread w.root ∧ Kept parent n w.channel w.root h) ∧
        ((∀ result, w.phase ≠ .ended result) → (s.next (.look n)).isSome ∨
          (∀ response, (s.next (.answer n response)).isSome) ∨ ∀ uuid, (s.next (.record n uuid)).isSome) ∧
        ∀ all : List String, w.thread ∈ all → (∀ x ∈ all, ∀ p, parent x = some p → p ∈ all) →
          steps n h ≤ 2 * all.length + 3) ∧
      ∀ call t, Permissions.Rebinds call → s.next (.call call) = some t → t.permissions.children = ∅ := by
  have hs := sound_of_reaches hrun
  refine ⟨hs.children, ?_, fun _ _ hr hn => (rebound hr hn).1⟩
  intro n w hw
  obtain ⟨hsound, hspent, hkept⟩ := hs.walk n w hw
  refine ⟨?_, goes_on hw, ?_⟩
  · intro hp
    exact ⟨hsound.here.trans (hsound.arrived (.inr hp)), hkept fun result hr => WalkPhase.ended.inj (hr.symm.trans hp)⟩
  · intro all hthread hall
    have hlength := hsound.length_path hthread hall
    have hle := hspent.le
    omega

/-- Since the walk `n` began, the binding has been `channel` and `root`. -/
def Stayed (parent : String → Option String) (n : Nat) (channel root : String) (h : List ScopeEvent) : Prop :=
  ∀ later since thread earlier t, h = later ++ since ++ .contains n thread :: earlier →
    Reaches parent (since ++ .contains n thread :: earlier) t →
    t.permissions.channel = channel ∧ t.permissions.thread = root

section

/-- What the native process answers for a spawned thread. -/
def spawned (thread parent : String) : Value :=
  .object [("thread", .object [("id", .string thread), ("source", .object [("subAgent",
    .object [("thread_spawn", .object [("parent_thread_id", .string parent)])])])])]

def oneChild (thread : String) : Option String := if thread = "child" then some "root" else none

def bindRoot : ScopeEvent := .call (.restore "channel" "root" true "grant")

/-- The binding is cleared and made again while the walk waits for its answer. -/
theorem walk_not_stayed : ¬ ∀ parent h s e n w, Reaches parent (e :: h) s → walker e = some n →
    s.walks.lookup n = some w → w.phase = .ended (.ok true) →
    Above parent w.thread w.root ∧ Stayed parent n w.channel w.root (e :: h) := by
  intro hall
  have hasked : Reaches oneChild [.look 0, .contains 0 "child", .attach, bindRoot] _ :=
    .step (.step (.step (.step .start trivial rfl) trivial rfl) trivial rfl) trivial rfl
  have hcleared : Reaches oneChild [.call .clear, .look 0, .contains 0 "child", .attach, bindRoot] _ :=
    .step hasked trivial rfl
  have hagain : Reaches oneChild [bindRoot, .call .clear, .look 0, .contains 0 "child", .attach, bindRoot] _ :=
    .step hcleared trivial rfl
  have hanswered : Reaches oneChild (.answer 0 (.ok (spawned "child" "root")) :: [bindRoot, .call .clear, .look 0,
      .contains 0 "child", .attach, bindRoot]) _ :=
    .step hagain (fun w hw p hp => by cases hw; cases hp; rfl) rfl
  have hended : Reaches oneChild (.record 0 id :: .look 0 :: .answer 0 (.ok (spawned "child" "root")) ::
      [bindRoot, .call .clear, .look 0, .contains 0 "child", .attach, bindRoot]) _ :=
    .step (.step hanswered trivial rfl) trivial rfl
  have hstayed := (hall _ _ _ _ 0 _ hended rfl rfl rfl).2
  have hchannel := (hstayed (.record 0 id :: .look 0 :: .answer 0 (.ok (spawned "child" "root")) :: [bindRoot])
    [.call .clear, .look 0] _ _ _ rfl hcleared).1
  exact absurd hchannel (by decide)

theorem walks_scoped_child : Above oneChild "child" "root" := by
  have hasked : Reaches oneChild [.look 0, .contains 0 "child", .attach, bindRoot] _ :=
    .step (.step (.step (.step .start trivial rfl) trivial rfl) trivial rfl) trivial rfl
  have hended : Reaches oneChild [.record 0 id, .look 0, .answer 0 (.ok (spawned "child" "root")), .look 0,
      .contains 0 "child", .attach, bindRoot] _ :=
    .step (.step (.step hasked (fun w hw p hp => by cases hw; cases hp; rfl) rfl) trivial rfl) trivial rfl
  exact (((walks_scoped hended).2.1 0 _ rfl).1 rfl).1

end

end Scope

end RemoteCodex.Local
