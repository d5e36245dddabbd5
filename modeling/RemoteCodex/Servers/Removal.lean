import RemoteCodex.Credentials.Store
import RemoteCodex.Engine.Task
import RemoteCodex.Interact.Runs

/-!
# The removal of a server

A removal takes the lock of its server, revokes the managed key where it is
asked to, looks for unfinished transfers and deletes the server's rows, each in
a step of its own. Transfers are created and saved meanwhile, by this client and
by others; none of their transactions takes that lock.
-/

namespace RemoteCodex.Servers

open Interact

/-- `status IN ('completed','cancelled')`. -/
def finished (task : Engine.Task) : Bool := task.view.status = .completed || task.view.status = .cancelled

structure TransferRow where
  server : String
  task : Engine.Task
  deriving DecidableEq

/-- The tables of the client's database that hold what belongs to a server. -/
structure Store where
  base : Credentials.Store := {}
  sessions : Table String String := ∅
  workspaces : List (String × String) := []
  tasks : Table String TransferRow := ∅
  items : Table (String × Nat) Engine.Item := ∅

namespace Store

/-- The query for unfinished transfers of a server. -/
def pending (s : Store) (server : String) : Bool :=
  s.tasks.values.any fun row => row.server = server && !finished row.task

/-- The transaction of `remove_server`. The tasks go with the row of the
connection, the items with the tasks. -/
def removeServer (s : Store) (id : String) : Store where
  base := s.base.removeServer id
  sessions := s.sessions.retain fun server => server ≠ id
  workspaces := s.workspaces.filter fun w => w.1 ≠ id
  tasks := s.tasks.retain fun row => row.server ≠ id
  items := ⟨s.items.entries.filter fun e => (s.tasks.lookup e.1.1).all fun row => row.server ≠ id,
    s.items.nodupKeys.sublist List.filter_sublist⟩

/-- `transfer_save`: a row that is new needs its server. -/
def transferSave (s : Store) (id server : String) (task : Engine.Task) : Option Store :=
  match s.tasks.lookup id with
  | some row => some { s with tasks := s.tasks.insert id { row with task } }
  | none =>
    if server ∈ s.base.connections then some { s with tasks := s.tasks.insert id ⟨server, task⟩ } else none

def transferItem (s : Store) (id : String) (item : Engine.Item) : Option Store :=
  match s.tasks.lookup id with
  | some _ => some { s with items := s.items.insert (id, item.index) item }
  | none => none

def transferResetScan (s : Store) (id : String) : Store :=
  { s with items := ⟨s.items.entries.filter fun e => e.1.1 ≠ id, s.items.nodupKeys.sublist List.filter_sublist⟩ }

/-- `transfer_remove_finished`, for one task: it is deleted if its row says
then that it is finished. -/
def transferRemoveFinished (s : Store) (id : String) : Store :=
  match s.tasks.lookup id with
  | some row => if finished row.task then { s.transferResetScan id with tasks := s.tasks.erase id } else s
  | none => s

end Store

/-- The task that `create` saves. -/
def newTask (workspace destination : String) (direction : Engine.Direction) (sources : List Engine.Source) :
    Engine.Task :=
  { view := { workspace, direction, destination }, sources }

inductive Phase
  | found | locked | ready | checked | refused | removed
  deriving DecidableEq, Repr

/-- A call of `ServerService::remove`; `revoked`: it has revoked the key. -/
structure Removal where
  server : String
  revokeKey : Bool
  phase : Phase := .found
  revoked : Bool := false
  deriving DecidableEq, Repr

/-- The removal holds the exclusive lock of its server. -/
def Removal.locks (r : Removal) : Bool := r.phase = .locked || r.phase = .ready || r.phase = .checked

/-- What a call of the transfer service works on: the connection that `create`
has read, or the row of a task that was loaded. -/
structure Held where
  id : String
  server : String
  deriving DecidableEq, Repr

/-- `authorized`: the servers whose account still accepts the managed key. -/
structure Scene where
  store : Store := {}
  authorized : List String := []
  held : List Held := []
  removals : List Removal := []

/-- `save`: any call that works on a task saves it, as it has made it by then.
`id` of a new task is the fresh identity the source draws. A server is given by
its identity; the source looks that up by name. -/
inductive Event
  | connect (server : String)
  | authorize (server : String)
  | create (id server : String)
  | load (id : String)
  | save (k : Nat) (task : Engine.Task)
  | saveItem (k : Nat) (item : Engine.Item)
  | resetScan (k : Nat)
  | removeFinished (id : String)
  | find (server : String) (revokeKey : Bool)
  | lock (n : Nat)
  | revoke (n : Nat) (ok : Bool)
  | check (n : Nat)
  | delete (n : Nat)
  | crash (n : Nat)

namespace Scene

def setRemoval (s : Scene) (n : Nat) (r : Removal) : Scene := { s with removals := s.removals.set n r }

/-- The removal, if it is in that phase. -/
def removalIn (s : Scene) (n : Nat) (phase : Phase) : Option Removal :=
  s.removals[n]?.filter fun r => r.phase = phase

def next (s : Scene) : Event → Option Scene
  | .connect server =>
    if server ∈ s.store.base.connections then none
    else some { s with store := { s.store with base := s.store.base.saveConnection server } }
  | .authorize server => some { s with authorized := server :: s.authorized }
  | .create id server =>
    if server ∈ s.store.base.connections ∧ s.store.tasks.lookup id = none then
      some { s with held := s.held ++ [⟨id, server⟩] }
    else none
  | .load id => (s.store.tasks.lookup id).map fun row => { s with held := s.held ++ [⟨id, row.server⟩] }
  | .save k task => s.held[k]?.bind fun h => (s.store.transferSave h.id h.server task).map fun store => { s with store }
  | .saveItem k item => s.held[k]?.bind fun h => (s.store.transferItem h.id item).map fun store => { s with store }
  | .resetScan k => s.held[k]?.map fun h => { s with store := s.store.transferResetScan h.id }
  | .removeFinished id => some { s with store := s.store.transferRemoveFinished id }
  | .find server revokeKey =>
    if server ∈ s.store.base.connections then some { s with removals := s.removals ++ [{ server, revokeKey }] }
    else none
  | .lock n => (s.removalIn n .found).map fun r =>
    if s.removals.any fun other => other.server = r.server && other.locks then
      s.setRemoval n { r with phase := .refused }
    else s.setRemoval n { r with phase := if r.revokeKey then .locked else .ready }
  | .revoke n ok => (s.removalIn n .locked).map fun r =>
    if ok then
      { s.setRemoval n { r with phase := .ready, revoked := true } with
        authorized := s.authorized.filter fun server => server ≠ r.server }
    else s.setRemoval n { r with phase := .refused }
  | .check n => (s.removalIn n .ready).map fun r =>
    s.setRemoval n { r with phase := if s.store.pending r.server then .refused else .checked }
  | .delete n => (s.removalIn n .checked).map fun r =>
    { s.setRemoval n { r with phase := .removed } with store := s.store.removeServer r.server }
  | .crash n => s.removals[n]?.map fun _ => { s with removals := s.removals.eraseIdx n }

/-- The server of the row that a save writes. -/
def target (s : Scene) (h : Held) : String := ((s.store.tasks.lookup h.id).map TransferRow.server).getD h.server

/-- No unfinished task of a server is saved between the query and the deletion
of its removal, and a removal that has revoked the key finds no unfinished task. -/
def Apart (s : Scene) : Event → Prop
  | .save k task => ∀ h, s.held[k]? = some h → finished task = false →
      ∀ r ∈ s.removals, r.phase = .checked → r.server ≠ s.target h
  | .check n => ∀ r, s.removals[n]? = some r → r.revoked = true → s.store.pending r.server = false
  | _ => True

-- ---------------------------------------------------------------------------
-- What the transactions do to unfinished tasks
-- ---------------------------------------------------------------------------

variable {s t : Scene} {e : Event} {h : List Event} {n : Nat} {r : Removal} {server id : String} {task : Engine.Task}
  {store store' : Store}

theorem pending_eq_false : store.pending server = false ↔
    ∀ id row, store.tasks.lookup id = some row → row.server = server → finished row.task = true := by
  unfold Store.pending
  rw [List.any_eq_false]
  constructor
  · intro h id row hrow hserver
    have := h row (Table.mem_values.mpr ⟨id, hrow⟩)
    simpa [hserver] using this
  · intro h row hrow
    obtain ⟨id, hrow⟩ := Table.mem_values.mp hrow
    simp only [Bool.and_eq_true, decide_eq_true_eq, Bool.not_eq_true', not_and, Bool.not_eq_false]
    exact h id row hrow

/-- Rows that were there before add no unfinished task. -/
theorem pending_of_rows (hrows : ∀ id row, store'.tasks.lookup id = some row → store.tasks.lookup id = some row)
    (h : store.pending server = false) : store'.pending server = false :=
  pending_eq_false.mpr fun id row hrow => pending_eq_false.mp h id row (hrows id row hrow)

theorem removeServer_rows {row : TransferRow} (h : (store.removeServer server).tasks.lookup id = some row) :
    store.tasks.lookup id = some row ∧ row.server ≠ server := by
  obtain ⟨hrow, hkept⟩ := Table.mem_retain.mp h
  exact ⟨hrow, of_decide_eq_true hkept⟩

theorem transferRemoveFinished_rows {row : TransferRow} {c : String}
    (h : (store.transferRemoveFinished id).tasks.lookup c = some row) : store.tasks.lookup c = some row := by
  unfold Store.transferRemoveFinished at h
  split at h
  · split at h
    · rw [Table.lookup_erase_if] at h
      split at h
      · cases h
      · exact h
    · exact h
  · exact h

/-- A save leaves every row but the one it writes. -/
theorem transferSave_rows {k : Held} (hsave : s.store.transferSave k.id k.server task = some store)
    {row : TransferRow} (hrow : store.tasks.lookup id = some row) :
    s.store.tasks.lookup id = some row ∨ (row.server = s.target k ∧ row.task = task) := by
  unfold Store.transferSave at hsave
  cases hold : s.store.tasks.lookup k.id with
  | some old =>
    rw [hold] at hsave
    obtain rfl := Option.some.inj hsave
    rw [Table.lookup_insert_if] at hrow
    split at hrow
    · obtain rfl := Option.some.inj hrow
      refine .inr ⟨?_, rfl⟩
      rw [target, hold]
      rfl
    · exact .inl hrow
  | none =>
    rw [hold] at hsave
    simp only at hsave
    split at hsave
    · obtain rfl := Option.some.inj hsave
      rw [Table.lookup_insert_if] at hrow
      split at hrow
      · obtain rfl := Option.some.inj hrow
        refine .inr ⟨?_, rfl⟩
        rw [target, hold]
        rfl
      · exact .inl hrow
    · cases hsave

theorem transferItem_tasks {item : Engine.Item} (h : store.transferItem id item = some store') :
    store'.tasks = store.tasks := by
  unfold Store.transferItem at h
  split at h
  · rw [← Option.some.inj h]
  · cases h

-- ---------------------------------------------------------------------------
-- Runs
-- ---------------------------------------------------------------------------

/-- What is known of a removal by its phase. -/
structure Cleared (s : Scene) (r : Removal) : Prop where
  checked : r.phase = .checked → s.store.pending r.server = false
  kept : r.phase = .found ∨ r.phase = .locked ∨ r.phase = .refused → r.revoked = false

def Sound (s : Scene) : Prop := ∀ r ∈ s.removals, Cleared s r

/-- A step that adds no unfinished task to the server of a removal that has looked. -/
theorem Sound.keeps (hs : Sound s) (hremovals : t.removals = s.removals)
    (hpending : ∀ r ∈ s.removals, r.phase = .checked → s.store.pending r.server = false →
      t.store.pending r.server = false) : Sound t := by
  intro r hr
  rw [hremovals] at hr
  have hc := hs r hr
  exact ⟨fun hphase => hpending r hr hphase (hc.checked hphase), hc.kept⟩

/-- A step of one removal that leaves the tasks as they are. -/
theorem Sound.set (hs : Sound s) {new : Removal} (hnew : Cleared s new) : Sound (s.setRemoval n new) := by
  intro r hr
  rcases List.mem_or_eq_of_mem_set hr with hr | rfl
  · exact ⟨(hs r hr).checked, (hs r hr).kept⟩
  · exact ⟨hnew.checked, hnew.kept⟩

theorem removalIn_some {phase : Phase} (h : s.removalIn n phase = some r) :
    s.removals[n]? = some r ∧ r ∈ s.removals ∧ r.phase = phase := by
  obtain ⟨hr, hphase⟩ := Option.filter_eq_some_iff.mp h
  exact ⟨hr, List.mem_of_getElem? hr, of_decide_eq_true hphase⟩

theorem Sound.next (hs : Sound s) (hc : Apart s e) (hn : s.next e = some t) : Sound t := by
  cases e with
  | connect server =>
    simp only [Scene.next] at hn
    split at hn
    · cases hn
    · obtain rfl := Option.some.inj hn
      exact hs.keeps rfl fun _ _ _ h => h
  | authorize server =>
    obtain rfl := Option.some.inj hn
    exact hs.keeps rfl fun _ _ _ h => h
  | create id server =>
    simp only [Scene.next] at hn
    split at hn
    · obtain rfl := Option.some.inj hn
      exact hs.keeps rfl fun _ _ _ h => h
    · cases hn
  | load id =>
    obtain ⟨row, -, rfl⟩ := Option.map_eq_some_iff.mp hn
    exact hs.keeps rfl fun _ _ _ h => h
  | save k task =>
    obtain ⟨held, hheld, hn⟩ := Option.bind_eq_some_iff.mp hn
    obtain ⟨store, hsave, rfl⟩ := Option.map_eq_some_iff.mp hn
    refine hs.keeps rfl ?_
    intro r hr hphase hpending
    apply pending_eq_false.mpr
    intro id row hrow hserver
    rcases transferSave_rows hsave hrow with hold | ⟨htarget, rfl⟩
    · exact pending_eq_false.mp hpending id row hold hserver
    · by_contra hunfinished
      exact hc held hheld (eq_false_of_ne_true hunfinished) r hr hphase (hserver.symm.trans htarget)
  | saveItem k item =>
    obtain ⟨held, -, hn⟩ := Option.bind_eq_some_iff.mp hn
    obtain ⟨store, hsave, rfl⟩ := Option.map_eq_some_iff.mp hn
    refine hs.keeps rfl fun _ _ _ h => pending_of_rows ?_ h
    intro id row hrow
    rwa [← transferItem_tasks hsave]
  | resetScan k =>
    obtain ⟨held, -, rfl⟩ := Option.map_eq_some_iff.mp hn
    exact hs.keeps rfl fun _ _ _ h => h
  | removeFinished id =>
    obtain rfl := Option.some.inj hn
    exact hs.keeps rfl fun _ _ _ h => pending_of_rows (fun _ _ => transferRemoveFinished_rows) h
  | find server revokeKey =>
    simp only [Scene.next] at hn
    split at hn
    · obtain rfl := Option.some.inj hn
      intro r hr
      rcases List.mem_append.mp hr with hr | hr
      · exact ⟨(hs r hr).checked, (hs r hr).kept⟩
      · rw [List.mem_singleton.mp hr]
        exact ⟨nofun, fun _ => rfl⟩
    · cases hn
  | lock n =>
    obtain ⟨r, hr, rfl⟩ := Option.map_eq_some_iff.mp hn
    obtain ⟨-, hmem, hphase⟩ := removalIn_some hr
    have hkept := (hs r hmem).kept (.inl hphase)
    split
    · exact hs.set ⟨nofun, fun _ => hkept⟩
    · refine hs.set ⟨?_, fun _ => hkept⟩
      intro hchecked
      cases hrevoke : r.revokeKey <;> simp [hrevoke] at hchecked
  | revoke n ok =>
    obtain ⟨r, hr, rfl⟩ := Option.map_eq_some_iff.mp hn
    obtain ⟨-, hmem, hphase⟩ := removalIn_some hr
    split
    · have hset : Sound (s.setRemoval n { r with phase := .ready, revoked := true }) := by
        refine hs.set ⟨nofun, ?_⟩
        rintro (h | h | h) <;> cases h
      exact hset.keeps rfl fun _ _ _ h => h
    · exact hs.set ⟨nofun, fun _ => (hs r hmem).kept (.inr (.inl hphase))⟩
  | check n =>
    obtain ⟨r, hr, rfl⟩ := Option.map_eq_some_iff.mp hn
    obtain ⟨hget, hmem, hphase⟩ := removalIn_some hr
    refine hs.set ⟨?_, ?_⟩
    · intro hchecked
      cases hpending : s.store.pending r.server with
      | false => rfl
      | true => simp [hpending] at hchecked
    · intro hrefused
      by_contra hrevoked
      have hnone := hc r hget (eq_true_of_ne_false hrevoked)
      simp [hnone] at hrefused
  | delete n =>
    obtain ⟨r, hr, rfl⟩ := Option.map_eq_some_iff.mp hn
    have hset : Sound (s.setRemoval n { r with phase := .removed }) := by
      refine hs.set ⟨nofun, ?_⟩
      rintro (h | h | h) <;> cases h
    exact hset.keeps rfl fun _ _ _ h => pending_of_rows (fun _ _ hrow => (removeServer_rows hrow).1) h
  | crash n =>
    obtain ⟨r, -, rfl⟩ := Option.map_eq_some_iff.mp hn
    intro r hr
    have hc := hs r (List.mem_of_mem_eraseIdx hr)
    exact ⟨hc.checked, hc.kept⟩

theorem sound_of_run (hrun : Run Scene.next Apart {} h s) : Sound s :=
  hrun.invariant (fun _ hr => absurd hr List.not_mem_nil) fun _ _ _ hs => hs.next

end Scene

end RemoteCodex.Servers
