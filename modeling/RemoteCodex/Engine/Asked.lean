import RemoteCodex.Engine.Ledger
import RemoteCodex.Engine.Naming
import RemoteCodex.Engine.Service
import RemoteCodex.Interact.Noted

/-!
# What a transfer has asked for

The history of a task: one turn after another under its lease, each of them
possibly cut short, with the commands that were given to both ends, the latest
first, and what the user has answered to conflicts.
-/

namespace RemoteCodex.Engine

open Interact Transfer
open Remote (ClientError)

/-- A command, and how it was answered if the run got as far. -/
structure Asked where
  source : Bool
  root : Nat
  command : Command
  reply : Option (Except ClientError Reply)

def note : (op : EngineOp) → Option (EngineAns op) → List Asked
  | .call source root command _, (reply : Option (Except ClientError (Reply × Files.Bytes))) =>
    [⟨source, root, command, reply.map (Except.map Prod.fst)⟩]
  | _, _ => []

/-- Anything may be around the store, and every command is written down. -/
abbrev recorded : Machine EngineOp EngineAns (Scene × List Asked) := (machine fun _ => True).noted note

/-- What the user has answered to a conflict. -/
structure Answer where
  conflict : Conflict
  choice : Choice
  all : Bool
  deriving DecidableEq, Repr

structure Chronicle where
  scene : Scene
  asked : List Asked := []
  answers : List Answer := []

def Turn.answers (turn : Turn) (k : Stored) : List Answer :=
  match turn, k.task.view.conflict with
  | .resolve choice all, some conflict => if choice.offered conflict then [⟨conflict, choice, all⟩] else []
  | _, _ => []

namespace Chronicle

/-- `TransferService::create` has just stored the task. -/
structure Created (s : Chronicle) : Prop where
  items : s.scene.kept.items = []
  scanned : s.scene.kept.task.scanned = false
  current : s.scene.kept.task.current = none
  policy : s.scene.kept.task.policy = none
  conflict : s.scene.kept.task.view.conflict = none
  status : s.scene.kept.task.view.status = .paused
  asked : s.asked = []
  answers : s.answers = []

/-- `turn` takes `s` to `t`, wherever it stops. -/
structure Follows (digest : Files.Bytes → String) (turn : Turn) (s t : Chronicle) : Prop where
  stops : Prog.Stops recorded (turn.program digest).run (s.scene, s.asked) (t.scene, t.asked)
  answers : t.answers = turn.answers s.scene.kept ++ s.answers

inductive History (digest : Files.Bytes → String) : Chronicle → Prop
  | created : s.Created → History digest s
  | turn : History digest s → Follows digest turn s t → History digest t

end Chronicle

-- ---------------------------------------------------------------------------
-- What the commands tell
-- ---------------------------------------------------------------------------

/-- The source, or the destination, has answered `command` with `reply`. -/
def Said (log : List Asked) (source : Bool) (root : Nat) (command : Command) (reply : Reply) : Prop :=
  ⟨source, root, command, some (.ok reply)⟩ ∈ log

theorem Said.mono {log log' : List Asked} {source : Bool} {root : Nat} {command : Command} {reply : Reply}
    (h : Said log source root command reply) (hlog : log ⊆ log') : Said log' source root command reply := hlog h

/-- The stages there may be once `a` was asked, if there may have been those of `before`. -/
def Asked.stages (a : Asked) (before : List (Nat × String × String)) : List (Nat × String × String) :=
  if a.source then before
  else
    match a.command, a.reply with
    | .prepare target token _ _, _ => (a.root, target, token) :: before
    | .cancel target token, some (.ok _) => before.filter fun stage => stage ≠ (a.root, target, token)
    | _, _ => before

/-- The stages at the destination that may be left: of each a `Prepare` was sent,
and no later `Cancel` was confirmed. -/
def stages (log : List Asked) : List (Nat × String × String) := log.foldr Asked.stages []

def Item.stage (item : Item) : Nat × String × String := (item.root, item.target, item.token)

/-- The user has chosen to replace what is `old`, or everything there is. -/
def Consented (answers : List Answer) (old : Stamp) : Prop :=
  ∃ a ∈ answers, a.choice = .replace ∧ (a.conflict.expected = old ∨ a.all = true)

/-- What is there may be merged with or replaced: it was seen, and a file is replaced with consent. -/
def Permitted (log : List Asked) (answers : List Answer) (item : Item) : Prop :=
  ∀ old, item.expected = some old → Said log false item.root (.stat item.target) (.stat (some old)) ∧
    (item.stamp.kind = .file → old.kind = .file ∧ Consented answers old)

/-- What shows that an item that was not skipped is at its target: a file was
published with the digest of the source, or was published before; and something
stands where a directory was wanted, or the directory was made. -/
def Item.Finished (log : List Asked) (item : Item) : Prop :=
  match item.stamp.kind with
  | .file =>
    (∃ digest reply, Said log true item.root (.hash item.source item.stamp) (.hash digest) ∧
      Said log false item.root (.commit item.target item.token digest) reply) ∨
    ∃ offset, Said log false item.root (.prepare item.target item.token item.stamp item.expected) (.ready offset true)
  | .directory =>
    (∃ reply, Said log false item.root (.directory item.target) reply) ∨
      ∃ stamp, Said log false item.root (.stat item.target) (.stat (some stamp))
  | .unsupported => False

/-- `target` is `base`, or what the user's wish to keep both has made of it. -/
def Varied (base target : String) : Prop :=
  ∃ suffixes : List (Nat × Bool), target = suffixes.foldl (fun target s => alternate target s.1 s.2) base

def Task.base (task : Task) : String := Engine.base task.view.direction task.view.destination

/-- The user has answered some conflict with `choice`. -/
def Chose (answers : List Answer) (choice : Choice) : Prop := ∃ a ∈ answers, a.choice = choice

/-- An item that has its place under the item it belongs to, or under `base`. It
is skipped if that item is, or if its source was neither a file nor a directory,
or if the user has chosen so. -/
structure Item.Placed (log : List Asked) (answers : List Answer) (base : String) (items : List Item) (item : Item) :
    Prop where
  root : item.parent = none → Varied (join base (lastName item.source)) item.target
  parent : ∀ p, item.parent = some p → ∃ above, items[p]? = some above ∧ above.done = true ∧
    (above.skipped = true → item.skipped = true) ∧ Varied (join above.target (lastName item.source)) item.target
  unsupported : item.stamp.kind = .unsupported → item.skipped = true
  skipped : item.skipped = true →
    (∃ stamp, stamp.kind = .unsupported ∧ Said log true item.root (.stat item.source) (.stat (some stamp))) ∨
    (∃ p above, item.parent = some p ∧ items[p]? = some above ∧ above.skipped = true) ∨ Chose answers .skip

/-- An item as the scan has left it. -/
structure Item.Untouched (item : Item) : Prop where
  target : item.target = ""
  prepared : item.prepared = false
  done : item.done = false
  skipped : item.skipped = false
  choice : item.choice = none
  restart : item.restart = false

-- ---------------------------------------------------------------------------
-- Stages
-- ---------------------------------------------------------------------------

section

variable {log : List Asked} {x : Nat × String × String} {root : Nat} {target token : String}
  {reply : Option (Except ClientError Reply)}

theorem stages_cons (a : Asked) (log : List Asked) : stages (a :: log) = a.stages (stages log) := rfl

theorem stages_prepare (stamp : Stamp) (expected : Option Stamp) :
    stages (⟨false, root, .prepare target token stamp expected, reply⟩ :: log) = (root, target, token) :: stages log := rfl

theorem mem_stages_cancel {r : Reply} : x ∈ stages (⟨false, root, .cancel target token, some (.ok r)⟩ :: log) ↔
    x ∈ stages log ∧ x ≠ (root, target, token) := by
  simp [stages_cons, Asked.stages]

/-- Nothing but a `Prepare` makes a stage. -/
theorem stages_subset {source : Bool} {command : Command}
    (h : source = false → ∀ target token stamp expected, command ≠ .prepare target token stamp expected) :
    stages (⟨source, root, command, reply⟩ :: log) ⊆ stages log := by
  intro x hx
  rw [stages_cons] at hx
  unfold Asked.stages at hx
  split at hx
  · exact hx
  · next hsource =>
    split at hx
    · next htarget => exact absurd htarget (h (by simpa using hsource) _ _ _ _)
    · exact (List.mem_filter.mp hx).1
    · exact hx

/-- Each `Prepare` was followed by a `Cancel` that was confirmed, or its stage may be left. -/
theorem cancelled_or_staged {later earlier : List Asked} {stamp : Stamp} {expected : Option Stamp}
    (hlog : log = later ++ ⟨false, root, .prepare target token stamp expected, reply⟩ :: earlier) :
    (∃ r, ⟨false, root, .cancel target token, some (.ok r)⟩ ∈ later) ∨ (root, target, token) ∈ stages log := by
  subst hlog
  induction later with
  | nil =>
    refine .inr ?_
    rw [List.nil_append, stages_prepare]
    exact List.mem_cons_self
  | cons a later ih =>
    rcases ih with ⟨r, hr⟩ | hrest
    · exact .inl ⟨r, List.mem_cons_of_mem _ hr⟩
    · by_cases hcancel : ∃ r, a = ⟨false, root, .cancel target token, some (.ok r)⟩
      · obtain ⟨r, rfl⟩ := hcancel
        exact .inl ⟨r, List.mem_cons_self⟩
      · refine .inr ?_
        rw [List.cons_append, stages_cons]
        unfold Asked.stages
        split
        · exact hrest
        · next hsource =>
          split
          · exact List.mem_cons_of_mem _ hrest
          · next r hcommand hreply =>
            refine List.mem_filter.mpr ⟨hrest, decide_eq_true fun heq => hcancel ⟨r, ?_⟩⟩
            obtain ⟨source, root', command, reply'⟩ := a
            obtain rfl : source = false := by simpa using hsource
            simp only [Prod.mk.injEq] at heq hcommand hreply
            obtain ⟨rfl, rfl, rfl⟩ := heq
            rw [hcommand, hreply]
          · exact hrest

end

end RemoteCodex.Engine
