import RemoteCodex.Execution.Duties
import RemoteCodex.Protocol.Identity

/-!
# The actor and its executor

The programs of the actor are carried out one operation at a time, among those
of the service's other tasks, while the executor takes what it was sent and
says what it has to say. The loop's stages are those of the source: it serves,
tells what still runs to terminate, looks and listens until nothing runs or
the time is over, and closes the channel.
-/

namespace RemoteCodex.Execution

open Interact Protocol Server

-- ---------------------------------------------------------------------------
-- The executor
-- ---------------------------------------------------------------------------

/-- What the executor says; `exit` is the job whose process it says has exited. -/
structure Said where
  value : Value
  exit : Option String := none

/-- What the actor has not read yet is `said`, the earliest first. `taken` is
how many messages the executor has taken, `live` are the jobs whose process
runs, each with the process, and `refused` those it would not start. -/
structure Executor where
  taken : Nat := 0
  live : List (String × String) := []
  refused : List String := []
  said : List Said := []

/-- The process a notification says has exited. -/
def exitOf (value : Value) : Option String :=
  if (value.index "method").asStr = some "process/exited" then
    (value.pointer ["params", "processId"]).bind Value.asStr
  else none

namespace Executor

def utter (x : Executor) (value : Value) (exit : Option String) : Executor :=
  { x with said := x.said ++ [⟨value, exit⟩] }

/-- `sent`: what it was sent. A start creates a process or is refused; a request
is answered, with an error if it starts nothing; a process exits once. -/
inductive Moves (sent : List Sent) : Executor → Executor → Prop
  | take {x e} : sent[x.taken]? = some e → e.job = none → Moves sent x { x with taken := x.taken + 1 }
  | create {x e j process} : sent[x.taken]? = some e → e.job = some j → e.process = some process →
      Moves sent x { x with taken := x.taken + 1, live := (j, process) :: x.live }
  | refuse {x e j} : sent[x.taken]? = some e → e.job = some j →
      Moves sent x { x with taken := x.taken + 1, refused := j :: x.refused }
  | answer {x e value} : e ∈ sent.take x.taken → (e.message.get "method").isSome = true →
      value.get "method" = none → value.index "id" = e.message.index "id" →
      ((value.get "error").isSome = true → ∀ j, e.job = some j → j ∈ x.refused) → Moves sent x (x.utter value none)
  | tell {x value} : (value.get "method").isSome = true → exitOf value = none → Moves sent x (x.utter value none)
  | exit {x j process value} : (j, process) ∈ x.live → exitOf value = some process →
      Moves sent x ({ x with live := x.live.erase (j, process) }.utter value (some j))

end Executor

-- ---------------------------------------------------------------------------
-- The actor
-- ---------------------------------------------------------------------------

inductive Stage
  | serving
  | terminating
  | looking
  | listening
  | closing
  | finished
  deriving DecidableEq, Repr

abbrev Rest := Prog Op Ans (Except Fault Bool)

/-- `rest` is what is left of the program that is carried out, `task` what it is
at, and `owner` the job of the exit it reads. The exits that were set down are
`attributed`, each with the job the process was of and the job it was taken
for; `reported` are the jobs whose exit was read. None of the last three is
kept by the code. -/
structure Scene where
  world : World := {}
  stage : Stage := .serving
  rest : Option Rest := none
  task : Task := .serving
  owner : Option String := none
  executor : Executor := {}
  attributed : List (String × String) := []
  reported : List String := []

/-- The programs of the stages after the loop. -/
def terminateAll (channel : String) : M Bool := do
  let _ ← attempt (terminate channel false)
  pure true

def look (channel : String) : M Bool := do
  let running ← ask (.runningProcesses channel false)
  pure !running.isEmpty

def listen (channel : String) (value : Value) : M Bool := do
  let _ ← attempt (collect channel value)
  pure true

def close (channel : String) : M Bool := do
  markChannelLost channel
  pure true

namespace Stage

/-- The stage after a program has ended, and the program it begins with. -/
def after (channel : String) : Stage → Except Fault Bool → Stage × Option Rest
  | .serving, .ok true => (.serving, none)
  | .serving, _ => (.terminating, some (terminateAll channel).run)
  | .terminating, _ => (.looking, some (look channel).run)
  | .looking, .ok true => (.listening, none)
  | .looking, _ => (.closing, some (close channel).run)
  | .listening, _ => (.looking, some (look channel).run)
  | .closing, _ => (.finished, none)
  | .finished, _ => (.finished, none)

def task : Stage → Task
  | .closing => .closing
  | _ => .serving

end Stage

namespace Scene

/-- The exit that is read is set down for the job whose state is set. -/
def setDown (S : Scene) : Op → List (String × String)
  | .setJobState id _ _ => (S.owner.map fun j => (j, id)).toList ++ S.attributed
  | _ => S.attributed

/-- The program has ended with `r`. -/
def ended (channel : String) (S : Scene) (r : Except Fault Bool) : Scene :=
  { S with
    stage := (S.stage.after channel r).1
    rest := (S.stage.after channel r).2
    task := (S.stage.after channel r).1.task
    owner := none
    reported := S.owner.toList ++ S.reported }

/-- What the executor says next is read. -/
def reads (S : Scene) (said : Said) (rest : List Said) (p : M Bool) : Scene :=
  { S with
    rest := some p.run
    task := .reading said.value
    owner := said.exit
    executor := { S.executor with said := rest } }

/-- `allowed`: which operations are carried out, and when. -/
inductive Step (supply : Nat → String) (c : Crates) (who : Identity) (runtime : Runtime) (allowed : Op → World → Prop) :
    Scene → Scene → Prop
  | turn {S} (e : Event) : S.stage = .serving → S.rest = none → (∀ value, e ≠ .output value) →
      (∀ r, e = .execute r → parseUuid r.operation = true) →
      Step supply c who runtime allowed S
        { S with rest := some (handle c who runtime e).run, task := .serving, owner := none }
  | collect {S said rest} : S.stage = .serving → S.rest = none → S.executor.said = said :: rest →
      Step supply c who runtime allowed S (S.reads said rest (handle c who runtime (.output said.value)))
  | listen {S said rest} : S.stage = .listening → S.rest = none → S.executor.said = said :: rest →
      Step supply c who runtime allowed S (S.reads said rest (listen who.channel said.value))
  | act {S op next} : S.rest = some (.call op next) → allowed op S.world →
      Step supply c who runtime allowed S
        { S with
          world := (exec supply op S.world).2
          rest := some (next (exec supply op S.world).1)
          attributed := S.setDown op }
  | ended {S r} : S.rest = some (.done r) → Step supply c who runtime allowed S (S.ended who.channel r)
  | deadline {S} : S.stage = .listening → S.rest = none →
      Step supply c who runtime allowed S
        { S with stage := .closing, rest := some (close who.channel).run, task := .closing }
  | others {S w} : Others who.channel S.world w → Step supply c who runtime allowed S { S with world := w }
  | executor {S x} : S.executor.Moves S.world.sent x → Step supply c who runtime allowed S { S with executor := x }
  /-- The service stops and starts again, at any time. -/
  | restart {S} (reason : String) :
      Step supply c who runtime allowed S
        { S with
          world := { S.world with store := S.world.store.reopen reason }
          stage := .finished
          rest := none
          task := .serving
          owner := none }

end Scene

-- ---------------------------------------------------------------------------
-- When jobs can be told apart
-- ---------------------------------------------------------------------------

/-- No job of the channel still runs. -/
def Quiet (channel : String) (w : World) : Prop :=
  ∀ job ∈ w.store.jobs, job.channel = channel → job.state.active = false

/-- A job is recorded when no process of this name runs, and a channel is
marked lost when none runs at all. -/
def Told : Op → World → Prop
  | .recordJob _ name params _ _, w => ∀ process, (params.index "processId").asStr = some process →
      ∀ job ∈ w.store.jobs, job.channel = name → job.processId = process → job.state.active = false
  | .closeChannel name, w => Quiet name w
  | _, _ => True

instance : ∀ (op : Op) (w : World), Decidable (Told op w)
  | .recordJob _ name params _ _, w =>
    inferInstanceAs (Decidable (∀ process ∈ (params.index "processId").asStr, ∀ job ∈ w.store.jobs,
      job.channel = name → job.processId = process → job.state.active = false))
  | .closeChannel name, w =>
    inferInstanceAs (Decidable (∀ job ∈ w.store.jobs, job.channel = name → job.state.active = false))
  | .operationState _ _, _ | .beginOperation _ _, _ | .completeOperation _ _, _ | .linkOperation _ _, _
  | .appendEvent _ _ _, _ | .recordApproval _, _ | .recordPermissions _, _ | .uuid, _ | .processJob _ _, _
  | .setJobState _ _ _, _ | .saveOutput _ _, _ | .runningProcesses _ _, _ | .activeJobs _, _ | .closeJobs _, _
  | .pendingLen, _ | .insertPending _ _, _ | .removePending _, _ | .send _, _ => .isTrue trivial

/-- A channel that was just created. -/
structure Opened (channel : String) (w : World) : Prop where
  pending : w.pending = ∅
  sent : w.sent = []
  log : w.log = []
  ids : (w.store.jobs.map Job.id).Nodup
  jobs : ∀ job ∈ w.store.jobs, job.channel ≠ channel
  operations : ∀ x, w.store.operations.lookup (channel, x) = none
  events : ∀ row ∈ w.store.execEvents, row.channel ≠ channel
  state : (w.store.channels.lookup channel).map Channel.state = some .running

end RemoteCodex.Execution
