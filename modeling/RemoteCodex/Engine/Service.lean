import RemoteCodex.Engine.Run

/-!
# The transfer service

What `TransferService` does to a stored task before, between and after the runs
of the engine, and when the user resolves a conflict, restarts a file or cancels.
-/

namespace RemoteCodex.Engine

open Interact Transfer
open Remote (ClientError transient)

/-- The first step of `TransferService::run`. -/
def queue : E Unit := do
  let task ← loadTask
  if task.view.status = .completed || task.view.status = .cancelled then pure ()
  else publish { task with view := { task.view with status := .queued, active := true, owned := true } }

/-- `execute` after a transient error, before it runs the engine again. -/
def reconnect : E Unit := do
  let task ← loadTask
  publish { task with
    view := { task.view with
      status := .reconnecting, message := some "Connection interrupted. Waiting to reconnect…" } }

/-- One round of the loop of `execute`: what `recover_silent` finds, and how many
pages a directory may have. -/
structure Attempt where
  remote : Except ClientError ServerIdentity
  pages : Nat

section

variable (digest : Files.Bytes → String)

/-- The loop of `execute`, as far as its rounds are given. -/
def attempts : List Attempt → E Unit
  | [] => throw .timeout
  | a :: rest => do
    let r : Except ClientError Unit ← attempt (do
      let remote ← ofExcept a.remote
      run digest a.pages remote)
    match r with
    | .ok () => pure ()
    | .error e =>
      if transient e then do
        reconnect
        attempts rest
      else throw e

def execute (connected : Except ClientError Unit) (rounds : List Attempt) : E Unit := do
  let task ← loadTask
  if task.view.status = .completed || task.view.status = .cancelled then pure ()
  else do
    let message := if task.cancel then some "Removing temporary transfer data…" else none
    publish { task with
      view := { task.view with active := true, owned := true, status := .preparing, message, errorCode := none } }
    ofExcept connected
    attempts digest rounds

end

/-- The last step of `TransferService::run`. -/
def settle (result : Except ClientError Unit) : E Unit := do
  let task ← loadTask
  let (bytes, completed, skipped) ← loadProgress
  let status :=
    match task.view.status with
    | .conflict => .conflict
    | .completed => .completed
    | .cancelled => .cancelled
    | _ => .paused
  let view := { task.view with bytes, completed, skipped, active := false, owned := false, status }
  let view :=
    match result with
    | .ok () => view
    | .error e => { view with message := some e.text, errorCode := some e.code }
  publish { task with view }

def Choice.offered (choice : Choice) (conflict : Conflict) : Bool :=
  match choice with
  | .replace => conflict.source = .file && conflict.destination = conflict.source
  | .merge => conflict.source = .directory && conflict.destination = conflict.source
  | _ => true

def resolve (choice : Choice) (all : Bool) : E Unit := do
  let task ← loadTask
  match task.view.conflict with
  | none => throw (argument "This transfer has no pending conflict.")
  | some conflict => do
    ensure (choice.offered conflict) (argument "This choice is not available for these file types.")
    match (← loadItems).find? fun i => some i.index = task.current with
    | none => throw .remoteResponse
    | some item => do
      saveItem { item with choice := some choice, restage := item.prepared }
      saveTask (if all then { task with policy := some choice } else task)

def restartFile : E Unit := do
  let task ← loadTask
  match (← loadItems).find? fun i => some i.index = task.current && !i.done with
  | none => throw (argument "No incomplete file to restart.")
  | some item => do
    saveItem { item with restart := true }
    saveTask { task with view := { task.view with conflict := none } }

def cancelTask : E Unit := do
  let task ← loadTask
  saveTask { task with
    cancel := true
    view := { task.view with
      status := .paused
      message := some "Cancellation requested. Removing temporary transfer data…"
      conflict := none } }

/-- What is done to a task by one that holds its lease. -/
inductive Turn
  | queue
  | execute (connected : Except ClientError Unit) (rounds : List Attempt)
  | settle (result : Except ClientError Unit)
  | resolve (choice : Choice) (all : Bool)
  | restartFile
  | cancel

def Turn.program (digest : Files.Bytes → String) : Turn → E Unit
  | .queue => Engine.queue
  | .execute connected rounds => Engine.execute digest connected rounds
  | .settle result => Engine.settle result
  | .resolve choice all => Engine.resolve choice all
  | .restartFile => Engine.restartFile
  | .cancel => cancelTask

end RemoteCodex.Engine
