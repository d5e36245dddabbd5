import RemoteCodex.Execution.Operations

/-!
# The actor of a channel

One turn of its loop for each thing it takes. Any error a turn meets ends the
loop: the processes of the channel are told to terminate, what the executor
still says is collected while one of them runs, and the channel is lost.
-/

namespace RemoteCodex.Execution

open Interact Protocol Server

/-- What the loop takes: requests, what the executor says, and what makes it
look after its processes. When a timer is due is left open. -/
inductive Event
  | execute (r : Request)
  | output (value : Value)
  | detached
  | silent
  | retireIdle
  | idle
  | stop

/-- Whether the loop goes on. -/
def handle (c : Crates) (who : Identity) (runtime : Runtime) : Event → M Bool
  | .execute r => do
    dispatch c who runtime r
    pure true
  | .output value => do
    collect who.channel value
    pure true
  | .detached => do
    terminate who.channel true
    pure true
  | .silent => do
    let _ ← attempt (terminate who.channel true)
    pure true
  | .retireIdle => do
    let pending ← ask .pendingLen
    let running ← ask (.runningProcesses who.channel false)
    pure !(pending = 0 && running.isEmpty)
  | .idle => do
    let active ← ask (.activeJobs who.channel)
    pure (active ≠ 0)
  | .stop => pure false

/-- What is still collected: `outputs` is what the executor says until the deadline. -/
def drain (channel : String) : List Value → M Unit
  | [] => pure ()
  | value :: outputs => do
    let running ← ask (.runningProcesses channel false)
    if running.isEmpty then pure () else do
      let _ ← attempt (collect channel value)
      drain channel outputs

def finish (channel : String) (outputs : List Value) : M Unit := do
  let _ ← attempt (terminate channel false)
  drain channel outputs
  markChannelLost channel

/-- Whether the loop goes on; if not, the channel is at its end. -/
def turn (c : Crates) (who : Identity) (runtime : Runtime) (e : Event) (outputs : List Value) : M Bool := do
  match ← attempt (handle c who runtime e) with
  | .ok true => pure true
  | _ => do
    finish who.channel outputs
    pure false

/-- A run of the loop, with what is collected should a turn be the last. -/
def serve (c : Crates) (who : Identity) (runtime : Runtime) : List (Event × List Value) → M Bool
  | [] => pure true
  | (e, outputs) :: rest => do
    if ← turn c who runtime e outputs then serve c who runtime rest else pure false

/-- Nothing else happens meanwhile. -/
def alone (supply : Nat → String) : Machine Op Ans World where
  exec := exec supply
  torn _ _ _ := False
  rely s t := s = t

end RemoteCodex.Execution
