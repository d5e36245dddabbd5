import RemoteCodex.Protocol.Frame

/-!
# The relay's own state

`cursor` is the last event the relay has taken, and the outbox holds, in the
order of their operations, the requests whose receipt it has not seen.
-/

namespace RemoteCodex.Tunnel

open Protocol

def OUTBOX : Nat := 64

structure Relay where
  cursor : Int := 0
  outbox : List (String × Frame) := []

namespace Relay

/-- `outbox` with a frame under an operation, in its place in the order. -/
def insertFrame (operation : String) (frame : Frame) : List (String × Frame) → List (String × Frame)
  | [] => [(operation, frame)]
  | (name, old) :: rest =>
    if operation < name then (operation, frame) :: (name, old) :: rest
    else if operation = name then (operation, frame) :: rest
    else (name, old) :: insertFrame operation frame rest

def send (r : Relay) (operation : String) (frame : Frame) : Relay :=
  { r with outbox := insertFrame operation frame r.outbox }

def accepts (message : Value) : Bool := (message.index "method").asStr = some "remoteCodex/operationAccepted"

/-- An event taken from the service, and what is forwarded to the frontend of it. -/
def hear (r : Relay) (next : Int) (message : Value) : Relay × Option Value :=
  if next > r.cursor then
    if accepts message then
      match (message.pointer ["params", "operation"]).bind Value.asStr with
      | some operation => ({ cursor := next, outbox := r.outbox.filter fun x => x.1 ≠ operation }, none)
      | none => ({ r with cursor := next }, none)
    else ({ r with cursor := next }, some message)
  else (r, none)

end Relay

end RemoteCodex.Tunnel
