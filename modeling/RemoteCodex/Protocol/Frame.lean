import RemoteCodex.Protocol.Approval
import RemoteCodex.Protocol.Encode

/-!
# Frames

What the relay and the service send each other over one stream, a line of JSON
each, and what a line may take.
-/

namespace RemoteCodex.Protocol

open Wire

def MAX_FRAME : Nat := 2 * 1024 * 1024

inductive Frame
  | result (value : Value)
  | error (fault : Fault)
  | event (cursor : Int) (message : Value)
  | heartbeat
  | execute (operation : String) (message : Value) (approval : Option CommandApproval)
      (permissions : Option SessionPermissions)
  | ack (cursor : Int)
  | detach

def CommandApproval.toValue (grant : CommandApproval) : Value :=
  .object [("id", .string grant.id), ("channel", .string grant.channel), ("thread", .string grant.thread),
    ("turn", .string grant.turn), ("item", .string grant.item),
    ("argv", .array (grant.argv.map .string)), ("cwd", .string grant.cwd)]

def SessionPermissions.toValue (grant : SessionPermissions) : Value :=
  .object [("id", .string grant.id), ("channel", .string grant.channel), ("thread", .string grant.thread)]

def faultValue (fault : Fault) : Value :=
  .object [("code", .string fault.code), ("message", .string fault.message),
    ("outcome_unknown", .bool fault.outcomeUnknown)]

/-- A field that is left out when there is nothing to say. -/
def optional (name : String) (v : Option Value) : List (String × Value) :=
  match v with
  | some v => [(name, v)]
  | none => []

def tagged (tag : String) (data : Value) : Value := .object [("type", .string tag), ("data", data)]

/-- The fields of a frame stand as they are declared. -/
def Frame.toValue : Frame → Value
  | .result value => tagged "result" value
  | .error fault => tagged "error" (faultValue fault)
  | .event cursor message => tagged "event" (.object [("cursor", .int cursor), ("message", message)])
  | .heartbeat => .object [("type", .string "heartbeat")]
  | .execute operation message approval permissions =>
    tagged "execute" (.object (("operation", .string operation) :: ("message", message) ::
      (optional "approval" (approval.map CommandApproval.toValue) ++
        optional "permissions" (permissions.map SessionPermissions.toValue))))
  | .ack cursor => tagged "ack" (.object [("cursor", .int cursor)])
  | .detach => .object [("type", .string "detach")]

/-- The bytes of a frame, with the newline that ends it. -/
def Frame.encode (frame : Frame) : List UInt8 := frame.toValue.encode ++ Json.ascii "\n"

inductive WriteError
  | invalidData | timedOut | broken
  deriving DecidableEq, Repr

/-- `codec::write`: `output` is what the stream makes of the bytes. -/
def write (frame : Frame) (output : List UInt8 → Except WriteError Unit) : Except WriteError Unit :=
  if frame.encode.length > MAX_FRAME then .error .invalidData else output frame.encode

/-- The frame can be sent at all. -/
def Frame.Fits (frame : Frame) : Prop := frame.encode.length ≤ MAX_FRAME

instance (frame : Frame) : Decidable frame.Fits := inferInstanceAs (Decidable (_ ≤ _))

/-- A frame that fits is handed to the stream; one that does not fails on any stream. -/
theorem write_eq (frame : Frame) :
    (frame.Fits → ∀ output, write frame output = output frame.encode) ∧
      (¬ frame.Fits → ∀ output, write frame output = .error .invalidData) := by
  constructor
  · intro h output
    exact if_neg (Nat.not_lt.mpr h)
  · intro h output
    exact if_pos (Nat.lt_of_not_le h)

-- ---------------------------------------------------------------------------
-- Sizes
-- ---------------------------------------------------------------------------

theorem length_encode (frame : Frame) : frame.encode.length = frame.toValue.size + 1 := by
  rw [Frame.encode, List.length_append]
  rfl

/-- What a string takes on the wire. -/
def textSize (text : String) : Nat := (Json.string.put text).length

theorem size_string (text : String) : (Value.string text).size = textSize text := by
  rw [Value.size, Value.encode, textSize]

theorem size_tagged (tag : String) (data : Value) : (tagged tag data).size = textSize tag + data.size + 17 := by
  have hnames : textSize "type" = 6 ∧ textSize "data" = 6 := by decide
  simp only [textSize] at hnames
  simp only [tagged, size_object, List.map_cons, List.map_nil, List.sum_cons, List.sum_nil, size_string, hnames]
  omega

/-- What an optional field adds. -/
def optionalSize (name : String) (v : Option Value) : Nat :=
  match v with
  | some v => textSize name + v.size + 2
  | none => 0

theorem sum_optional (name : String) (v : Option Value) :
    ((optional name v).map fun field => (Json.string.put field.1).length + field.2.size + 2).sum =
      optionalSize name v := by
  cases v with
  | none => rfl
  | some v => simp [optional, optionalSize, textSize]

/-- What wrapping a message in a frame adds to it, the newline included. -/
def executeEnvelope (operation : String) (approval : Option CommandApproval)
    (permissions : Option SessionPermissions) : Nat :=
  textSize operation + optionalSize "approval" (approval.map CommandApproval.toValue) +
    optionalSize "permissions" (permissions.map SessionPermissions.toValue) + 52

def eventEnvelope (cursor : Int) : Nat := (encodeInt cursor).length + 47

theorem length_execute (operation : String) (message : Value) (approval : Option CommandApproval)
    (permissions : Option SessionPermissions) :
    (Frame.execute operation message approval permissions).encode.length =
      message.size + executeEnvelope operation approval permissions := by
  have hnames : textSize "execute" = 9 ∧ textSize "operation" = 11 ∧ textSize "message" = 9 := by decide
  rw [length_encode, Frame.toValue, size_tagged]
  simp only [textSize] at hnames
  simp only [size_object, List.map_cons, List.map_append, List.sum_cons, List.sum_append, sum_optional, size_string,
    textSize, hnames, executeEnvelope]
  omega

theorem length_event (cursor : Int) (message : Value) :
    (Frame.event cursor message).encode.length = message.size + eventEnvelope cursor := by
  have hnames : textSize "event" = 7 ∧ textSize "cursor" = 8 ∧ textSize "message" = 9 := by decide
  have hcursor : (Value.int cursor).size = (encodeInt cursor).length := by rw [Value.size, Value.encode]
  rw [length_encode, Frame.toValue, size_tagged]
  simp only [textSize] at hnames
  simp only [size_object, List.map_cons, List.map_nil, List.sum_cons, List.sum_nil, textSize, hnames, eventEnvelope,
    hcursor]
  omega

theorem length_result (value : Value) : (Frame.result value).encode.length = value.size + 26 := by
  have hname : textSize "result" = 8 := by decide
  rw [length_encode, Frame.toValue, size_tagged, hname]
  omega

end RemoteCodex.Protocol
