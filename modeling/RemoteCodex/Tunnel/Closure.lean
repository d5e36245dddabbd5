import RemoteCodex.Server.Store

/-!
# What fits through the tunnel

Both ways in admit a message by the bytes of its line: the local WebSocket and
the reader of the executor's output. What leaves is the message printed anew
in a frame, whose bytes are counted with all that is wrapped around it.
-/

namespace RemoteCodex.Tunnel

open Protocol Server

/-- The relay's way in; `parse` reads a JSON text. -/
def acceptText (parse : List UInt8 → Option Value) (text : List UInt8) : Option Value :=
  if text.length ≤ MAX_FRAME then parse text else none

/-- The executor's way in: the newline counts. -/
def readLine (parse : List UInt8 → Option Value) (line : List UInt8) : Option Value :=
  if line.length + 1 ≤ MAX_FRAME then parse line else none

/-- What is kept of the executor's line: an answer gets the identity of its request back. -/
def collected (message : Value) (original : Option Value) : Value :=
  match original with
  | some original => message.set "id" original
  | none => message

/-- What a reply with output adds to its first chunk: the other chunks, the job and the envelope. -/
def replyEnvelope (job : Value) (next : Int) (rest : List JobOutput) : Nat :=
  (rest.map fun row => row.record.size + 1).sum + job.size + (encodeInt next).length + 61

theorem length_reply (job : Value) (after : Int) (row : JobOutput) (rest : List JobOutput) :
    (Frame.result (Store.outputReply job after (row :: rest))).encode.length =
      row.record.size + replyEnvelope job (((row :: rest).getLast?.map JobOutput.cursor).getD after) rest := by
  have hnames : textSize "chunks" = 8 ∧ textSize "job" = 5 ∧ textSize "next_cursor" = 13 := by decide
  have hcursor (n : Int) : (Value.int n).size = (encodeInt n).length := by rw [Value.size, Value.encode]
  rw [length_result, Store.outputReply]
  simp only [textSize] at hnames
  simp only [size_object, size_array, List.map_cons, List.map_nil, List.sum_cons, List.sum_nil, hnames, hcursor,
    List.map_map, replyEnvelope, Function.comp_def]
  omega

/-- A frame can be delivered, on a stream that takes it, just if it fits. -/
theorem delivers_iff (frame : Frame) : (∃ output, write frame output = .ok ()) ↔ frame.Fits := by
  constructor
  · rintro ⟨output, h⟩
    by_contra hfit
    rw [(write_eq frame).2 hfit output] at h
    cases h
  · intro hfit
    exact ⟨fun _ => .ok (), (write_eq frame).1 hfit _⟩

theorem jobOutputOf_reply {s : Store} {profile id : String} {after createdAt updatedAt : Int} {reply : Value}
    (h : s.jobOutputOf profile id after createdAt updatedAt = .ok reply) :
    ∃ job ∈ s.jobs, reply =
      Store.outputReply (Store.jobValue job createdAt updatedAt) after (Store.page (s.outputRows id after)) := by
  unfold Store.jobOutputOf at h
  split at h
  · cases h
  · next job hjob =>
    cases h
    exact ⟨job, List.mem_of_find?_eq_some hjob, rfl⟩

/-- Output of a process whose text has `n` letters. -/
def outputParams (n : Nat) : Value := .object [("chunk", .string (letters n)), ("processId", .string "p")]

def outputMessage (n : Nat) : Value :=
  .object [("method", .string "process/output"), ("params", outputParams n)]

theorem size_outputParams (n : Nat) : (outputParams n).size = n + 28 := by
  have hnames : (Wire.Json.string.put "chunk").length = 7 ∧ (Wire.Json.string.put "processId").length = 11 := by decide
  have hprocess : (Value.string "p").size = 3 := by decide
  have hchunk : (Value.string (letters n)).size = n + 2 := by
    rw [Value.size, Value.encode, length_put_letters]
  simp only [outputParams, size_object, List.map_cons, List.map_nil, List.sum_cons, List.sum_nil, hnames, hchunk,
    hprocess]
  omega

theorem size_outputMessage (n : Nat) : (outputMessage n).size = n + 65 := by
  have hnames : (Wire.Json.string.put "method").length = 8 ∧ (Wire.Json.string.put "params").length = 8 := by decide
  have hmethod : (Value.string "process/output").size = 16 := by decide
  simp only [outputMessage, size_object, List.map_cons, List.map_nil, List.sum_cons, List.sum_nil, hnames, hmethod,
    size_outputParams]
  omega

end RemoteCodex.Tunnel
