import RemoteCodex.Protocol.Frame
import RemoteCodex.Wire.Pieces

/-!
# Lines over a stream

The reader of a stream of JSON lines, and the writer. The reader sees the
stream in the pieces in which it arrives; a call that is dropped, or that fails
in the transport, leaves what it has collected for the next one.
-/

namespace RemoteCodex.Protocol.Codec

open Wire

inductive ErrorKind
  | invalidData | unexpectedEof | timedOut | other
  deriving DecidableEq, Repr

/-- `io::Error`. -/
structure IoError where
  kind : ErrorKind
  text : String
  deriving DecidableEq, Repr

/-- What `serde_json` makes of the values of a type. -/
structure Serde (T : Type) where
  toVec : T → Option (List UInt8)
  fromSlice : List UInt8 → Option T

def newline : UInt8 := 10

/-- Compact JSON has no newline in it, is read back, and may end with blank space. -/
structure Serde.Lawful {T : Type} (c : Serde T) : Prop where
  oneLine : c.toVec v = some bytes → newline ∉ bytes
  fromSlice_toVec : c.toVec v = some bytes → c.fromSlice bytes = some v
  fromSlice_newline : c.toVec v = some bytes → c.fromSlice (bytes ++ [newline]) = c.fromSlice bytes

def exceeds (limit : Nat) : IoError := ⟨.invalidData, "protocol frame exceeds " ++ toString limit ++ " byte limit"⟩

def invalidFrame : IoError := ⟨.invalidData, "invalid protocol frame"⟩

def endOfFile : IoError := ⟨.unexpectedEof, "unexpected end of file"⟩

-- ---------------------------------------------------------------------------
-- The reader
-- ---------------------------------------------------------------------------

structure Reader where
  bytes : List UInt8 := []
  limit : Nat
  deriving DecidableEq, Repr

abbrev Answer (T : Type) := Except IoError (Option T)

def parse {T : Type} (c : Serde T) (bytes : List UInt8) : Answer T :=
  match c.fromSlice bytes with
  | some v => .ok (some v)
  | none => .error invalidFrame

/-- The body of the loop in `Reader::next`, once `fill_buf` has given `chunk`:
how much of it is consumed, and whether the call returns. -/
def turn {T : Type} (c : Serde T) (r : Reader) (chunk : List UInt8) : Nat × Reader × Option (Answer T) :=
  if chunk.isEmpty then (0, r, some (if r.bytes.isEmpty then .ok none else .error endOfFile))
  else
    let ending := chunk.idxOf? newline
    let count := (ending.map (· + 1)).getD chunk.length
    if r.bytes.length + count > r.limit then (0, r, some (.error (exceeds r.limit)))
    else
      let bytes := r.bytes ++ chunk.take count
      if ending.isSome then (count, { r with bytes := [] }, some (parse c bytes))
      else (count, { r with bytes }, none)

/-- `Reader::next`, dropped at its next `await` if it has not returned after `turns` turns. -/
def next {T : Type} (c : Serde T) : Nat → Reader → Pieces UInt8 → Option (Answer T) × Reader × Pieces UInt8
  | 0, r, input => (none, r, input)
  | turns + 1, r, input =>
    match turn c r input.fill with
    | (count, r, some answer) => (some answer, r, input.consume count)
    | (count, r, none) => next c turns r (input.consume count)

/-- One call after the other, each dropped after its number of turns, and what those that return answer. -/
def calls {T : Type} (c : Serde T) : List Nat → Reader → Pieces UInt8 → List (Answer T)
  | [], _, _ => []
  | turns :: rest, r, input =>
    match next c turns r input with
    | (answer, r, input) => answer.toList ++ calls c rest r input

-- ---------------------------------------------------------------------------
-- The writer
-- ---------------------------------------------------------------------------

def frame {T : Type} (c : Serde T) (v : T) (limit : Nat) : Except IoError (List UInt8) :=
  match c.toVec v with
  | none => .error ⟨.other, "serialization failed"⟩
  | some bytes =>
    let bytes := bytes ++ [newline]
    if bytes.length > limit then .error (exceeds limit) else .ok bytes

/-- `write_with_limit`: `output` is what the stream makes of the bytes within ten seconds. -/
def writeWithLimit {T : Type} (c : Serde T) (v : T) (limit : Nat) (output : List UInt8 → Except IoError Unit) :
    Except IoError Unit := do
  output (← frame c v limit)

-- ---------------------------------------------------------------------------
-- Streams of lines
-- ---------------------------------------------------------------------------

/-- A line within the limit, and what the call that reads it answers. -/
inductive Line {T : Type} (c : Serde T) (limit : Nat) : List UInt8 × Answer T → Prop
  | value : frame c v limit = .ok bytes → Line c limit (bytes, .ok (some v))
  | malformed : newline ∉ line → c.fromSlice (line ++ [newline]) = none → line.length + 1 ≤ limit →
      Line c limit (line ++ [newline], .error invalidFrame)

/-- What a stream ends with, or no call gets past, and what every call answers there. -/
inductive Last {T : Type} (limit : Nat) : List UInt8 → Answer T → Prop
  | closed : Last limit [] (.ok none)
  | cut : newline ∉ line → line ≠ [] → line.length ≤ limit → Last limit line (.error endOfFile)
  | unfinished : newline ∉ line → limit < line.length → Last limit line (.error (exceeds limit))
  | long : newline ∉ line → limit < line.length + 1 → Last limit (line ++ newline :: rest) (.error (exceeds limit))

section

variable {T : Type} {c : Serde T} {r : Reader} {input : Pieces UInt8} {limit : Nat} {line rest : List UInt8}

-- ---------------------------------------------------------------------------
-- What a call makes of the stream
-- ---------------------------------------------------------------------------

theorem idxOf?_line (h : newline ∉ line) : (line ++ newline :: rest).idxOf? newline = some line.length := by
  induction line with
  | nil => simp [List.idxOf?_cons]
  | cons b line ih =>
    obtain ⟨hb, hline⟩ := List.ne_and_not_mem_of_not_mem_cons h
    rw [List.cons_append, List.idxOf?_cons, if_neg (by simpa using Ne.symm hb), ih hline]
    rfl

theorem take_line : (line ++ newline :: rest).take (line.length + 1) = line ++ [newline] :=
  List.take_length_add_append 1

theorem drop_line : (line ++ newline :: rest).drop (line.length + 1) = rest := List.drop_length_add_append 1

theorem line_cases (bytes : List UInt8) :
    newline ∉ bytes ∨ ∃ line rest, newline ∉ line ∧ bytes = line ++ newline :: rest := by
  by_cases h : newline ∈ bytes
  · obtain ⟨line, rest, hbytes, hline⟩ := List.eq_append_cons_of_mem h
    exact .inr ⟨line, rest, hline, hbytes⟩
  · exact .inl h

/-- What the next call answers, and what it leaves, when everything the stream
has left is `bytes`. Nothing is left behind a line that is too long. -/
def answerOf (c : Serde T) (limit : Nat) (bytes : List UInt8) : Answer T × List UInt8 :=
  match bytes.idxOf? newline with
  | none =>
    if bytes.isEmpty then (.ok none, [])
    else (.error (if bytes.length ≤ limit then endOfFile else exceeds limit), bytes)
  | some i =>
    if i + 1 ≤ limit then (parse c (bytes.take (i + 1)), bytes.drop (i + 1)) else (.error (exceeds limit), bytes)

theorem answerOf_nil : answerOf c limit [] = (.ok none, []) := rfl

theorem answerOf_cut (h : newline ∉ rest) (hne : rest ≠ []) :
    answerOf c limit rest = (.error (if rest.length ≤ limit then endOfFile else exceeds limit), rest) := by
  unfold answerOf
  rw [List.idxOf?_eq_none_iff.mpr h]
  simp [hne]

theorem answerOf_line (h : newline ∉ line) (hfit : line.length + 1 ≤ limit) :
    answerOf c limit (line ++ newline :: rest) = (parse c (line ++ [newline]), rest) := by
  unfold answerOf
  rw [idxOf?_line h]
  simp only [if_pos hfit, take_line, drop_line]

theorem answerOf_long (h : newline ∉ line) (hlong : limit < line.length + 1) :
    answerOf c limit (line ++ newline :: rest) = (.error (exceeds limit), line ++ newline :: rest) := by
  unfold answerOf
  rw [idxOf?_line h]
  simp [Nat.not_le.mpr hlong]

/-- A reader in the middle of a line that is not too long so far. -/
structure Sound (limit : Nat) (r : Reader) : Prop where
  same : r.limit = limit
  line : newline ∉ r.bytes
  fits : r.bytes.length ≤ limit

/-- What is collected and what is still to come. -/
def pending (r : Reader) (input : Pieces UInt8) : List UInt8 := r.bytes ++ input.all

/-- One turn answers as the whole stream has it, or collects some of it. -/
def TurnSpec (c : Serde T) (limit : Nat) (r : Reader) (input : Pieces UInt8) :
    Nat × Reader × Option (Answer T) → Prop
  | (count, r', some answer) =>
    (answer, pending r' (input.consume count)) = answerOf c limit (pending r input) ∧ Sound limit r'
  | (count, r', none) =>
    pending r' (input.consume count) = pending r input ∧ Sound limit r' ∧
      (input.consume count).all.length < input.all.length

theorem pending_stay (r : Reader) (input : Pieces UInt8) : pending r (input.consume 0) = pending r input := by
  unfold pending
  rw [Pieces.all_consume (Nat.zero_le _), List.drop_zero]

/-- Once more than the limit is there without a newline, the answer is decided. -/
theorem answerOf_exceeds (h : newline ∉ line) (hlong : limit < line.length) :
    answerOf c limit (line ++ rest) = (.error (exceeds limit), line ++ rest) := by
  rcases line_cases rest with hrest | ⟨more, rest, hmore, rfl⟩
  · have hno : newline ∉ line ++ rest := fun hmem => (List.mem_append.mp hmem).elim h hrest
    have hlen : limit < (line ++ rest).length := by
      rw [List.length_append]
      omega
    rw [answerOf_cut hno (List.ne_nil_of_length_pos (by omega)), if_neg (by omega)]
  · have hno : newline ∉ line ++ more := fun hmem => (List.mem_append.mp hmem).elim h hmore
    rw [← List.append_assoc]
    apply answerOf_long hno
    rw [List.length_append]
    omega

theorem turn_end (c : Serde T) (h : Sound limit r) (hfill : input.fill = []) :
    TurnSpec c limit r input (turn c r []) := by
  have hall := (Pieces.fill_eq_nil input).mp hfill
  unfold turn
  rw [if_pos List.isEmpty_nil]
  refine ⟨?_, h⟩
  rw [pending_stay, pending, hall, List.append_nil]
  cases hbytes : r.bytes with
  | nil => rfl
  | cons b bytes =>
    have hfits : (b :: bytes).length ≤ limit := hbytes ▸ h.fits
    rw [answerOf_cut (hbytes ▸ h.line) (List.cons_ne_nil _ _), if_pos hfits]
    rfl

theorem turn_collect (c : Serde T) (h : Sound limit r) (hne : input.fill ≠ []) (hno : newline ∉ input.fill) :
    TurnSpec c limit r input (turn c r input.fill) := by
  obtain ⟨rest, hall⟩ := input.all_eq
  have hlen : 0 < input.fill.length := List.length_pos_iff.mpr hne
  have hno' : newline ∉ r.bytes ++ input.fill := fun hmem => (List.mem_append.mp hmem).elim h.line hno
  unfold turn
  rw [if_neg (by simpa using hne), List.idxOf?_eq_none_iff.mpr hno]
  simp only [Option.map_none, Option.getD_none, Option.isSome_none, Bool.false_eq_true, if_false, h.same]
  split
  · next hlong =>
    refine ⟨?_, h⟩
    rw [pending_stay, pending, hall, ← List.append_assoc, answerOf_exceeds hno']
    rw [List.length_append]
    exact hlong
  · next hfit =>
    refine ⟨?_, ⟨rfl, by rwa [List.take_length], ?_⟩, ?_⟩
    · unfold pending
      rw [Pieces.all_consume (Nat.le_refl _), hall, List.take_length, List.drop_left, List.append_assoc]
    · rw [List.take_length, List.length_append]
      omega
    · rw [Pieces.all_consume (Nat.le_refl _), hall, List.drop_left, List.length_append]
      omega

theorem turn_line (c : Serde T) (h : Sound limit r) (hno : newline ∉ line) (hfill : input.fill = line ++ newline :: rest) :
    TurnSpec c limit r input (turn c r input.fill) := by
  obtain ⟨more, hall⟩ := input.all_eq
  have hno' : newline ∉ r.bytes ++ line := fun hmem => (List.mem_append.mp hmem).elim h.line hno
  have hpending : pending r input = (r.bytes ++ line) ++ newline :: (rest ++ more) := by
    rw [pending, hall, hfill]
    simp
  have hcount : line.length + 1 ≤ input.fill.length := by
    rw [hfill, List.length_append, List.length_cons]
    omega
  unfold turn
  rw [if_neg (by simp [hfill]), show input.fill.idxOf? newline = some line.length by rw [hfill, idxOf?_line hno]]
  simp only [Option.map_some, Option.getD_some, Option.isSome_some, if_true, h.same]
  split
  · next hlong =>
    refine ⟨?_, h⟩
    rw [pending_stay, hpending, answerOf_long hno']
    rw [List.length_append]
    omega
  · next hfit =>
    refine ⟨?_, rfl, List.not_mem_nil, Nat.zero_le _⟩
    rw [hpending, answerOf_line hno' (by rw [List.length_append]; omega), pending, Pieces.all_consume hcount, hall, hfill,
      take_line, List.append_assoc, List.cons_append, drop_line, List.append_assoc]
    rfl

theorem turn_spec (c : Serde T) (h : Sound limit r) : TurnSpec c limit r input (turn c r input.fill) := by
  rcases line_cases input.fill with hno | ⟨line, rest, hno, hfill⟩
  · by_cases hfill : input.fill = []
    · rw [hfill]
      exact turn_end c h hfill
    · exact turn_collect c h hfill hno
  · exact turn_line c h hno hfill

/-- A call that returns answers as the stream has it; one that is dropped loses nothing. -/
def CallSpec (c : Serde T) (limit : Nat) (r : Reader) (input : Pieces UInt8) :
    Option (Answer T) × Reader × Pieces UInt8 → Prop
  | (some answer, r', input') => (answer, pending r' input') = answerOf c limit (pending r input) ∧ Sound limit r' ∧
    input'.all.length ≤ input.all.length
  | (none, r', input') => pending r' input' = pending r input ∧ Sound limit r' ∧ input'.all.length ≤ input.all.length

theorem next_spec (c : Serde T) (turns : Nat) (h : Sound limit r) :
    CallSpec c limit r input (next c turns r input) := by
  induction turns generalizing r input with
  | zero => exact ⟨rfl, h, Nat.le_refl _⟩
  | succ turns ih =>
    have hturn : TurnSpec c limit r input (turn c r input.fill) := turn_spec c h
    rw [next]
    generalize turn c r input.fill = t at hturn ⊢
    obtain ⟨count, r', _ | answer⟩ := t
    · obtain ⟨hpending, hsound, hless⟩ := hturn
      have hrest : CallSpec c limit r' (input.consume count) (next c turns r' (input.consume count)) := ih hsound
      simp only
      generalize next c turns r' (input.consume count) = called at hrest ⊢
      obtain ⟨_ | answer, r'', input''⟩ := called
      · obtain ⟨hpending', hsound', hless'⟩ := hrest
        exact ⟨hpending'.trans hpending, hsound', by omega⟩
      · obtain ⟨hanswer, hsound', hless'⟩ := hrest
        exact ⟨hpending ▸ hanswer, hsound', by omega⟩
    · obtain ⟨hanswer, hsound⟩ := hturn
      exact ⟨hanswer, hsound, Pieces.length_consume_le _ _⟩

/-- A call that is given a turn for every byte, and one more, returns. -/
theorem next_returns (c : Serde T) {turns : Nat} (h : Sound limit r) (hturns : input.all.length < turns) :
    (next c turns r input).1.isSome = true := by
  induction turns generalizing r input with
  | zero => exact absurd hturns (Nat.not_lt_zero _)
  | succ turns ih =>
    have hturn : TurnSpec c limit r input (turn c r input.fill) := turn_spec c h
    rw [next]
    generalize turn c r input.fill = t at hturn ⊢
    obtain ⟨count, r', _ | answer⟩ := t
    · obtain ⟨-, hsound, hless⟩ := hturn
      exact ih hsound (by omega)
    · rfl

-- ---------------------------------------------------------------------------
-- Call after call
-- ---------------------------------------------------------------------------

/-- The answers of `n` calls that nothing disturbs. -/
def answers (c : Serde T) (limit : Nat) : Nat → List UInt8 → List (Answer T)
  | 0, _ => []
  | n + 1, bytes => (answerOf c limit bytes).1 :: answers c limit n (answerOf c limit bytes).2

theorem calls_eq (c : Serde T) (schedule : List Nat) (h : Sound limit r) :
    calls c schedule r input = answers c limit (calls c schedule r input).length (pending r input) := by
  induction schedule generalizing r input with
  | nil => rfl
  | cons turns schedule ih =>
    have hcall : CallSpec c limit r input (next c turns r input) := next_spec c turns h
    rw [calls]
    generalize next c turns r input = called at hcall ⊢
    obtain ⟨_ | answer, r', input'⟩ := called
    · obtain ⟨hpending, hsound, -⟩ := hcall
      rw [← hpending]
      exact ih hsound
    · obtain ⟨hanswer, hsound, -⟩ := hcall
      show answer :: calls c schedule r' input' = answers c limit (_ + 1) _
      rw [answers, ← hanswer]
      exact congrArg (answer :: ·) (ih hsound)

/-- Every call that is given its time returns. -/
theorem calls_length (c : Serde T) (schedule : List Nat) (h : Sound limit r) {n : Nat} (hn : input.all.length ≤ n) :
    schedule.countP (n < ·) ≤ (calls c schedule r input).length := by
  induction schedule generalizing r input with
  | nil => exact Nat.le_refl _
  | cons turns schedule ih =>
    have hcall : CallSpec c limit r input (next c turns r input) := next_spec c turns h
    have hreturns : input.all.length < turns → (next c turns r input).1.isSome = true := next_returns c h
    rw [calls, List.countP_cons]
    generalize next c turns r input = called at hcall hreturns ⊢
    obtain ⟨_ | answer, r', input'⟩ := called
    · obtain ⟨-, hsound, hless⟩ := hcall
      have hfew : ¬ n < turns := fun hlt => by
        have hsome := hreturns (by omega)
        cases hsome
      rw [if_neg (by simpa using hfew)]
      exact ih hsound (by omega)
    · obtain ⟨-, hsound, hless⟩ := hcall
      have hrest : schedule.countP (n < ·) ≤ (calls c schedule r' input').length := ih hsound (by omega)
      show _ ≤ (calls c schedule r' input').length + 1
      split <;> omega

-- ---------------------------------------------------------------------------
-- Written and malformed lines
-- ---------------------------------------------------------------------------

theorem frame_ok {v : T} {bytes : List UInt8} : frame c v limit = .ok bytes ↔
    ∃ json, c.toVec v = some json ∧ bytes = json ++ [newline] ∧ json.length + 1 ≤ limit := by
  unfold frame
  cases c.toVec v with
  | none => simp
  | some json =>
    simp only [List.length_append, List.length_singleton, Option.some.injEq, exists_eq_left']
    split
    · next hlong => simp [Nat.not_le.mpr hlong]
    · next hfit =>
      have hfit : json.length + 1 ≤ limit := by omega
      rw [Except.ok.injEq]
      exact ⟨fun h => ⟨h.symm, hfit⟩, fun h => h.1.symm⟩

theorem answerOf_of_line (hc : c.Lawful) {entry : List UInt8 × Answer T} (h : Line c limit entry) :
    answerOf c limit (entry.1 ++ rest) = (entry.2, rest) := by
  cases h with
  | value hframe =>
    obtain ⟨json, hjson, rfl, hfit⟩ := frame_ok.mp hframe
    rw [List.append_assoc, List.singleton_append, answerOf_line (hc.oneLine hjson) hfit, parse,
      hc.fromSlice_newline hjson, hc.fromSlice_toVec hjson]
  | malformed hno hbad hfit =>
    rw [List.append_assoc, List.singleton_append, answerOf_line hno hfit, parse, hbad]

theorem answerOf_of_last {last : Answer T} (h : Last limit rest last) : answerOf c limit rest = (last, rest) := by
  cases h with
  | closed => exact answerOf_nil
  | cut hno hne hfit => rw [answerOf_cut hno hne, if_pos hfit]
  | unfinished hno hlong =>
    rw [answerOf_cut hno (List.ne_nil_of_length_pos (by omega)), if_neg (by omega)]
  | long hno hlong => exact answerOf_long hno hlong

theorem answers_lines (hc : c.Lawful) {lines : List (List UInt8 × Answer T)} {last : Answer T}
    (hlines : ∀ entry ∈ lines, Line c limit entry) (hlast : Last limit rest last) (n : Nat) :
    answers c limit n ((lines.map Prod.fst).flatten ++ rest) =
      (lines.map Prod.snd ++ List.replicate n last).take n := by
  induction n generalizing lines with
  | zero => rfl
  | succ n ih =>
    rw [answers]
    cases lines with
    | nil =>
      rw [List.map_nil, List.flatten_nil, List.nil_append, answerOf_of_last hlast]
      have hnone : ∀ entry ∈ ([] : List (List UInt8 × Answer T)), Line c limit entry :=
        fun _ hmem => absurd hmem List.not_mem_nil
      have hrest := ih hnone
      rw [List.map_nil, List.flatten_nil, List.nil_append] at hrest
      rw [hrest]
      simp [List.replicate_succ]
    | cons entry lines =>
      obtain ⟨hentry, hlines⟩ := List.forall_mem_cons.mp hlines
      rw [List.map_cons, List.flatten_cons, List.append_assoc, answerOf_of_line hc hentry, ih hlines, List.map_cons,
        List.cons_append, List.take_succ_cons]
      congr 1
      simp only [List.take_append, List.take_replicate, List.length_map]
      congr 2
      omega

/-- However a stream of lines arrives, and whichever calls are dropped on the
way, the calls that return read the lines in order, each exactly once, and then
answer what the stream ends with; a call that is given its time returns. What is
too long to be read is not written either. -/
theorem lines_read (hc : c.Lawful) {lines : List (List UInt8 × Answer T)} {last : Answer T}
    (hlines : ∀ entry ∈ lines, Line c limit entry) (hlast : Last limit rest last)
    (hinput : input.all = (lines.map Prod.fst).flatten ++ rest) (schedule : List Nat) :
    (∃ n, calls c schedule { limit } input = (lines.map Prod.snd ++ List.replicate n last).take n ∧
      schedule.countP (input.all.length < ·) ≤ n) ∧
    ∀ v json output, c.toVec v = some json →
      writeWithLimit c v limit output =
        if json.length + 1 ≤ limit then output (json ++ [newline]) else .error (exceeds limit) := by
  constructor
  · have hsound : Sound limit { limit } := ⟨rfl, List.not_mem_nil, Nat.zero_le _⟩
    have hcalls := @calls_eq T _ input limit c schedule hsound
    have hlength := @calls_length T _ input limit c schedule hsound _ (Nat.le_refl _)
    refine ⟨(calls c schedule { limit } input).length, ?_, hlength⟩
    rw [pending, hinput] at hcalls
    exact hcalls.trans (answers_lines hc hlines hlast _)
  · intro v json output hjson
    unfold writeWithLimit
    split
    · next hfit =>
      rw [frame_ok.mpr ⟨json, hjson, rfl, hfit⟩]
      rfl
    · next hlong =>
      have hlong : limit < json.length + 1 := by omega
      have hframe : frame c v limit = .error (exceeds limit) := by
        unfold frame
        rw [hjson]
        simp [hlong]
      rw [hframe]
      rfl

/-- `serde_json` for `bool`. -/
def booleans : Serde Bool where
  toVec b := some (Json.ascii (if b then "true" else "false"))
  fromSlice bytes :=
    if bytes = Json.ascii "true" ∨ bytes = Json.ascii "true\n" then some true
    else if bytes = Json.ascii "false" ∨ bytes = Json.ascii "false\n" then some false
    else none

theorem booleans_lawful : booleans.Lawful where
  oneLine {v bytes} h := by
    obtain rfl := Option.some.inj h
    cases v <;> decide
  fromSlice_toVec {v bytes} h := by
    obtain rfl := Option.some.inj h
    cases v <;> decide
  fromSlice_newline {v bytes} h := by
    obtain rfl := Option.some.inj h
    cases v <;> decide

/-- Two values around a malformed line. -/
def someLines : List (List UInt8 × Answer Bool) :=
  [(Json.ascii "true\n", .ok (some true)), (Json.ascii "x" ++ [newline], .error invalidFrame),
    (Json.ascii "false\n", .ok (some false))]

/-- They arrive in pieces that respect none of them, and a cut line follows. -/
def somePieces : Pieces UInt8 :=
  ⟨[Json.ascii "tr", Json.ascii "ue\nx", Json.ascii "\n", Json.ascii "false\nfa"], by decide⟩

theorem lines_read_two : ∃ n, calls booleans [1, 20, 0, 20, 2, 20, 20] { limit := 6 } somePieces =
    (someLines.map Prod.snd ++ List.replicate n (Except.error endOfFile)).take n ∧ 4 ≤ n := by
  have hlines : ∀ entry ∈ someLines, Line booleans 6 entry := by
    simp only [someLines, List.forall_mem_cons]
    exact ⟨.value rfl, .malformed (by decide) (by decide) (by decide), .value rfl,
      fun _ hmem => absurd hmem List.not_mem_nil⟩
  have hlast : Last 6 (Json.ascii "fa") (.error endOfFile : Answer Bool) := .cut (by decide) (by decide) (by decide)
  have hinput : somePieces.all = (someLines.map Prod.fst).flatten ++ Json.ascii "fa" := by decide
  obtain ⟨n, hcalls, hcount⟩ := (lines_read booleans_lawful hlines hlast hinput [1, 20, 0, 20, 2, 20, 20]).1
  exact ⟨n, hcalls, hcount⟩

end

end RemoteCodex.Protocol.Codec
