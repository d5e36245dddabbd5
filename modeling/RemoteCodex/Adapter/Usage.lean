import RemoteCodex.Wire.Json
import RemoteCodex.Transfer.Names
import RemoteCodex.Adapter.Driver

/-!
# The last usage report

A native history is a file of records, one a line, of which the first is about
the session. The usage of a resumed session is that of the last token report,
which is looked for from the end of the file, chunk by chunk.

`parse` is the crate that reads JSON.
-/

namespace RemoteCodex.Adapter

open Protocol Transfer Wire

structure TokenUsage where
  lastTokens : Nat
  totalTokens : Nat
  inputTokens : Nat
  cachedInputTokens : Nat
  outputTokens : Nat
  reasoningTokens : Nat
  contextWindow : Option Nat
  deriving DecidableEq, Repr

/-- A number under its native name, or as it is saved. -/
def number (v : Value) (native saved : String) : Option Nat := (asU64 (v.index native)).or (asU64 (v.index saved))

def tokens (last total context : Value) : Option TokenUsage := do
  let lastTokens ← number last "totalTokens" "total_tokens"
  let totalTokens ← number total "totalTokens" "total_tokens"
  let inputTokens ← number last "inputTokens" "input_tokens"
  let cachedInputTokens ← number last "cachedInputTokens" "cached_input_tokens"
  let outputTokens ← number last "outputTokens" "output_tokens"
  let reasoningTokens ← number last "reasoningOutputTokens" "reasoning_output_tokens"
  some { lastTokens, totalTokens, inputTokens, cachedInputTokens, outputTokens, reasoningTokens, contextWindow := asU64 context }

abbrev Bytes := List UInt8

def NEWLINE : UInt8 := 10

def CHUNK : Nat := 64 * 1024

def MAX_RECORD : Nat := 1024 * 1024

variable (parse : Bytes → Option Value)

def report (bytes : Bytes) : Option TokenUsage :=
  match parse bytes with
  | none => none
  | some value =>
    if (value.index "type").asStr ≠ some "event_msg" ∨ ((value.index "payload").index "type").asStr ≠ some "token_count" then
      none
    else
      let info := (value.index "payload").index "info"
      tokens (info.index "last_token_usage") (info.index "total_token_usage") (info.index "model_context_window")

/-- What is kept between two bytes; the record is as far as it has been read, its last byte first. -/
structure Reader where
  record : Bytes
  complete : Bool
  oversized : Bool
  deriving DecidableEq, Repr

/-- The usage that is returned, or the reader at the byte before. -/
inductive Outcome
  | found (usage : TokenUsage)
  | more (reader : Reader)
  deriving DecidableEq, Repr

/-- At the end of a record. -/
def Reader.fresh : Reader := ⟨[], true, false⟩

/-- One byte of a chunk. -/
def Reader.step (s : Reader) (byte : UInt8) : Outcome :=
  if byte = NEWLINE then
    if s.complete && !s.oversized then
      match report parse s.record.reverse with
      | some usage => .found usage
      | none => .more .fresh
    else .more .fresh
  else if s.complete && !s.oversized then
    if s.record.length = MAX_RECORD then .more { s with record := [], oversized := true }
    else .more { s with record := s.record ++ [byte] }
  else .more s

/-- The bytes of a chunk, from its end. -/
def Reader.scan (s : Reader) : Bytes → Outcome
  | [] => .more s
  | byte :: bytes =>
    match s.step parse byte with
    | .found usage => .found usage
    | .more s => s.scan bytes

/-- `while position > 0`. -/
def readChunks (content : Bytes) (position : Nat) (s : Reader) : Option TokenUsage :=
  if _h : 0 < position then
    let length := min position CHUNK
    let chunk := (content.drop (position - length)).take length
    match s.scan parse chunk.reverse with
    | .found usage => some usage
    | .more s => readChunks content (position - length) s
  else none
termination_by position
decreasing_by
  have : 0 < CHUNK := by decide
  omega

/-- `read_until`: the bytes up to the first newline, and the newline. -/
def readUntil : Bytes → Bytes
  | [] => []
  | byte :: bytes => if byte = NEWLINE then [byte] else byte :: readUntil bytes

/-- What is at the path: whether it is below the sessions of the home, and a file. -/
structure NativeFile where
  inSessions : Bool
  isFile : Bool
  content : Bytes

def readChecked (thread : String) (file : NativeFile) : Option TokenUsage :=
  if !file.inSessions || !file.isFile then none
  else
    let first := readUntil (file.content.take (MAX_RECORD + 1))
    if first.length > MAX_RECORD || first.getLast? ≠ some NEWLINE then none
    else
      match parse first with
      | none => none
      | some metadata =>
        if (metadata.index "type").asStr ≠ some "session_meta" ∨
            ((metadata.index "payload").index "id").asStr ≠ some thread then
          none
        else readChunks parse file.content file.content.length ⟨[], false, false⟩

-- ---------------------------------------------------------------------------
-- The forward reading
-- ---------------------------------------------------------------------------

/-- The records of a file: its lines that have an end. -/
def records (content : Bytes) : List Bytes := (content.splitOn NEWLINE).dropLast

/-- The usage of the last record that is not too long and is a report. -/
def lastReport (content : Bytes) : Option TokenUsage :=
  ((records content).reverse.filter fun r => r.length ≤ MAX_RECORD).findSome? (report parse)

/-- The first line is about the session of the thread. -/
structure Metadata (thread : String) (line : Bytes) : Prop where
  short : line.length < MAX_RECORD
  about : ∃ metadata, parse (line ++ [NEWLINE]) = some metadata ∧ (metadata.index "type").asStr = some "session_meta" ∧
    ((metadata.index "payload").index "id").asStr = some thread

-- ---------------------------------------------------------------------------
-- Chunks
-- ---------------------------------------------------------------------------

def Outcome.usage : Outcome → Option TokenUsage
  | found usage => some usage
  | more _ => none

def Outcome.bind (o : Outcome) (f : Reader → Outcome) : Outcome :=
  match o with
  | found usage => .found usage
  | more s => f s

variable {parse} {s : Reader} {content : Bytes}

theorem scan_append (s : Reader) (xs ys : Bytes) :
    s.scan parse (xs ++ ys) = (s.scan parse xs).bind fun s => s.scan parse ys := by
  induction xs generalizing s with
  | nil => rfl
  | cons byte xs ih =>
    rw [List.cons_append, Reader.scan, Reader.scan]
    cases s.step parse byte with
    | found usage => rfl
    | more s => exact ih s

/-- Reading by chunks is reading byte by byte. -/
theorem readChunks_eq (content : Bytes) (position : Nat) (s : Reader) :
    readChunks parse content position s = (s.scan parse (content.take position).reverse).usage := by
  induction position using Nat.strong_induction_on generalizing s with
  | _ position ih =>
    unfold readChunks
    split
    · next hpos =>
      have hchunk : 0 < CHUNK := by decide
      generalize hstart : position - min position CHUNK = start
      have hsplit : content.take position = content.take start ++ (content.drop start).take (min position CHUNK) := by
        rw [← List.take_add]
        congr 1
        omega
      rw [hsplit, List.reverse_append, scan_append]
      simp only [hstart]
      cases s.scan parse ((content.drop start).take (min position CHUNK)).reverse with
      | found usage => rfl
      | more s => exact ih start (by omega) s
    · next hpos =>
      obtain rfl : position = 0 := by omega
      rw [List.take_zero]
      rfl

-- ---------------------------------------------------------------------------
-- Records
-- ---------------------------------------------------------------------------

/-- What a newline before the record that has been read returns. -/
def Reader.pending (parse : Bytes → Option Value) (s : Reader) : Option TokenUsage :=
  if s.complete && !s.oversized then report parse s.record.reverse else none

theorem step_newline (s : Reader) :
    s.step parse NEWLINE = match s.pending parse with
      | some usage => .found usage
      | none => .more .fresh := by
  unfold Reader.step Reader.pending
  rw [if_pos rfl]
  split
  · rfl
  · rfl

/-- The bytes behind the last newline are passed over. -/
theorem scan_incomplete {xs : Bytes} (hxs : NEWLINE ∉ xs) (hs : s.complete = false) : s.scan parse xs = .more s := by
  induction xs with
  | nil => rfl
  | cons byte xs ih =>
    have hbyte : byte ≠ NEWLINE := fun h => hxs (h ▸ List.mem_cons_self)
    have hstep : s.step parse byte = .more s := by simp [Reader.step, hbyte, hs]
    rw [Reader.scan, hstep]
    exact ih fun h => hxs (List.mem_cons_of_mem _ h)

theorem scan_oversized {xs : Bytes} (hxs : NEWLINE ∉ xs) :
    Reader.scan parse ⟨[], true, true⟩ xs = .more ⟨[], true, true⟩ := by
  induction xs with
  | nil => rfl
  | cons byte xs ih =>
    have hbyte : byte ≠ NEWLINE := fun h => hxs (h ▸ List.mem_cons_self)
    have hstep : Reader.step parse ⟨[], true, true⟩ byte = .more ⟨[], true, true⟩ := by simp [Reader.step, hbyte]
    rw [Reader.scan, hstep]
    exact ih fun h => hxs (List.mem_cons_of_mem _ h)

/-- A record is kept while it is not too long. -/
theorem scan_record {xs record : Bytes} (hxs : NEWLINE ∉ xs) (hrecord : record.length ≤ MAX_RECORD) :
    Reader.scan parse ⟨record, true, false⟩ xs =
      .more (if record.length + xs.length ≤ MAX_RECORD then ⟨record ++ xs, true, false⟩ else ⟨[], true, true⟩) := by
  induction xs generalizing record with
  | nil => simp [Reader.scan, hrecord]
  | cons byte xs ih =>
    have hbyte : byte ≠ NEWLINE := fun h => hxs (h ▸ List.mem_cons_self)
    have hrest : NEWLINE ∉ xs := fun h => hxs (List.mem_cons_of_mem _ h)
    rw [Reader.scan]
    by_cases hfull : record.length = MAX_RECORD
    · have hstep : Reader.step parse ⟨record, true, false⟩ byte = .more ⟨[], true, true⟩ := by
        simp [Reader.step, hbyte, hfull]
      have hlong : ¬ record.length + (byte :: xs).length ≤ MAX_RECORD := by
        rw [List.length_cons]
        omega
      rw [hstep, if_neg hlong]
      exact scan_oversized hrest
    · have hstep : Reader.step parse ⟨record, true, false⟩ byte = .more ⟨record ++ [byte], true, false⟩ := by
        simp [Reader.step, hbyte, hfull]
      have hlength : (record ++ [byte]).length ≤ MAX_RECORD := by
        rw [List.length_append, List.length_singleton]
        omega
      rw [hstep]
      refine (ih hrest hlength).trans ?_
      have hsum : (record ++ [byte]).length + xs.length = record.length + (byte :: xs).length := by
        rw [List.length_append, List.length_singleton, List.length_cons]
        omega
      rw [List.append_assoc, hsum]
      rfl

/-- The record if it is not too long and is a report. -/
def usageOf (parse : Bytes → Option Value) (r : Bytes) : Option TokenUsage :=
  if r.length ≤ MAX_RECORD then report parse r else none

/-- Records from the last one on, each behind the newline that ends the one before it. -/
theorem scan_records (ps : List Bytes) (hps : ∀ p ∈ ps, NEWLINE ∉ p) (s : Reader) :
    (s.scan parse (ps.flatMap fun p => NEWLINE :: p.reverse)).usage =
      if ps = [] then none else (s.pending parse).or (ps.dropLast.findSome? (usageOf parse)) := by
  induction ps generalizing s with
  | nil => rfl
  | cons p ps ih =>
    rw [List.flatMap_cons, List.cons_append, Reader.scan, step_newline, if_neg (List.cons_ne_nil p ps)]
    cases s.pending parse with
    | some usage => rfl
    | none =>
      have hp : NEWLINE ∉ p.reverse := fun h => hps p List.mem_cons_self (List.mem_reverse.mp h)
      have hkept : Reader.scan parse ⟨[], true, false⟩ p.reverse =
          .more (if ([] : Bytes).length + p.reverse.length ≤ MAX_RECORD then ⟨[] ++ p.reverse, true, false⟩
            else ⟨[], true, true⟩) := scan_record hp (Nat.zero_le _)
      rw [List.nil_append, List.length_nil, Nat.zero_add, List.length_reverse] at hkept
      simp only
      rw [scan_append, Reader.fresh, hkept, Option.none_or]
      refine (ih (fun q hq => hps q (List.mem_cons_of_mem _ hq)) _).trans ?_
      have hpending : Reader.pending parse (if p.length ≤ MAX_RECORD then ⟨p.reverse, true, false⟩ else ⟨[], true, true⟩) =
          usageOf parse p := by
        unfold Reader.pending usageOf
        split
        · simp
        · rfl
      rw [hpending]
      cases ps with
      | nil => rfl
      | cons q ps =>
        rw [if_neg (List.cons_ne_nil q ps), List.dropLast_cons_cons, List.findSome?_cons]
        cases usageOf parse p <;> rfl

-- ---------------------------------------------------------------------------
-- Both readings
-- ---------------------------------------------------------------------------

/-- A file as its records and what is behind them. -/
theorem content_records (content : Bytes) : ∃ tail, NEWLINE ∉ tail ∧ (∀ r ∈ records content, NEWLINE ∉ r) ∧
    content = ((records content).flatMap fun r => r ++ [NEWLINE]) ++ tail := by
  have hpieces : ∀ r ∈ content.splitOn NEWLINE, NEWLINE ∉ r := fun r hr => not_mem_of_mem_splitOn hr
  have hwhole : ∀ (groups : List Bytes) (h : groups ≠ []), [NEWLINE].intercalate groups =
      (groups.dropLast.flatMap fun r => r ++ [NEWLINE]) ++ groups.getLast h := by
    intro groups h
    induction groups with
    | nil => exact absurd rfl h
    | cons r groups ih =>
      cases groups with
      | nil => simp [List.intercalate]
      | cons q groups =>
        have hrest := ih (List.cons_ne_nil q groups)
        rw [List.dropLast_cons_cons, List.flatMap_cons, List.getLast_cons (List.cons_ne_nil q groups), List.append_assoc,
          ← hrest]
        simp [List.intercalate]
  have hne := List.splitOn_ne_nil NEWLINE content
  refine ⟨(content.splitOn NEWLINE).getLast hne, hpieces _ (List.getLast_mem hne), ?_, ?_⟩
  · exact fun r hr => hpieces r (List.dropLast_subset _ hr)
  · exact (List.intercalate_splitOn NEWLINE).symm.trans (hwhole _ hne)

theorem records_cons {line : Bytes} (rest : Bytes) (h : NEWLINE ∉ line) :
    records (line ++ NEWLINE :: rest) = line :: records rest := by
  obtain ⟨first, more, hrest⟩ := List.exists_cons_of_ne_nil (List.splitOn_ne_nil NEWLINE rest)
  unfold records
  rw [List.splitOn_append_cons_self_of_not_mem h, hrest, List.dropLast_cons_cons]

theorem readUntil_line {line : Bytes} (rest : Bytes) (h : NEWLINE ∉ line) :
    readUntil (line ++ NEWLINE :: rest) = line ++ [NEWLINE] := by
  induction line with
  | nil => rfl
  | cons byte line ih =>
    have hbyte : byte ≠ NEWLINE := fun heq => h (heq ▸ List.mem_cons_self)
    rw [List.cons_append, readUntil, if_neg hbyte, ih fun hin => h (List.mem_cons_of_mem _ hin)]
    rfl

/-- The first line is not a report. -/
theorem usageOf_metadata (hspace : ∀ bytes, parse (bytes ++ [NEWLINE]) = parse bytes) {thread : String} {line : Bytes}
    (h : Metadata parse thread line) : usageOf parse line = none := by
  obtain ⟨metadata, hparse, htype, -⟩ := h.about
  have hreport : report parse line = none := by
    rw [hspace] at hparse
    simp [report, hparse, htype]
  unfold usageOf
  rw [hreport, ite_self]

/-- Once the first line has been checked, the file is read from its end. -/
theorem readChecked_metadata {thread : String} {file : NativeFile} {line rest : Bytes} (hplace : file.inSessions = true)
    (hfile : file.isFile = true) (hcontent : file.content = line ++ NEWLINE :: rest) (hline : NEWLINE ∉ line)
    (h : Metadata parse thread line) :
    readChecked parse thread file = (Reader.scan parse ⟨[], false, false⟩ file.content.reverse).usage := by
  obtain ⟨metadata, hparse, htype, hid⟩ := h.about
  have hshort := h.short
  have hfirst : readUntil (file.content.take (MAX_RECORD + 1)) = line ++ [NEWLINE] := by
    have htake : file.content.take (MAX_RECORD + 1) = line ++ NEWLINE :: rest.take (MAX_RECORD - line.length) := by
      have hone : MAX_RECORD + 1 - line.length = (MAX_RECORD - line.length) + 1 := by omega
      rw [hcontent, List.take_append, List.take_of_length_le (by omega), hone, List.take_succ_cons]
    rw [htake, readUntil_line _ hline]
  have hlength : (line ++ [NEWLINE]).length ≤ MAX_RECORD := by
    rw [List.length_append, List.length_singleton]
    exact hshort
  have hfits : ¬ (decide ((line ++ [NEWLINE]).length > MAX_RECORD) ||
      decide ((line ++ [NEWLINE]).getLast? ≠ some NEWLINE)) = true := by
    rw [decide_eq_false (Nat.not_lt.mpr hlength), List.getLast?_concat]
    simp
  unfold readChecked
  rw [hfirst, hplace, hfile, if_neg (by simp)]
  dsimp only
  rw [if_neg hfits, hparse]
  dsimp only
  rw [if_neg (by simp [htype, hid]), readChunks_eq, List.take_length]

/-- From the end of a file: what is behind the last newline, and the records. -/
theorem scan_content {line : Bytes} (rest : Bytes) (hline : NEWLINE ∉ line) :
    (Reader.scan parse ⟨[], false, false⟩ (line ++ NEWLINE :: rest).reverse).usage =
      (records rest).reverse.findSome? (usageOf parse) := by
  obtain ⟨tail, htail, hrecords, hcontent⟩ := content_records (line ++ NEWLINE :: rest)
  have hreverse : (line ++ NEWLINE :: rest).reverse =
      tail.reverse ++ (records (line ++ NEWLINE :: rest)).reverse.flatMap fun r => NEWLINE :: r.reverse := by
    conv_lhs => rw [hcontent]
    rw [List.reverse_append, List.reverse_flatMap]
    congr 2
    funext r
    simp
  rw [hreverse, scan_append, scan_incomplete (fun h => htail (List.mem_reverse.mp h)) rfl]
  refine (scan_records _ (fun r hr => hrecords r (List.mem_reverse.mp hr)) _).trans ?_
  rw [records_cons rest hline, List.reverse_cons, if_neg (by simp), List.dropLast_concat]
  exact Option.none_or

/-- The two records of a history. -/
def sessionLine : Bytes := Json.ascii "\x7b\"type\":\"session_meta\",\"payload\":\x7b\"id\":\"bound\"\x7d\x7d"

def nullReport : Bytes :=
  Json.ascii "\x7b\"type\":\"event_msg\",\"payload\":\x7b\"type\":\"token_count\",\"info\":null\x7d\x7d"

/-- What ends in newlines reads as what is before them. -/
def parseLines (bytes : Bytes) : Option Value :=
  let text := (bytes.reverse.dropWhile (· = NEWLINE)).reverse
  if text = sessionLine then
    some (.object [("type", .string "session_meta"), ("payload", .object [("id", .string "bound")])])
  else if text = nullReport then
    some (.object [("type", .string "event_msg"),
      ("payload", .object [("type", .string "token_count"), ("info", .null)])])
  else none

end RemoteCodex.Adapter
