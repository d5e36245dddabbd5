import RemoteCodex.Remote.Recovery
import RemoteCodex.Adapter.History
import RemoteCodex.Wire.Utf8

/-!
# Deferred tool output

The output of a tool of the history is fetched when it is shown, and served in
chunks that are cut between characters. The last outputs are kept for a session,
up to a number and a size.
-/

namespace RemoteCodex.Application

open Interact Protocol Remote Wire
open Adapter.Tools (ToolOutputSource Url)
open Adapter.History (SessionBinding Op Ans readOutput)

def argument (text : String) : ClientError := .other "INVALID_ARGUMENT" text

/-- `From<Fault>`. -/
def remoteFault (f : Fault) : ClientError := .remoteFault f.code f.message f.outcomeUnknown

structure ToolOutputChunk where
  text : String
  nextOffset : Option Nat
  deriving DecidableEq, Repr

def CHUNK_BYTES : Nat := 256 * 1024

def CACHE_BYTES : Nat := 64 * 1024 * 1024

def CACHE_ENTRIES : Nat := 64

def chunk (text : String) (offset : Nat) : Except ClientError ToolOutputChunk :=
  if !Utf8.boundary text.toList offset then .error (argument "Invalid tool output offset.")
  else
    let stop := Utf8.floor text.toList (min (min (offset + CHUNK_BYTES) (2 ^ 64 - 1)) text.utf8ByteSize)
    .ok {
      text := String.ofList (Utf8.slice text.toList offset stop)
      nextOffset := if stop < text.utf8ByteSize then some stop else none }

-- ---------------------------------------------------------------------------
-- The cache
-- ---------------------------------------------------------------------------

structure OutputCache where
  entries : List (ToolOutputSource × String) := []
  bytes : Nat := 0
  deriving DecidableEq, Repr

namespace OutputCache

/-- The same item of the same turn; the page it was shown on does not matter. -/
def alike (key source : ToolOutputSource) : Bool :=
  key.session = source.session && key.turn = source.turn && key.item = source.item

def get (c : OutputCache) (source : ToolOutputSource) : Option String :=
  (c.entries.find? fun entry => alike entry.1 source).map Prod.snd

def clear : OutputCache := {}

/-- The entries that go, the oldest first, until a text of this size fits. With no
entries left to go the loop does not end. -/
def evict (size : Nat) : List (ToolOutputSource × String) → Nat → Option OutputCache
  | [], bytes => if bytes + size > CACHE_BYTES then none else some ⟨[], bytes⟩
  | entry :: entries, bytes =>
    if bytes + size > CACHE_BYTES ∨ (entry :: entries).length ≥ CACHE_ENTRIES then
      evict size entries (bytes - entry.2.utf8ByteSize)
    else some ⟨entry :: entries, bytes⟩

/-- The loop of `insert` may not end. -/
def insert (c : OutputCache) (source : ToolOutputSource) (text : String) : Option (Except ClientError OutputCache) :=
  if text.utf8ByteSize > CACHE_BYTES then some (.error (argument "This tool output exceeds the display limit."))
  else
    (evict text.utf8ByteSize c.entries c.bytes).map fun kept =>
      .ok ⟨kept.entries ++ [(source, text)], kept.bytes + text.utf8ByteSize⟩

end OutputCache

/-- A request's result and the cache behind it. -/
abbrev Reply := Except ClientError ToolOutputChunk × OutputCache

/-- What is done with an output that has been read. -/
def serve (source : ToolOutputSource) (offset : Nat) (cache : OutputCache) (text : String) : Option Reply :=
  match chunk text offset with
  | .error e => some (.error e, cache)
  | .ok result =>
    (cache.insert source text).map fun inserted =>
      match inserted with
      | .error e => (.error e, cache)
      | .ok cache => (.ok result, cache)

variable (pretty : Value → String) (parseUrl : String → Option Url)

/-- `SessionHandle::tool_output`, with the cache locked; `none` while it goes on after `fuel` pages. -/
def toolOutput (fuel : Nat) (bound : SessionBinding) (source : ToolOutputSource) (offset : Nat) (cache : OutputCache) :
    Prog Op Ans (Option Reply) :=
  if source.session ≠ bound.session.id then
    pure (some (.error (argument "Tool output belongs to another session."), cache))
  else
    match cache.get source with
    | some text => pure (some (chunk text offset, cache))
    | none => do
      match ← (readOutput pretty parseUrl fuel bound source).run with
      | .error f => pure (some (.error (remoteFault f), cache))
      | .ok none => pure none
      | .ok (some text) => pure (serve source offset cache text)

-- ---------------------------------------------------------------------------
-- Chunks
-- ---------------------------------------------------------------------------

variable {text : String} {offset : Nat} {c : ToolOutputChunk}

/-- What a chunk from a boundary is. -/
structure Chunk (text : String) (offset : Nat) (c : ToolOutputChunk) : Prop where
  short : c.text.utf8ByteSize ≤ CHUNK_BYTES
  filled : offset < text.utf8ByteSize → c.text ≠ ""
  part : ∃ before rest, text.toList = before ++ (c.text.toList ++ rest) ∧ Utf8.size before = offset ∧
    c.nextOffset = if rest = [] then none else some (offset + c.text.utf8ByteSize)

theorem chunk_refused (h : Utf8.boundary text.toList offset = false) :
    chunk text offset = .error (argument "Invalid tool output offset.") := by
  unfold chunk
  rw [h]
  rfl

theorem chunk_ok (h : Utf8.boundary text.toList offset = true) (hlength : text.utf8ByteSize < 2 ^ 64) :
    ∃ c, chunk text offset = .ok c ∧ Chunk text offset c := by
  have hsize := Utf8.size_toList text
  have hle := Utf8.le_size_of_boundary h
  have hbound : min (min (offset + CHUNK_BYTES) (2 ^ 64 - 1)) text.utf8ByteSize =
      min (offset + CHUNK_BYTES) text.utf8ByteSize := by omega
  generalize hstop : Utf8.floor text.toList (min (offset + CHUNK_BYTES) text.utf8ByteSize) = stop
  have hstopBoundary : Utf8.boundary text.toList stop = true := hstop ▸ Utf8.boundary_floor _ _
  have hstopLe : stop ≤ min (offset + CHUNK_BYTES) text.utf8ByteSize := hstop ▸ Utf8.floor_le _ _
  have hoffset : offset ≤ stop := hstop ▸ Utf8.le_floor h (by omega)
  have hgap : min (offset + CHUNK_BYTES) text.utf8ByteSize < stop + 4 := hstop ▸ Utf8.floor_gap (by omega)
  obtain ⟨before, mid, rest, htext, hbefore, hmid⟩ := Utf8.parts h hstopBoundary hoffset
  have hslice : Utf8.slice text.toList offset stop = mid := by
    rw [htext, ← hbefore, ← hmid, Utf8.slice_append]
  have hmidSize : (String.ofList mid).utf8ByteSize = Utf8.size mid := by
    rw [← Utf8.size_toList, String.toList_ofList]
  have hwhole : Utf8.size mid + Utf8.size rest + offset = text.utf8ByteSize := by
    rw [← hsize, htext, Utf8.size_append, Utf8.size_append, hbefore]
    omega
  refine ⟨⟨String.ofList mid, if stop < text.utf8ByteSize then some stop else none⟩, ?_, ?_, ?_, before, rest, ?_, hbefore, ?_⟩
  · unfold chunk
    rw [h, hbound, hstop]
    simp only [hslice]
    rfl
  · show (String.ofList mid).utf8ByteSize ≤ CHUNK_BYTES
    rw [hmidSize]
    omega
  · intro hless hempty
    have hnil : mid = [] := by simpa using congrArg String.toList hempty
    have hlarge : 4 ≤ CHUNK_BYTES := by decide
    have hzero : Utf8.size mid = 0 := by rw [hnil, Utf8.size_nil]
    have hfull : min (offset + CHUNK_BYTES) text.utf8ByteSize ≠ text.utf8ByteSize := fun hmin => by
      have hend : stop = text.utf8ByteSize := by
        rw [← hstop, hmin, ← hsize]
        exact Utf8.floor_of_boundary (Utf8.boundary_size _)
      omega
    omega
  · rw [String.toList_ofList]
    exact htext
  · show (if stop < text.utf8ByteSize then some stop else none) = _
    rw [hmidSize]
    by_cases hrest : rest = []
    · have hzero : Utf8.size rest = 0 := by rw [hrest, Utf8.size_nil]
      rw [if_pos hrest, if_neg (by omega)]
    · have hpos := Utf8.size_pos hrest
      have hnext : stop = offset + Utf8.size mid := by omega
      rw [if_neg hrest, if_pos (by omega), hnext]

-- ---------------------------------------------------------------------------
-- The bounds of the cache
-- ---------------------------------------------------------------------------

namespace OutputCache

def total (entries : List (ToolOutputSource × String)) : Nat := (entries.map fun entry => entry.2.utf8ByteSize).sum

structure Sound (c : OutputCache) : Prop where
  counted : c.bytes = total c.entries
  count : c.entries.length ≤ CACHE_ENTRIES
  size : c.bytes ≤ CACHE_BYTES

theorem clear_sound : clear.Sound := ⟨rfl, Nat.zero_le _, Nat.zero_le _⟩

/-- A text that may be kept finds room. -/
theorem evict_ok {size bytes : Nat} (hsize : size ≤ CACHE_BYTES) (entries : List (ToolOutputSource × String))
    (hbytes : bytes = total entries) : ∃ kept, evict size entries bytes = some kept ∧ kept.entries <:+ entries ∧
      kept.bytes = total kept.entries ∧ kept.bytes + size ≤ CACHE_BYTES ∧ kept.entries.length < CACHE_ENTRIES := by
  induction entries generalizing bytes with
  | nil =>
    obtain rfl : bytes = 0 := hbytes
    refine ⟨⟨[], 0⟩, ?_, List.suffix_rfl, rfl, (Nat.zero_add size).symm ▸ hsize, by decide⟩
    rw [evict, if_neg (by omega)]
  | cons entry entries ih =>
    have hrest : bytes - entry.2.utf8ByteSize = total entries := by
      rw [hbytes, total, List.map_cons, List.sum_cons, Nat.add_sub_cancel_left, total]
    rw [evict]
    split
    · obtain ⟨kept, hkept, hsuffix, hrest⟩ := ih hrest
      exact ⟨kept, hkept, hsuffix.trans (List.suffix_cons entry entries), hrest⟩
    · next hroom =>
      rw [not_or] at hroom
      exact ⟨_, rfl, List.suffix_rfl, hbytes, Nat.le_of_not_gt hroom.1, Nat.lt_of_not_ge hroom.2⟩

/-- A text that may be kept is put behind what is left of the others. -/
theorem insert_ok {c : OutputCache} (h : c.Sound) (source : ToolOutputSource) {text : String}
    (hsize : text.utf8ByteSize ≤ CACHE_BYTES) : ∃ c', c.insert source text = some (.ok c') ∧ c'.Sound ∧
      ∀ entry ∈ c'.entries, entry ∈ c.entries ∨ entry = (source, text) := by
  obtain ⟨kept, hkept, hsuffix, hbytes, hfits, hcount⟩ := evict_ok hsize c.entries h.counted
  refine ⟨⟨kept.entries ++ [(source, text)], kept.bytes + text.utf8ByteSize⟩, ?_, ⟨?_, ?_, hfits⟩, ?_⟩
  · rw [insert, if_neg (by omega), hkept]
    rfl
  · simp [hbytes, total]
  · rw [List.length_append]
    exact hcount
  · intro entry hentry
    rcases List.mem_append.mp hentry with hentry | hentry
    · exact .inl (hsuffix.subset hentry)
    · exact .inr (List.mem_singleton.mp hentry)

theorem insert_refused (c : OutputCache) (source : ToolOutputSource) (hsize : CACHE_BYTES < text.utf8ByteSize) :
    c.insert source text = some (.error (argument "This tool output exceeds the display limit.")) := by
  rw [insert, if_pos hsize]

theorem get_some {c : OutputCache} {source : ToolOutputSource} (h : c.get source = some text) :
    ∃ key, (key, text) ∈ c.entries ∧ key.session = source.session ∧ key.turn = source.turn ∧ key.item = source.item := by
  obtain ⟨⟨key, found⟩, hfind, rfl⟩ := Option.map_eq_some_iff.mp h
  have halike := List.find?_some hfind
  simp only [alike, Bool.and_eq_true, decide_eq_true_eq] at halike
  exact ⟨key, List.mem_of_find?_eq_some hfind, halike.1.1, halike.1.2, halike.2⟩

end OutputCache

/-- What is done with an output of a size that may be kept. -/
theorem serve_ok (source : ToolOutputSource) {cache : OutputCache} (h : cache.Sound) (offset : Nat)
    (hsize : text.utf8ByteSize ≤ CACHE_BYTES) : ∃ cache', serve source offset cache text = some (chunk text offset, cache') ∧
      cache'.Sound ∧ ∀ entry ∈ cache'.entries, entry ∈ cache.entries ∨ entry = (source, text) := by
  unfold serve
  cases hchunk : chunk text offset with
  | error e => exact ⟨cache, rfl, h, fun _ hentry => .inl hentry⟩
  | ok c =>
    obtain ⟨cache', hinsert, hsound, hentries⟩ := OutputCache.insert_ok h source hsize
    exact ⟨cache', by rw [hinsert]; rfl, hsound, hentries⟩

/-- An output that may not be kept is not served. -/
theorem serve_refused (source : ToolOutputSource) (cache : OutputCache) (offset : Nat)
    (hsize : CACHE_BYTES < text.utf8ByteSize) : ∃ e, serve source offset cache text = some (.error e, cache) := by
  unfold serve
  cases chunk text offset with
  | error e => exact ⟨e, rfl⟩
  | ok c =>
    rw [OutputCache.insert_refused cache source hsize]
    exact ⟨_, rfl⟩

end RemoteCodex.Application
