import RemoteCodex.Protocol.Codec
import RemoteCodex.Transfer.Protocol

/-!
# Packets of a transfer

A value and a payload behind their two lengths, as the two ends of a transfer
read and write them.
-/

namespace RemoteCodex.Protocol.Packets

open Wire Codec
open Transfer (CHUNK)

-- ---------------------------------------------------------------------------
-- Lengths
-- ---------------------------------------------------------------------------

/-- `n as u32`, the highest byte first. -/
def u32 (n : Nat) : List UInt8 := [.ofNat (n / 2 ^ 24), .ofNat (n / 2 ^ 16), .ofNat (n / 2 ^ 8), .ofNat n]

def number (bytes : List UInt8) : Nat := bytes.foldl (fun n b => n * 256 + b.toNat) 0

theorem number_u32 (n : Nat) : number (u32 n) = n % 2 ^ 32 := by
  simp only [number, u32, List.foldl_cons, List.foldl_nil, UInt8.toNat_ofNat']
  omega

theorem length_u32 (n : Nat) : (u32 n).length = 4 := rfl

-- ---------------------------------------------------------------------------
-- Reading and writing
-- ---------------------------------------------------------------------------

/-- What is left of the stream, and the lengths of the buffers made for it. -/
structure Stream where
  input : Pieces UInt8
  allocated : List Nat := []
  deriving DecidableEq, Repr

abbrev Reading (α : Type) := Stream → Except IoError α × Stream

def readExact (n : Nat) : Reading (List UInt8) := fun s =>
  match s.input.readExact n with
  | (some bytes, input) => (.ok bytes, { s with input })
  | (none, input) => (.error endOfFile, { s with input })

def readU32 : Reading Nat := fun s =>
  match readExact 4 s with
  | (.ok bytes, s) => (.ok (number bytes), s)
  | (.error e, s) => (.error e, s)

/-- `vec![0; n]` and `read_exact` into it. -/
def readBuffer (n : Nat) : Reading (List UInt8) := fun s => readExact n { s with allocated := s.allocated ++ [n] }

def andThen {α β : Type} (x : Reading α) (f : α → Reading β) : Reading β := fun s =>
  match x s with
  | (.ok a, s) => f a s
  | (.error e, s) => (.error e, s)

def failure {α : Type} (e : IoError) : Reading α := fun s => (.error e, s)

def exceedsLimit : IoError := ⟨.invalidData, "Transfer packet exceeds its limit."⟩

def fromSlice {T : Type} (c : Serde T) (json : List UInt8) : Reading T := fun s =>
  match c.fromSlice json with
  | some v => (.ok v, s)
  | none => (.error ⟨.other, "deserialization failed"⟩, s)

def readSections {T : Type} (c : Serde T) (header size : Nat) : Reading (T × List UInt8) :=
  andThen (readBuffer header) fun json =>
  andThen (fromSlice c json) fun value =>
  andThen (readBuffer size) fun bytes s => (.ok (value, bytes), s)

/-- `wire::read`. -/
def read {T : Type} (c : Serde T) : Reading (T × List UInt8) :=
  andThen readU32 fun header =>
  andThen readU32 fun size =>
  if header > MAX_FRAME ∨ size > CHUNK then failure exceedsLimit else readSections c header size

/-- Call after call, until one fails. -/
def reads {T : Type} (c : Serde T) : Nat → Reading (List (T × List UInt8))
  | 0 => fun s => (.ok [], s)
  | n + 1 => andThen (read c) fun pair => andThen (reads c n) fun pairs s => (.ok (pair :: pairs), s)

/-- What `wire::write` puts on the stream. -/
def encoded (json bytes : List UInt8) : List UInt8 := u32 json.length ++ u32 bytes.length ++ json ++ bytes

def packet {T : Type} (c : Serde T) (v : T) (bytes : List UInt8) : Except IoError (List UInt8) :=
  match c.toVec v with
  | none => .error ⟨.other, "serialization failed"⟩
  | some json => if json.length > MAX_FRAME ∨ bytes.length > CHUNK then .error exceedsLimit else .ok (encoded json bytes)

/-- `wire::write`: `output` is what the stream makes of the bytes. -/
def write {T : Type} (c : Serde T) (v : T) (bytes : List UInt8) (output : List UInt8 → Except IoError Unit) :
    Except IoError Unit := do
  output (← packet c v bytes)

-- ---------------------------------------------------------------------------
-- What a call takes
-- ---------------------------------------------------------------------------

def header (bytes : List UInt8) : Nat := number (bytes.take 4)

def size (bytes : List UInt8) : Nat := number ((bytes.drop 4).take 4)

/-- Both lengths are there, and within their limits. -/
structure Headed (bytes : List UInt8) : Prop where
  long : 8 ≤ bytes.length
  header : header bytes ≤ MAX_FRAME
  size : size bytes ≤ CHUNK

/-- What a call answers where the stream has `bytes` left, what it leaves of
them, and the buffers it makes. -/
inductive Reads {T : Type} (c : Serde T) (bytes : List UInt8) :
    Except IoError (T × List UInt8) → List UInt8 → List Nat → Prop
  | short : bytes.length < 8 → Reads c bytes (.error endOfFile) [] []
  | limit : 8 ≤ bytes.length → MAX_FRAME < header bytes ∨ CHUNK < size bytes →
      Reads c bytes (.error exceedsLimit) (bytes.drop 8) []
  | cutValue : Headed bytes → bytes.length < 8 + header bytes → Reads c bytes (.error endOfFile) [] [header bytes]
  | malformed : Headed bytes → c.fromSlice ((bytes.drop 8).take (header bytes)) = none → ∀ e : IoError,
      Reads c bytes (.error e) (bytes.drop (8 + header bytes)) [header bytes]
  | cutPayload : Headed bytes → bytes.length < 8 + header bytes + size bytes →
      Reads c bytes (.error endOfFile) [] [header bytes, size bytes]
  | packet : Headed bytes → c.fromSlice ((bytes.drop 8).take (header bytes)) = some v →
      8 + header bytes + size bytes ≤ bytes.length →
      Reads c bytes (.ok (v, (bytes.drop (8 + header bytes)).take (size bytes)))
        (bytes.drop (8 + header bytes + size bytes)) [header bytes, size bytes]

section

variable {T : Type} {c : Serde T} {s : Stream} {v : T} {json bytes : List UInt8}

theorem andThen_ok {α β : Type} {x : Reading α} {f : α → Reading β} {a : α} {t : Stream} (h : x s = (.ok a, t)) :
    andThen x f s = f a t := by
  unfold andThen
  rw [h]

theorem andThen_error {α β : Type} {x : Reading α} {f : α → Reading β} {e : IoError} {t : Stream}
    (h : x s = (.error e, t)) : andThen x f s = (.error e, t) := by
  unfold andThen
  rw [h]

/-- Either what is asked for is there and taken, or everything is taken in vain. -/
theorem readExact_cases (n : Nat) (s : Stream) :
    (n ≤ s.input.all.length ∧ ∃ input, input.all = s.input.all.drop n ∧
      readExact n s = (.ok (s.input.all.take n), { s with input })) ∨
    (s.input.all.length < n ∧ ∃ input, input.all = [] ∧ readExact n s = (.error endOfFile, { s with input })) := by
  have hfound := Pieces.readExact_fst n s.input
  have hall := Pieces.readExact_all n s.input
  unfold readExact
  generalize s.input.readExact n = result at hfound hall
  obtain ⟨found, input⟩ := result
  by_cases h : n ≤ s.input.all.length
  · rw [if_pos h] at hfound
    obtain rfl : found = _ := hfound
    exact .inl ⟨h, input, hall, rfl⟩
  · rw [if_neg h] at hfound
    obtain rfl : found = _ := hfound
    have hall : input.all = s.input.all.drop n := hall
    exact .inr ⟨by omega, input, hall.trans (List.drop_of_length_le (by omega)), rfl⟩

theorem readU32_cases (s : Stream) :
    (4 ≤ s.input.all.length ∧ ∃ input, input.all = s.input.all.drop 4 ∧
      readU32 s = (.ok (number (s.input.all.take 4)), { s with input })) ∨
    (s.input.all.length < 4 ∧ ∃ input, input.all = [] ∧ readU32 s = (.error endOfFile, { s with input })) := by
  rcases readExact_cases 4 s with ⟨hlen, input, hall, hrun⟩ | ⟨hlen, input, hall, hrun⟩
  · refine .inl ⟨hlen, input, hall, ?_⟩
    unfold readU32
    rw [hrun]
  · refine .inr ⟨hlen, input, hall, ?_⟩
    unfold readU32
    rw [hrun]

theorem readBuffer_cases (n : Nat) (s : Stream) :
    (n ≤ s.input.all.length ∧ ∃ input, input.all = s.input.all.drop n ∧
      readBuffer n s = (.ok (s.input.all.take n), ⟨input, s.allocated ++ [n]⟩)) ∨
    (s.input.all.length < n ∧ ∃ input, input.all = [] ∧
      readBuffer n s = (.error endOfFile, ⟨input, s.allocated ++ [n]⟩)) :=
  readExact_cases n { s with allocated := s.allocated ++ [n] }

/-- What a call answers, leaves and allocates. -/
def Gives (c : Serde T) (bytes : List UInt8) (s : Stream) (r : Except IoError (T × List UInt8) × Stream) : Prop :=
  ∃ made, Reads c bytes r.1 r.2.input.all made ∧ r.2.allocated = s.allocated ++ made

theorem readSections_gives (c : Serde T) (h : Headed bytes) (hs : s.input.all = bytes.drop 8) :
    Gives c bytes s (readSections c (header bytes) (size bytes) s) := by
  unfold readSections
  rcases readBuffer_cases (header bytes) s with ⟨hlen, input, hall, hrun⟩ | ⟨hlen, input, hall, hrun⟩
  swap
  · rw [andThen_error hrun]
    refine ⟨[header bytes], ?_, rfl⟩
    show Reads c bytes _ input.all _
    rw [hall]
    simp only [hs, List.length_drop] at hlen
    exact .cutValue h (by omega)
  rw [andThen_ok hrun]
  simp only [hs, List.length_drop, List.drop_drop] at hlen hall hrun ⊢
  have hlong := h.long
  cases hjson : c.fromSlice ((bytes.drop 8).take (header bytes)) with
  | none =>
    rw [andThen_error (e := ⟨.other, "deserialization failed"⟩) (by rw [fromSlice, hjson])]
    refine ⟨[header bytes], ?_, rfl⟩
    show Reads c bytes _ input.all _
    rw [hall]
    exact .malformed h hjson _
  | some v =>
    rw [andThen_ok (a := v) (by rw [fromSlice, hjson])]
    rcases readBuffer_cases (size bytes) ⟨input, s.allocated ++ [header bytes]⟩ with
      ⟨hlen', input', hall', hrun'⟩ | ⟨hlen', input', hall', hrun'⟩
    · rw [andThen_ok hrun']
      refine ⟨[header bytes, size bytes], ?_, List.append_assoc _ _ _⟩
      show Reads c bytes (.ok (v, _)) input'.all _
      rw [hall']
      simp only [hall, List.length_drop, List.drop_drop] at hlen' ⊢
      exact .packet h hjson (by omega)
    · rw [andThen_error hrun']
      refine ⟨[header bytes, size bytes], ?_, List.append_assoc _ _ _⟩
      show Reads c bytes _ input'.all _
      rw [hall']
      simp only [hall, List.length_drop] at hlen'
      exact .cutPayload h (by omega)

theorem read_gives (c : Serde T) (s : Stream) : Gives c s.input.all s (read c s) := by
  unfold read
  rcases readU32_cases s with ⟨hfour, i, hi, hheader⟩ | ⟨hfour, i, hi, hheader⟩
  swap
  · rw [andThen_error hheader]
    refine ⟨[], ?_, (List.append_nil _).symm⟩
    show Reads c _ _ i.all _
    rw [hi]
    exact .short (by omega)
  rw [andThen_ok hheader]
  rcases readU32_cases { s with input := i } with ⟨hnext, j, hj, hsize⟩ | ⟨hnext, j, hj, hsize⟩
  swap
  · rw [andThen_error hsize]
    refine ⟨[], ?_, (List.append_nil _).symm⟩
    show Reads c _ _ j.all _
    rw [hj]
    simp only [hi, List.length_drop] at hnext
    exact .short (by omega)
  rw [andThen_ok hsize]
  simp only [hi, List.length_drop, List.drop_drop] at hnext hj ⊢
  have hlong : 8 ≤ s.input.all.length := by omega
  split
  · next hlimit =>
    refine ⟨[], ?_, (List.append_nil _).symm⟩
    show Reads c _ (.error exceedsLimit) j.all _
    rw [hj]
    exact .limit hlong hlimit
  · next hlimit =>
    rw [not_or, Nat.not_lt, Nat.not_lt] at hlimit
    exact @readSections_gives T { s with input := j } _ c ⟨hlong, hlimit.1, hlimit.2⟩ hj

-- ---------------------------------------------------------------------------
-- Encoded packets
-- ---------------------------------------------------------------------------

theorem encoded_append (json bytes rest : List UInt8) :
    encoded json bytes ++ rest = u32 json.length ++ (u32 bytes.length ++ (json ++ (bytes ++ rest))) := by
  simp [encoded]

theorem header_encoded (json bytes rest : List UInt8) : header (encoded json bytes ++ rest) = json.length % 2 ^ 32 := by
  rw [header, encoded_append, List.take_left' (length_u32 _), number_u32]

theorem size_encoded (json bytes rest : List UInt8) : size (encoded json bytes ++ rest) = bytes.length % 2 ^ 32 := by
  rw [size, encoded_append, List.drop_left' (length_u32 _), List.take_left' (length_u32 _), number_u32]

theorem drop_encoded (json bytes rest : List UInt8) : (encoded json bytes ++ rest).drop 8 = json ++ (bytes ++ rest) := by
  rw [encoded_append, show 8 = 4 + 4 from rfl, ← List.drop_drop, List.drop_left' (length_u32 _),
    List.drop_left' (length_u32 _)]

theorem length_encoded (json bytes : List UInt8) : (encoded json bytes).length = 8 + json.length + bytes.length := by
  simp only [encoded, List.length_append, length_u32]

theorem packet_ok {packed : List UInt8} : packet c v bytes = .ok packed ↔
    ∃ json, c.toVec v = some json ∧ packed = encoded json bytes ∧ json.length ≤ MAX_FRAME ∧ bytes.length ≤ CHUNK := by
  unfold packet
  cases c.toVec v with
  | none => simp
  | some json =>
    simp only [Option.some.injEq, exists_eq_left']
    split
    · next hlong =>
      constructor
      · intro h
        cases h
      · rintro ⟨-, hjson, hbytes⟩
        omega
    · next hfit =>
      rw [not_or, Nat.not_lt, Nat.not_lt] at hfit
      rw [Except.ok.injEq]
      exact ⟨fun h => ⟨h.symm, hfit⟩, fun h => h.1.symm⟩

/-- A packet that is there in full is what a call answers. -/
theorem Reads.eq_packet {all left : List UInt8} {result : Except IoError (T × List UInt8)} {made : List Nat}
    (h : Reads c all result left made) (hh : Headed all) (hv : c.fromSlice ((all.drop 8).take (header all)) = some v)
    (hlen : 8 + header all + size all ≤ all.length) :
    result = .ok (v, (all.drop (8 + header all)).take (size all)) ∧ left = all.drop (8 + header all + size all) := by
  cases h with
  | short hshort => omega
  | limit _ hlimit =>
    have hheader := hh.header
    have hsize := hh.size
    omega
  | cutValue _ hcut => omega
  | malformed _ hnone => cases hnone.symm.trans hv
  | cutPayload _ hcut => omega
  | packet _ hv' =>
    obtain rfl := Option.some.inj (hv'.symm.trans hv)
    exact ⟨rfl, rfl⟩

theorem read_packet (hc : ∀ v json, c.toVec v = some json → c.fromSlice json = some v) {packed rest : List UInt8}
    (hpacket : packet c v bytes = .ok packed) (hs : s.input.all = packed ++ rest) :
    ∃ t, read c s = (.ok (v, bytes), t) ∧ t.input.all = rest := by
  obtain ⟨json, hjson, rfl, hheader, hsize⟩ := packet_ok.mp hpacket
  have hframe : MAX_FRAME < 2 ^ 32 := by decide
  have hchunk : CHUNK < 2 ^ 32 := by decide
  have hheader' : header (encoded json bytes ++ rest) = json.length := by
    rw [header_encoded, Nat.mod_eq_of_lt (by omega)]
  have hsize' : size (encoded json bytes ++ rest) = bytes.length := by
    rw [size_encoded, Nat.mod_eq_of_lt (by omega)]
  have hlen : (encoded json bytes ++ rest).length = 8 + json.length + bytes.length + rest.length := by
    rw [List.length_append, length_encoded]
  obtain ⟨made, hreads, -⟩ := read_gives c s
  rw [hs] at hreads
  have hheaded : Headed (encoded json bytes ++ rest) := ⟨by omega, by omega, by omega⟩
  obtain ⟨hresult, hleft⟩ := hreads.eq_packet (v := v) hheaded
    (by rw [drop_encoded, hheader', List.take_left, hc v json hjson]) (by omega)
  refine ⟨(read c s).2, Prod.ext ?_ rfl, ?_⟩
  · rw [hresult, hheader', hsize', ← List.drop_drop, drop_encoded, List.drop_left, List.take_left]
  · rw [hleft, hheader', hsize', ← List.drop_drop, ← List.drop_drop, drop_encoded, List.drop_left, List.drop_left]

/-- Packet after packet, with the stream left behind the last one. -/
theorem reads_packets (hc : ∀ v json, c.toVec v = some json → c.fromSlice json = some v)
    {sent : List (T × List UInt8)} {packed : List (List UInt8)} {rest : List UInt8}
    (hsent : sent.mapM (fun pair => packet c pair.1 pair.2) = .ok packed) (hs : s.input.all = packed.flatten ++ rest) :
    ∃ t, reads c sent.length s = (.ok sent, t) ∧ t.input.all = rest := by
  induction sent generalizing s packed with
  | nil =>
    obtain rfl : [] = packed := Except.ok.inj hsent
    exact ⟨s, rfl, hs⟩
  | cons pair sent ih =>
    rw [List.mapM_cons] at hsent
    cases hfirst : packet c pair.1 pair.2 with
    | error e =>
      rw [hfirst] at hsent
      cases hsent
    | ok first =>
      cases hrest : sent.mapM (fun pair => packet c pair.1 pair.2) with
      | error e =>
        rw [hfirst, hrest] at hsent
        cases hsent
      | ok others =>
        rw [hfirst, hrest] at hsent
        obtain rfl : first :: others = packed := Except.ok.inj hsent
        rw [List.flatten_cons, List.append_assoc] at hs
        obtain ⟨t, hread, ht⟩ := read_packet hc hfirst hs
        obtain ⟨u, hreads, hu⟩ := ih hrest ht
        refine ⟨u, ?_, hu⟩
        rw [List.length_cons, reads, andThen_ok hread, andThen_ok hreads]

/-- The writer takes a pair exactly if the reader answers its encoding with it and is at its end. -/
theorem packet_iff_read (hc : ∀ v json, c.toVec v = some json → c.fromSlice json = some v)
    (hjson : c.toVec v = some json) (hs : s.input.all = encoded json bytes) :
    (∃ packed, packet c v bytes = .ok packed) ↔ ∃ t, read c s = (.ok (v, bytes), t) ∧ t.input.all = [] := by
  constructor
  · rintro ⟨packed, hpacket⟩
    obtain ⟨json', hjson', rfl, -⟩ := packet_ok.mp hpacket
    obtain rfl := Option.some.inj (hjson.symm.trans hjson')
    exact read_packet hc hpacket (by rw [hs, List.append_nil])
  · rintro ⟨t, hread, ht⟩
    obtain ⟨made, hreads, -⟩ := read_gives c s
    rw [hread, hs] at hreads
    have hheader := header_encoded json bytes []
    have hsize := size_encoded json bytes []
    rw [List.append_nil] at hheader hsize
    simp only [ht] at hreads
    generalize hall : encoded json bytes = all at hreads hheader hsize
    generalize hleft : ([] : List UInt8) = left at hreads
    cases hreads with
    | packet hh _ hlen =>
      have hcount := congrArg List.length hall
      have hnone := congrArg List.length hleft
      rw [length_encoded] at hcount
      rw [List.length_nil, List.length_drop] at hnone
      have hheader' := hh.header
      have hsize' := hh.size
      exact ⟨_, packet_ok.mpr ⟨json, hjson, rfl, by omega, by omega⟩⟩

/-- A call never takes more than the lengths it has accepted say, and makes no
larger buffers; where it answers with a packet, it has taken exactly that. -/
theorem Reads.bounded {all left : List UInt8} {result : Except IoError (T × List UInt8)} {made : List Nat}
    (h : Reads c all result left made) :
    (∃ taken, all = taken ++ left ∧ taken.length ≤ 8 + made.sum ∧
      ∀ pair, result = .ok pair → Headed all ∧ pair.2.length = size all ∧ made = [header all, size all] ∧
        taken.length = 8 + header all + size all) ∧
    made <+: [header all, size all] ∧ (made ≠ [] → Headed all) := by
  have hdrop : ∀ n, n ≤ all.length → all = all.take n ++ all.drop n ∧ (all.take n).length = n := fun n hn =>
    ⟨(List.take_append_drop n all).symm, List.length_take_of_le hn⟩
  have hwhole : all = all ++ [] := (List.append_nil all).symm
  cases h with
  | short hshort =>
    refine ⟨⟨all, hwhole, by simp; omega, fun pair heq => by cases heq⟩, List.nil_prefix, fun h => absurd rfl h⟩
  | limit hlong =>
    obtain ⟨hsplit, htake⟩ := hdrop 8 hlong
    exact ⟨⟨_, hsplit, by simp [htake], fun pair heq => by cases heq⟩, List.nil_prefix, fun h => absurd rfl h⟩
  | cutValue hh hcut =>
    exact ⟨⟨all, hwhole, by simp; omega, fun pair heq => by cases heq⟩, ⟨[_], rfl⟩, fun _ => hh⟩
  | malformed hh =>
    refine ⟨⟨all.take (8 + header all), (List.take_append_drop _ _).symm, ?_, fun pair heq => by cases heq⟩, ⟨[_], rfl⟩,
      fun _ => hh⟩
    rw [List.length_take]
    simp
  | cutPayload hh hcut =>
    exact ⟨⟨all, hwhole, by simp; omega, fun pair heq => by cases heq⟩, List.prefix_rfl, fun _ => hh⟩
  | packet hh _ hlen =>
    obtain ⟨hsplit, htake⟩ := hdrop _ hlen
    refine ⟨⟨_, hsplit, by simp [htake]; omega, fun pair heq => ?_⟩, List.prefix_rfl, fun _ => hh⟩
    obtain rfl := Except.ok.inj heq
    refine ⟨hh, List.length_take_of_le ?_, rfl, htake⟩
    rw [List.length_drop]
    omega

/-- Two packets of `true` and `false`, in pieces that split their lengths. -/
def splitPackets : Pieces UInt8 :=
  ⟨[[0, 0, 0], [4, 0, 0, 0, 2, 116, 114], [117, 101, 7], [8, 0, 0, 0, 5, 0], [0, 0, 0, 102, 97, 108, 115, 101]], by decide⟩

end

end RemoteCodex.Protocol.Packets
