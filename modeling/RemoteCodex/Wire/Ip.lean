import Mathlib.Algebra.Order.Ring.Int
import Mathlib.Data.List.TakeWhile

/-!
# Internet addresses as text

The reader and the printer of the addresses of the Internet protocols, as the
standard library of the source has them: readers take what they can from the
front of a text and give the rest back, or fail and take nothing. A printed
address is read as itself.
-/

namespace RemoteCodex.Wire.Ip

structure Ipv4 where
  a : Fin 256
  b : Fin 256
  c : Fin 256
  d : Fin 256
  deriving DecidableEq, Repr

structure Ipv6 where
  segments : List (Fin 65536)
  eight : segments.length = 8
  deriving DecidableEq, Repr

-- ---------------------------------------------------------------------------
-- Reading
-- ---------------------------------------------------------------------------

/-- `char::to_digit`, above every radix for what is no digit. -/
def digitValue (c : Char) : Nat :=
  if 48 ≤ c.toNat ∧ c.toNat ≤ 57 then c.toNat - 48
  else if 97 ≤ c.toNat ∧ c.toNat ≤ 122 then c.toNat - 87
  else if 65 ≤ c.toNat ∧ c.toNat ≤ 90 then c.toNat - 55
  else 36

def isDigit (radix : Nat) (c : Char) : Bool := digitValue c < radix

def digitsValue (radix : Nat) (cs : List Char) : Nat := cs.foldl (fun n c => n * radix + digitValue c) 0

/-- `read_number`. -/
def readNumber (bound radix digits : Nat) (zeroPrefix : Bool) (cs : List Char) : Option (Fin bound × List Char) :=
  let ds := cs.takeWhile (isDigit radix)
  if ds = [] ∨ digits < ds.length ∨ (zeroPrefix = false ∧ ds.head? = some '0' ∧ 1 < ds.length) then none
  else if h : digitsValue radix ds < bound then some (⟨digitsValue radix ds, h⟩, cs.dropWhile (isDigit radix))
  else none

/-- `read_separator`: the first one has none before it. -/
def separated (separator : Char) (first : Bool) (read : List Char → Option (α × List Char)) (cs : List Char) :
    Option (α × List Char) :=
  if first then read cs
  else
    match cs with
    | [] => none
    | c :: rest => if c = separator then read rest else none

def readOctet : List Char → Option (Fin 256 × List Char) := readNumber 256 10 3 false

def readGroup : List Char → Option (Fin 65536 × List Char) := readNumber 65536 16 4 true

/-- `read_ipv4_addr`. -/
def readIpv4 (cs : List Char) : Option (Ipv4 × List Char) :=
  match separated '.' true readOctet cs with
  | none => none
  | some (a, cs) =>
    match separated '.' false readOctet cs with
    | none => none
    | some (b, cs) =>
      match separated '.' false readOctet cs with
      | none => none
      | some (c, cs) =>
        match separated '.' false readOctet cs with
        | none => none
        | some (d, cs) => some (⟨a, b, c, d⟩, cs)

/-- `u16::from_be_bytes`. -/
def pair (high low : Fin 256) : Fin 65536 := ⟨high.val * 256 + low.val, by omega⟩

def Ipv4.segments (v : Ipv4) : List (Fin 65536) := [pair v.a v.b, pair v.c v.d]

/-- `read_groups`: at most `left` groups, and whether the last two were an address of version 4. -/
def readGroups : Nat → Bool → List Char → List (Fin 65536) × Bool × List Char
  | 0, _, cs => ([], false, cs)
  | left + 1, first, cs =>
    match if 1 ≤ left then separated ':' first readIpv4 cs else none with
    | some (v, rest) => (v.segments, true, rest)
    | none =>
      match separated ':' first readGroup cs with
      | some (g, rest) =>
        let more := readGroups left false rest
        (g :: more.1, more.2)
      | none => ([], false, cs)

/-- `read_ipv6_addr`. -/
def readSegments (cs : List Char) : Option (List (Fin 65536) × List Char) :=
  match readGroups 8 true cs with
  | (head, v4, rest) =>
    if head.length = 8 then some (head, rest)
    else if v4 then none
    else
      match rest with
      | ':' :: ':' :: rest =>
        let tail := readGroups (8 - (head.length + 1)) true rest
        some (head ++ List.replicate (8 - head.length - tail.1.length) 0 ++ tail.1, tail.2.2)
      | _ => none

/-- `str::parse::<Ipv6Addr>`. -/
def parseIpv6 (text : String) : Option Ipv6 :=
  match readSegments text.toList with
  | some (segments, []) => if h : segments.length = 8 then some ⟨segments, h⟩ else none
  | _ => none

inductive IpAddr
  | v4 (address : Ipv4)
  | v6 (address : Ipv6)
  deriving DecidableEq, Repr

/-- `str::parse::<IpAddr>`. -/
def parseIp (text : String) : Option IpAddr :=
  match readIpv4 text.toList with
  | some (v, rest) => if rest = [] then some (.v4 v) else none
  | none => (parseIpv6 text).map .v6

-- ---------------------------------------------------------------------------
-- Printing
-- ---------------------------------------------------------------------------

def decimal (n : Fin 256) : List Char := Nat.toDigits 10 n

/-- `{:x}`. -/
def hexadecimal (n : Fin 65536) : List Char := Nat.toDigits 16 n

def printIpv4 (v : Ipv4) : List Char :=
  decimal v.a ++ '.' :: (decimal v.b ++ '.' :: (decimal v.c ++ '.' :: decimal v.d))

structure Span where
  start : Nat
  len : Nat
  deriving DecidableEq, Repr

/-- One segment of the search for the longest run of zeros: the longest and the current one. -/
def spanStep (spans : Span × Span) (e : Fin 65536 × Nat) : Span × Span :=
  if e.1 = 0 then
    let current : Span := ⟨if spans.2.len = 0 then e.2 else spans.2.start, spans.2.len + 1⟩
    (if spans.1.len < current.len then current else spans.1, current)
  else (spans.1, ⟨0, 0⟩)

def zeroes (segments : List (Fin 65536)) : Span := (segments.zipIdx.foldl spanStep (⟨0, 0⟩, ⟨0, 0⟩)).1

/-- `fmt_subslice`. -/
def printSegments : List (Fin 65536) → List Char
  | [] => []
  | [g] => hexadecimal g
  | g :: gs => hexadecimal g ++ ':' :: printSegments gs

/-- `to_ipv4_mapped`. -/
def mapped (segments : List (Fin 65536)) : Option Ipv4 :=
  match segments with
  | [0, 0, 0, 0, 0, 0xffff, x, y] =>
    some ⟨⟨x.val / 256, by omega⟩, ⟨x.val % 256, by omega⟩, ⟨y.val / 256, by omega⟩, ⟨y.val % 256, by omega⟩⟩
  | _ => none

def printIpv6 (v : Ipv6) : List Char :=
  match mapped v.segments with
  | some w => "::ffff:".toList ++ printIpv4 w
  | none =>
    let span := zeroes v.segments
    if 1 < span.len then
      printSegments (v.segments.take span.start) ++ ':' :: ':' :: printSegments (v.segments.drop (span.start + span.len))
    else printSegments v.segments

/-- `to_string`. -/
def IpAddr.print : IpAddr → List Char
  | .v4 v => printIpv4 v
  | .v6 v => printIpv6 v

-- ---------------------------------------------------------------------------
-- Numbers
-- ---------------------------------------------------------------------------

section Numbers

variable {radix n : Nat} {rest : List Char}

theorem digitValue_digitChar : ∀ d < 16, digitValue d.digitChar = d := by decide

theorem digitChar_ne_zero : ∀ d < 16, d ≠ 0 → d.digitChar ≠ '0' := by decide

theorem isDigit_toDigits (h1 : 1 < radix) (h16 : radix ≤ 16) : ∀ c ∈ Nat.toDigits radix n, isDigit radix c = true := by
  have hchar : ∀ d < radix, isDigit radix d.digitChar = true := by
    intro d hd
    rw [isDigit, digitValue_digitChar d (by omega)]
    exact decide_eq_true hd
  induction n using Nat.strong_induction_on with
  | _ n ih =>
    rw [Nat.toDigits_eq_if h1]
    split
    · next hlt =>
      intro c hc
      obtain rfl := List.mem_singleton.mp hc
      exact hchar n hlt
    · next hge =>
      intro c hc
      rcases List.mem_append.mp hc with hc | hc
      · exact ih (n / radix) (Nat.div_lt_self (by omega) h1) c hc
      · obtain rfl := List.mem_singleton.mp hc
        exact hchar _ (Nat.mod_lt _ (by omega))

theorem digitsValue_append (radix : Nat) (cs : List Char) (c : Char) :
    digitsValue radix (cs ++ [c]) = digitsValue radix cs * radix + digitValue c := by
  simp [digitsValue]

theorem digitsValue_toDigits (h1 : 1 < radix) (h16 : radix ≤ 16) : digitsValue radix (Nat.toDigits radix n) = n := by
  induction n using Nat.strong_induction_on with
  | _ n ih =>
    rw [Nat.toDigits_eq_if h1]
    split
    · next hlt =>
      show 0 * radix + digitValue n.digitChar = n
      rw [digitValue_digitChar n (by omega), Nat.zero_mul, Nat.zero_add]
    · have hmod : n % radix < 16 := lt_of_lt_of_le (Nat.mod_lt _ (by omega)) h16
      rw [digitsValue_append, ih (n / radix) (Nat.div_lt_self (by omega) h1), digitValue_digitChar _ hmod]
      exact Nat.div_add_mod' n radix

/-- Only the number zero starts with a zero. -/
theorem head_toDigits (h1 : 1 < radix) (h16 : radix ≤ 16) (hn : n ≠ 0) : (Nat.toDigits radix n).head? ≠ some '0' := by
  induction n using Nat.strong_induction_on with
  | _ n ih =>
    rw [Nat.toDigits_eq_if h1]
    split
    · next hlt =>
      have := digitChar_ne_zero n (by omega) hn
      simpa using this
    · have hdiv : n / radix ≠ 0 := (Nat.div_pos (by omega) (by omega)).ne'
      obtain ⟨c, cs, hcs⟩ := List.exists_cons_of_ne_nil (Nat.toDigits_ne_nil (n := n / radix) (b := radix))
      have := ih (n / radix) (Nat.div_lt_self (by omega) h1) hdiv
      rw [hcs] at this ⊢
      exact this

/-- The text goes on with something that is no digit, or ends. -/
def Stops (radix : Nat) (rest : List Char) : Prop := ∀ c ∈ rest.head?, isDigit radix c = false

theorem takeWhile_stops (h : Stops radix rest) : rest.takeWhile (isDigit radix) = [] ∧ rest.dropWhile (isDigit radix) = rest := by
  cases rest with
  | nil => exact ⟨rfl, rfl⟩
  | cons c cs =>
    have hc := h c rfl
    simp [hc]

/-- A number is read as it was printed. -/
theorem readNumber_toDigits {bound digits : Nat} {zeroPrefix : Bool} (h1 : 1 < radix) (h16 : radix ≤ 16) (hn : n < bound)
    (hlength : (Nat.toDigits radix n).length ≤ digits) (hstops : Stops radix rest) :
    readNumber bound radix digits zeroPrefix (Nat.toDigits radix n ++ rest) = some (⟨n, hn⟩, rest) := by
  have hall := isDigit_toDigits (n := n) h1 h16
  have htake : (Nat.toDigits radix n ++ rest).takeWhile (isDigit radix) = Nat.toDigits radix n := by
    rw [List.takeWhile_append_of_pos hall, (takeWhile_stops hstops).1, List.append_nil]
  have hdrop : (Nat.toDigits radix n ++ rest).dropWhile (isDigit radix) = rest := by
    rw [List.dropWhile_append_of_pos hall, (takeWhile_stops hstops).2]
  have hprefix : ¬ (Nat.toDigits radix n = [] ∨ digits < (Nat.toDigits radix n).length ∨
      (zeroPrefix = false ∧ (Nat.toDigits radix n).head? = some '0' ∧ 1 < (Nat.toDigits radix n).length)) := by
    rintro (h | h | ⟨-, hzero, hlong⟩)
    · exact Nat.toDigits_ne_nil h
    · omega
    · by_cases hn0 : n = 0
      · rw [hn0, Nat.toDigits_zero] at hlong
        exact absurd hlong (by decide)
      · exact head_toDigits h1 h16 hn0 hzero
  unfold readNumber
  simp only [htake, hdrop, hprefix, ↓reduceIte, digitsValue_toDigits h1 h16, hn, ↓reduceDIte]

theorem readNumber_stops {bound digits : Nat} {zeroPrefix : Bool} (h : Stops radix rest) :
    readNumber bound radix digits zeroPrefix rest = none := by
  unfold readNumber
  simp only [(takeWhile_stops h).1, true_or, ↓reduceIte]

theorem stops_cons {c : Char} {cs : List Char} (h : isDigit radix c = false) : Stops radix (c :: cs) := by
  intro d hd
  obtain rfl := Option.some.inj hd
  exact h

theorem stops_nil : Stops radix [] := by
  intro c hc
  cases hc

theorem readOctet_decimal (n : Fin 256) (hstops : Stops 10 rest) : readOctet (decimal n ++ rest) = some (n, rest) :=
  readNumber_toDigits (by decide) (by decide) n.isLt ((Nat.length_toDigits_le_iff (by decide) (by decide)).mpr (by omega)) hstops

theorem readGroup_hexadecimal (n : Fin 65536) (hstops : Stops 16 rest) :
    readGroup (hexadecimal n ++ rest) = some (n, rest) :=
  readNumber_toDigits (by decide) (by decide) n.isLt ((Nat.length_toDigits_le_iff (by decide) (by decide)).mpr (by omega)) hstops

end Numbers

-- ---------------------------------------------------------------------------
-- Version 4
-- ---------------------------------------------------------------------------

theorem readIpv4_print (v : Ipv4) {rest : List Char} (h : Stops 10 rest) :
    readIpv4 (printIpv4 v ++ rest) = some (v, rest) := by
  have hdot : ∀ cs, Stops 10 ('.' :: cs) := fun cs => stops_cons (by decide)
  unfold readIpv4 printIpv4
  simp only [List.append_assoc, List.cons_append, separated, ↓reduceIte, Bool.false_eq_true, readOctet_decimal _ (hdot _),
    readOctet_decimal _ h]

/-- A number is read from the front of the text. -/
theorem readNumber_suffix {bound radix digits : Nat} {zeroPrefix : Bool} {cs rest : List Char} {n : Fin bound}
    (h : readNumber bound radix digits zeroPrefix cs = some (n, rest)) : rest <:+ cs := by
  unfold readNumber at h
  simp only at h
  split at h
  · cases h
  · split at h
    · obtain ⟨-, rfl⟩ := Prod.mk.inj (Option.some.inj h)
      exact List.dropWhile_suffix _
    · cases h

/-- An address of version 4 has dots in it. -/
theorem readIpv4_no_dot {cs : List Char} (h : '.' ∉ cs) : readIpv4 cs = none := by
  unfold readIpv4
  split
  · rfl
  · next a rest ha =>
    have hno : '.' ∉ rest := fun hin => h ((readNumber_suffix ha).subset hin)
    have hnone : separated '.' false readOctet rest = none := by
      cases rest with
      | nil => rfl
      | cons c cs =>
        have hc : c ≠ '.' := fun heq => hno (heq ▸ List.mem_cons_self)
        simp [separated, hc]
    rw [hnone]

-- ---------------------------------------------------------------------------
-- Groups
-- ---------------------------------------------------------------------------

/-- Groups behind a group. -/
def printMore : List (Fin 65536) → List Char
  | [] => []
  | g :: gs => ':' :: (hexadecimal g ++ printMore gs)

theorem printSegments_cons (g : Fin 65536) (gs : List (Fin 65536)) :
    printSegments (g :: gs) = hexadecimal g ++ printMore gs := by
  induction gs generalizing g with
  | nil => simp [printSegments, printMore]
  | cons h gs ih => rw [printSegments, ih, printMore]; simp

/-- The text ends, or the zeros that are left out are next. -/
def Gap (rest : List Char) : Prop := rest = [] ∨ ∃ more, rest = ':' :: ':' :: more

theorem stops_printMore (gs : List (Fin 65536)) {rest : List Char} (h : Gap rest) : Stops 16 (printMore gs ++ rest) := by
  cases gs with
  | nil =>
    rcases h with rfl | ⟨more, rfl⟩
    · exact stops_nil
    · exact stops_cons (by decide)
  | cons g gs => exact stops_cons (by decide)

theorem no_dot_toDigits (n : Nat) : '.' ∉ Nat.toDigits 16 n := fun h =>
  absurd (isDigit_toDigits (by decide) (by decide) '.' h) (by decide)

theorem no_dot_printMore (gs : List (Fin 65536)) : '.' ∉ printMore gs := by
  induction gs with
  | nil => exact List.not_mem_nil
  | cons g gs ih =>
    intro h
    rcases List.mem_cons.mp h with h | h
    · cases h
    · rcases List.mem_append.mp h with h | h
      · exact no_dot_toDigits g h
      · exact ih h

theorem no_dot_group (g : Fin 65536) (gs : List (Fin 65536)) {rest : List Char} (hdot : '.' ∉ rest) :
    '.' ∉ hexadecimal g ++ (printMore gs ++ rest) := by
  intro hin
  rcases List.mem_append.mp hin with hin | hin
  · exact no_dot_toDigits g hin
  · rcases List.mem_append.mp hin with hin | hin
    · exact no_dot_printMore gs hin
    · exact hdot hin

/-- No group is read where the zeros that are left out are next. -/
theorem readGroups_gap {rest : List Char} (h : Gap rest) (left : Nat) (first : Bool) (hdot : '.' ∉ rest) :
    readGroups left first rest = ([], false, rest) := by
  cases left with
  | zero => rfl
  | succ left =>
    have hnone : ∀ {α : Type} {read : List Char → Option (α × List Char)},
        read [] = none → (∀ cs, read (':' :: cs) = none) → separated ':' first read rest = none := by
      intro α read hnil hcons
      rcases h with rfl | ⟨more, rfl⟩
      · cases first
        · rfl
        · exact hnil
      · cases first
        · exact hcons _
        · exact hcons _
    have hgroup : separated ':' first readGroup rest = none :=
      hnone (readNumber_stops stops_nil) fun cs => readNumber_stops (stops_cons (by decide))
    have hipv4 : separated ':' first readIpv4 rest = none := by
      refine hnone (readIpv4_no_dot List.not_mem_nil) fun cs => ?_
      unfold readIpv4
      simp only [separated, ↓reduceIte, readOctet, readNumber_stops (stops_cons (by decide : isDigit 10 ':' = false))]
    unfold readGroups
    simp only [hipv4, hgroup, ite_self]

theorem readGroups_more (gs : List (Fin 65536)) (left : Nat) (hleft : gs.length ≤ left) {rest : List Char}
    (h : Gap rest) (hdot : '.' ∉ rest) : readGroups left false (printMore gs ++ rest) = (gs, false, rest) := by
  induction gs generalizing left with
  | nil => exact readGroups_gap h left false hdot
  | cons g gs ih =>
    cases left with
    | zero => cases hleft
    | succ left =>
      have hno := no_dot_group g gs hdot
      have hgroup := readGroup_hexadecimal g (stops_printMore gs h)
      unfold readGroups
      simp only [printMore, List.cons_append, List.append_assoc, separated, ↓reduceIte, Bool.false_eq_true,
        readIpv4_no_dot hno, hgroup, ite_self, ih left (Nat.le_of_succ_le_succ hleft)]

/-- Groups are read as they were printed. -/
theorem readGroups_print (gs : List (Fin 65536)) (left : Nat) (hleft : gs.length ≤ left) {rest : List Char}
    (h : Gap rest) (hdot : '.' ∉ rest) : readGroups left true (printSegments gs ++ rest) = (gs, false, rest) := by
  cases gs with
  | nil => exact readGroups_gap h left true hdot
  | cons g gs =>
    cases left with
    | zero => cases hleft
    | succ left =>
      have hno := no_dot_group g gs hdot
      have hgroup := readGroup_hexadecimal g (stops_printMore gs h)
      unfold readGroups
      simp only [printSegments_cons, List.append_assoc, separated, ↓reduceIte, readIpv4_no_dot hno, hgroup, ite_self,
        readGroups_more gs left (Nat.le_of_succ_le_succ hleft) h hdot]

-- ---------------------------------------------------------------------------
-- Runs of zeros
-- ---------------------------------------------------------------------------

/-- The segments of the span are zero. -/
def Zero (segments : List (Fin 65536)) (span : Span) : Prop :=
  ∀ i, span.start ≤ i → i < span.start + span.len → segments[i]? = some 0

/-- What the search knows at segment `k`: both runs are zero, the current one ends here. -/
structure Searched (segments : List (Fin 65536)) (k : Nat) (spans : Span × Span) : Prop where
  longest : Zero segments spans.1
  current : Zero segments spans.2
  ends : spans.2.len ≠ 0 → spans.2.start + spans.2.len = k

theorem Searched.step {segments : List (Fin 65536)} {k : Nat} {spans : Span × Span} {g : Fin 65536}
    (h : Searched segments k spans) (hg : segments[k]? = some g) :
    Searched segments (k + 1) (spanStep spans (g, k)) := by
  unfold spanStep
  split
  · next hzero =>
    have hzero : segments[k]? = some 0 := hg.trans (congrArg some hzero)
    have hcurrent : Zero segments ⟨if spans.2.len = 0 then k else spans.2.start, spans.2.len + 1⟩ := by
      intro i hstart hend
      by_cases hlen : spans.2.len = 0
      · simp only [hlen, ↓reduceIte] at hstart hend
        obtain rfl : i = k := by omega
        exact hzero
      · have hends := h.ends hlen
        simp only [hlen, ↓reduceIte] at hstart hend
        by_cases hi : i = k
        · exact hi ▸ hzero
        · exact h.current i hstart (by omega)
    have hlonger : ∀ current, Zero segments current →
        Zero segments (if spans.1.len < current.len then current else spans.1) := by
      intro current hzero
      split
      · exact hzero
      · exact h.longest
    refine ⟨hlonger _ hcurrent, hcurrent, ?_⟩
    · intro _
      show (if spans.2.len = 0 then k else spans.2.start) + (spans.2.len + 1) = k + 1
      split
      · omega
      · next hlen =>
        have := h.ends hlen
        omega
  · refine ⟨h.longest, ?_, fun hlen => absurd rfl hlen⟩
    intro i _ hend
    exact absurd hend (Nat.not_lt.mpr (by assumption))

theorem Searched.run {segments rest : List (Fin 65536)} {k : Nat} {spans : Span × Span} (h : Searched segments k spans)
    (hrest : segments.drop k = rest) :
    ∃ k', Searched segments k' ((rest.zipIdx k).foldl spanStep spans) := by
  induction rest generalizing k spans with
  | nil => exact ⟨k, h⟩
  | cons g rest ih =>
    have hg : segments[k]? = some g := by
      have := congrArg (fun l : List (Fin 65536) => l[0]?) hrest
      simpa using this
    have hdrop : segments.drop (k + 1) = rest := by
      rw [← List.drop_drop, hrest]
      rfl
    rw [List.zipIdx_cons, List.foldl_cons]
    exact ih (h.step hg) hdrop

theorem zeroes_zero (segments : List (Fin 65536)) : Zero segments (zeroes segments) := by
  have hnone : Zero segments ⟨0, 0⟩ := fun i _ hend => absurd hend (Nat.not_lt_zero i)
  have hstart : Searched segments 0 (⟨0, 0⟩, ⟨0, 0⟩) := ⟨hnone, hnone, fun h => absurd rfl h⟩
  obtain ⟨k, h⟩ := hstart.run rfl
  exact h.longest

/-- The segments around a run of zeros. -/
theorem zero_split {segments : List (Fin 65536)} {span : Span} (h : Zero segments span) (hpos : 0 < span.len) :
    span.start + span.len ≤ segments.length ∧
      segments = segments.take span.start ++ List.replicate span.len 0 ++ segments.drop (span.start + span.len) := by
  have hle : span.start + span.len ≤ segments.length := by
    have hlast := h (span.start + span.len - 1) (by omega) (by omega)
    obtain ⟨hlt, -⟩ := List.getElem?_eq_some_iff.mp hlast
    omega
  have hrun : (segments.drop span.start).take span.len = List.replicate span.len 0 := by
    rw [List.eq_replicate_iff]
    constructor
    · rw [List.length_take, List.length_drop]
      omega
    · intro g hg
      obtain ⟨i, hi, rfl⟩ := List.mem_iff_getElem.mp hg
      have hlen : i < span.len := by
        rw [List.length_take] at hi
        omega
      have hzero := h (span.start + i) (by omega) (by omega)
      rw [List.getElem_take, List.getElem_drop]
      exact (List.getElem?_eq_some_iff.mp hzero).2
  refine ⟨hle, ?_⟩
  rw [← hrun, List.append_assoc, ← List.drop_drop, List.take_append_drop, List.take_append_drop]

-- ---------------------------------------------------------------------------
-- Version 6
-- ---------------------------------------------------------------------------

theorem mapped_eq {segments : List (Fin 65536)} {w : Ipv4} (h : mapped segments = some w) :
    segments = [0, 0, 0, 0, 0, 0xffff] ++ w.segments := by
  unfold mapped at h
  split at h
  · next x y =>
    obtain rfl := Option.some.inj h
    have hpair : ∀ n : Fin 65536, pair ⟨n.val / 256, by omega⟩ ⟨n.val % 256, by omega⟩ = n := by
      intro n
      apply Fin.ext
      exact Nat.div_add_mod' n.val 256
    simp [Ipv4.segments, hpair]
  · cases h

/-- The address behind `::ffff:`. -/
theorem readGroups_mapped (w : Ipv4) :
    readGroups 7 true ("ffff:".toList ++ printIpv4 w) = (0xffff :: w.segments, true, []) := by
  have hgroup : readGroup ("ffff".toList ++ ':' :: printIpv4 w) = some (0xffff, ':' :: printIpv4 w) :=
    readGroup_hexadecimal 0xffff (stops_cons (by decide))
  have hfirst : readIpv4 ("ffff".toList ++ ':' :: printIpv4 w) = none := by
    unfold readIpv4
    have : readOctet ("ffff".toList ++ ':' :: printIpv4 w) = none := readNumber_stops (stops_cons (by decide))
    simp only [separated, ↓reduceIte, this]
  have hv : readIpv4 (printIpv4 w) = some (w, []) := by
    have := readIpv4_print w stops_nil
    rwa [List.append_nil] at this
  show readGroups (6 + 1) true ("ffff".toList ++ ':' :: printIpv4 w) = _
  unfold readGroups
  simp only [separated, ↓reduceIte, hfirst, hgroup, ite_self]
  show (let more := readGroups (5 + 1) false (':' :: printIpv4 w); (0xffff :: more.1, more.2)) = _
  unfold readGroups
  simp only [separated, ↓reduceIte, Bool.false_eq_true, hv]
  rfl

theorem readSegments_print (v : Ipv6) : readSegments (printIpv6 v) = some (v.segments, []) := by
  unfold printIpv6
  split
  · next w hw =>
    have hgap : readGroups 8 true ("::ffff:".toList ++ printIpv4 w) = ([], false, "::ffff:".toList ++ printIpv4 w) := by
      show readGroups (7 + 1) true (':' :: (":ffff:".toList ++ printIpv4 w)) = _
      have hipv4 : readIpv4 (':' :: (":ffff:".toList ++ printIpv4 w)) = none := by
        unfold readIpv4
        have : readOctet (':' :: (":ffff:".toList ++ printIpv4 w)) = none := readNumber_stops (stops_cons (by decide))
        simp only [separated, ↓reduceIte, this]
      have hgroup : readGroup (':' :: (":ffff:".toList ++ printIpv4 w)) = none := readNumber_stops (stops_cons (by decide))
      unfold readGroups
      simp only [separated, ↓reduceIte, hipv4, hgroup, ite_self]
      rfl
    unfold readSegments
    rw [hgap]
    show (let tail := readGroups 7 true ("ffff:".toList ++ printIpv4 w)
      some ([] ++ List.replicate (8 - 0 - tail.1.length) 0 ++ tail.1, tail.2.2)) = _
    rw [readGroups_mapped, mapped_eq hw]
    rfl
  · simp only
    split
    · next hlong =>
      obtain ⟨hle, hsplit⟩ := zero_split (zeroes_zero v.segments) (by omega)
      have height := v.eight
      generalize zeroes v.segments = span at hlong hle hsplit
      have hhead : (v.segments.take span.start).length = span.start := by
        rw [List.length_take]
        omega
      have htail : (v.segments.drop (span.start + span.len)).length = 8 - span.start - span.len := by
        rw [List.length_drop]
        omega
      have hdots : '.' ∉ ':' :: ':' :: printSegments (v.segments.drop (span.start + span.len)) := by
        cases v.segments.drop (span.start + span.len) with
        | nil => decide
        | cons g gs =>
          have := no_dot_group g gs (List.not_mem_nil : '.' ∉ ([] : List Char))
          simpa [printSegments_cons] using this
      have hrest := readGroups_print (v.segments.drop (span.start + span.len)) (8 - (span.start + 1)) (by omega)
        (.inl rfl : Gap []) List.not_mem_nil
      rw [List.append_nil] at hrest
      unfold readSegments
      rw [readGroups_print _ 8 (by omega) (.inr ⟨_, rfl⟩) hdots]
      have hne : ¬ span.start = 8 := by omega
      simp only [hhead, hne, ↓reduceIte, Bool.false_eq_true, hrest, htail]
      have hzeros : 8 - span.start - (8 - span.start - span.len) = span.len := by omega
      rw [hzeros, ← hsplit]
    · have hall := readGroups_print v.segments 8 v.eight.le (.inl rfl : Gap []) List.not_mem_nil
      rw [List.append_nil] at hall
      unfold readSegments
      rw [hall]
      simp only [v.eight, ↓reduceIte]

theorem parseIpv6_print (v : Ipv6) : parseIpv6 (String.ofList (printIpv6 v)) = some v := by
  unfold parseIpv6
  rw [String.toList_ofList, readSegments_print]
  simp only [v.eight, ↓reduceDIte]

theorem parseIp_print_v4 (v : Ipv4) : parseIp (String.ofList (printIpv4 v)) = some (.v4 v) := by
  have := readIpv4_print v stops_nil
  rw [List.append_nil] at this
  unfold parseIp
  rw [String.toList_ofList, this]
  rfl

-- ---------------------------------------------------------------------------
-- Characters
-- ---------------------------------------------------------------------------

theorem printIpv4_chars (v : Ipv4) : ∀ c ∈ printIpv4 v, isDigit 10 c = true ∨ c = '.' := by
  intro c hc
  have hdigit : ∀ n : Fin 256, c ∈ decimal n → isDigit 10 c = true := fun n => isDigit_toDigits (by decide) (by decide) c
  simp only [printIpv4, List.mem_append, List.mem_cons] at hc
  rcases hc with h | rfl | h | rfl | h | rfl | h
  · exact .inl (hdigit _ h)
  · exact .inr rfl
  · exact .inl (hdigit _ h)
  · exact .inr rfl
  · exact .inl (hdigit _ h)
  · exact .inr rfl
  · exact .inl (hdigit _ h)

theorem dot_mem_printIpv4 (v : Ipv4) : '.' ∈ printIpv4 v := by
  unfold printIpv4
  simp

theorem printSegments_chars (gs : List (Fin 65536)) : ∀ c ∈ printSegments gs, isDigit 16 c = true ∨ c = ':' := by
  have hmore : ∀ gs, ∀ c ∈ printMore gs, isDigit 16 c = true ∨ c = ':' := by
    intro gs
    induction gs with
    | nil =>
      intro c hc
      cases hc
    | cons g gs ih =>
      intro c hc
      rcases List.mem_cons.mp hc with rfl | hc
      · exact .inr rfl
      · rcases List.mem_append.mp hc with hc | hc
        · exact .inl (isDigit_toDigits (by decide) (by decide) c hc)
        · exact ih c hc
  intro c hc
  cases gs with
  | nil => cases hc
  | cons g gs =>
    rw [printSegments_cons] at hc
    rcases List.mem_append.mp hc with hc | hc
    · exact .inl (isDigit_toDigits (by decide) (by decide) c hc)
    · exact hmore gs c hc

theorem isDigit_mono {c : Char} (h : isDigit 10 c = true) : isDigit 16 c = true := by
  have := of_decide_eq_true h
  exact decide_eq_true (by omega)

theorem printIpv6_chars (v : Ipv6) : ∀ c ∈ printIpv6 v, isDigit 16 c = true ∨ c = '.' ∨ c = ':' := by
  intro c hc
  have hsegments : ∀ gs, c ∈ printSegments gs → isDigit 16 c = true ∨ c = '.' ∨ c = ':' :=
    fun gs h => (printSegments_chars gs c h).imp_right .inr
  unfold printIpv6 at hc
  split at hc
  · next w _ =>
    rcases List.mem_append.mp hc with hc | hc
    · have hmark : ("::ffff:".toList.all fun c => isDigit 16 c || c = ':') = true := by decide
      have hc := List.all_eq_true.mp hmark c hc
      rw [Bool.or_eq_true, decide_eq_true_eq] at hc
      exact hc.imp_right .inr
    · rcases printIpv4_chars w c hc with h | h
      · exact .inl (isDigit_mono h)
      · exact .inr (.inl h)
  · simp only at hc
    split at hc
    · rcases List.mem_append.mp hc with hc | hc
      · exact hsegments _ hc
      · rcases List.mem_cons.mp hc with rfl | hc
        · exact .inr (.inr rfl)
        · rcases List.mem_cons.mp hc with rfl | hc
          · exact .inr (.inr rfl)
          · exact hsegments _ hc
    · exact hsegments _ hc

theorem colon_mem_printIpv6 (v : Ipv6) : ':' ∈ printIpv6 v := by
  unfold printIpv6
  split
  · exact List.mem_append_left _ (by decide)
  · simp only
    split
    · simp
    · obtain ⟨segments, eight⟩ := v
      match segments, eight with
      | g :: h :: gs, _ => simp [printSegments_cons, printMore]

end RemoteCodex.Wire.Ip
