import RemoteCodex.Config.Value
import RemoteCodex.Wire.Ip

/-!
# SSH endpoints

The target of a connection as it is read and printed. A host that is an address
is kept as the address is printed, and in brackets where its colons would not
be told from a port.
-/

namespace RemoteCodex.Connection

open Config Wire Ip

inductive EndpointError
  | invalidTarget
  | invalidPort
  deriving DecidableEq, Repr

structure SshEndpoint where
  host : String
  user : Option String
  port : Option UInt16
  deriving DecidableEq, Repr

def isWordChar (c : Char) : Bool := c.isAlphanum || c = '.' || c = '_' || c = '-'

/-- `valid_word`. -/
def validWord (word : String) : Bool :=
  !word.isEmpty && word.utf8ByteSize ≤ 253 && word.toList.head? ≠ some '-' && word.toList.all isWordChar

/-- `split_once`. -/
def splitOnce (c : Char) (s : String) : Option (String × String) :=
  if c ∈ s.toList then
    some (String.ofList (s.toList.takeWhile (· ≠ c)), String.ofList ((s.toList.dropWhile (· ≠ c)).drop 1))
  else none

/-- `strip_prefix('[')`, then `strip_suffix(']')`. -/
def inBrackets (host : String) : Option String :=
  match host.toList with
  | '[' :: rest => if rest.getLast? = some ']' then some (String.ofList rest.dropLast) else none
  | _ => none

namespace SshEndpoint

/-- The host as it is kept. -/
def parseHost (host : String) : Except EndpointError String :=
  match inBrackets host with
  | some inner =>
    match parseIpv6 inner with
    | some address => .ok (String.ofList (printIpv6 address))
    | none => .error .invalidTarget
  | none =>
    match parseIp host with
    | some address => .ok (String.ofList address.print)
    | none => if validWord host then .ok host else .error .invalidTarget

def parse (target : String) (port : Option UInt16) : Except EndpointError SshEndpoint :=
  if port = some 0 then .error .invalidPort
  else
    match splitOnce '@' target with
    | some (user, host) =>
      if validWord user then
        match parseHost host with
        | .ok host => .ok ⟨host, some user, port⟩
        | .error e => .error e
      else .error .invalidTarget
    | none =>
      match parseHost target with
      | .ok host => .ok ⟨host, none, port⟩
      | .error e => .error e

def destination (endpoint : SshEndpoint) : String :=
  let host := if ':' ∈ endpoint.host.toList then "[" ++ endpoint.host ++ "]" else endpoint.host
  match endpoint.user with
  | some user => user ++ "@" ++ host
  | none => host

def validate (endpoint : SshEndpoint) : Except EndpointError Unit :=
  match parse endpoint.destination endpoint.port with
  | .error e => .error e
  | .ok parsed => if parsed = endpoint then .ok () else .error .invalidTarget

end SshEndpoint

-- ---------------------------------------------------------------------------
-- Hosts
-- ---------------------------------------------------------------------------

/-- What a host is kept as. -/
inductive Host : String → Prop
  | v6 (address : Ipv6) : Host (String.ofList (printIpv6 address))
  | v4 (address : Ipv4) : Host (String.ofList (printIpv4 address))
  | word {word : String} (hip : parseIp word = none) (hword : validWord word = true) : Host word

theorem parseHost_host {text host : String} (h : SshEndpoint.parseHost text = .ok host) : Host host := by
  unfold SshEndpoint.parseHost at h
  split at h
  · split at h
    · next address _ =>
      obtain rfl := Except.ok.inj h
      exact .v6 address
    · cases h
  · split at h
    · next address _ =>
      obtain rfl := Except.ok.inj h
      cases address with
      | v4 address => exact .v4 address
      | v6 address => exact .v6 address
    · next hip =>
      split at h
      · next hword =>
        obtain rfl := Except.ok.inj h
        exact .word hip hword
      · cases h

theorem validWord_chars {word : String} (h : validWord word = true) :
    word ≠ "" ∧ word.toList.head? ≠ some '-' ∧ ∀ c ∈ word.toList, isWordChar c = true := by
  simp only [validWord, Bool.and_eq_true, Bool.not_eq_true', decide_eq_true_eq, List.all_eq_true] at h
  refine ⟨?_, h.1.2, h.2⟩
  rintro rfl
  exact absurd h.1.1.1 (by decide)

/-- What the characters of a host and of a user are. -/
def isHostChar (c : Char) : Bool := isWordChar c || c = ':'

theorem isAlphanum_eq (c : Char) : c.isAlphanum = ((decide (c.val ≥ 'A'.val ∧ c.val ≤ 'Z'.val) ||
    (c.val ≥ 'a'.val && c.val ≤ 'z'.val)) || (c.val ≥ '0'.val && c.val ≤ '9'.val)) := rfl

theorem isHostChar_of_isDigit {c : Char} (h : isDigit 16 c = true) : isHostChar c = true := by
  have h := of_decide_eq_true h
  have halnum : c.isAlphanum = true := by
    simp only [isAlphanum_eq, Bool.or_eq_true,
      Bool.and_eq_true, decide_eq_true_eq, UInt32.le_iff_toNat_le, ge_iff_le]
    unfold digitValue at h
    have hval : c.val.toNat = c.toNat := rfl
    rw [hval]
    split at h
    · right
      simpa using ‹_›
    · split at h
      · left
        right
        simpa using ‹_›
      · split at h
        · left
          left
          simpa using ‹_›
        · omega
  simp [isHostChar, isWordChar, halnum]

/-- A text of an argument: not empty, no option, and of the characters of hosts and users. -/
structure Argument (word : String) : Prop where
  nonempty : word ≠ ""
  option : word.toList.head? ≠ some '-'
  chars : ∀ c ∈ word.toList, isHostChar c = true

theorem argument_of_validWord {word : String} (h : validWord word = true) : Argument word := by
  obtain ⟨hne, hoption, hchars⟩ := validWord_chars h
  refine ⟨hne, hoption, fun c hc => ?_⟩
  simp [isHostChar, hchars c hc]

theorem isHostChar_of_print {c : Char} (h : isDigit 16 c = true ∨ c = '.' ∨ c = ':') : isHostChar c = true ∧ c ≠ '-' := by
  rcases h with h | rfl | rfl
  · refine ⟨isHostChar_of_isDigit h, ?_⟩
    rintro rfl
    exact absurd h (by decide)
  · decide
  · decide

theorem argument_of_print {cs : List Char} {c : Char} (hmem : c ∈ cs)
    (hchars : ∀ c ∈ cs, isDigit 16 c = true ∨ c = '.' ∨ c = ':') : Argument (String.ofList cs) := by
  refine ⟨?_, ?_, ?_⟩
  · intro h
    have hnil := congrArg String.toList h
    rw [String.toList_ofList] at hnil
    rw [hnil] at hmem
    cases hmem
  · rw [String.toList_ofList]
    intro h
    exact (isHostChar_of_print (hchars '-' (List.mem_of_mem_head? h))).2 rfl
  · rw [String.toList_ofList]
    exact fun c hc => (isHostChar_of_print (hchars c hc)).1

theorem printIpv4_print {v : Ipv4} {c : Char} (h : c ∈ printIpv4 v) : isDigit 16 c = true ∨ c = '.' ∨ c = ':' := by
  rcases printIpv4_chars v c h with h | h
  · exact .inl (isDigit_mono h)
  · exact .inr (.inl h)

theorem Host.argument {host : String} (h : Host host) : Argument host := by
  cases h with
  | v6 address => exact argument_of_print (colon_mem_printIpv6 address) (printIpv6_chars address)
  | v4 address => exact argument_of_print (dot_mem_printIpv4 address) fun c hc => printIpv4_print hc
  | word _ hword => exact argument_of_validWord hword

/-- The host as it is printed. -/
def printedHost (host : String) : String := if ':' ∈ host.toList then "[" ++ host ++ "]" else host

theorem inBrackets_brackets (host : String) : inBrackets ("[" ++ host ++ "]") = some host := by
  have hlist : ("[" ++ host ++ "]").toList = '[' :: (host.toList ++ [']']) := by simp
  unfold inBrackets
  rw [hlist]
  simp

theorem inBrackets_argument {host : String} (h : Argument host) : inBrackets host = none := by
  unfold inBrackets
  split
  · next rest heq =>
    have := h.chars '[' (heq ▸ List.mem_cons_self)
    exact absurd this (by decide)
  · rfl

/-- A kept host is read as itself. -/
theorem parseHost_printedHost {host : String} (h : Host host) : SshEndpoint.parseHost (printedHost host) = .ok host := by
  have hnone := inBrackets_argument h.argument
  unfold printedHost SshEndpoint.parseHost
  cases h with
  | v6 address =>
    have hcolon : ':' ∈ (String.ofList (printIpv6 address)).toList := by
      rw [String.toList_ofList]
      exact colon_mem_printIpv6 address
    rw [if_pos hcolon, inBrackets_brackets]
    simp only [parseIpv6_print]
  | v4 address =>
    have hcolon : ':' ∉ (String.ofList (printIpv4 address)).toList := by
      rw [String.toList_ofList]
      intro h
      rcases printIpv4_chars address ':' h with h | h
      · exact absurd h (by decide)
      · exact absurd h (by decide)
    rw [if_neg hcolon, hnone]
    simp only [parseIp_print_v4, IpAddr.print]
  | word hip hword =>
    have hcolon : ':' ∉ host.toList := fun h => absurd ((validWord_chars hword).2.2 ':' h) (by decide)
    rw [if_neg hcolon, hnone]
    simp only [hip, hword, ↓reduceIte]

theorem no_at_printedHost {host : String} (h : Argument host) : '@' ∉ (printedHost host).toList := by
  have hno : '@' ∉ host.toList := fun hin => absurd (h.chars '@' hin) (by decide)
  unfold printedHost
  split
  · simpa using hno
  · exact hno

-- ---------------------------------------------------------------------------
-- Endpoints
-- ---------------------------------------------------------------------------

variable {target : String} {port : Option UInt16} {endpoint : SshEndpoint}

theorem parse_parts (h : SshEndpoint.parse target port = .ok endpoint) :
    port ≠ some 0 ∧ endpoint.port = port ∧ Host endpoint.host ∧ ∀ user ∈ endpoint.user, validWord user = true := by
  unfold SshEndpoint.parse at h
  split at h
  · cases h
  · next hport =>
    refine ⟨hport, ?_⟩
    split at h
    · next user text _ =>
      split at h
      · next hword =>
        split at h
        · next host hhost =>
          obtain rfl := Except.ok.inj h
          refine ⟨rfl, parseHost_host hhost, ?_⟩
          intro u hu
          obtain rfl := Option.some.inj hu
          exact hword
        · cases h
      · cases h
    · split at h
      · next host hhost =>
        obtain rfl := Except.ok.inj h
        refine ⟨rfl, parseHost_host hhost, ?_⟩
        intro u hu
        cases hu
      · cases h

theorem parse_destination (h : SshEndpoint.parse target port = .ok endpoint) :
    SshEndpoint.parse endpoint.destination port = .ok endpoint := by
  obtain ⟨hport, hsame, hhost, huser⟩ := parse_parts h
  obtain ⟨host, user, kept⟩ := endpoint
  obtain rfl : kept = port := hsame
  have hno := no_at_printedHost hhost.argument
  have hparse := parseHost_printedHost hhost
  unfold SshEndpoint.parse
  rw [if_neg hport]
  cases user with
  | none =>
    have hdestination : SshEndpoint.destination ⟨host, none, kept⟩ = printedHost host := rfl
    have hsplit : splitOnce '@' (printedHost host) = none := if_neg hno
    rw [hdestination, hsplit]
    simp only [hparse]
  | some user =>
    have hword := huser user rfl
    have huserAt : '@' ∉ user.toList := fun hin => absurd ((argument_of_validWord hword).chars '@' hin) (by decide)
    have hdestination : SshEndpoint.destination ⟨host, some user, kept⟩ = user ++ "@" ++ printedHost host := rfl
    have hlist : (user ++ "@" ++ printedHost host).toList = user.toList ++ '@' :: (printedHost host).toList := by simp
    have hall : ∀ c ∈ user.toList, decide (c ≠ '@') = true := fun c hc => decide_eq_true fun heq => huserAt (heq ▸ hc)
    have hsplit : splitOnce '@' (user ++ "@" ++ printedHost host) = some (user, printedHost host) := by
      unfold splitOnce
      rw [hlist, if_pos (by simp), List.takeWhile_append_of_pos hall, List.dropWhile_append_of_pos hall]
      simp
    rw [hdestination, hsplit]
    simp only [hword, ↓reduceIte, hparse]

/-- Characters with a meaning of their own to a shell, quotes among them. -/
def SHELL_META : List Char := "|&;<>()$`\\\"'*?[]#~=%!{}^".toList

/-- A text that a shell and a program take as one plain argument. -/
def PlainArgument (word : String) : Prop :=
  word ≠ "" ∧ word.toList.head? ≠ some '-' ∧
    ∀ c ∈ word.toList, isWhitespace c = false ∧ isControl c = false ∧ c ∉ SHELL_META

theorem Argument.plain {word : String} (h : Argument word) : PlainArgument word := by
  refine ⟨h.nonempty, h.option, fun c hc => ?_⟩
  have hchar := h.chars c hc
  have hrange : (0x2D ≤ c.toNat ∧ c.toNat ≤ 0x2E) ∨ (0x30 ≤ c.toNat ∧ c.toNat ≤ 0x3A) ∨
      (0x41 ≤ c.toNat ∧ c.toNat ≤ 0x5A) ∨ c.toNat = 0x5F ∨ (0x61 ≤ c.toNat ∧ c.toNat ≤ 0x7A) := by
    have hval : c.val.toNat = c.toNat := rfl
    simp only [isHostChar, isWordChar, isAlphanum_eq,
      Bool.or_eq_true, Bool.and_eq_true, decide_eq_true_eq, UInt32.le_iff_toNat_le, ge_iff_le, hval] at hchar
    rcases hchar with (((((h | h) | h) | rfl) | rfl) | rfl) | rfl
    · exact .inr (.inr (.inl h))
    · exact .inr (.inr (.inr (.inr h)))
    · exact .inr (.inl ⟨h.1, by have := h.2; simp at this; omega⟩)
    all_goals decide
  refine ⟨?_, ?_, ?_⟩
  · simp only [isWhitespace, Bool.or_eq_false_iff, Bool.and_eq_false_iff, decide_eq_false_iff_not]
    omega
  · simp only [isControl, Bool.or_eq_false_iff, Bool.and_eq_false_iff, decide_eq_false_iff_not]
    omega
  · intro hmeta
    have hno : (SHELL_META.all fun m => !isHostChar m) = true := by decide
    have hc := List.all_eq_true.mp hno c hmeta
    rw [hchar] at hc
    cases hc

/-- An accepted endpoint is read back from how it is printed, is told by that
from every other, and has nothing in it that a shell or a program takes for more
than one argument. -/
theorem endpoint_canonical (h : SshEndpoint.parse target port = .ok endpoint) :
    SshEndpoint.parse endpoint.destination port = .ok endpoint ∧ endpoint.validate = .ok () ∧
      (∀ target' port' endpoint', SshEndpoint.parse target' port' = .ok endpoint' →
        (endpoint.destination = endpoint'.destination ∧ endpoint.port = endpoint'.port ↔ endpoint = endpoint')) ∧
      PlainArgument endpoint.host ∧ ∀ user ∈ endpoint.user, PlainArgument user := by
  obtain ⟨-, hport, hhost, huser⟩ := parse_parts h
  have hback := parse_destination h
  refine ⟨hback, ?_, ?_, hhost.argument.plain, fun user hu => (argument_of_validWord (huser user hu)).plain⟩
  · unfold SshEndpoint.validate
    rw [hport, hback]
    exact if_pos rfl
  · intro target' port' endpoint' h'
    constructor
    · rintro ⟨hdestination, hsame⟩
      have hback' := parse_destination h'
      rw [← (parse_parts h').2.1, ← hsame, hport, ← hdestination, hback] at hback'
      exact Except.ok.inj hback'
    · rintro rfl
      exact ⟨rfl, rfl⟩

theorem endpoint_canonical_mapped : ∃ endpoint, SshEndpoint.parse "root@[::FFFF:10.0.0.1]" (some 22) = .ok endpoint ∧
    SshEndpoint.parse endpoint.destination (some 22) = .ok endpoint := by
  have h : SshEndpoint.parse "root@[::FFFF:10.0.0.1]" (some 22) = .ok ⟨"::ffff:10.0.0.1", some "root", some 22⟩ := by
    decide
  exact ⟨_, h, (endpoint_canonical h).1⟩

end RemoteCodex.Connection
