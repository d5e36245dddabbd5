/-!
# Identities

The texts `Uuid::parse_str` takes: the digits alone, or in groups, and these in
braces or behind `urn:uuid:`.
-/

namespace RemoteCodex.Protocol

def hexDigit (c : Char) : Bool :=
  ('0' ≤ c && c ≤ '9') || ('a' ≤ c && c ≤ 'f') || ('A' ≤ c && c ≤ 'F')

def simpleUuid (text : List Char) : Bool := text.length = 32 && text.all hexDigit

def hyphenatedUuid (text : List Char) : Bool :=
  text.length = 36 && text.zipIdx.all fun (c, i) => if i ∈ [8, 13, 18, 23] then c = '-' else hexDigit c

def URN : List Char := ['u', 'r', 'n', ':', 'u', 'u', 'i', 'd', ':']

def parseUuid (text : String) : Bool :=
  let text := text.toList
  simpleUuid text || hyphenatedUuid text ||
    (text.head? = some '\x7b' && text.getLast? = some '\x7d' && hyphenatedUuid text.tail.dropLast) ||
    (text.take URN.length = URN && hyphenatedUuid (text.drop URN.length))

example : parseUuid "67e55044-10b1-426f-9247-bb680e5fe0c8" = true := by decide

/-- The second character of an identity is a digit, unless the first one is a brace or a `u`. -/
theorem hexDigit_of_parseUuid {text : String} {a b : Char} {rest : List Char} (h : parseUuid text = true)
    (htext : text.toList = a :: b :: rest) : hexDigit b = true ∨ a = '\x7b' ∨ a = 'u' := by
  simp only [parseUuid, htext, Bool.or_eq_true, Bool.and_eq_true] at h
  rcases h with ((h | h) | h) | h
  · simp only [simpleUuid, Bool.and_eq_true, List.all_cons] at h
    exact .inl h.2.2.1
  · simp only [hyphenatedUuid, Bool.and_eq_true, List.zipIdx_cons, List.all_cons] at h
    exact .inl (by simpa using h.2.2.1)
  · exact .inr (.inl (by simpa using h.1.1))
  · refine .inr (.inr ?_)
    have := of_decide_eq_true h.1
    exact (List.cons.inj this).1

end RemoteCodex.Protocol
