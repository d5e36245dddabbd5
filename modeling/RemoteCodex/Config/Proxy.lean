import Mathlib.Data.List.TakeWhile
import RemoteCodex.Config.Layer
import RemoteCodex.Wire.Split

/-!
# Credentials in proxy addresses

What a plain proxy setting may name. The parser of addresses is a crate of its
own; `Standard` is what it is relied on for, in the words of the standard: where
the authority of an address is, and which part of it names a user.
-/

namespace RemoteCodex.Config

open Interact Wire

-- ---------------------------------------------------------------------------
-- Addresses
-- ---------------------------------------------------------------------------

/-- What is parsed of an address, with the credentials in it. -/
structure Address extends Url where
  username : String
  password : String
  deriving DecidableEq, Repr

/-- Nothing in the text is dropped by the parser: no control character, no space. -/
def Bare (raw : String) : Prop := ∀ c ∈ raw.toList, ' '.toNat < c.toNat

def schemeText (raw : String) : List Char := raw.toList.takeWhile (· ≠ ':')

def afterScheme (raw : String) : List Char := (raw.toList.dropWhile (· ≠ ':')).drop 1

/-- The special schemes but `file`: any number of slashes may precede the authority. -/
def SPECIAL : List String := ["http", "https", "ftp", "ws", "wss"]

def scheme (raw : String) : String := lower (String.ofList (schemeText raw))

/-- The text of the authority. -/
def authority (raw : String) : List Char :=
  if scheme raw ∈ SPECIAL then
    ((afterScheme raw).dropWhile fun c => c = '/' || c = '\\').takeWhile fun c => !(['/', '\\', '?', '#'].contains c)
  else if ['/', '/'] <+: afterScheme raw then
    ((afterScheme raw).drop 2).takeWhile fun c => !(['/', '?', '#'].contains c)
  else []

/-- What is before the last `@`. -/
def userinfo (authority : List Char) : List Char := ((authority.reverse.dropWhile (· ≠ '@')).drop 1).reverse

def user (info : List Char) : List Char := info.takeWhile (· ≠ ':')

def password (info : List Char) : List Char := (info.dropWhile (· ≠ ':')).drop 1

/-- The userinfo percent-encode set. -/
def isEncoded (c : Char) : Bool :=
  c.toNat ≤ 0x1F || 0x7E < c.toNat || " \"#<>?^`{}/:;=@[\\]|".toList.contains c

def hexDigit (n : Nat) : Char := "0123456789ABCDEF".toList.getD n '0'

/-- UTF-8 percent-encode. -/
def encoded (cs : List Char) : String :=
  String.ofList (cs.flatMap fun c =>
    if isEncoded c then
      (String.utf8EncodeChar c).flatMap fun b => ['%', hexDigit (b.toNat / 16), hexDigit (b.toNat % 16)]
    else [c])

/-- The parser does as the standard prescribes, in what is said of a bare text
whose scheme is not `file`. -/
structure Standard (parse : String → Option Address) : Prop where
  scheme : ∀ raw url, Bare raw → parse raw = some url → url.scheme = scheme raw
  credentials : ∀ raw url, Bare raw → parse raw = some url → url.scheme ≠ "file" →
    url.username = encoded (user (userinfo (authority raw))) ∧
      url.password = encoded (Config.password (userinfo (authority raw)))
  host : ∀ raw url, Bare raw → parse raw = some url → url.scheme ≠ "file" → url.scheme ∉ SPECIAL →
    ¬ ['/', '/'] <+: afterScheme raw → url.host = none

-- ---------------------------------------------------------------------------
-- Credentials
-- ---------------------------------------------------------------------------

theorem encoded_eq_empty {cs : List Char} : encoded cs = "" ↔ cs = [] := by
  constructor
  · intro h
    cases cs with
    | nil => rfl
    | cons c cs =>
      have hlist := congrArg String.toList h
      rw [encoded, String.toList_ofList, List.flatMap_cons] at hlist
      have hhead := (List.append_eq_nil_iff.mp hlist).1
      split at hhead
      · obtain ⟨b, bs, hbytes⟩ := List.exists_cons_of_ne_nil (String.utf8EncodeChar_ne_nil (c := c))
        rw [hbytes, List.flatMap_cons] at hhead
        cases hhead
      · cases hhead
  · rintro rfl
    rfl

theorem no_credentials_iff (info : List Char) :
    user info = [] ∧ Config.password info = [] ↔ info = [] ∨ info = [':'] := by
  cases info with
  | nil => simp [user, password]
  | cons c cs =>
    by_cases hc : c = ':'
    · subst hc
      simp [user, password]
    · simp [user, password, hc]

theorem userinfo_eq_nil {text : List Char} (h : '@' ∉ text) : userinfo text = [] := by
  have hdrop : text.reverse.dropWhile (· ≠ '@') = [] := by
    rw [List.dropWhile_eq_nil_iff]
    intro c hc
    have : c ≠ '@' := fun heq => h (heq ▸ List.mem_reverse.mp hc)
    simpa using this
  rw [userinfo, hdrop]
  rfl

-- ---------------------------------------------------------------------------
-- Where the setting is looked at
-- ---------------------------------------------------------------------------

theorem mem_takeWhile_append {p : α → Bool} {xs ys : List α} (h : a ∈ (xs ++ ys).takeWhile p) :
    a ∈ xs.takeWhile p ∨ a ∈ ys.takeWhile p := by
  rw [List.takeWhile_append] at h
  split at h
  · next hall =>
    rcases List.mem_append.mp h with h | h
    · have hself := (List.takeWhile_prefix p (l := xs)).eq_of_length hall
      exact .inl (hself.symm ▸ h)
    · exact .inr h
  · exact .inl h

/-- The text with a colon in it. -/
theorem toList_afterScheme {raw : String} {c : Char} {cs : List Char} (h : afterScheme raw = c :: cs) :
    raw.toList = schemeText raw ++ ':' :: c :: cs := by
  have hsplit := List.takeWhile_append_dropWhile (p := (· ≠ ':')) (l := raw.toList)
  unfold afterScheme at h
  cases hdrop : raw.toList.dropWhile (· ≠ ':') with
  | nil =>
    rw [hdrop] at h
    cases h
  | cons colon after =>
    have hcolon : colon = ':' := by
      have hhead := List.head_dropWhile_not (p := (· ≠ ':')) (l := raw.toList)
      simp only [hdrop, List.head_cons] at hhead
      simpa using hhead (by simp)
    rw [hdrop, List.drop_one, List.tail_cons] at h
    rw [← hsplit, hdrop, hcolon, h]
    rfl

/-- The text the check for a secret looks at. -/
theorem requiresSecret_authority {name : EnvironmentName} {raw : String} {rest : List Char}
    (hproxy : name.isProxyAddress = true) (hrest : afterScheme raw = '/' :: '/' :: rest)
    (hno : requiresSecret (.environment name) raw = false) : '@' ∉ rest.takeWhile (· ≠ '/') := by
  have hraw : raw.toList = schemeText raw ++ "://".toList ++ rest := by
    rw [toList_afterScheme hrest, List.append_assoc]
    rfl
  have hsplit : (raw.splitOn "://")[1]? = (pieces "://".toList 0 [] rest).head?.map String.ofList := by
    rw [splitOn_eq _ _ (by decide), hraw, pieces_first _ (by decide)]
    · simp [List.head?_eq_getElem?]
    · intro l hl hsuffix hfront
      obtain ⟨c, cs, rfl⟩ := List.exists_cons_of_ne_nil hl
      have hc : c ∈ schemeText raw := hsuffix.subset List.mem_cons_self
      obtain rfl : ':' = c := (List.cons_prefix_cons.mp hfront).1
      simpa using List.mem_takeWhile_imp hc
  obtain ⟨first, hfirst, hwhole⟩ := pieces_head "://".toList [] rest
  obtain ⟨group, hgroup, hwholeGroup⟩ := pieces_head "/".toList [] first
  have hhead : ((String.ofList first).splitOn "/").head? = some (String.ofList group) := by
    have hback : (String.ofList first).toList = first := String.toList_ofList
    rw [splitOn_eq _ _ (by decide), List.head?_map, hback, hgroup]
    rfl
  have hat : '@' ∉ group := by
    simp only [requiresSecret, hproxy, Bool.true_and, Bool.or_eq_false_iff] at hno
    rw [hsplit, hfirst] at hno
    simp only [List.nil_append, Option.map_some, Option.bind_some, hhead, Option.any_some, String.toList_ofList] at hno
    simpa using hno.2
  intro hmem
  have hmem : '@' ∈ first.takeWhile (· ≠ '/') := by
    rcases hwhole with rfl | ⟨more, rfl⟩
    · exact hmem
    · rw [List.append_assoc] at hmem
      rcases mem_takeWhile_append hmem with h | h
      · exact h
      · simp at h
  rcases hwholeGroup with rfl | ⟨more, rfl⟩
  · exact hat (List.takeWhile_prefix _ |>.subset hmem)
  · rw [List.append_assoc] at hmem
    rcases mem_takeWhile_append hmem with h | h
    · exact hat (List.takeWhile_prefix _ |>.subset h)
    · simp at h

/-- Just two slashes are between the scheme and the authority. -/
def TwoSlashes (raw : String) : Prop := ∃ rest, afterScheme raw = '/' :: '/' :: rest ∧ rest.head? ≠ some '/'

/-- What the parser and the check agree on: the address is of a scheme that takes
its slashes as they are, it has just two of them, or its authority names nobody. -/
def Legible (raw : String) : Prop :=
  scheme raw ∉ SPECIAL ∨ TwoSlashes raw ∨ userinfo (authority raw) = [] ∨ userinfo (authority raw) = [':']

/-- What was accepted as the value of a proxy address. -/
structure Accepted (parse : String → Option Address) (raw : String) (url : Address) : Prop where
  parsed : parse raw = some url
  bare : Bare raw
  backslash : '\\' ∉ raw.toList
  scheme : url.scheme ∈ ["http", "https", "socks5", "socks5h"]
  host : url.host ≠ none

variable {parse : String → Option Address} {raw : String} {url : Address}

theorem validateProxy_accepted (h : validateProxy (fun raw => (parse raw).map Address.toUrl) raw = .ok ()) :
    ∃ url, Accepted parse raw url := by
  unfold validateProxy at h
  split at h
  · cases h
  · next hplain =>
    simp only [Bool.or_eq_true, not_or, decide_eq_true_eq, List.any_eq_true, not_exists, not_and] at hplain
    cases hparse : parse raw with
    | none => simp [hparse] at h
    | some url =>
      simp only [hparse, Option.map_some] at h
      split at h
      · cases h
      · next hfields =>
        simp only [Bool.or_eq_true, not_or, Bool.not_eq_true', Bool.not_eq_false, Option.isNone_iff_eq_none,
          List.contains_iff_mem] at hfields
        refine ⟨url, hparse, ?_, ?_, hfields.1.1.1.1.1, hfields.1.1.1.1.2⟩
        · intro c hc
          have hspace := (hplain.1 c hc).1.1
          have hcontrol := (hplain.1 c hc).1.2
          simp only [isWhitespace, isControl, Bool.or_eq_true, Bool.and_eq_true, decide_eq_true_eq, not_or] at hspace hcontrol
          have : ' '.toNat = 0x20 := rfl
          omega
        · exact fun hin => (hplain.1 _ hin).2 rfl

/-- The authority that the parser finds has no `@` if the check found none. -/
theorem userinfo_nil {name : EnvironmentName} (h : Accepted parse raw url) (hstandard : Standard parse)
    (hproxy : name.isProxyAddress = true) (hno : requiresSecret (.environment name) raw = false)
    (hslashes : scheme raw ∉ SPECIAL ∨ TwoSlashes raw) : userinfo (authority raw) = [] := by
  have hscheme := hstandard.scheme raw url h.bare h.parsed
  have hfile : url.scheme ≠ "file" := fun heq => by simpa [heq] using h.scheme
  apply userinfo_eq_nil
  unfold authority
  by_cases hspecial : scheme raw ∈ SPECIAL
  · rw [if_pos hspecial]
    obtain ⟨rest, hrest, hthird⟩ := hslashes.resolve_left (not_not_intro hspecial)
    have hat := requiresSecret_authority hproxy hrest hno
    have hstop : (rest.dropWhile fun c => c = '/' || c = '\\') = rest := by
      cases rest with
      | nil => rfl
      | cons c cs =>
        have hslash : c ≠ '/' := fun heq => hthird (congrArg some heq)
        have hback : c ≠ '\\' := by
          rintro rfl
          apply h.backslash
          rw [toList_afterScheme hrest]
          simp
        simp [hslash, hback]
    rw [hrest]
    intro hmem
    apply hat
    simp only [List.dropWhile_cons, hstop, decide_true, Bool.true_or, ↓reduceIte] at hmem
    have hfront : (rest.takeWhile fun c => !(['/', '\\', '?', '#'].contains c)) =
        (rest.takeWhile (· ≠ '/')).takeWhile fun c => !(['/', '\\', '?', '#'].contains c) := by
      rw [List.takeWhile_takeWhile]
      congr 1
      funext c
      by_cases hc : c = '/'
      · simp [hc]
      · simp [hc]
    rw [hfront] at hmem
    exact (List.takeWhile_prefix _).subset hmem
  · rw [if_neg hspecial]
    split
    · next hstart =>
      obtain ⟨rest, hrest⟩ := hstart
      have hat := requiresSecret_authority hproxy hrest.symm hno
      rw [← hrest]
      intro hmem
      apply hat
      have hfront : (rest.takeWhile fun c => !(['/', '?', '#'].contains c)) =
          (rest.takeWhile (· ≠ '/')).takeWhile fun c => !(['/', '?', '#'].contains c) := by
        rw [List.takeWhile_takeWhile]
        congr 1
        funext c
        by_cases hc : c = '/'
        · simp [hc]
        · simp [hc]
      rw [show (['/', '/'] ++ rest).drop 2 = rest from rfl, hfront] at hmem
      exact (List.takeWhile_prefix _).subset hmem
    · next hstart =>
      exact absurd (hstandard.host raw url h.bare h.parsed hfile (hscheme ▸ hspecial) hstart) h.host

/-- What a plain setting of a proxy address was checked for. -/
theorem set_accepted {layer layer' : ConfigLayer} {key : String} {name : EnvironmentName}
    (hkey : ConfigKey.parse key = .ok (.environment name)) (hproxy : name.isProxyAddress = true)
    (h : layer.set (fun raw => (parse raw).map Address.toUrl) key (.plain raw) = .ok layer') :
    (∃ url, Accepted parse raw url) ∧ requiresSecret (.environment name) raw = false := by
  unfold ConfigLayer.set ConfigLayer.writableKey at h
  rw [hkey] at h
  simp only [ConfigKey.writable, ConfigKey.kind, ne_eq, reduceCtorEq, not_false_eq_true, decide_true, ↓reduceIte] at h
  split at h
  · cases h
  · next v hvalue =>
    simp only [Option.isSome_none, Bool.false_and, Bool.false_eq_true, ↓reduceIte, Option.isNone_none, Bool.true_and] at h
    split at h
    · cases h
    · next hplain =>
      refine ⟨?_, eq_false_of_ne_true hplain⟩
      unfold parseValue at hvalue
      split at hvalue
      · cases hvalue
      · simp only [hproxy, ↓reduceIte] at hvalue
        split at hvalue
        · cases hvalue
        · next hvalid => exact validateProxy_accepted hvalid

/-- The address of an accepted plain setting names no user and no password just
if the parser and the check agree on where its authority is, or the authority
names nobody. -/
theorem plain_proxy_anonymous_iff (hstandard : Standard parse) {layer layer' : ConfigLayer} {key : String}
    {name : EnvironmentName} (hkey : ConfigKey.parse key = .ok (.environment name)) (hproxy : name.isProxyAddress = true)
    (hset : layer.set (fun raw => (parse raw).map Address.toUrl) key (.plain raw) = .ok layer') :
    ∃ url, parse raw = some url ∧ (url.username = "" ∧ url.password = "" ↔ Legible raw) := by
  obtain ⟨⟨url, haccepted⟩, hno⟩ := set_accepted hkey hproxy hset
  have hfile : url.scheme ≠ "file" := fun heq => by simpa [heq] using haccepted.scheme
  obtain ⟨huser, hpassword⟩ := hstandard.credentials raw url haccepted.bare haccepted.parsed hfile
  refine ⟨url, haccepted.parsed, ?_⟩
  rw [huser, hpassword, encoded_eq_empty, encoded_eq_empty, no_credentials_iff]
  constructor
  · exact fun h => .inr (.inr h)
  · rintro (h | h | h)
    · exact .inl (userinfo_nil haccepted hstandard hproxy hno (.inl h))
    · exact .inl (userinfo_nil haccepted hstandard hproxy hno (.inr h))
    · exact h

-- ---------------------------------------------------------------------------
-- A third slash
-- ---------------------------------------------------------------------------

def hidden : String := "http:///user:secret@proxy.example:8080"

def hiddenAddress : Address :=
  ⟨⟨"http", some "proxy.example", some 8080, "/", none, none⟩, "user", "secret"⟩

/-- The parser, on this one address. -/
def parseHidden (raw : String) : Option Address := if raw = hidden then some hiddenAddress else none

theorem parseHidden_standard : Standard parseHidden := by
  have hone : ∀ {raw url}, parseHidden raw = some url → raw = hidden ∧ url = hiddenAddress := by
    intro raw url h
    unfold parseHidden at h
    split at h
    · next heq => exact ⟨heq, (Option.some.inj h).symm⟩
    · cases h
  constructor
  · intro raw url _ h
    obtain ⟨rfl, rfl⟩ := hone h
    decide
  · intro raw url _ h _
    obtain ⟨rfl, rfl⟩ := hone h
    decide
  · intro raw url _ h _ hspecial
    obtain ⟨rfl, rfl⟩ := hone h
    exact absurd (by decide) hspecial

def httpsProxy : EnvironmentName := ⟨"https_proxy", parseName_proxy (by decide)⟩

theorem set_hidden : ∃ layer', ConfigLayer.set (fun raw => (parseHidden raw).map Address.toUrl) .empty "env.https_proxy"
    (.plain hidden) = .ok layer' := by
  have hkey : ConfigLayer.writableKey "env.https_proxy" = .ok (.environment httpsProxy) := by decide
  have hsplit : hidden.splitOn "://" = ["http", "/user:secret@proxy.example:8080"] := by
    rw [splitOn_eq _ _ (by decide)]
    decide
  have hvalue : parseValue (fun raw => (parseHidden raw).map Address.toUrl) (.environment httpsProxy) hidden =
      .ok (.text hidden) := by
    have hvalid : validateProxy (fun raw => (parseHidden raw).map Address.toUrl) hidden = .ok () := by
      unfold validateProxy
      rw [hsplit]
      decide
    unfold parseValue
    simp only [hvalid]
    decide
  have hplain : requiresSecret (.environment httpsProxy) hidden = false := by
    have hsensitive : httpsProxy.isSensitive = false := by
      unfold EnvironmentName.isSensitive
      rw [splitOn_eq _ _ (by decide)]
      decide
    unfold requiresSecret
    simp only [hsensitive, hsplit]
    rw [show (["http", "/user:secret@proxy.example:8080"][1]?) = some "/user:secret@proxy.example:8080" from rfl,
      Option.bind_some, splitOn_eq _ _ (by decide)]
    decide
  have hfree : ConfigLayer.conflicts .empty (.environment httpsProxy) "env.https_proxy" (.text hidden) = false := by
    unfold ConfigLayer.conflicts
    simp
  unfold ConfigLayer.set
  rw [hkey]
  simp only [hvalue, hplain]
  simp [hfree]

/-- A third slash hides the authority from the check: the credentials are saved as plain text. -/
theorem plain_proxy_names_user : ∃ (parse : String → Option Address) (layer layer' : ConfigLayer) (key raw : String)
    (name : EnvironmentName) (url : Address), Standard parse ∧ ConfigKey.parse key = .ok (.environment name) ∧
      name.isProxyAddress = true ∧ layer.set (fun raw => (parse raw).map Address.toUrl) key (.plain raw) = .ok layer' ∧
      parse raw = some url ∧ url.username = "user" ∧ url.password = "secret" := by
  obtain ⟨layer', hset⟩ := set_hidden
  exact ⟨parseHidden, .empty, layer', "env.https_proxy", hidden, httpsProxy, hiddenAddress, parseHidden_standard,
    by decide, by decide, hset, rfl, rfl, rfl⟩

theorem plain_proxy_anonymous_iff_hidden :
    ∃ url, parseHidden hidden = some url ∧ (url.username = "" ∧ url.password = "" ↔ Legible hidden) := by
  obtain ⟨layer', hset⟩ := set_hidden
  have hkey : ConfigKey.parse "env.https_proxy" = .ok (.environment httpsProxy) := by decide
  exact plain_proxy_anonymous_iff parseHidden_standard hkey (by decide) hset

end RemoteCodex.Config
