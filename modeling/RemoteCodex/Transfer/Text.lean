import Mathlib.Data.List.Infix
import RemoteCodex.Transfer.Staging
import RemoteCodex.Wire.Json

/-!
# The linked crates

One way the linked crates may behave: the journal as `serde_json` prints it,
canonical tokens, and a digest that is SHA-256 where it is known here and tells
any other two contents apart as well.
-/

namespace RemoteCodex.Transfer

open Files Wire
open Wire.Json (ascii number)

-- ---------------------------------------------------------------------------
-- The journal
-- ---------------------------------------------------------------------------

def Kind.text : Kind → List UInt8
  | .file => ascii "\"file\""
  | .directory => ascii "\"directory\""
  | .unsupported => ascii "\"unsupported\""

def kindCode : Code UInt8 Kind :=
  .oneOf Kind.text [.file, .directory, .unsupported] fun a rest => by cases a <;> rfl

def boolCode : Code UInt8 Bool :=
  .oneOf (fun b => ascii (if b then "true" else "false")) [true, false] fun a rest => by
    cases a <;> rfl

def comma : Code UInt8 Nat := number 44 rfl

/-- The fields of a stamp, in their order. -/
def stampCode : Code UInt8 Stamp :=
  (((kindCode.after (ascii "\x7b\"kind\":")).seq
    ((comma.after (ascii ",\"length\":")).seq
    ((comma.after (ascii "\"modified_ns\":")).seq
    ((comma.after (ascii "\"device\":")).seq
    ((comma.after (ascii "\"inode\":")).seq
    ((number 125 rfl).after (ascii "\"mode\":"))))))).image
    (fun (kind, length, modifiedNs, device, inode, mode) =>
      ({ kind, length, modifiedNs, device, inode, mode } : Stamp))
    (fun s => (s.kind, s.length, s.modifiedNs, s.device, s.inode, s.mode)) fun _ => rfl)

def optionalStampCode : Code UInt8 (Option Stamp) :=
  stampCode.orElse (ascii "null") fun _ _ h => by
    obtain ⟨r, h⟩ := h
    cases h

def optionalStringCode : Code UInt8 (Option String) :=
  Json.string.orElse (ascii "null") fun _ _ h => by
    obtain ⟨r, h⟩ := h
    cases h

def journalCode : Code UInt8 Journal :=
  ((((Json.string.after (ascii "\x7b\"owner\":")).seq
    ((Json.string.after (ascii ",\"path\":")).seq
    ((stampCode.after (ascii ",\"source\":")).seq
    ((optionalStampCode.after (ascii ",\"expected\":")).seq
    ((comma.after (ascii ",\"offset\":")).seq
    ((optionalStringCode.after (ascii "\"digest\":")).seq
    ((boolCode.after (ascii ",\"committed\":")).before (ascii "\x7d")))))))).image
    (fun (owner, path, source, expected, offset, digest, committed) =>
      ({ owner, path, source, expected, offset, digest, committed } : Journal))
    (fun j => (j.owner, j.path, j.source, j.expected, j.offset, j.digest, j.committed)) fun _ => rfl))

-- ---------------------------------------------------------------------------
-- Tokens and digests
-- ---------------------------------------------------------------------------

/-- Tokens in the hyphenated form. -/
def canonicalToken (token : String) : Option String :=
  let cs := token.toList.map Char.toLower
  let groups := cs.splitOn '-'
  if groups.map List.length = [8, 4, 4, 4, 12] &&
      groups.all (·.all fun ch => ch.isDigit || ('a' ≤ ch && ch ≤ 'f')) then
    some (String.ofList cs)
  else none

def knownDigests : List (Bytes × String) :=
  [([], "e3b0c44298fc1c149afbf4c8996fb92427ae41e4649b934ca495991b7852b855"),
   (ascii "x", "2d711642b726b04401627ca9fbac32f5c8530fb1903cc4db02258717921a4881")]

def digestText (bytes : Bytes) : String :=
  (knownDigests.lookup bytes).getD (String.ofList (bytes.map fun b => Char.ofNat b.toNat))

def linked : Crates where
  digest := digestText
  uuid := canonicalToken
  toJson := journalCode.put
  fromJson b := match journalCode.decode b with
    | some j => .ok j
    | none => .error "EOF while parsing an object"

theorem linked_lawful : linked.Lawful where
  fromJson_toJson j := by simp [linked, journalCode.decode_put]
  fromJson_cut j n hn := ⟨"EOF while parsing an object", by
    simp only [linked] at hn ⊢
    rw [journalCode.decode_cut j hn]⟩
  toJson_committed j := by
    have hbool : (boolCode.put true).length ≤ (boolCode.put j.committed).length := by
      cases j.committed <;> decide
    simp only [linked, journalCode, Code.image, Code.seq, Code.after, Code.before, List.length_append]
    omega

/-- What a journal takes, but for its path. -/
theorem length_toJson_path (j : Journal) {path : String} (h : (Json.string.put path).length = n + 2) :
    (linked.toJson { j with path := path }).length = (linked.toJson { j with path := "" }).length + n := by
  have hempty : (Json.string.put "").length = 2 := by decide
  simp only [linked, journalCode, Code.image, Code.seq, Code.after, Code.before, List.length_append]
  omega

-- ---------------------------------------------------------------------------
-- A small tree
-- ---------------------------------------------------------------------------

def someToken : String := "00000000-0000-4000-8000-000000000000"

def someStage : String := ".remote-codex-transfer-00000000-0000-4000-8000-000000000000"

/-- An empty directory. -/
def emptyRoot : Disk where
  nodes := AList.singleton [] ⟨⟨1, 1, 0o755, 0, 0, 0⟩, .directory⟩
  device := 1
  inode := 2
  now := (1, 0)
  held := []

theorem emptyRoot_get {q : Path} (h : q ≠ []) : emptyRoot.get q = none := by
  have hnodes : emptyRoot.nodes = AList.insert [] ⟨⟨1, 1, 0o755, 0, 0, 0⟩, .directory⟩ ∅ :=
    (AList.insert_empty [] _).symm
  rw [Disk.get, hnodes, AList.lookup_insert_ne h, AList.lookup_empty]

def someDirectory : Node := ⟨⟨1, 1, 0o755, 0, 0, 0⟩, .directory⟩

/-- A tree of nothing but the directories on the way to `dir`. -/
def treeTo (dir : Path) : Disk := dir.inits.foldl (fun d q => d.put q someDirectory) emptyRoot

theorem treeTo_get (dir q : Path) :
    (treeTo dir).get q = if q <+: dir then some someDirectory else none := by
  have hput : ∀ (qs : List Path) (d : Disk), (qs.foldl (fun d q => d.put q someDirectory) d).get q =
      if q ∈ qs then some someDirectory else d.get q := by
    intro qs
    induction qs with
    | nil => simp
    | cons r qs ih =>
      intro d
      rw [List.foldl_cons, ih, Disk.get_put]
      by_cases hr : q = r <;> simp [hr]
  rw [treeTo, hput]
  simp only [List.mem_inits]
  split
  · rfl
  · next hq => exact emptyRoot_get fun h => hq (h ▸ List.nil_prefix)

theorem treeTo_held (dir : Path) : (treeTo dir).held = [] := by
  have hput : ∀ (qs : List Path) (d : Disk), (qs.foldl (fun d q => d.put q someDirectory) d).held = d.held := by
    intro qs
    induction qs with
    | nil => exact fun _ => rfl
    | cons r qs ih => exact fun d => ih _
  exact hput _ _

/-- A source of one byte. -/
def oneByte : Stamp := ⟨.file, 1, 0, 9, 9, 0o644⟩

def someOwner : Endpoint := ⟨"local", false⟩

/-- The tree after a command nobody disturbs. -/
def ran (cmd : Command) (bytes : Bytes) (s : Disk) : Disk :=
  ((dispatch linked someOwner cmd bytes).run.run machine s).2

/-- The commands that bring the one byte to `a`. -/
def preparing : Command := .prepare "a" someToken oneByte none

def writing : Command := .write "a" someToken 0 (digestText (ascii "x"))

def committing : Command := .commit "a" someToken (digestText (ascii "x"))

def cancelling : Command := .cancel "a" someToken

/-- The journal after a write, as it stands in the small tree. -/
def someJournal : Journal :=
  { owner := "local", path := "a", source := oneByte, expected := none, offset := 1, digest := none,
    committed := false }

/-- The tree with an upload staged in it. -/
def staged (inode : Nat) (j : Journal) (data : Bytes) : Disk :=
  { emptyRoot with
    nodes := ⟨[⟨[someStage, "state.json"], ⟨⟨1, inode, 0o600, 1, 0, 0⟩, .file (linked.toJson j)⟩⟩,
      ⟨[someStage, "data"], ⟨⟨1, 4, 0o600, 1, 0, 0⟩, .file data⟩⟩,
      ⟨[someStage, "lock"], ⟨⟨1, 3, 0o600, 1, 0, 0⟩, .file []⟩⟩,
      ⟨[someStage], ⟨⟨1, 2, 0o700, 1, 0, 0⟩, .directory⟩⟩,
      ⟨[], ⟨⟨1, 1, 0o755, 0, 0, 0⟩, .directory⟩⟩], by
        have hpaths : ([[someStage, "state.json"], [someStage, "data"], [someStage, "lock"], [someStage], []] :
            List Path).Nodup := by decide
        exact hpaths⟩
    inode := inode + 1 }

theorem Disk.eq_of_entries {d d' : Disk} (h : d.nodes.entries = d'.nodes.entries ∧ d.device = d'.device ∧
    d.inode = d'.inode ∧ d.now = d'.now ∧ d.held = d'.held) : d = d' := by
  obtain ⟨nodes, device, inode, now, held⟩ := d
  obtain ⟨hnodes, rfl, rfl, rfl, rfl⟩ := h
  have hnodes : nodes = d'.nodes := AList.ext hnodes
  rw [hnodes]

theorem ran_preparing : ran preparing [] emptyRoot = staged 5 { someJournal with offset := 0 } [] :=
  Disk.eq_of_entries (by decide +kernel)

theorem ran_writing :
    ran writing (ascii "x") (staged 5 { someJournal with offset := 0 } []) = staged 6 someJournal (ascii "x") :=
  Disk.eq_of_entries (by decide +kernel)

end RemoteCodex.Transfer
