import RemoteCodex.Transfer.LookLaws
import RemoteCodex.Transfer.Staging

/-!
# What an upload command may do to the tree

`Change` lists every change `prepare`, `write`, `commit` and `cancel` make,
each with what the command knows of the tree at that moment. That no other
change happens, in any of their steps or in a step that is cut short, is proved
in `CommandLaws`; what an upload keeps over whole runs follows from this list.
-/

namespace RemoteCodex.Transfer

open Files Interact

/-- Where an upload takes place: the destination's directory and name, and the
name of the staging directory beside it. -/
structure Site where
  parent : Path
  target : String
  stage : String
  deriving DecidableEq, Repr

def Site.dir (p : Site) : Path := p.parent ++ [p.stage]

def Site.dest (p : Site) : Path := p.parent ++ [p.target]

def Site.inner (p : Site) (name : String) : Path := p.dir ++ [name]

def Command.site (c : Crates) : Command → Option Site
  | .prepare path token .. | .write path token .. | .commit path token _ | .cancel path token => do
    let (dir, target) ← place path
    let id ← c.uuid token
    some ⟨dir, target, stageName id⟩
  | _ => none

/-- The journal a command would read in the staging directory `dir`. -/
def Reads (c : Crates) (s : Disk) (dir : Path) (j : Journal) : Prop :=
  ∃ b, s.file? (dir ++ ["state.json"]) = some b ∧ c.fromJson (b.take 16384) = .ok j

/-- The journal that was saved last, whether it can be read back or not. -/
def Holds (c : Crates) (s : Disk) (dir : Path) (j : Journal) : Prop :=
  Reads c s dir j ∨ s.file? (dir ++ ["state.json"]) = some (c.toJson j)

/-- The staging directory can be entered and its lock taken. -/
structure Entered (p : Site) (s : Disk) : Prop where
  walks : Walks s [] p.parent
  dir : s.isDirectory p.dir = true
  lock : s.free (p.inner "lock") = true
  unlocked : p.inner "lock" ∉ s.held

/-- The journals a command may save in a tree `a`. -/
inductive Due (c : Crates) (e : Endpoint) (cmd : Command) (payload : Bytes) (p : Site) (a : Disk) :
    Journal → Prop
  | initial : cmd = .prepare path token src expected → src.kind = .file →
      a.get (p.inner "state.json") = none → a.file? (p.inner "data") = some [] →
      Due c e cmd payload p a ⟨e.owner, path, src, expected, 0, none, false⟩
  | advance : cmd = .write path token j.offset digest → Reads c a p.dir j → j.committed = false →
      payload ≠ [] → j.offset + payload.length ≤ j.source.length →
      a.file? (p.inner "data") = some d → (d.drop j.offset).take payload.length = payload →
      Due c e cmd payload p a { j with offset := j.offset + payload.length }
  | sealed : cmd = .commit path token digest → Reads c a p.dir j → j.offset = j.source.length →
      a.file? (p.inner "data") = some d → c.digest d = digest →
      Due c e cmd payload p a { j with digest := some digest }
  | confirm : Holds c a p.dir j → j.digest.isSome = true → a.get (p.inner "data") = none →
      Due c e cmd payload p a { j with committed := true }

/-- The changes of a command that was started in `s₀`. -/
inductive Change (c : Crates) (e : Endpoint) (cmd : Command) (payload : Bytes) (s₀ : Disk)
    (p : Site) : Op → Disk → Disk → Prop
  | folder : a.get p.dir = none ∨ a.isDirectory p.dir = true → Same [p.dir] a b →
      b.isDirectory p.dir = true → Change c e cmd payload s₀ p op a b
  | scratch : n ∈ ["lock", "next.json"] → a.isDirectory p.dir = true →
      Same [p.inner n] a b → b.file? (p.inner n) = some x → Change c e cmd payload s₀ p op a b
  | empty : cmd = .prepare path token src expected → a.isDirectory p.dir = true →
      a.get (p.inner "state.json") = none → Same [p.inner "data"] a b →
      b.file? (p.inner "data") = some [] → Change c e cmd payload s₀ p op a b
  | save : Due c e cmd payload p a j → a.isDirectory p.dir = true →
      Same [p.inner "next.json", p.inner "state.json"] a b → b.get (p.inner "next.json") = none →
      b.file? (p.inner "state.json") = some (c.toJson j) → Change c e cmd payload s₀ p op a b
  | extend : cmd = .write path token j.offset digest → Reads c a p.dir j → j.committed = false →
      j.offset + payload.length ≤ j.source.length → a.file? (p.inner "data") = some old →
      Same [p.inner "data"] a b →
      b.file? (p.inner "data") = some (splice old j.offset (payload.take k)) →
      Change c e cmd payload s₀ p op a b
  | cut : Holds c a p.dir j → a.file? (p.inner "data") = some old → j.offset ≤ old.length →
      Same [p.inner "data"] a b → b.file? (p.inner "data") = some (old.take j.offset) →
      Change c e cmd payload s₀ p op a b
  | touch : a.file? (p.inner "data") = some old → Same [p.inner "data"] a b →
      b.file? (p.inner "data") = some old → Change c e cmd payload s₀ p op a b
  | publish : cmd = .commit path token digest → Entered p a → a.get (p.inner "next.json") = none →
      Reads c s₀ p.dir j →
      a.file? (p.inner "state.json") = some (c.toJson { j with digest := some digest }) →
      j.owner = e.owner → j.path = path → j.offset = j.source.length → a.get (p.inner "data") = some ⟨attr, .file d⟩ →
      c.digest d = digest → stampAt a p.dest = j.expected → a.isDirectory p.dest = false →
      Change c e cmd payload s₀ p (.rename (p.inner "data") p.dest j.expected.isSome) a
        ((a.remove (p.inner "data")).put p.dest ⟨attr, .file d⟩)
  | drop : cmd = .cancel path token → n ∈ ["data", "next.json", "state.json", "lock"] →
      Same [p.inner n] a b → b.get (p.inner n) = none → Change c e cmd payload s₀ p op a b
  | leave : cmd = .cancel path token → a.below p.dir = [] → Same [p.dir] a b → b.get p.dir = none →
      Change c e cmd payload s₀ p op a b

/-- A step of an upload command that was started in `s₀`. -/
def Step (c : Crates) (e : Endpoint) (cmd : Command) (payload : Bytes) (s₀ : Disk) (op : Op)
    (a b : Disk) : Prop :=
  b = a ∨ ∃ p, cmd.site c = some p ∧ Change c e cmd payload s₀ p op a b

theorem Step.rest (op : Op) (a : Disk) : Step c e cmd payload s₀ op a a := .inl rfl

-- ---------------------------------------------------------------------------
-- The paths of a site
-- ---------------------------------------------------------------------------

section Paths

variable {p : Site} {name other : String}

@[simp] theorem Site.dir_ne_inner : p.dir ≠ p.inner name := by simp [Site.inner]

@[simp] theorem Site.inner_ne_dir : p.inner name ≠ p.dir := by simp [Site.inner]

@[simp] theorem Site.inner_inj : p.inner name = p.inner other ↔ name = other := by
  simp [Site.inner]

@[simp] theorem Site.inner_ne_dest : p.inner name ≠ p.dest := by
  intro h
  have := congrArg List.length h
  simp [Site.inner, Site.dir, Site.dest] at this

@[simp] theorem Site.dest_ne_inner : p.dest ≠ p.inner name := fun h => Site.inner_ne_dest h.symm

theorem Site.dest_ne_dir (h : p.target ≠ p.stage) : p.dest ≠ p.dir := by
  simpa [Site.dest, Site.dir] using h

/-- Nothing an upload changes is on the way to its directory. -/
theorem Site.not_above (hq : q <+: p.parent) : q ≠ p.dir ∧ q ≠ p.dest ∧ ∀ name, q ≠ p.inner name := by
  have hl := hq.length_le
  refine ⟨?_, ?_, fun name => ?_⟩ <;> rintro rfl <;>
    simp only [Site.dir, Site.dest, Site.inner, List.length_append, List.length_singleton] at hl <;> omega

theorem Site.parent_of_dest : p.dest.dropLast = p.parent := by simp [Site.dest]

theorem Site.parent_of_inner : (p.inner name).dropLast = p.dir := by simp [Site.inner]

end Paths

-- ---------------------------------------------------------------------------
-- One journal at a time
-- ---------------------------------------------------------------------------

variable {c : Crates}

theorem Reads.unique (h : Reads c s dir j) (h' : Reads c s dir j') : j = j' := by
  obtain ⟨b, hb, hj⟩ := h
  obtain ⟨b', hb', hj'⟩ := h'
  obtain rfl := Option.some.inj (hb.symm.trans hb')
  exact Except.ok.inj (hj.symm.trans hj')

theorem Crates.Lawful.toJson_inj (hc : c.Lawful) (h : c.toJson j = c.toJson j') : j = j' := by
  have := hc.fromJson_toJson j
  rw [h, hc.fromJson_toJson] at this
  exact (Except.ok.inj this).symm

/-- A saved journal that can be read is read as it was saved. -/
theorem Crates.Lawful.fromJson_take (hc : c.Lawful) (h : c.fromJson ((c.toJson j).take n) = .ok j') :
    j' = j ∧ (c.toJson j).length ≤ n := by
  rcases Nat.lt_or_ge n (c.toJson j).length with hl | hl
  · obtain ⟨e, he⟩ := hc.fromJson_cut j n hl
    cases he.symm.trans h
  · rw [List.take_of_length_le hl, hc.fromJson_toJson] at h
    exact ⟨(Except.ok.inj h).symm, hl⟩

theorem Holds.unique (hc : c.Lawful) (h : Holds c s dir j) (h' : Holds c s dir j') : j = j' := by
  rcases h with h | h <;> rcases h' with h' | h'
  · exact h.unique h'
  · obtain ⟨b, hb, hj⟩ := h
    obtain rfl := Option.some.inj (hb.symm.trans h')
    exact (hc.fromJson_take hj).1
  · obtain ⟨b, hb, hj⟩ := h'
    obtain rfl := Option.some.inj (hb.symm.trans h)
    exact (hc.fromJson_take hj).1.symm
  · exact hc.toJson_inj (Option.some.inj (h.symm.trans h'))

/-- After a save the journal is the one that was saved. -/
theorem Holds.eq_saved (hc : c.Lawful) (h : Holds c s dir j)
    (hs : s.file? (dir ++ ["state.json"]) = some (c.toJson j')) : j = j' := h.unique hc (.inr hs)

-- ---------------------------------------------------------------------------
-- Changes elsewhere
-- ---------------------------------------------------------------------------

theorem Reads.same (h : Reads c s dir j) (hs : Same ps s t) (hq : dir ++ ["state.json"] ∉ ps) :
    Reads c t dir j := by
  obtain ⟨b, hb, hj⟩ := h
  exact ⟨b, by rw [hs.file? hq, hb], hj⟩

theorem Holds.same (h : Holds c s dir j) (hs : Same ps s t) (hq : dir ++ ["state.json"] ∉ ps) :
    Holds c t dir j := by
  refine h.imp (fun h => h.same hs hq) fun h => ?_
  rw [hs.file? hq, h]

theorem Holds.saved (h : s.file? (dir ++ ["state.json"]) = some (c.toJson j)) : Holds c s dir j :=
  .inr h

theorem Due.same (h : Due c e cmd payload p a j) (hs : Same [p.inner "next.json"] a b) :
    Due c e cmd payload p b j := by
  have hstate : p.inner "state.json" ∉ [p.inner "next.json"] := by simp
  have hdata : p.inner "data" ∉ [p.inner "next.json"] := by simp
  cases h with
  | initial h hk hn hd => exact .initial h hk (by rw [hs.get _ hstate, hn]) (by rw [hs.file? hdata, hd])
  | advance h hj hc hp hl hd ht =>
    exact .advance h (hj.same hs hstate) hc hp hl (by rw [hs.file? hdata, hd]) ht
  | sealed h hj ho hd hg => exact .sealed h (hj.same hs hstate) ho (by rw [hs.file? hdata, hd]) hg
  | confirm hj hg hn => exact .confirm (hj.same hs hstate) hg (by rw [hs.get _ hdata, hn])

theorem Walks.same {p : Site} (h : Walks s [] p.parent) (hs : Same ps s t)
    (hps : ∀ q ∈ ps, q = p.dir ∨ q = p.dest ∨ ∃ name, q = p.inner name) : Walks t [] p.parent := by
  refine h.congr fun q hq => hs.get q fun hmem => ?_
  obtain ⟨h1, h2, h3⟩ := Site.not_above hq
  obtain rfl | rfl | ⟨name, rfl⟩ := hps q hmem
  · exact h1 rfl
  · exact h2 rfl
  · exact h3 name rfl

theorem Entered.same (h : Entered p s) (hs : Same ps s t)
    (hps : ∀ q ∈ ps, q = p.dest ∨ ∃ n, n ≠ "lock" ∧ q = p.inner n) (hd : p.dest ∉ ps ∨ p.dest ≠ p.dir) :
    Entered p t := by
  have hdir : p.dir ∉ ps := by
    intro hm
    obtain hq | ⟨n, -, hq⟩ := hps _ hm
    · exact hd.elim (fun h => h (hq ▸ hm)) fun h => h hq.symm
    · simp at hq
  have hlock : p.inner "lock" ∉ ps := by
    intro hm
    obtain hq | ⟨n, hn, hq⟩ := hps _ hm
    · simp at hq
    · exact hn (by simpa using hq.symm)
  refine ⟨h.walks.same hs ?_, by rw [hs.isDirectory hdir, h.dir], by rw [hs.free hlock, h.lock],
    by rw [hs.held]; exact h.unlocked⟩
  intro q hq
  obtain rfl | ⟨n, -, rfl⟩ := hps q hq
  · exact .inr (.inl rfl)
  · exact .inr (.inr ⟨n, rfl⟩)

end RemoteCodex.Transfer
