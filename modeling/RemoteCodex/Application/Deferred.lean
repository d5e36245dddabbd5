import Mathlib.Algebra.Order.BigOperators.Group.List
import Mathlib.Algebra.Order.Ring.Nat
import RemoteCodex.Adapter.Outputs
import RemoteCodex.Application.Output

/-!
# Sessions that ask for outputs

The requests for outputs of one session take turns with whatever clears its
cache, and with what is done to the native history. A client that follows the
offsets of an output gets all of it.
-/

namespace RemoteCodex.Application

open Interact Protocol Remote Wire
open Adapter.Tools (ToolOutputSource Url)
open Adapter.History

variable (pretty : Value → String) (parseUrl : String → Option Url) {σ : Type} (M : Machine Op Ans σ) (bound : SessionBinding)

inductive OutputEvent
  | request (source : ToolOutputSource) (offset : Nat) (reply : Except ClientError ToolOutputChunk)
  | clear

/-- A request that ends; the cache is cleared when the session is closed, and when
it is reverted, after which its history is another one. -/
inductive OutputStep : OutputCache × σ → OutputEvent → OutputCache × σ → Prop
  | request {fuel : Nat} {source : ToolOutputSource} {offset : Nat} {cache cache' : OutputCache} {s t : σ}
      {reply : Except ClientError ToolOutputChunk} :
      Prog.Ends M (toolOutput pretty parseUrl fuel bound source offset cache) s (some (reply, cache')) t →
      OutputStep (cache, s) (.request source offset reply) (cache', t)
  | clear {cache : OutputCache} {s t : σ} : OutputStep (cache, s) .clear (OutputCache.clear, t)

inductive OutputRun : OutputCache × σ → OutputCache × σ → Prop
  | start {a : OutputCache × σ} : OutputRun a a
  | step {a b c : OutputCache × σ} {event : OutputEvent} : OutputRun a b → OutputStep pretty parseUrl M bound b event c →
      OutputRun a c

/-- From the state `a` on a client has asked for the chunks of an output, each at
the offset behind the one before; between two of its requests others may have come. -/
inductive Following (history : σ → List NativeTurn) (itemPlaces : String → String → Option Nat) (source : ToolOutputSource)
    (text : String) (a : OutputCache × σ) : Option Nat → List String → OutputCache × σ → Prop
  | start : Following history itemPlaces source text a (some 0) [] a
  | more {b c d : OutputCache × σ} {offset : Nat} {chunks : List String} {chunk : ToolOutputChunk} :
      Following history itemPlaces source text a (some offset) chunks b → OutputRun pretty parseUrl M bound b c →
      Located pretty parseUrl itemPlaces (history c.2) source text →
      OutputStep pretty parseUrl M bound c (.request source offset (.ok chunk)) d →
      Following history itemPlaces source text a chunk.nextOffset (chunks ++ [chunk.text]) d

/-- What a client has that follows an output. -/
structure Followed (text : String) (next : Option Nat) (chunks : List String) : Prop where
  bounded : ∀ chunk ∈ chunks, chunk.utf8ByteSize ≤ CHUNK_BYTES ∧ (text ≠ "" → chunk ≠ "")
  finite : chunks.length ≤ text.utf8ByteSize + 1
  front : ∀ offset, next = some offset → ∃ rest, text.toList = (String.join chunks).toList ++ rest ∧
    (String.join chunks).utf8ByteSize = offset ∧ (rest = [] → chunks = [])
  whole : next = none → String.join chunks = text

variable {pretty parseUrl M bound} {history : σ → List NativeTurn}
variable {itemPlaces : String → String → Option Nat} {source : ToolOutputSource} {text : String} {offset : Nat}
variable {cache cache' : OutputCache} {s t : σ} {fuel : Nat} {result : Option Reply}

-- ---------------------------------------------------------------------------
-- One request
-- ---------------------------------------------------------------------------

/-- What a request comes to. -/
inductive Came (pretty : Value → String) (parseUrl : String → Option Url) (M : Machine Op Ans σ) (bound : SessionBinding)
    (fuel : Nat) (source : ToolOutputSource) (offset : Nat) (cache : OutputCache) (s t : σ) : Option Reply → Prop
  | elsewhere : source.session ≠ bound.session.id → t = s →
      Came pretty parseUrl M bound fuel source offset cache s t
        (some (.error (argument "Tool output belongs to another session."), cache))
  | kept {text : String} : source.session = bound.session.id → cache.get source = some text → t = s →
      Came pretty parseUrl M bound fuel source offset cache s t (some (chunk text offset, cache))
  | failed {f : Fault} : source.session = bound.session.id →
      Prog.Ends M (readOutput pretty parseUrl fuel bound source).run s (.error f) t →
      Came pretty parseUrl M bound fuel source offset cache s t (some (.error (remoteFault f), cache))
  | unended : source.session = bound.session.id →
      Prog.Ends M (readOutput pretty parseUrl fuel bound source).run s (.ok none) t →
      Came pretty parseUrl M bound fuel source offset cache s t none
  | read {text : String} : source.session = bound.session.id →
      Prog.Ends M (readOutput pretty parseUrl fuel bound source).run s (.ok (some text)) t →
      Came pretty parseUrl M bound fuel source offset cache s t (serve source offset cache text)

theorem ends_bind {α β : Type} {p : Prog Op Ans α} {f : α → Prog Op Ans β} {b : β}
    (h : Prog.Ends M (p >>= f) s b t) : ∃ a u, Prog.Ends M p s a u ∧ Prog.Ends M (f a) u b t := by
  induction p generalizing s with
  | done a => exact ⟨a, s, .done, h⟩
  | call op next ih =>
    cases h with
    | call hr hnext =>
      obtain ⟨a, u, ha, hb⟩ := ih _ hnext
      exact ⟨a, u, .call hr ha, hb⟩

theorem toolOutput_came (h : Prog.Ends M (toolOutput pretty parseUrl fuel bound source offset cache) s result t) :
    Came pretty parseUrl M bound fuel source offset cache s t result := by
  unfold toolOutput at h
  split at h
  · next hne =>
    cases h
    exact .elsewhere hne rfl
  · next hsession =>
    rw [not_not] at hsession
    split at h
    · next text hget =>
      cases h
      exact .kept hsession hget rfl
    · obtain ⟨r, u, hread, hrest⟩ := ends_bind h
      rcases r with f | _ | text
      · cases hrest
        exact .failed hsession hread
      · cases hrest
        exact .unended hsession hread
      · cases hrest
        exact .read hsession hread

-- ---------------------------------------------------------------------------
-- Every run
-- ---------------------------------------------------------------------------

/-- The cache is within its bounds, and each text in it is the output of its source. -/
structure Held (pretty : Value → String) (parseUrl : String → Option Url) (bound : SessionBinding)
    (turns : List NativeTurn) (cache : OutputCache) : Prop where
  sound : cache.Sound
  right : ∀ entry ∈ cache.entries, Output pretty parseUrl turns entry.1 entry.2

theorem Held.grow {turns turns' : List NativeTurn} (h : Held pretty parseUrl bound turns cache) (hgrow : turns <:+ turns') :
    Held pretty parseUrl bound turns' cache := ⟨h.sound, fun entry hentry => (h.right entry hentry).grow hgrow⟩

/-- A text of the cache is an output that may be kept. -/
theorem Held.get {turns : List NativeTurn} (h : Held pretty parseUrl bound turns cache)
    (hget : cache.get source = some text) : text.utf8ByteSize ≤ CACHE_BYTES ∧ Output pretty parseUrl turns source text := by
  obtain ⟨key, hkey, -, hturn, hitem⟩ := OutputCache.get_some hget
  obtain ⟨t, ht, hid, item, hin, hname, hshows⟩ := h.right _ hkey
  have hsum : text.utf8ByteSize ≤ OutputCache.total cache.entries :=
    List.single_le_sum (fun _ _ => Nat.zero_le _) _ (List.mem_map_of_mem (f := fun entry => entry.2.utf8ByteSize) hkey)
  refine ⟨(hsum.trans_eq h.sound.counted.symm).trans h.sound.size, t, ht, hid.trans hturn, item, hin, ?_, hshows⟩
  rw [hname, hitem]

/-- What a request answers is from an output of its source, and it leaves the cache as it has to be. -/
theorem request_held (hserving : ServesItems M history bound.session.id itemPlaces)
    (hhonest : Honest M history bound.session.id) {reply : Except ClientError ToolOutputChunk}
    (h : Held pretty parseUrl bound (history s) cache)
    (hends : Prog.Ends M (toolOutput pretty parseUrl fuel bound source offset cache) s (some (reply, cache')) t) :
    Held pretty parseUrl bound (history t) cache' ∧ ∀ c, reply = .ok c → ∃ text, text.utf8ByteSize ≤ CACHE_BYTES ∧
      Output pretty parseUrl (history t) source text ∧ chunk text offset = .ok c := by
  have hcame := toolOutput_came hends
  generalize hresult : some (reply, cache') = result at hcame
  cases hcame with
  | elsewhere _ hsame =>
    obtain ⟨rfl, rfl⟩ := Prod.mk.inj (Option.some.inj hresult)
    exact ⟨hsame ▸ h, fun c hc => by cases hc⟩
  | kept _ hget hsame =>
    obtain ⟨rfl, rfl⟩ := Prod.mk.inj (Option.some.inj hresult)
    obtain ⟨hsize, houtput⟩ := h.get hget
    exact ⟨hsame ▸ h, fun c hc => ⟨_, hsize, hsame ▸ houtput, hc⟩⟩
  | failed _ hread =>
    obtain ⟨rfl, rfl⟩ := Prod.mk.inj (Option.some.inj hresult)
    exact ⟨h.grow ((readOutput_sound hserving hhonest source fuel s).fails hread), fun c hc => by cases hc⟩
  | unended _ _ => cases hresult
  | @read text _ hread =>
    obtain ⟨hgrow, hfound⟩ := (readOutput_sound hserving hhonest source fuel s).ends hread
    have houtput := hfound text rfl
    rcases Nat.lt_or_ge CACHE_BYTES text.utf8ByteSize with hlarge | hsize
    · obtain ⟨e, he⟩ := serve_refused source cache offset hlarge
      obtain ⟨rfl, rfl⟩ := Prod.mk.inj (Option.some.inj (hresult.trans he))
      exact ⟨h.grow hgrow, fun c hc => by cases hc⟩
    · obtain ⟨kept, hserve, hsound, hentries⟩ := serve_ok source h.sound offset hsize
      obtain ⟨rfl, rfl⟩ := Prod.mk.inj (Option.some.inj (hresult.trans hserve))
      refine ⟨⟨hsound, fun entry hentry => ?_⟩, fun c hc => ⟨text, hsize, houtput, hc⟩⟩
      rcases hentries entry hentry with hold | rfl
      · exact (h.right entry hold).grow hgrow
      · exact houtput

theorem run_held (hserving : ServesItems M history bound.session.id itemPlaces)
    (hhonest : Honest M history bound.session.id) {a b : OutputCache × σ}
    (hrun : OutputRun pretty parseUrl M bound a b) (h : Held pretty parseUrl bound (history a.2) a.1) :
    Held pretty parseUrl bound (history b.2) b.1 := by
  induction hrun with
  | start => exact h
  | step _ hstep ih =>
    cases hstep with
    | request hends => exact (request_held hserving hhonest ih hends).1
    | clear => exact ⟨OutputCache.clear_sound, fun entry hentry => by cases hentry⟩

-- ---------------------------------------------------------------------------
-- An output that is there
-- ---------------------------------------------------------------------------

/-- A request for an output that is there answers with its chunk, in as many pages as its turn has items. -/
theorem request_served (hserving : ServesItems M history bound.session.id itemPlaces)
    (hhonest : Honest M history bound.session.id) (h : Held pretty parseUrl bound (history s) cache)
    (hsession : source.session = bound.session.id) (hsize : text.utf8ByteSize ≤ CACHE_BYTES)
    (hlocated : Located pretty parseUrl itemPlaces (history s) source text) :
    ∃ pages, ∀ fuel offset result t, Prog.Ends M (toolOutput pretty parseUrl fuel bound source offset cache) s result t →
      (result = none ∨ ∃ cache', result = some (chunk text offset, cache')) ∧ (pages ≤ fuel → result ≠ none) := by
  obtain ⟨pages, hpages⟩ := readOutput_finds hserving hhonest hsession hlocated
  refine ⟨pages, fun fuel offset result t hends => ?_⟩
  cases toolOutput_came hends with
  | elsewhere hne _ => exact absurd hsession hne
  | kept _ hget _ =>
    obtain rfl := (h.get hget).2.unique hserving hhonest hlocated.output
    exact ⟨.inr ⟨cache, rfl⟩, fun _ hnone => by cases hnone⟩
  | failed _ hread => exact ((hpages fuel).fails hread).elim
  | unended _ hread => exact ⟨.inl rfl, fun hfuel => absurd rfl (((hpages fuel).ends hread).2 hfuel)⟩
  | read _ hread =>
    obtain rfl := Option.some.inj (((hpages fuel).ends hread).1.resolve_left (by intro hnone; cases hnone))
    obtain ⟨cache', hserve, -⟩ := serve_ok source h.sound offset hsize
    exact ⟨.inr ⟨cache', hserve⟩, fun _ hnone => by rw [hserve] at hnone; cases hnone⟩

-- ---------------------------------------------------------------------------
-- A client that follows an output
-- ---------------------------------------------------------------------------

theorem length_le_join {chunks : List String} (h : ∀ chunk ∈ chunks, chunk ≠ "") :
    chunks.length ≤ (String.join chunks).utf8ByteSize := by
  induction chunks with
  | nil => exact Nat.zero_le _
  | cons chunk chunks ih =>
    have hrest := ih fun other hother => h other (List.mem_cons_of_mem _ hother)
    have hpos : chunk.utf8ByteSize ≠ 0 := fun hzero =>
      h chunk List.mem_cons_self (String.utf8ByteSize_eq_zero_iff.mp hzero)
    rw [String.join_cons, String.utf8ByteSize_append, List.length_cons]
    omega

theorem followed_start (text : String) : Followed text (some 0) [] where
  bounded _ h := by cases h
  finite := Nat.zero_le _
  front offset h := by
    obtain rfl := Option.some.inj h
    exact ⟨text.toList, by simp, by simp, fun _ => rfl⟩
  whole h := by cases h

/-- One more chunk. -/
theorem Followed.next {chunks : List String} {c : ToolOutputChunk} (h : Followed text (some offset) chunks)
    (hc : Chunk text offset c) : Followed text c.nextOffset (chunks ++ [c.text]) := by
  obtain ⟨rest, htext, hoffset, hempty⟩ := h.front offset rfl
  obtain ⟨before, left, hsplit, hbefore, hnext⟩ := hc.part
  have hsame := Utf8.append_inj (htext.symm.trans hsplit) (by rw [Utf8.size_toList, hoffset, hbefore])
  have hjoin : String.join (chunks ++ [c.text]) = String.join chunks ++ c.text := by simp
  have htext' : text.toList = (String.join (chunks ++ [c.text])).toList ++ left := by
    rw [hjoin, String.toList_append, List.append_assoc, ← hsame.2, ← htext]
  have hsize : (String.join (chunks ++ [c.text])).utf8ByteSize + Utf8.size left = text.utf8ByteSize := by
    rw [← Utf8.size_toList, ← Utf8.size_toList, htext', Utf8.size_append]
  have hbounded : ∀ chunk ∈ chunks ++ [c.text], chunk.utf8ByteSize ≤ CHUNK_BYTES ∧ (text ≠ "" → chunk ≠ "") := by
    intro chunk hchunk
    rcases List.mem_append.mp hchunk with hchunk | hchunk
    · exact h.bounded chunk hchunk
    · obtain rfl := List.mem_singleton.mp hchunk
      refine ⟨hc.short, fun hne => hc.filled ?_⟩
      have hrest : rest ≠ [] := by
        rintro rfl
        obtain rfl := hempty rfl
        exact hne (String.toList_inj.mp (by simpa using htext))
      have hpos := Utf8.size_pos hrest
      rw [← Utf8.size_toList, htext, Utf8.size_append, Utf8.size_toList, hoffset]
      omega
  refine ⟨hbounded, ?_, ?_, ?_⟩
  · by_cases hne : text = ""
    · have hrest : rest = [] := by
        rw [hne] at htext
        exact (List.append_eq_nil_iff.mp htext.symm).2
      rw [hempty hrest]
      exact Nat.le_add_left 1 _
    · have hlength := length_le_join fun chunk hchunk => (hbounded chunk hchunk).2 hne
      omega
  · intro next h
    rw [hnext] at h
    split at h
    · cases h
    · next hleft =>
      obtain rfl := Option.some.inj h
      refine ⟨left, htext', ?_, fun hnil => absurd hnil hleft⟩
      rw [hjoin, String.utf8ByteSize_append, hoffset]
  · intro h
    rw [hnext] at h
    split at h
    · next hleft =>
      rw [hleft, List.append_nil] at htext'
      exact (String.toList_inj.mp htext').symm
    · cases h

theorem following_followed (hserving : ServesItems M history bound.session.id itemPlaces)
    (hhonest : Honest M history bound.session.id) (hsession : source.session = bound.session.id)
    (hsize : text.utf8ByteSize ≤ CACHE_BYTES) {a b : OutputCache × σ} {next : Option Nat} {chunks : List String}
    (h : Held pretty parseUrl bound (history a.2) a.1)
    (hfollowing : Following pretty parseUrl M bound history itemPlaces source text a next chunks b) :
    Held pretty parseUrl bound (history b.2) b.1 ∧ Followed text next chunks := by
  induction hfollowing with
  | start => exact ⟨h, followed_start text⟩
  | @more b c d offset chunks chunk _ hrun hlocated hstep ih =>
    have hheld := run_held hserving hhonest hrun ih.1
    cases hstep with
    | request hends =>
      obtain ⟨pages, hserved⟩ := request_served hserving hhonest hheld hsession hsize hlocated
      obtain ⟨cache', hreply⟩ := (hserved _ _ _ _ hends).1.resolve_left (by intro hnone; cases hnone)
      have hchunk : Application.chunk text offset = .ok chunk := (Prod.mk.inj (Option.some.inj hreply)).1.symm
      obtain ⟨rest, htext, hoffset, -⟩ := ih.2.front offset rfl
      have hboundary : Utf8.boundary text.toList offset = true :=
        Utf8.boundary_iff.mpr ⟨_, rest, htext, by rw [Utf8.size_toList, hoffset]⟩
      obtain ⟨c', hc', hof⟩ := chunk_ok hboundary (hsize.trans_lt (by decide))
      obtain rfl := Except.ok.inj (hchunk.symm.trans hc')
      exact ⟨(request_held hserving hhonest hheld hends).1, ih.2.next hof⟩

/-- What holds of a session that serves outputs. -/
structure OutputsServed (pretty : Value → String) (parseUrl : String → Option Url) (M : Machine Op Ans σ)
    (bound : SessionBinding) (history : σ → List NativeTurn) (itemPlaces : String → String → Option Nat)
    (b : OutputCache × σ) : Prop where
  bounds : b.1.Sound
  evicts : ∀ source text, (b.1.insert source text).isSome = true
  honest : ∀ source offset c d, OutputStep pretty parseUrl M bound b (.request source offset (.ok c)) d → ∃ text,
    Output pretty parseUrl (history d.2) source text ∧ Utf8.boundary text.toList offset = true ∧ Chunk text offset c
  refused : ∀ text offset, Utf8.boundary text.toList offset = false →
    chunk text offset = .error (argument "Invalid tool output offset.")
  answered : ∀ source text, source.session = bound.session.id → text.utf8ByteSize ≤ CACHE_BYTES →
    Located pretty parseUrl itemPlaces (history b.2) source text → ∃ pages, ∀ fuel offset result t,
      Prog.Ends M (toolOutput pretty parseUrl fuel bound source offset b.1) b.2 result t →
        (result = none ∨ ∃ cache, result = some (chunk text offset, cache)) ∧ (pages ≤ fuel → result ≠ none)
  followed : ∀ source text next chunks c, source.session = bound.session.id → text.utf8ByteSize ≤ CACHE_BYTES →
    Following pretty parseUrl M bound history itemPlaces source text b next chunks c → Followed text next chunks

end RemoteCodex.Application
