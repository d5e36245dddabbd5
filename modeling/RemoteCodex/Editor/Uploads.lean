import RemoteCodex.Editor.Files

/-!
# The files of the uploads

An upload's chunks are the bytes of a file that only its temporary name leads
to. So nothing under a name of the workspace changes before the upload is
committed.
-/

namespace RemoteCodex.Editor

open Interact Transfer
open Files (Bytes)

-- ---------------------------------------------------------------------------
-- Reading the checks
-- ---------------------------------------------------------------------------

theorem bind_ok {x : Except ε α} {f : α → Except ε β} : x >>= f = .ok b ↔ ∃ a, x = .ok a ∧ f a = .ok b := by
  cases x <;> simp [bind, Except.bind]

theorem pure_ok : (pure a : Except ε α) = .ok b ↔ a = b := by simp [pure, Except.pure]

theorem demand_ok {b : Bool} : demand b f = .ok u ↔ b = true := by
  cases b <;> simp [demand]

theorem orFault_ok {o : Option α} : orFault o code message = .ok a ↔ o = some a := by
  cases o <;> simp [orFault]

-- ---------------------------------------------------------------------------
-- Volumes
-- ---------------------------------------------------------------------------

namespace Volume

variable {v w : Volume}

theorem entry_setEntry (v : Volume) (dir : Nat) (name : String) (e : Entry) (d : Nat) (n : String) :
    (v.setEntry dir name e).entry d n = if d = dir ∧ n = name then some e else v.entry d n := by
  unfold entry setEntry
  rw [Table.lookup_insert_if]
  simp [Prod.ext_iff]

theorem entry_removeEntry (v : Volume) (dir : Nat) (name : String) (d : Nat) (n : String) :
    (v.removeEntry dir name).entry d n = if d = dir ∧ n = name then none else v.entry d n := by
  unfold entry removeEntry
  rw [Table.lookup_erase_if]
  simp [Prod.ext_iff]

@[simp] theorem entry_setBytes (v : Volume) (number : Nat) (bytes : Bytes) (d : Nat) (n : String) :
    (v.setBytes number bytes).entry d n = v.entry d n := rfl

theorem bytes_setBytes (v : Volume) (number : Nat) (bytes : Bytes) (i : Nat) :
    (v.setBytes number bytes).bytes i = if i = number then bytes else v.bytes i := by
  unfold Volume.bytes setBytes
  rw [Table.lookup_insert_if]
  split <;> rfl

/-- A number nothing has leads nowhere. -/
theorem Unused.entry {number : Nat} (h : v.Unused number) (d : Nat) (n : String) : v.entry d n ≠ some (.file number) :=
  fun heq => h.2.1 (Table.mem_values.mpr ⟨_, heq⟩)

/-- What is seen under the names of the workspace is the same. -/
def Quiet (v w : Volume) : Prop := ∀ d n, hidden n = false → w.look d n = v.look d n

theorem Quiet.refl (v : Volume) : Quiet v v := fun _ _ _ => rfl

theorem Quiet.trans (h : Quiet v w) (h' : Quiet w u) : Quiet v u :=
  fun d n hn => (h' d n hn).trans (h d n hn)

theorem look_eq {d : Nat} {n : String} (hentry : w.entry d n = v.entry d n)
    (hbytes : ∀ i, v.entry d n = some (.file i) → w.bytes i = v.bytes i) : w.look d n = v.look d n := by
  unfold look
  rw [hentry]
  cases he : v.entry d n with
  | none => rfl
  | some e =>
    cases e with
    | file i => simp [content, hbytes i he]
    | _ => rfl

/-- Names were taken away, and all of them from `ks`. -/
structure Pruned (ks : Nat → String → Prop) (v w : Volume) : Prop where
  files : w.files = v.files
  same : ∀ d n, ¬ ks d n → w.entry d n = v.entry d n
  less : ∀ d n e, w.entry d n = some e → v.entry d n = some e

theorem Pruned.refl (ks : Nat → String → Prop) (v : Volume) : Pruned ks v v :=
  ⟨rfl, fun _ _ _ => rfl, fun _ _ _ h => h⟩

theorem Pruned.trans {ks : Nat → String → Prop} (h : Pruned ks v w) (h' : Pruned ks w u) : Pruned ks v u :=
  ⟨h'.files.trans h.files, fun d n hn => (h'.same d n hn).trans (h.same d n hn),
    fun d n e he => h.less d n e (h'.less d n e he)⟩

theorem Pruned.mono {ks ks' : Nat → String → Prop} (h : Pruned ks v w) (hsub : ∀ d n, ks d n → ks' d n) :
    Pruned ks' v w :=
  ⟨h.files, fun d n hn => h.same d n fun hk => hn (hsub d n hk), h.less⟩

theorem Pruned.quiet {ks : Nat → String → Prop} (h : Pruned ks v w) (hks : ∀ d n, ks d n → hidden n = true) :
    Quiet v w := by
  intro d n hn
  refine look_eq (h.same d n fun hk => ?_) fun i _ => ?_
  · rw [hks d n hk] at hn
    cases hn
  · rw [Volume.bytes, h.files, Volume.bytes]

theorem Pruned.unused {ks : Nat → String → Prop} (h : Pruned ks v w) {number : Nat} (hv : v.Unused number) :
    w.Unused number := by
  refine ⟨?_, fun hin => ?_, fun hin => ?_, fun k hk => ?_⟩
  · rw [h.files]
    exact hv.1
  · obtain ⟨⟨d, n⟩, hk⟩ := Table.mem_values.mp hin
    exact hv.2.1 (Table.mem_values.mpr ⟨_, h.less d n _ hk⟩)
  · obtain ⟨⟨d, n⟩, hk⟩ := Table.mem_values.mp hin
    exact hv.2.2.1 (Table.mem_values.mpr ⟨_, h.less d n _ hk⟩)
  · obtain ⟨d, n⟩ := k
    have hsome : (w.entries.lookup (d, n)).isSome := AList.lookup_isSome.mpr hk
    obtain ⟨e, he⟩ := Option.isSome_iff_exists.mp hsome
    refine hv.2.2.2 (d, n) (AList.lookup_isSome.mp ?_)
    have hbefore : v.entries.lookup (d, n) = some e := h.less d n e he
    rw [hbefore]
    rfl

theorem pruned_removeEntry (v : Volume) (dir : Nat) (name : String) :
    Pruned (fun d n => d = dir ∧ n = name) v (v.removeEntry dir name) := by
  refine ⟨rfl, fun d n hn => ?_, fun d n e he => ?_⟩
  · rw [entry_removeEntry, if_neg hn]
  · rw [entry_removeEntry] at he
    split at he
    · cases he
    · exact he

theorem pruned_removeFile (v : Volume) (dir : Nat) (name : String) :
    Pruned (fun d n => d = dir ∧ n = name) v (v.removeFile dir name) := by
  unfold removeFile
  split
  · exact .refl _ _
  · exact pruned_removeEntry v dir name

end Volume

theorem pruned_drop (c : Chance) (v : Volume) (token : String) (s : Staged) :
    Volume.Pruned (fun d n => d = s.parent ∧ n = s.temporary) v (s.drop c v token) := by
  unfold Staged.drop
  split
  · exact .refl _ _
  · exact Volume.pruned_removeFile v s.parent s.temporary

theorem pruned_dropAll (c : Chance) (v : Volume) (l : List (Sigma fun _ : String => Staged)) :
    Volume.Pruned (fun d n => ∃ e ∈ l, d = e.2.parent ∧ n = e.2.temporary) v (dropAll c v l) := by
  induction l generalizing v with
  | nil => exact .refl _ _
  | cons e l ih =>
    refine Volume.Pruned.trans ((pruned_drop c v e.1 e.2).mono fun d n h => ⟨e, List.mem_cons_self, h⟩) ?_
    refine (ih _).mono fun d n h => ?_
    obtain ⟨e', he', h⟩ := h
    exact ⟨e', List.mem_cons_of_mem _ he', h⟩

-- ---------------------------------------------------------------------------
-- Uploads
-- ---------------------------------------------------------------------------

open Volume Saving

/-- The upload's bytes are what was accepted, and only its temporary name leads to them. -/
structure Upload (log : List Exchange) (v : Volume) (token : String) (s : Staged) : Prop where
  entry : v.entry s.parent s.temporary = some (.file s.number)
  sole : ∀ d n, v.entry d n = some (.file s.number) → d = s.parent ∧ n = s.temporary
  bytes : v.files.lookup s.number = some (accepted log token)
  written : s.written = (accepted log token).length
  position : s.position = s.written
  temporary : hidden s.temporary = true
  destination : hidden s.destination = false
  begun : ∃ path, ⟨s.owner, s.workspace, .beginWrite path s.expected s.length, .ok (.token token)⟩ ∈ log

structure Tidy (stages : Table String Staged) (v : Volume) (log : List Exchange) : Prop where
  upload : ∀ token s, stages.lookup token = some s → Upload log v token s
  distinct : ∀ t₁ t₂ s₁ s₂, stages.lookup t₁ = some s₁ → stages.lookup t₂ = some s₂ → s₁.number = s₂.number → t₁ = t₂
  fresh : ∀ token, token ∉ Saving.begun log → accepted log token = []

theorem accepted_cons (x : Exchange) (log : List Exchange) (token : String) :
    accepted (x :: log) token = accepted log token ++ accepted [x] token := by
  simp [accepted, List.filterMap_append]

/-- Only a chunk that is accepted adds to an upload. -/
theorem accepted_other {x : Exchange} (h : ∀ o bytes r, x.request = .writeChunk token o bytes → x.answer ≠ .ok r) :
    accepted [x] token = [] := by
  obtain ⟨owner, workspace, request, answer⟩ := x
  cases request with
  | writeChunk t o bytes =>
    cases answer with
    | error f => rfl
    | ok r =>
      by_cases heq : t = token
      · subst heq
        exact absurd rfl (h o bytes r rfl)
      · simp [accepted, heq]
  | _ => rfl

theorem accepted_chunk (owner workspace token : String) (offset : Nat) (bytes : Bytes) (r : Reply) :
    accepted [⟨owner, workspace, .writeChunk token offset bytes, .ok r⟩] token = bytes := by
  simp [accepted]

namespace Upload

variable {log : List Exchange} {v w : Volume} {token : String} {s : Staged}

/-- An exchange that adds nothing to the upload. -/
theorem noted (h : Upload log v token s) {x : Exchange} (hx : accepted [x] token = []) : Upload (x :: log) v token s := by
  have heq : accepted (x :: log) token = accepted log token := by rw [accepted_cons, hx, List.append_nil]
  exact
    { h with
      bytes := heq ▸ h.bytes
      written := heq ▸ h.written
      begun := h.begun.imp fun _ hin => List.mem_cons_of_mem _ hin }

/-- A volume in which the temporary file is as it was. -/
theorem undisturbed (h : Upload log v token s) (hu : Undisturbed s v w) : Upload log w token s :=
  { h with
    entry := hu.entry.trans h.entry
    sole := fun d n hn => h.sole d n (hu.sole d n hn)
    bytes := hu.bytes.trans h.bytes }

end Upload

theorem Volume.Pruned.undisturbed {v w : Volume} {ks : Nat → String → Prop} (h : Pruned ks v w) {s : Staged}
    (hk : ¬ ks s.parent s.temporary) : Undisturbed s v w where
  entry := h.same _ _ hk
  sole d n hn := h.less d n _ hn
  bytes := by rw [h.files]

/-- Two uploads have nothing in common. -/
theorem Tidy.apart {stages : Table String Staged} {v : Volume} {log : List Exchange} (h : Tidy stages v log)
    {t₁ t₂ : String} {s₁ s₂ : Staged} (h₁ : stages.lookup t₁ = some s₁) (h₂ : stages.lookup t₂ = some s₂) (hne : t₁ ≠ t₂) :
    s₁.number ≠ s₂.number ∧ ¬ (s₁.parent = s₂.parent ∧ s₁.temporary = s₂.temporary) := by
  refine ⟨fun heq => hne (h.distinct _ _ _ _ h₁ h₂ heq), fun ⟨hparent, htemporary⟩ => ?_⟩
  have hentry := (h.upload _ _ h₁).entry
  rw [hparent, htemporary, (h.upload _ _ h₂).entry] at hentry
  exact hne (h.distinct _ _ _ _ h₁ h₂ (by simpa using hentry.symm))

/-- The uploads that are left, in a volume that leaves them alone. -/
theorem Tidy.sub {stages stages' : Table String Staged} {v w : Volume} {log : List Exchange} (h : Tidy stages v log)
    (hsub : ∀ token s, stages'.lookup token = some s → stages.lookup token = some s)
    (hleft : ∀ token s, stages'.lookup token = some s → Undisturbed s v w) : Tidy stages' w log where
  upload token s hs := (h.upload token s (hsub token s hs)).undisturbed (hleft token s hs)
  distinct t₁ t₂ s₁ s₂ h₁ h₂ := h.distinct t₁ t₂ s₁ s₂ (hsub _ _ h₁) (hsub _ _ h₂)
  fresh := h.fresh

theorem Tidy.retain {f : FileService} {v : Volume} {log : List Exchange} (h : Tidy f.stages v log) (c : Chance) :
    Tidy (f.retain c v).1.stages (f.retain c v).2 log ∧ Quiet v (f.retain c v).2 ∧
      ∀ number, v.Unused number → (f.retain c v).2.Unused number := by
  have hpruned := pruned_dropAll c v (f.stages.entries.filter fun e => !decide (c.now < e.2.expires))
  have hlookup : ∀ e ∈ f.stages.entries.filter fun e => !decide (c.now < e.2.expires),
      f.stages.lookup e.1 = some e.2 ∧ ¬ c.now < e.2.expires := by
    intro e he
    rw [List.mem_filter] at he
    exact ⟨AList.mem_lookup_iff.mpr he.1, by simpa using he.2⟩
  refine ⟨h.sub (fun token s hs => (Table.mem_retain.mp hs).1) fun token s hs => ?_, ?_, fun number => hpruned.unused⟩
  · obtain ⟨hs, hnow⟩ := Table.mem_retain.mp hs
    refine hpruned.undisturbed ?_
    rintro ⟨e, he, hparent, htemporary⟩
    obtain ⟨hl, hexpired⟩ := hlookup e he
    by_cases hne : token = e.1
    · subst hne
      obtain rfl := Option.some.inj (hs.symm.trans hl)
      exact hexpired (by simpa using hnow)
    · exact (h.apart hs hl hne).2 ⟨hparent, htemporary⟩
  · refine hpruned.quiet ?_
    rintro d n ⟨e, he, -, rfl⟩
    exact (h.upload _ _ (hlookup e he).1).temporary

/-- An exchange that accepts no chunk. -/
theorem Tidy.noted {stages : Table String Staged} {v : Volume} {log : List Exchange} (h : Tidy stages v log)
    {x : Exchange} (hx : ∀ token, accepted [x] token = []) : Tidy stages v (x :: log) where
  upload token s hs := (h.upload token s hs).noted (hx token)
  distinct := h.distinct
  fresh token hnew := by
    have hold : token ∉ Saving.begun log := by
      intro hin
      refine hnew ?_
      obtain ⟨y, hy, heq⟩ := List.mem_filterMap.mp hin
      exact List.mem_filterMap.mpr ⟨y, List.mem_cons_of_mem _ hy, heq⟩
    rw [accepted_cons, hx, List.append_nil, h.fresh token hold]

theorem mem_begun {log : List Exchange} {owner workspace token : String} {request : FileRequest}
    (h : ⟨owner, workspace, request, .ok (.token token)⟩ ∈ log) : token ∈ Saving.begun log :=
  List.mem_filterMap.mpr ⟨_, h, rfl⟩

theorem Upload.token {log : List Exchange} {v : Volume} {token : String} {s : Staged} (h : Upload log v token s) :
    token ∈ Saving.begun log := by
  obtain ⟨path, hin⟩ := h.begun
  exact mem_begun hin

-- ---------------------------------------------------------------------------
-- BeginWrite
-- ---------------------------------------------------------------------------

/-- An upload is begun with an empty file of its own, or nothing but such a file is left. -/
theorem new_cases (p : Platform) (c : Chance) (v : Volume) (dir : Nat) (owner workspace path : String)
    (expected : Option String) (length : Nat) :
    (∃ e w, Staged.new p c v dir owner workspace path expected length = (.error e, w) ∧
      (w = v ∨ ∃ parent, v.entry parent (temporaryName c.uuid) = none ∧
        w = (v.setEntry parent (temporaryName c.uuid) (.file c.number)).setBytes c.number [])) ∨
    ∃ parent destination, destinationOf p c v dir path expected length = .ok (parent, destination) ∧
      v.entry parent (temporaryName c.uuid) = none ∧
      Staged.new p c v dir owner workspace path expected length =
        (.ok { owner, workspace, expires := c.now + UPLOAD_TIMEOUT, parent, destination
               temporary := temporaryName c.uuid, number := c.number, position := 0, expected, length, written := 0 },
          (v.setEntry parent (temporaryName c.uuid) (.file c.number)).setBytes c.number []) := by
  unfold Staged.new
  cases hdest : destinationOf p c v dir path expected length with
  | error e => exact .inl ⟨e, v, rfl, .inl rfl⟩
  | ok q =>
    obtain ⟨parent, destination⟩ := q
    dsimp only
    split
    · exact .inl ⟨_, v, rfl, .inl rfl⟩
    · next hfree =>
      have hnone : v.entry parent (temporaryName c.uuid) = none := by
        simp only [Bool.or_eq_true, not_or, Bool.not_eq_true, Option.isSome_eq_false_iff,
          Option.isNone_iff_eq_none] at hfree
        exact hfree.2
      split
      · exact .inl ⟨_, _, rfl, .inr ⟨parent, hnone, rfl⟩⟩
      · exact .inr ⟨parent, destination, rfl, hnone, rfl⟩

section Made

variable {v : Volume} {parent number : Nat} {uuid : String}

/-- The new file. -/
abbrev made (v : Volume) (parent number : Nat) (uuid : String) : Volume :=
  (v.setEntry parent (temporaryName uuid) (.file number)).setBytes number []

theorem quiet_made (hunused : v.Unused number) : Quiet v (made v parent number uuid) := by
  intro d n hn
  refine look_eq ?_ fun i hi => ?_
  · rw [entry_setBytes, entry_setEntry, if_neg]
    rintro ⟨-, rfl⟩
    rw [hidden_temporaryName] at hn
    cases hn
  · rw [bytes_setBytes, if_neg]
    · rfl
    · rintro rfl
      exact hunused.entry d n hi

theorem undisturbed_made (hunused : v.Unused number) (hnone : v.entry parent (temporaryName uuid) = none)
    {log : List Exchange} {token : String} {s : Staged} (h : Upload log v token s) :
    Undisturbed s v (made v parent number uuid) := by
  have hne : s.number ≠ number := by
    rintro rfl
    have hsome := h.bytes
    rw [hunused.1] at hsome
    cases hsome
  refine ⟨?_, fun d n hn => ?_, ?_⟩
  · rw [entry_setBytes, entry_setEntry, if_neg]
    rintro ⟨hparent, htemporary⟩
    have hentry := h.entry
    rw [hparent, htemporary, hnone] at hentry
    cases hentry
  · rw [entry_setBytes, entry_setEntry] at hn
    split at hn
    · exact absurd (by simpa using hn.symm) hne
    · exact hn
  · exact AList.lookup_insert_ne hne

end Made

theorem Tidy.insert {stages : Table String Staged} {v : Volume} {log : List Exchange} (h : Tidy stages v log)
    {token : String} {s : Staged} (hs : Upload log v token s)
    (hdistinct : ∀ t' s', stages.lookup t' = some s' → t' ≠ token → s'.number ≠ s.number) :
    Tidy (stages.insert token s) v log where
  upload t s' hs' := by
    rw [Table.lookup_insert_if] at hs'
    split at hs'
    · next heq =>
      cases hs'
      exact heq ▸ hs
    · exact h.upload t s' hs'
  distinct t₁ t₂ s₁ s₂ h₁ h₂ heq := by
    rw [Table.lookup_insert_if] at h₁ h₂
    split at h₁ <;> split at h₂
    · next h₁' h₂' => exact h₁'.trans h₂'.symm
    · next h₁' h₂' =>
      cases h₁
      exact absurd heq.symm (hdistinct _ _ h₂ h₂')
    · next h₁' h₂' =>
      cases h₂
      exact absurd heq (hdistinct _ _ h₁ h₁')
    · exact h.distinct _ _ _ _ h₁ h₂ heq
  fresh := h.fresh

theorem accepted_begin (owner workspace path token : String) (revision : Option String) (length : Nat)
    (answer : Except Fault Reply) : accepted [⟨owner, workspace, .beginWrite path revision length, answer⟩] token = [] :=
  accepted_other fun _ _ _ h => nomatch h

/-- A request that keeps the uploads tidy, and shows nothing of itself if it fails. -/
structure Served (v : Volume) (log : List Exchange) (owner workspace : String) (request : FileRequest)
    (result : Except Fault Reply × FileService × Volume) : Prop where
  tidy : Tidy result.2.1.stages result.2.2 (⟨owner, workspace, request, result.1⟩ :: log)
  quiet : ∀ e, result.1 = .error e → Quiet v result.2.2 ∨ (e = Staged.unconfirmed ∧ ∃ token, request = .commitWrite token)

theorem served_beginWrite {p : Platform} {c : Chance} {f : FileService} {v : Volume} {log : List Exchange} {dir : Nat}
    {owner workspace path : String} {revision : Option String} {length : Nat} (h : Tidy f.stages v log)
    (hunused : v.Unused c.number) (htoken : c.token ∉ Saving.begun log)
    (hpublic : ∀ parent destination, destinationOf p c v dir path revision length = .ok (parent, destination) →
      hidden destination = false) :
    Served v log owner workspace (.beginWrite path revision length)
      (f.beginWrite p c v dir owner workspace path revision length) := by
  unfold FileService.beginWrite
  split
  · exact ⟨h.noted fun _ => accepted_begin .., fun _ _ => .inl (.refl v)⟩
  · rcases new_cases p c v dir owner workspace path revision length with
      ⟨e, w, heq, rfl | ⟨parent, hnone, rfl⟩⟩ | ⟨parent, destination, hdest, hnone, heq⟩
    · rw [heq]
      exact ⟨h.noted fun _ => accepted_begin .., fun _ _ => .inl (.refl w)⟩
    · rw [heq]
      refine ⟨(h.sub (fun _ _ hs => hs) fun t s hs => ?_).noted fun _ => accepted_begin ..,
        fun _ _ => .inl (quiet_made hunused)⟩
      exact undisturbed_made hunused hnone (h.upload t s hs)
    · rw [heq]
      refine ⟨?_, fun e he => by cases he⟩
      have hleft := (h.sub (fun _ _ hs => hs) fun t s hs =>
        undisturbed_made hunused hnone (h.upload t s hs)).noted fun _ => accepted_begin owner workspace
          path _ revision length (.ok (.token c.token))
      have hempty : accepted (⟨owner, workspace, .beginWrite path revision length, .ok (.token c.token)⟩ :: log)
          c.token = [] := by
        rw [accepted_cons, accepted_begin, h.fresh _ htoken]
        rfl
      refine hleft.insert ?_ fun t s hs _ heq => ?_
      · refine ⟨?_, fun d n hn => ?_, ?_, ?_, rfl, hidden_temporaryName _, hpublic _ _ hdest,
          path, List.mem_cons_self⟩
        · rw [entry_setBytes, entry_setEntry, if_pos ⟨rfl, rfl⟩]
        · rw [entry_setBytes, entry_setEntry] at hn
          split at hn
          · assumption
          · exact absurd hn (hunused.entry d n)
        · rw [hempty]
          exact AList.lookup_insert _
        · rw [hempty]
          rfl
      · have hbytes := (h.upload t s hs).bytes
        rw [heq, hunused.1] at hbytes
        cases hbytes

-- ---------------------------------------------------------------------------
-- WriteChunk and CancelWrite
-- ---------------------------------------------------------------------------

theorem stage_ok {f : FileService} {owner workspace token : String} {s : Staged}
    (h : f.stage owner workspace token = .ok s) :
    f.stages.lookup token = some s ∧ s.owner = owner ∧ s.workspace = workspace := by
  unfold FileService.stage at h
  split at h
  · next hs =>
    split at h
    · next heq =>
      cases h
      exact ⟨hs, by simpa using heq⟩
    · cases h
  · cases h

theorem splice_end (old bytes : Bytes) : Files.splice old old.length bytes = old ++ bytes := by
  simp [Files.splice]

section SetBytes

variable {log : List Exchange} {v : Volume} {token : String} {s : Staged}

/-- Nothing but the temporary name leads to what is written. -/
theorem Upload.quiet (h : Upload log v token s) (bytes : Bytes) : Quiet v (v.setBytes s.number bytes) := by
  intro d n hn
  refine look_eq rfl fun i hi => ?_
  rw [bytes_setBytes, if_neg]
  rintro rfl
  rw [(h.sole d n hi).2, h.temporary] at hn
  cases hn

theorem undisturbed_setBytes {number : Nat} (bytes : Bytes) (hne : s.number ≠ number) :
    Undisturbed s v (v.setBytes number bytes) :=
  ⟨rfl, fun _ _ hn => hn, AList.lookup_insert_ne hne⟩

theorem Upload.bytes_eq (h : Upload log v token s) : v.bytes s.number = accepted log token := by
  rw [Volume.bytes, h.bytes]
  rfl

end SetBytes

theorem write_cases (c : Chance) (v : Volume) (s : Staged) (offset : Nat) (bytes : Bytes) :
    (∃ e, s.write c v offset bytes = (.error e, s, v)) ∨
    (c.fails .write = true ∧ ∃ e, s.write c v offset bytes = (.error e, { s with position := s.position + c.written },
      v.setBytes s.number (Files.splice (v.bytes s.number) s.position (bytes.take c.written)))) ∨
    s.write c v offset bytes = (.ok (), { s with
        position := s.position + bytes.length
        written := s.written + bytes.length
        expires := c.now + UPLOAD_TIMEOUT },
      v.setBytes s.number (Files.splice (v.bytes s.number) s.position bytes)) := by
  unfold Staged.write
  split
  · exact .inl ⟨_, rfl⟩
  · split
    · next hfail =>
      simp only [Bool.and_eq_true] at hfail
      exact .inr (.inl ⟨hfail.1, _, rfl⟩)
    · exact .inr (.inr rfl)

/-- The bytes of one upload change, and what the others have stays. -/
theorem Tidy.change {stages : Table String Staged} {v : Volume} {log : List Exchange} (h : Tidy stages v log)
    {token : String} {s s' : Staged} (hs : stages.lookup token = some s) (hnumber : s'.number = s.number)
    {x : Exchange} (hx : ∀ t, t ≠ token → accepted [x] t = []) {bytes : Bytes}
    (hs' : Upload (x :: log) (v.setBytes s.number bytes) token s') :
    Tidy (stages.insert token s') (v.setBytes s.number bytes) (x :: log) where
  upload t u hu := by
    rw [Table.lookup_insert_if] at hu
    split at hu
    · next heq =>
      cases hu
      exact heq ▸ hs'
    · next hne =>
      have hdiff : u.number ≠ s.number := fun heq => hne (h.distinct _ _ _ _ hu hs heq)
      exact ((h.upload t u hu).undisturbed (undisturbed_setBytes bytes hdiff)).noted (hx t hne)
  distinct t₁ t₂ s₁ s₂ h₁ h₂ heq := by
    rw [Table.lookup_insert_if] at h₁ h₂
    split at h₁ <;> split at h₂
    · next h₁' h₂' => exact h₁'.trans h₂'.symm
    · next h₁' h₂' =>
      cases h₁
      exact absurd (h.distinct _ _ _ _ h₂ hs (heq.symm.trans hnumber)) h₂'
    · next h₁' h₂' =>
      cases h₂
      exact absurd (h.distinct _ _ _ _ h₁ hs (heq.trans hnumber)) h₁'
    · exact h.distinct _ _ _ _ h₁ h₂ heq
  fresh t hnew := by
    have hold : t ∉ Saving.begun log := by
      intro hin
      refine hnew ?_
      obtain ⟨y, hy, heq⟩ := List.mem_filterMap.mp hin
      exact List.mem_filterMap.mpr ⟨y, List.mem_cons_of_mem _ hy, heq⟩
    have hne : t ≠ token := by
      rintro rfl
      exact hold (h.upload t s hs).token
    rw [accepted_cons, hx t hne, h.fresh t hold]
    rfl

theorem served_writeChunk {c : Chance} {f : FileService} {v : Volume} {log : List Exchange}
    {owner workspace token : String} {offset : Nat} {bytes : Bytes} (h : Tidy f.stages v log)
    (hwhole : c.fails .write = true → c.written = 0) :
    Served v log owner workspace (.writeChunk token offset bytes) (f.writeChunk c v owner workspace token offset bytes) := by
  have hrefused : ∀ e t, accepted [⟨owner, workspace, .writeChunk token offset bytes, .error e⟩] t = [] :=
    fun e t => accepted_other fun _ _ _ _ h => nomatch h
  unfold FileService.writeChunk
  cases hstage : f.stage owner workspace token with
  | error e => exact ⟨h.noted (hrefused e), fun _ _ => .inl (.refl v)⟩
  | ok s =>
    have hs := (stage_ok hstage).1
    have hu := h.upload token s hs
    have hdistinct : ∀ t' s', f.stages.lookup t' = some s' → t' ≠ token → s'.number ≠ s.number :=
      fun t' s' hs' hne heq => hne (h.distinct _ _ _ _ hs' hs heq)
    dsimp only
    rcases write_cases c v s offset bytes with ⟨e, heq⟩ | ⟨hfail, e, heq⟩ | heq
    · rw [heq]
      exact ⟨(h.insert hu hdistinct).noted (hrefused e), fun _ _ => .inl (.refl v)⟩
    · rw [heq]
      -- Nothing was written, so the file is as it was.
      have hzero := hwhole hfail
      have hsame : Files.splice (v.bytes s.number) s.position (bytes.take c.written) = accepted log token := by
        rw [hzero, List.take_zero, hu.position, hu.written, hu.bytes_eq, splice_end, List.append_nil]
      rw [hsame]
      refine ⟨h.change hs (by rfl) (fun t _ => hrefused e t) (Upload.noted ?_ (hrefused e token)),
        fun _ _ => .inl (hu.quiet _)⟩
      refine ⟨hu.entry, hu.sole, AList.lookup_insert _, hu.written, ?_, hu.temporary, hu.destination, hu.begun⟩
      rw [hzero]
      exact hu.position
    · rw [heq]
      have hbytes : Files.splice (v.bytes s.number) s.position bytes = accepted log token ++ bytes := by
        rw [hu.position, hu.written, hu.bytes_eq, splice_end]
      have hchunk : accepted (⟨owner, workspace, .writeChunk token offset bytes, .ok .empty⟩ :: log) token =
          accepted log token ++ bytes := by
        rw [accepted_cons, accepted_chunk]
      rw [hbytes]
      refine ⟨h.change hs (by rfl) (fun t ht => ?_) ?_, fun e he => by cases he⟩
      · refine accepted_other fun o b r hreq => ?_
        cases hreq
        exact absurd rfl ht
      · refine ⟨hu.entry, hu.sole, ?_, ?_, ?_, hu.temporary, hu.destination, ?_⟩
        · exact hchunk ▸ AList.lookup_insert _
        · exact (congrArg (· + bytes.length) hu.written).trans (by rw [← List.length_append, ← hchunk]; rfl)
        · exact congrArg (· + bytes.length) hu.position
        · exact hu.begun.imp fun _ hin => List.mem_cons_of_mem _ hin

/-- One upload ends. -/
theorem Tidy.dropped {stages : Table String Staged} {v : Volume} {log : List Exchange} (h : Tidy stages v log)
    {token : String} {s : Staged} (hs : stages.lookup token = some s) (c : Chance) {x : Exchange}
    (hx : ∀ t, accepted [x] t = []) : Tidy (stages.erase token) (s.drop c v token) (x :: log) := by
  refine Tidy.noted (h.sub (fun t u hu => ?_) fun t u hu => ?_) hx
  · rw [Table.lookup_erase_if] at hu
    split at hu
    · cases hu
    · exact hu
  · rw [Table.lookup_erase_if] at hu
    split at hu
    · cases hu
    · next hne =>
      exact (pruned_drop c v token s).undisturbed (h.apart hu hs hne).2

theorem served_cancelWrite {c : Chance} {f : FileService} {v : Volume} {log : List Exchange}
    {owner workspace token : String} (h : Tidy f.stages v log) :
    Served v log owner workspace (.cancelWrite token) (f.cancelWrite c v owner workspace token) := by
  have hx : ∀ answer t, accepted [⟨owner, workspace, .cancelWrite token, answer⟩] t = [] :=
    fun answer t => accepted_other fun _ _ _ h => nomatch h
  unfold FileService.cancelWrite
  cases hstage : f.stage owner workspace token with
  | error e => exact ⟨h.noted (hx _), fun _ _ => .inl (.refl v)⟩
  | ok s => exact ⟨h.dropped (stage_ok hstage).1 c (hx _), fun e he => by cases he⟩

end RemoteCodex.Editor
