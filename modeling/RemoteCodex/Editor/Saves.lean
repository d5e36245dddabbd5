import RemoteCodex.Editor.Uploads

/-!
# What a save does

A commit puts the upload's file in the place of the revision it was begun
with, or leaves everything as it was; no other request changes what stands
under a name while it fails.
-/

namespace RemoteCodex.Editor

open Interact Transfer Volume Saving
open Files (Bytes)

-- ---------------------------------------------------------------------------
-- CommitWrite
-- ---------------------------------------------------------------------------

theorem Upload.ne {log : List Exchange} {v : Volume} {token : String} {s : Staged} (h : Upload log v token s) :
    s.destination ≠ s.temporary := by
  intro heq
  have hhidden := h.temporary
  rw [← heq, h.destination] at hhidden
  cases hhidden

theorem read_ok {p : Platform} {c : Chance} {v : Volume} {dir number : Nat} {name revision : String} {bytes : Bytes}
    (hentry : v.entry dir name = some (.file number)) (h : p.read c v dir name = .ok (bytes, revision)) :
    bytes = v.bytes number ∧ revision = p.digest (v.bytes number) := by
  have hresolve : p.resolve v dir name = some (.file number) := by
    unfold Platform.resolve
    rw [hentry]
  simp only [Platform.read, bind_ok, demand_ok, orFault_ok, hresolve, Option.some.injEq] at h
  obtain ⟨-, -, _, rfl, -, -, h⟩ := h
  simp only [bind_ok, demand_ok, pure_ok, Prod.mk.injEq] at h
  obtain ⟨-, -, -, -, rfl, rfl⟩ := h
  exact ⟨rfl, rfl⟩

theorem check_ok {p : Platform} {c : Chance} {v : Volume} {log : List Exchange} {token revision : String} {s : Staged}
    (hu : Upload log v token s) (h : s.check p c v = .ok revision) :
    s.written = s.length ∧ revision = p.digest (accepted log token) ∧
      (Wire.Json.ofUtf8 (accepted log token)).isSome = true ∧
      p.revision c v s.parent s.destination = .ok s.expected := by
  simp only [Staged.check, bind_ok, demand_ok, decide_eq_true_eq] at h
  obtain ⟨-, hwritten, -, -, ⟨bytes, found⟩, hread, -, hutf8, actual, hrevision, h⟩ := h
  obtain ⟨rfl, rfl⟩ := read_ok hu.entry hread
  rw [hu.bytes_eq] at hutf8 h
  split at h
  · cases h
  · next hexpected =>
    simp only [pure_ok] at h
    obtain ⟨-, -, rfl⟩ := h
    rw [Decidable.not_not] at hexpected
    exact ⟨hwritten, rfl, hutf8, hexpected ▸ hrevision⟩

/-- The destination leads to the upload's file, and nothing else has changed but the temporary name. -/
structure Published (s : Staged) (v w : Volume) : Prop where
  files : w.files = v.files
  entry : w.entry s.parent s.destination = some (.file s.number)
  same : ∀ d n, ¬ (d = s.parent ∧ n = s.destination) → ¬ (d = s.parent ∧ n = s.temporary) → w.entry d n = v.entry d n
  less : ∀ d n i, i ≠ s.number → w.entry d n = some (.file i) → v.entry d n = some (.file i)

theorem hardLink_file {v w : Volume} {dir number : Nat} {source target : String}
    (hentry : v.entry dir source = some (.file number)) (h : v.hardLink dir source target = some w) :
    v.entry dir target = none ∧ w = v.setEntry dir target (.file number) := by
  unfold hardLink at h
  rw [hentry] at h
  cases htarget : v.entry dir target with
  | none =>
    rw [htarget] at h
    exact ⟨rfl, (Option.some.inj h).symm⟩
  | some e =>
    rw [htarget] at h
    cases h

theorem rename_file {v w : Volume} {dir number : Nat} {source target : String}
    (hentry : v.entry dir source = some (.file number)) (hother : v.entry dir target ≠ some (.file number))
    (h : v.rename dir source target = some w) :
    w = (v.removeEntry dir source).setEntry dir target (.file number) := by
  unfold rename at h
  rw [hentry] at h
  cases htarget : v.entry dir target with
  | none =>
    rw [htarget] at h
    exact (Option.some.inj h).symm
  | some e =>
    rw [htarget] at h hother
    cases e with
    | file j =>
      have hne : number ≠ j := fun heq => hother (heq ▸ rfl)
      simp only [if_neg hne] at h
      exact (Option.some.inj h).symm
    | directory id => cases h
    | symlink link => exact (Option.some.inj h).symm
    | special => exact (Option.some.inj h).symm

theorem publish_ok {c : Chance} {v w : Volume} {log : List Exchange} {token : String} {s : Staged}
    (hu : Upload log v token s) (h : s.publish c v = .ok w) :
    Published s v w ∧ (s.expected = none → v.entry s.parent s.destination = none) := by
  have hne : ¬ (s.parent = s.parent ∧ s.destination = s.temporary) := fun hand => hu.ne hand.2
  unfold Staged.publish at h
  split at h
  · next hnone =>
    rw [orFault_ok] at h
    split at h
    · cases h
    · obtain ⟨hfree, rfl⟩ := hardLink_file hu.entry h
      refine ⟨⟨rfl, ?_, fun d n hd _ => ?_, fun d n i hi hn => ?_⟩, fun _ => hfree⟩
      · rw [entry_setEntry, if_pos ⟨rfl, rfl⟩]
      · rw [entry_setEntry, if_neg hd]
      · rw [entry_setEntry] at hn
        split at hn
        · cases hn
          exact absurd rfl hi
        · exact hn
  · next hsome =>
    have hmoved : w = (v.removeEntry s.parent s.temporary).setEntry s.parent s.destination (.file s.number) := by
      rw [orFault_ok] at h
      split at h
      · cases h
      · exact rename_file hu.entry (fun hsame => hu.ne (hu.sole _ _ hsame).2) h
    subst hmoved
    refine ⟨⟨rfl, ?_, fun d n hd ht => ?_, fun d n i hi hn => ?_⟩, fun hnone => absurd (by rw [hnone]; rfl) hsome⟩
    · rw [entry_setEntry, if_pos ⟨rfl, rfl⟩]
    · rw [entry_setEntry, if_neg hd, entry_removeEntry, if_neg ht]
    · rw [entry_setEntry] at hn
      split at hn
      · cases hn
        exact absurd rfl hi
      · rw [entry_removeEntry] at hn
        split at hn
        · cases hn
        · exact hn

theorem commit_cases (p : Platform) (c : Chance) (v : Volume) (s : Staged) :
    (∃ e, s.commit p c v = (.error e, v)) ∨
      ∃ revision w, s.check p c v = .ok revision ∧ s.publish c v = .ok w ∧
        (s.commit p c v = (.ok revision, w) ∨ s.commit p c v = (.error Staged.unconfirmed, w)) := by
  unfold Staged.commit
  cases hcheck : s.check p c v with
  | error e => exact .inl ⟨e, rfl⟩
  | ok revision =>
    cases hpublish : s.publish c v with
    | error e => exact .inl ⟨e, by simp⟩
    | ok w =>
      refine .inr ⟨revision, w, rfl, rfl, ?_⟩
      dsimp only
      split
      · exact .inr rfl
      · exact .inl rfl

theorem Published.undisturbed {s u : Staged} {v w : Volume} (h : Published s v w) (hnumber : u.number ≠ s.number)
    (htemporary : ¬ (u.parent = s.parent ∧ u.temporary = s.temporary)) (hdestination : u.temporary ≠ s.destination) :
    Undisturbed u v w :=
  ⟨h.same _ _ (fun hand => hdestination hand.2) htemporary, fun d n hn => h.less d n _ hnumber hn, by rw [h.files]⟩

theorem Tidy.published {stages : Table String Staged} {v w : Volume} {log : List Exchange} (h : Tidy stages v log)
    {token : String} {s : Staged} (hs : stages.lookup token = some s) (hp : Published s v w) (c : Chance)
    {x : Exchange} (hx : ∀ t, accepted [x] t = []) : Tidy (stages.erase token) (s.drop c w token) (x :: log) := by
  have hleft : ∀ t u, (stages.erase token).lookup t = some u → stages.lookup t = some u ∧ t ≠ token := by
    intro t u hu
    rw [Table.lookup_erase_if] at hu
    split at hu
    · cases hu
    · next hne => exact ⟨hu, hne⟩
  have hmoved : Tidy (stages.erase token) w log := by
    refine h.sub (fun t u hu => (hleft t u hu).1) fun t u hu => ?_
    obtain ⟨hu, hne⟩ := hleft t u hu
    refine hp.undisturbed (h.apart hu hs hne).1 (h.apart hu hs hne).2 fun heq => ?_
    have hhidden := (h.upload t u hu).temporary
    rw [heq, (h.upload token s hs).destination] at hhidden
    cases hhidden
  refine Tidy.noted (hmoved.sub (fun _ _ hu => hu) fun t u hu => ?_) hx
  obtain ⟨hu, hne⟩ := hleft t u hu
  exact (pruned_drop c w token s).undisturbed (h.apart hu hs hne).2

theorem served_commitWrite {p : Platform} {c : Chance} {f : FileService} {v : Volume} {log : List Exchange}
    {owner workspace token : String} (h : Tidy f.stages v log) :
    Served v log owner workspace (.commitWrite token) (f.commitWrite p c v owner workspace token) := by
  have hx : ∀ answer t, accepted [⟨owner, workspace, .commitWrite token, answer⟩] t = [] :=
    fun answer t => accepted_other fun _ _ _ h => nomatch h
  unfold FileService.commitWrite
  cases hstage : f.stage owner workspace token with
  | error e => exact ⟨h.noted (hx _), fun _ _ => .inl (.refl v)⟩
  | ok s =>
    have hs := (stage_ok hstage).1
    have hu := h.upload token s hs
    dsimp only
    rcases commit_cases p c v s with ⟨e, heq⟩ | ⟨revision, w, -, hpublish, heq | heq⟩
    · rw [heq]
      refine ⟨h.dropped hs c (hx _), fun _ _ => .inl ((pruned_drop c v token s).quiet ?_)⟩
      rintro d n ⟨-, rfl⟩
      exact hu.temporary
    · rw [heq]
      exact ⟨h.published hs (publish_ok hu hpublish).1 c (hx _), fun e he => by cases he⟩
    · rw [heq]
      refine ⟨h.published hs (publish_ok hu hpublish).1 c (hx _), fun e he => .inr ?_⟩
      cases he
      exact ⟨rfl, token, rfl⟩

-- ---------------------------------------------------------------------------
-- The other requests
-- ---------------------------------------------------------------------------

theorem hidden_lastName {path : String} {names : List String} {name : String}
    (hpublic : ∀ name ∈ lastName path, hidden name = false) (hpath : relative path false = .ok names)
    (hlast : names.getLast? = some name) : hidden name = false := by
  refine hpublic name ?_
  rw [lastName, hpath]
  exact hlast

theorem last_of_locate {p : Platform} {v : Volume} {dir parent : Nat} {path : List String} {name : String}
    (h : p.locate v dir path = some (parent, name)) : path.getLast? = some name := by
  unfold Platform.locate at h
  obtain ⟨_, -, h⟩ := Option.bind_eq_some_iff.mp h
  obtain ⟨_, hlast, heq⟩ := Option.map_eq_some_iff.mp h
  cases heq
  exact hlast

section Wholly

variable {p : Platform} {c : Chance} {v w : Volume} {log : List Exchange} {token : String} {s : Staged} {dir : Nat}

theorem Upload.name_ne (hu : Upload log v token s) {name : String} (h : hidden name = false) : s.temporary ≠ name := by
  rintro rfl
  rw [hu.temporary] at h
  cases h

theorem undisturbed_createDirectory {path : String} (hu : Upload log v token s)
    (h : createDirectory p c v dir path = .ok w) : Undisturbed s v w := by
  simp only [createDirectory, bind_ok, orFault_ok, demand_ok, pure_ok, Option.isNone_iff_eq_none] at h
  obtain ⟨-, -, ⟨parent, name⟩, -, -, hnone, rfl⟩ := h
  refine ⟨?_, fun d n hn => ?_, rfl⟩
  · rw [entry_setEntry, if_neg]
    rintro ⟨rfl, rfl⟩
    rw [hu.entry] at hnone
    cases hnone
  · rw [entry_setEntry] at hn
    split at hn
    · cases hn
    · exact hn

theorem undisturbed_removeEntry {path : String} (hu : Upload log v token s)
    (hpublic : ∀ name ∈ lastName path, hidden name = false) (h : removeEntry p c v dir path = .ok w) :
    Undisturbed s v w := by
  simp only [removeEntry, bind_ok, orFault_ok, demand_ok, pure_ok] at h
  obtain ⟨names, hpath, ⟨parent, name⟩, hlocate, -, -, -, -, rfl⟩ := h
  split at hlocate
  · cases hlocate
  · refine (pruned_removeEntry v parent name).undisturbed ?_
    exact fun hand => hu.name_ne (hidden_lastName hpublic hpath (last_of_locate hlocate)) hand.2

theorem undisturbed_renameEntry {path destination : String} (hu : Upload log v token s)
    (hpublic : ∀ name ∈ lastName path, hidden name = false) (h : renameEntry p c v dir path destination = .ok w) :
    Undisturbed s v w := by
  simp only [renameEntry, bind_ok, orFault_ok, demand_ok, pure_ok] at h
  obtain ⟨names, hpath, _, -, -, -, source, -, target, -, name, hname, name', -, e, hentry, rfl⟩ := h
  have hlast : names.getLast? = some name := by
    split at hname
    · next hl =>
      cases hname
      exact hl
    · cases hname
  have hne := hu.name_ne (hidden_lastName hpublic hpath hlast)
  split at hentry
  · cases hentry
  · next hfree =>
    have hnone : v.entry target name' = none := by
      simp only [Bool.or_eq_true, not_or, Bool.not_eq_true, Option.isSome_eq_false_iff,
        Option.isNone_iff_eq_none] at hfree
      exact hfree.2
    refine ⟨?_, fun d n hn => ?_, rfl⟩
    · rw [entry_setEntry, if_neg, entry_removeEntry, if_neg fun hand => hne hand.2]
      rintro ⟨rfl, rfl⟩
      rw [hu.entry] at hnone
      cases hnone
    · rw [entry_setEntry] at hn
      split at hn
      · -- The entry that was moved is not the upload's, for that one has another name.
        cases hn
        exact absurd (hu.sole _ _ hentry).2.symm hne
      · rw [entry_removeEntry] at hn
        split at hn
        · cases hn
        · exact hn

end Wholly

theorem served_wholly {f : FileService} {v : Volume} {log : List Exchange} {owner workspace : String}
    {request : FileRequest} {result : Except Fault Volume} (h : Tidy f.stages v log)
    (hx : ∀ answer t, accepted [⟨owner, workspace, request, answer⟩] t = [])
    (hleft : ∀ w, result = .ok w → ∀ t s, f.stages.lookup t = some s → Undisturbed s v w) :
    Served v log owner workspace request (wholly f v result) := by
  cases result with
  | error e => exact ⟨h.noted (hx _), fun _ _ => .inl (.refl v)⟩
  | ok w => exact ⟨(h.sub (fun _ _ hs => hs) (hleft w rfl)).noted (hx _), fun e he => by cases he⟩

theorem served_reading {f : FileService} {v : Volume} {log : List Exchange} {owner workspace : String}
    {request : FileRequest} (h : Tidy f.stages v log)
    (hx : ∀ answer t, accepted [⟨owner, workspace, request, answer⟩] t = []) (answer : Except Fault Reply) :
    Served v log owner workspace request (answer, f, v) := ⟨h.noted (hx _), fun _ _ => .inl (.refl v)⟩

/-- Every request keeps the uploads tidy. -/
theorem served_dispatch {p : Platform} {s : Saving} {c : Chance} {owner workspace : String} {request : FileRequest}
    (h : Tidy s.service.stages s.volume s.log) (hdrawn : s.Drawn c)
    (haside : Aside p s (.request owner workspace request c)) :
    Served s.volume s.log owner workspace request (s.service.dispatch p c s.volume owner workspace request) := by
  obtain ⟨hpublic, hwhole⟩ := haside
  obtain ⟨htidy, hquiet, hunused⟩ := h.retain c
  -- What the request does comes after the expired uploads are gone.
  have hafter : ∀ {result}, Served (s.service.retain c s.volume).2 s.log owner workspace request result →
      Served s.volume s.log owner workspace request result :=
    fun h => ⟨h.tidy, fun e he => (h.quiet e he).imp_left hquiet.trans⟩
  have hx : (∀ t o bytes, request ≠ .writeChunk t o bytes) →
      ∀ answer t, accepted [⟨owner, workspace, request, answer⟩] t = [] :=
    fun hne answer t => accepted_other fun o bytes _ heq => absurd heq (hne t o bytes)
  have hfault : ∀ e, Served s.volume s.log owner workspace request
      (.error e, (s.service.retain c s.volume).1, (s.service.retain c s.volume).2) := fun e =>
    ⟨htidy.noted fun _ => accepted_other (fun _ _ _ _ h => nomatch h), fun _ _ => .inl hquiet⟩
  unfold FileService.dispatch
  dsimp only
  split
  · exact hfault _
  · split
    · exact hfault _
    · next dir hdir =>
      have hambient : p.ambient (s.service.retain c s.volume).2 workspace = some dir := by
        split at hdir
        · cases hdir
        · exact hdir
      refine hafter ?_
      cases request with
      | list path => exact served_reading htidy (hx (by rintro _ _ _ ⟨⟩)) _
      | read path offset revision => exact served_reading htidy (hx (by rintro _ _ _ ⟨⟩)) _
      | beginWrite path revision length =>
        exact served_beginWrite htidy (hunused _ hdrawn.2) hdrawn.1
          fun parent destination hdest => hpublic dir parent destination hdest hambient
      | writeChunk token offset bytes => exact served_writeChunk htidy hwhole
      | commitWrite token => exact served_commitWrite htidy
      | cancelWrite token => exact served_cancelWrite htidy
      | createDirectory path =>
        exact served_wholly htidy (hx (by rintro _ _ _ ⟨⟩)) fun w hw t u hu =>
          undisturbed_createDirectory (htidy.upload t u hu) hw
      | rename path destination =>
        exact served_wholly htidy (hx (by rintro _ _ _ ⟨⟩)) fun w hw t u hu =>
          undisturbed_renameEntry (htidy.upload t u hu) hpublic hw
      | remove path =>
        exact served_wholly htidy (hx (by rintro _ _ _ ⟨⟩)) fun w hw t u hu =>
          undisturbed_removeEntry (htidy.upload t u hu) hpublic hw

-- ---------------------------------------------------------------------------
-- Whole runs
-- ---------------------------------------------------------------------------

namespace Saving

variable {p : Platform} {s t : Saving} {owner workspace : String} {request : FileRequest} {c : Chance}

/-- A commit of an upload is carried out, or the workspace cannot be opened. -/
theorem dispatch_commit {f : FileService} {v : Volume} {token : String} {upload : Staged}
    (hstage : (f.retain c v).1.stage owner workspace token = .ok upload) :
    (∃ e, f.dispatch p c v owner workspace (.commitWrite token) = (.error e, f.retain c v)) ∨
      f.dispatch p c v owner workspace (.commitWrite token) =
        ((upload.commit p c (f.retain c v).2).1.map .revision,
          { (f.retain c v).1 with stages := (f.retain c v).1.stages.erase token },
          upload.drop c (upload.commit p c (f.retain c v).2).2 token) := by
  unfold FileService.dispatch
  dsimp only
  split
  · exact .inl ⟨_, rfl⟩
  · split
    · exact .inl ⟨_, rfl⟩
    · refine .inr ?_
      dsimp only [FileService.perform, FileService.commitWrite]
      rw [hstage]

/-- What a request is answered. -/
def answer (p : Platform) (s : Saving) (owner workspace : String) (request : FileRequest) (c : Chance) :
    Except Fault Reply := (s.service.dispatch p c s.volume owner workspace request).1

theorem request_ok (h : next p s (.request owner workspace request c) = some t) :
    s.Drawn c ∧ t = s.serve p owner workspace request c := by
  simp only [next] at h
  split at h
  · next hdrawn => exact ⟨hdrawn, (Option.some.inj h).symm⟩
  · cases h

theorem next_request (h : s.Drawn c) : next p s (.request owner workspace request c) =
    some (s.serve p owner workspace request c) := if_pos h

theorem tidy_of_run {h : List FileEvent} (hrun : Run (next p) (Aside p) {} h s) :
    Tidy s.service.stages s.volume s.log := by
  refine hrun.invariant (I := fun s => Tidy s.service.stages s.volume s.log) ⟨by rintro _ _ ⟨⟩, by rintro _ _ _ _ ⟨⟩, fun _ _ => rfl⟩ fun s e t hs haside hnext => ?_
  cases e with
  | request owner workspace request c =>
    obtain ⟨hdrawn, rfl⟩ := request_ok hnext
    exact (served_dispatch hs hdrawn haside).tidy
  | others volume =>
    cases hnext
    exact hs.sub (fun _ _ hu => hu) fun token u hu => haside u (Table.mem_values.mpr ⟨token, hu⟩)

/-- The upload has taken the place of what had the revision it was begun with,
and the answer tells the revision of what was accepted. -/
structure Replaced (p : Platform) (c : Chance) (s t : Saving) (token : String) (upload : Staged)
    (answer : Except Fault Reply) : Prop where
  revision : p.revision c (s.service.retain c s.volume).2 upload.parent upload.destination = .ok upload.expected
  absent : upload.expected = none →
    (s.service.retain c s.volume).2.entry upload.parent upload.destination = none
  content : t.volume.look upload.parent upload.destination = some (.file upload.number, accepted s.log token)
  length : (accepted s.log token).length = upload.length
  utf8 : (Wire.Json.ofUtf8 (accepted s.log token)).isSome = true
  answer : answer = .ok (.revision (p.digest (accepted s.log token))) ∨ answer = .error Staged.unconfirmed

/-- As long as nobody touches the service's own files and a write that fails
has written nothing: a request that fails changes nothing, but for a commit
that could not make sure of its directory; and a commit is of an upload that
was begun, and refuses it or puts what was accepted in the place of the
revision it was begun with. -/
theorem saves_sound {h : List FileEvent} (hrun : Run (next p) (Aside p) {} h s)
    (haside : Aside p s (.request owner workspace request c))
    (hnext : next p s (.request owner workspace request c) = some t) :
    (∀ e, s.answer p owner workspace request c = .error e →
      Quiet s.volume t.volume ∨ (e = Staged.unconfirmed ∧ ∃ token, request = .commitWrite token)) ∧
    ∀ token upload, request = .commitWrite token →
      (s.service.retain c s.volume).1.stage owner workspace token = .ok upload →
      (∃ path, ⟨owner, workspace, .beginWrite path upload.expected upload.length, .ok (.token token)⟩ ∈ s.log) ∧
        ((∃ e, s.answer p owner workspace request c = .error e ∧ Quiet s.volume t.volume) ∨
          Replaced p c s t token upload (s.answer p owner workspace request c)) := by
  have htidy := tidy_of_run hrun
  obtain ⟨hdrawn, rfl⟩ := request_ok hnext
  refine ⟨(served_dispatch htidy hdrawn haside).quiet, ?_⟩
  rintro token upload rfl hstage
  obtain ⟨hafter, hquiet, -⟩ := htidy.retain c
  obtain ⟨hs, rfl, rfl⟩ := stage_ok hstage
  have hu := hafter.upload token upload hs
  refine ⟨hu.begun, ?_⟩
  unfold Saving.answer serve
  rcases dispatch_commit (p := p) hstage with ⟨e, hdispatch⟩ | hdispatch
  · rw [hdispatch]
    exact .inl ⟨e, rfl, hquiet⟩
  · rcases commit_cases p c (s.service.retain c s.volume).2 upload with ⟨e, heq⟩ | ⟨revision, w, hcheck, hpublish, heq⟩
    · rw [hdispatch, heq]
      refine .inl ⟨e, rfl, hquiet.trans ((pruned_drop c _ token upload).quiet ?_)⟩
      rintro d n ⟨-, rfl⟩
      exact hu.temporary
    · obtain ⟨hwritten, rfl, hutf8, hrevision⟩ := check_ok hu hcheck
      obtain ⟨hpublished, habsent⟩ := publish_ok hu hpublish
      have hlook : (upload.drop c w token).look upload.parent upload.destination =
          some (.file upload.number, accepted s.log token) := by
        have hpruned := pruned_drop c w token upload
        unfold look
        rw [hpruned.same _ _ fun hand => hu.ne hand.2, hpublished.entry]
        simp only [Option.map_some, content, Volume.bytes, hpruned.files, hpublished.files, hu.bytes, Option.getD_some]
      have hlength := hu.written.symm.trans hwritten
      rcases heq with heq | heq
      · rw [hdispatch, heq]
        exact .inr ⟨hrevision, habsent, hlook, hlength, hutf8, .inl rfl⟩
      · rw [hdispatch, heq]
        exact .inr ⟨hrevision, habsent, hlook, hlength, hutf8, .inr rfl⟩

-- ---------------------------------------------------------------------------
-- Some saves
-- ---------------------------------------------------------------------------

/-- One directory without links, and the digests of `ab` and `aab`. -/
def flat : Platform where
  ambient _ workspace := if workspace = "/work" then some 0 else none
  directory _ _ _ := none
  canonicalize _ _ path := some path
  follow _ _ _ := none
  digest bytes :=
    if bytes = [97, 98] then "fb8e20fc2e4c3f248c60c39bd652f3c1347298bb977b8b4d5903b85055620603"
    else if bytes = [97, 97, 98] then "38760eabb666e8e61ee628a17c4090cc50728e095ff24218119d51bd22475363"
    else ""

def drawn : Chance where
  token := "token"
  uuid := "uuid"
  number := 1

/-- An empty upload. -/
def started : Saving := serve flat {} "me" "/work" (.beginWrite "notes.txt" none 2) drawn

def drawnNext : Chance := { token := "other", number := 2 }

/-- Both bytes are written at once. -/
def uploaded : Saving := serve flat started "me" "/work" (.writeChunk "token" 0 [97, 98]) drawnNext

theorem started_reached : ∃ h, Run (next flat) (Aside flat) {} h started := by
  have haside : Aside flat {} (.request "me" "/work" (.beginWrite "notes.txt" none 2) drawn) := by
    refine ⟨fun dir parent destination hdest hambient => ?_, fun hfails => by cases hfails⟩
    cases hambient
    have heq : destinationOf flat drawn {} 0 "notes.txt" none 2 = .ok (0, "notes.txt") := by decide
    cases heq.symm.trans hdest
    decide
  exact ⟨_, .step .start haside (next_request (by decide))⟩

theorem uploaded_reached : ∃ h, Run (next flat) (Aside flat) {} h uploaded := by
  obtain ⟨h, hrun⟩ := started_reached
  have haside : Aside flat started (.request "me" "/work" (.writeChunk "token" 0 [97, 98]) drawnNext) :=
    ⟨trivial, fun hfails => by cases hfails⟩
  exact ⟨_, .step hrun haside (next_request (by decide))⟩

def theUpload : Staged where
  owner := "me"
  workspace := "/work"
  expires := UPLOAD_TIMEOUT
  parent := 0
  destination := "notes.txt"
  temporary := temporaryName "uuid"
  number := 1
  position := 2
  expected := none
  length := 2
  written := 2

def committing : Chance := { token := "third", number := 3 }

theorem saves_sound_new : Replaced flat committing uploaded
    (uploaded.serve flat "me" "/work" (.commitWrite "token") committing) "token" theUpload
    (uploaded.answer flat "me" "/work" (.commitWrite "token") committing) := by
  obtain ⟨h, hrun⟩ := uploaded_reached
  have haside : Aside flat uploaded (.request "me" "/work" (.commitWrite "token") committing) :=
    ⟨trivial, fun hfails => by cases hfails⟩
  have hstage : (uploaded.service.retain committing uploaded.volume).1.stage "me" "/work" "token" = .ok theUpload := by
    decide
  have hanswer : (uploaded.answer flat "me" "/work" (.commitWrite "token") committing).isOk = true := by decide
  have hsound := saves_sound hrun haside (next_request (by decide))
  rcases (hsound.2 "token" theUpload rfl hstage).2 with ⟨e, he, -⟩ | hreplaced
  · rw [he] at hanswer
    cases hanswer
  · exact hreplaced

/-- The write stops after one byte. -/
def tornWrite : Chance := { fails := fun call => call = .write, written := 1, token := "2", number := 2 }

/-- The chunk is sent again. -/
def torn : Saving :=
  serve flat (serve flat started "me" "/work" (.writeChunk "token" 0 [97, 98]) tornWrite) "me" "/work"
    (.writeChunk "token" 0 [97, 98]) { token := "3", number := 3 }

theorem torn_reached : ∃ h, Run (next flat) Free {} h torn := by
  obtain ⟨h, hrun⟩ := started_reached
  exact ⟨_, .step (.step hrun.free trivial (next_request (by decide))) trivial
    (next_request (by decide))⟩

/-- The directory cannot be made durable. -/
def unsynced : Chance := { fails := fun call => call = .syncDirectory, token := "third", number := 3 }

/-- What is published is not what was accepted; and a commit that fails has replaced the file. -/
theorem saves_unsound :
    (∃ h, Run (next flat) Free {} h torn ∧ torn.Drawn { token := "4", number := 4 } ∧
      accepted torn.log "token" = [97, 98] ∧
      torn.answer flat "me" "/work" (.commitWrite "token") { token := "4", number := 4 } =
        .ok (.revision (flat.digest [97, 97, 98])) ∧
      (torn.serve flat "me" "/work" (.commitWrite "token") { token := "4", number := 4 }).volume.look 0 "notes.txt" =
        some (.file 1, [97, 97, 98])) ∧
    ∃ h, Run (next flat) Free {} h uploaded ∧ uploaded.Drawn unsynced ∧ uploaded.volume.look 0 "notes.txt" = none ∧
      uploaded.answer flat "me" "/work" (.commitWrite "token") unsynced = .error Staged.unconfirmed ∧
      (uploaded.serve flat "me" "/work" (.commitWrite "token") unsynced).volume.look 0 "notes.txt" =
        some (.file 1, [97, 98]) := by
  obtain ⟨_, htorn⟩ := torn_reached
  obtain ⟨_, huploaded⟩ := uploaded_reached
  exact ⟨⟨_, htorn, by decide⟩, _, huploaded.free, by decide⟩

end Saving

end RemoteCodex.Editor
