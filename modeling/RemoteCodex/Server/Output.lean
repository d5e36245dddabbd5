import Mathlib.Data.List.Induction
import RemoteCodex.Interact.Pages
import RemoteCodex.Interact.Runs
import RemoteCodex.Server.Store

/-!
# The retained output of a job

Each notification of output is kept if it fits into what is left of the job's
limit, and the job is marked if one is not. A reader gets the kept records page
by page.
-/

namespace RemoteCodex.Server

open Interact Protocol Pages

namespace Store

/-- The job a notification of output is for. -/
def outputJob (s : Store) (channel : String) (params : Value) : Option String :=
  (params.index "processId").asStr.bind (s.processJob channel)

/-- `record_output`. The channel's actor alone adds jobs to it, so that the job
is still the one when the transaction begins. -/
def recordOutput (s : Store) (channel : String) (params : Value) : Store :=
  match s.outputJob channel params with
  | none => s
  | some id => s.saveOutput id params

end Store

/-- `received`: every notification that was for a job, with the job's id; the
code does not keep it. -/
structure Output where
  store : Store := {}
  received : List (String × Value) := []

inductive OutputEvent
  | record (profile channel : String) (params : Value) (kind id : String)
  | output (channel : String) (params : Value)
  | state (id : String) (state : JobState) (exit : Option Int)
  | close (channel : String)
  | reopen (reason : String)

namespace Output

def next (s : Output) : OutputEvent → Option Output
  | .record profile channel params kind id =>
    match s.store.recordJob profile channel params kind id with
    | .ok store => some { s with store }
    | .error _ => some s
  | .output channel params =>
    some { s with
      store := s.store.recordOutput channel params
      received := s.received ++ ((s.store.outputJob channel params).map fun id => (id, params)).toList }
  | .state id state exit => some { s with store := s.store.setJobState id state exit }
  | .close channel => some { s with store := s.store.closeJobs channel }
  | .reopen reason => some { s with store := s.store.reopen reason }

abbrev Reaches (h : List OutputEvent) (s : Output) : Prop := Run next Free {} h s

/-- The notifications of a job, in the order in which they came. -/
def receivedOf (s : Output) (id : String) : List Value := (s.received.filter fun r => r.1 = id).map Prod.snd

def rowsOf (store : Store) (id : String) : List JobOutput := store.jobOutput.filter fun row => row.job = id

/-- The records that are kept for a job, in the order of their cursors. -/
def keptOf (s : Output) (id : String) : List Value := (rowsOf s.store id).map JobOutput.record

def sizes (records : List Value) : Int := (records.map fun v => (v.size : Int)).sum

/-- The records that are kept when each is asked for its own size: what does
not fit into the room left is refused, what follows may still fit. -/
def admitted (room : Int) : List Value → List Value
  | [] => []
  | v :: vs => if v.size ≤ room then v :: admitted (room - v.size) vs else admitted room vs

/-- What a reader takes from a reply: the chunks and the cursor to go on from. -/
def takeReply (reply : Value) : List Value × Int :=
  ((reply.index "chunks").asArray.getD [],
    match reply.index "next_cursor" with
    | .int n => n
    | _ => 0)

/-- The replies to a reader that calls `job_output` again and again, each time
with the cursor of the reply before. -/
def calls (store : Store) (profile id : String) (created updated : Int) : Nat → Int → List (List Value × Int)
  | 0, _ => []
  | n + 1, after =>
    match store.jobOutputOf profile id after created updated with
    | .error _ => []
    | .ok reply => takeReply reply :: calls store profile id created updated n (takeReply reply).2

-- ---------------------------------------------------------------------------
-- Admission
-- ---------------------------------------------------------------------------

variable {s t : Output} {e : OutputEvent} {h : List OutputEvent} {id : String} {room : Int} {v : Value}
  {records : List Value} {job : Job}

theorem admitted_sublist (room : Int) (records : List Value) : (admitted room records).Sublist records := by
  induction records generalizing room with
  | nil => exact .slnil
  | cons v vs ih =>
    unfold admitted
    split
    · exact (ih _).cons_cons v
    · exact (ih _).cons v

theorem sizes_append (records : List Value) (v : Value) : sizes (records ++ [v]) = sizes records + v.size := by
  simp [sizes]

theorem sizes_cons (v : Value) (records : List Value) : sizes (v :: records) = v.size + sizes records := rfl

theorem admitted_append (room : Int) (records : List Value) (v : Value) :
    admitted room (records ++ [v]) =
      admitted room records ++ if v.size ≤ room - sizes (admitted room records) then [v] else [] := by
  induction records generalizing room with
  | nil =>
    rw [List.nil_append, admitted, admitted]
    show _ = [] ++ if (v.size : Int) ≤ room - 0 then [v] else []
    rw [Int.sub_zero, List.nil_append]
    rfl
  | cons w records ih =>
    rw [List.cons_append, admitted, admitted]
    split
    · rw [ih, List.cons_append, sizes_cons, Int.sub_sub]
    · exact ih room

theorem sizes_admitted (hroom : 0 ≤ room) : sizes (admitted room records) ≤ room := by
  induction records generalizing room with
  | nil => exact hroom
  | cons v vs ih =>
    unfold admitted
    split
    · next hfit =>
      have hrest : sizes (admitted (room - v.size) vs) ≤ room - v.size := ih (by omega)
      rw [sizes_cons]
      omega
    · exact ih hroom

-- ---------------------------------------------------------------------------
-- The invariant
-- ---------------------------------------------------------------------------

/-- What the row of a job says of its output. -/
structure Faithful (s : Output) (job : Job) : Prop where
  kept : keptOf s job.id = admitted Store.OUTPUT_LIMIT (receivedOf s job.id)
  bytes : job.outputBytes = sizes (keptOf s job.id)
  truncated : job.outputTruncated = true ↔ (keptOf s job.id).length < (receivedOf s job.id).length

structure Sound (s : Output) : Prop where
  sequence : 0 ≤ s.store.outputSequence
  sorted : Ascending JobOutput.cursor s.store.jobOutput
  range : ∀ row ∈ s.store.jobOutput, 0 < row.cursor ∧ row.cursor ≤ s.store.outputSequence
  ids : (s.store.jobs.map Job.id).Nodup
  kept : ∀ row ∈ s.store.jobOutput, row.job ∈ s.store.jobs.map Job.id
  received : ∀ r ∈ s.received, r.1 ∈ s.store.jobs.map Job.id
  faithful : ∀ job ∈ s.store.jobs, Faithful s job

theorem ids_updateJobs (store : Store) (p : Job → Bool) {f : Job → Job} (hid : ∀ job, (f job).id = job.id) :
    (store.updateJobs p f).jobs.map Job.id = store.jobs.map Job.id := by
  unfold Store.updateJobs
  rw [List.map_map]
  refine List.map_congr_left fun job _ => ?_
  show Job.id (if p job then f job else job) = job.id
  split
  · exact hid job
  · rfl

theorem Faithful.congr (hf : Faithful s job) (hrows : rowsOf t.store job.id = rowsOf s.store job.id)
    (hreceived : receivedOf t job.id = receivedOf s job.id) : Faithful t job := by
  have hkept : keptOf t job.id = keptOf s job.id := congrArg (List.map JobOutput.record) hrows
  refine ⟨?_, ?_, ?_⟩
  · rw [hkept, hreceived]
    exact hf.kept
  · rw [hkept]
    exact hf.bytes
  · rw [hkept, hreceived]
    exact hf.truncated

/-- An update of what a job's row says of other things. -/
theorem Sound.update (hs : Sound s) (p : Job → Bool) {f : Job → Job} (hid : ∀ job, (f job).id = job.id)
    (hbytes : ∀ job, (f job).outputBytes = job.outputBytes)
    (htruncated : ∀ job, (f job).outputTruncated = job.outputTruncated) :
    Sound { s with store := s.store.updateJobs p f } := by
  have hids := ids_updateJobs s.store p hid
  refine ⟨hs.sequence, hs.sorted, hs.range, hids ▸ hs.ids, hids ▸ hs.kept, hids ▸ hs.received, ?_⟩
  intro job hjob
  obtain ⟨old, hold, rfl⟩ := List.mem_map.mp hjob
  have hf := hs.faithful old hold
  split
  · refine ⟨?_, ?_, ?_⟩
    · rw [hid]
      exact hf.kept
    · rw [hbytes, hid]
      exact hf.bytes
    · rw [htruncated, hid]
      exact hf.truncated
  · exact ⟨hf.kept, hf.bytes, hf.truncated⟩

/-- A job that is new has received nothing and keeps nothing. -/
theorem Sound.record {profile channel kind : String} {params : Value} {store : Store} (hs : Sound s)
    (hok : s.store.recordJob profile channel params kind id = .ok store) : Sound { s with store } := by
  unfold Store.recordJob at hok
  split at hok
  · cases hok
  · split at hok
    · cases hok
    · next hnew =>
      cases hok
      have hfresh : id ∉ s.store.jobs.map Job.id := by
        intro hmem
        obtain ⟨old, hold, heq⟩ := List.mem_map.mp hmem
        exact hnew (List.any_eq_true.mpr ⟨old, hold, decide_eq_true heq⟩)
      refine ⟨hs.sequence, hs.sorted, hs.range, ?_, ?_, ?_, ?_⟩
      · rw [List.map_append]
        refine List.nodup_append.mpr ⟨hs.ids, List.nodup_singleton _, ?_⟩
        rintro a ha b hb rfl
        have heq : a = id := List.mem_singleton.mp hb
        exact hfresh (heq ▸ ha)
      · intro row hrow
        rw [List.map_append]
        exact List.mem_append_left _ (hs.kept row hrow)
      · intro r hr
        rw [List.map_append]
        exact List.mem_append_left _ (hs.received r hr)
      · intro job hjob
        rcases List.mem_append.mp hjob with hjob | hjob
        · have hf := hs.faithful job hjob
          exact ⟨hf.kept, hf.bytes, hf.truncated⟩
        · rw [List.mem_singleton.mp hjob]
          have hkept : rowsOf s.store id = [] := by
            refine List.filter_eq_nil_iff.mpr ?_
            intro row hrow heq
            exact hfresh (of_decide_eq_true heq ▸ hs.kept row hrow)
          have hreceived : s.received.filter (fun r => r.1 = id) = [] := by
            refine List.filter_eq_nil_iff.mpr ?_
            intro r hr heq
            exact hfresh (of_decide_eq_true heq ▸ hs.received r hr)
          refine ⟨?_, ?_, ?_⟩
          · show (rowsOf s.store id).map _ = admitted _ ((s.received.filter fun r => r.1 = id).map _)
            rw [hkept, hreceived]
            rfl
          · show (0 : Int) = sizes ((rowsOf s.store id).map _)
            rw [hkept]
            rfl
          · show false = true ↔
              ((rowsOf s.store id).map _).length < ((s.received.filter fun r => r.1 = id).map _).length
            rw [hkept, hreceived]
            simp

-- ---------------------------------------------------------------------------
-- A notification
-- ---------------------------------------------------------------------------

theorem outputJob_mem {channel : String} {params : Value} (h : s.store.outputJob channel params = some id) :
    id ∈ s.store.jobs.map Job.id := by
  obtain ⟨process, -, hjob⟩ := Option.bind_eq_some_iff.mp h
  unfold Store.processJob at hjob
  obtain ⟨job, hfound, rfl⟩ := Option.map_eq_some_iff.mp hjob
  rw [List.findRev?_eq_find?_reverse] at hfound
  exact List.mem_map_of_mem (List.mem_reverse.mp (List.mem_of_find?_eq_some hfound))

/-- One more notification was for the job `id`. -/
theorem receivedOf_append (s : Output) (store : Store) (id c : String) (v : Value) :
    receivedOf { s with store, received := s.received ++ [(id, v)] } c =
      receivedOf s c ++ if id = c then [v] else [] := by
  unfold receivedOf
  rw [List.filter_append, List.map_append, List.filter_cons]
  congr 1
  by_cases h : id = c <;> simp [h]

theorem rowsOf_append (store store' : Store) (cursor : Int) (c : String) (v : Value)
    (h : store'.jobOutput = store.jobOutput ++ [⟨cursor, id, v⟩]) :
    rowsOf store' c = rowsOf store c ++ if id = c then [⟨cursor, id, v⟩] else [] := by
  unfold rowsOf
  rw [h, List.filter_append, List.filter_cons]
  congr 1
  by_cases h : id = c <;> simp [h]

/-- The store with the record kept. -/
def keep (store : Store) (id : String) (v : Value) : Store :=
  { store.updateJobs (fun job => job.id = id) (fun job => { job with outputBytes := job.outputBytes + v.size }) with
    outputSequence := store.outputSequence + 1
    jobOutput := store.jobOutput ++ [⟨store.outputSequence + 1, id, v⟩] }

/-- The store with the record refused. -/
def refuse (store : Store) (id : String) : Store :=
  store.updateJobs (fun job => job.id = id) fun job => { job with outputTruncated := true }

/-- The transaction keeps the record if it fits into the room the job has left. -/
theorem saveOutput_cases (hs : Sound s) (hjob : job ∈ s.store.jobs) (v : Value) :
    (job.outputBytes + v.size ≤ Store.OUTPUT_LIMIT ∧ s.store.saveOutput job.id v = keep s.store job.id v) ∨
      (¬ job.outputBytes + v.size ≤ Store.OUTPUT_LIMIT ∧ s.store.saveOutput job.id v = refuse s.store job.id) := by
  have hthe : (s.store.jobs.any fun j => j.id = job.id && j.outputBytes + v.size ≤ Store.OUTPUT_LIMIT) =
      decide (job.outputBytes + v.size ≤ Store.OUTPUT_LIMIT) := by
    rw [Bool.eq_iff_iff, List.any_eq_true, decide_eq_true_iff]
    constructor
    · rintro ⟨j, hj, hfit⟩
      simp only [Bool.and_eq_true, decide_eq_true_eq] at hfit
      obtain rfl := List.inj_on_of_nodup_map hs.ids hj hjob hfit.1
      exact hfit.2
    · intro hfit
      exact ⟨job, hjob, by simpa using hfit⟩
  unfold Store.saveOutput
  rw [hthe]
  by_cases hfit : job.outputBytes + v.size ≤ Store.OUTPUT_LIMIT
  · exact .inl ⟨hfit, if_pos (decide_eq_true hfit)⟩
  · exact .inr ⟨hfit, if_neg (by simpa using hfit)⟩

/-- The room that admission leaves is what the job's row says. -/
theorem Faithful.left (hf : Faithful s job) :
    Store.OUTPUT_LIMIT - sizes (admitted Store.OUTPUT_LIMIT (receivedOf s job.id)) =
      Store.OUTPUT_LIMIT - job.outputBytes := by
  rw [hf.bytes, hf.kept]

theorem Faithful.keep (hf : Faithful s job) (hfit : job.outputBytes + v.size ≤ Store.OUTPUT_LIMIT) :
    Faithful { s with store := keep s.store job.id v, received := s.received ++ [(job.id, v)] }
      { job with outputBytes := job.outputBytes + v.size } := by
  have hkept : keptOf { s with store := Output.keep s.store job.id v, received := s.received ++ [(job.id, v)] }
      job.id = keptOf s job.id ++ [v] := by
    unfold keptOf
    rw [rowsOf_append s.store _ (s.store.outputSequence + 1) job.id v rfl, if_pos rfl, List.map_append]
    rfl
  have hreceived := receivedOf_append s (Output.keep s.store job.id v) job.id job.id v
  rw [if_pos rfl] at hreceived
  refine ⟨?_, ?_, ?_⟩
  · rw [hkept, hreceived, admitted_append, hf.left, if_pos (by omega), ← hf.kept]
  · rw [hkept, sizes_append, ← hf.bytes]
  · rw [hkept, hreceived, List.length_append, List.length_append]
    show _ ↔ (keptOf s job.id).length + 1 < (receivedOf s job.id).length + 1
    rw [Nat.add_lt_add_iff_right]
    exact hf.truncated

theorem Faithful.refuse (hf : Faithful s job) (hfit : ¬ job.outputBytes + v.size ≤ Store.OUTPUT_LIMIT) :
    Faithful { s with store := refuse s.store job.id, received := s.received ++ [(job.id, v)] }
      { job with outputTruncated := true } := by
  have hreceived := receivedOf_append s (Output.refuse s.store job.id) job.id job.id v
  rw [if_pos rfl] at hreceived
  refine ⟨?_, hf.bytes, ?_⟩
  · rw [hreceived, admitted_append, hf.left, if_neg (by omega), List.append_nil]
    exact hf.kept
  · rw [hreceived, List.length_append]
    have hle := (admitted_sublist Store.OUTPUT_LIMIT (receivedOf s job.id)).length_le
    rw [← hf.kept] at hle
    exact ⟨fun _ => Nat.lt_succ_of_le hle, fun _ => rfl⟩

theorem Sound.received_append (hs : Sound s) (hjob : job ∈ s.store.jobs) (v : Value) :
    ∀ r ∈ s.received ++ [(job.id, v)], r.1 ∈ s.store.jobs.map Job.id := by
  intro r hr
  rcases List.mem_append.mp hr with hr | hr
  · exact hs.received r hr
  · rw [List.mem_singleton.mp hr]
    exact List.mem_map_of_mem hjob

theorem Sound.keep (hs : Sound s) (hjob : job ∈ s.store.jobs)
    (hfit : job.outputBytes + v.size ≤ Store.OUTPUT_LIMIT) :
    Sound { s with store := keep s.store job.id v, received := s.received ++ [(job.id, v)] } := by
  have hsequence := hs.sequence
  have hids : (Output.keep s.store job.id v).jobs.map Job.id = s.store.jobs.map Job.id :=
    ids_updateJobs s.store _ fun _ => rfl
  refine ⟨Int.le_add_one hsequence, ?_, ?_, hids ▸ hs.ids, ?_, hids ▸ hs.received_append hjob v, ?_⟩
  · refine List.pairwise_append.mpr ⟨hs.sorted, List.pairwise_singleton _ _, ?_⟩
    intro row hrow new hnew
    rw [List.mem_singleton.mp hnew]
    exact Int.lt_add_one_of_le (hs.range row hrow).2
  · intro row hrow
    show 0 < row.cursor ∧ row.cursor ≤ s.store.outputSequence + 1
    rcases List.mem_append.mp hrow with hrow | hrow
    · have := hs.range row hrow
      omega
    · have heq : row.cursor = s.store.outputSequence + 1 := congrArg JobOutput.cursor (List.mem_singleton.mp hrow)
      omega
  · intro row hrow
    rw [hids]
    rcases List.mem_append.mp hrow with hrow | hrow
    · exact hs.kept row hrow
    · rw [List.mem_singleton.mp hrow]
      exact List.mem_map_of_mem hjob
  · intro j hj
    obtain ⟨old, hold, rfl⟩ := List.mem_map.mp hj
    have hf := hs.faithful old hold
    by_cases heq : old.id = job.id
    · obtain rfl := List.inj_on_of_nodup_map hs.ids hold hjob heq
      rw [if_pos (decide_eq_true rfl)]
      exact hf.keep hfit
    · rw [if_neg (by simpa using heq)]
      have hne : ¬ job.id = old.id := fun h => heq h.symm
      have hrows := rowsOf_append s.store (Output.keep s.store job.id v) (s.store.outputSequence + 1) old.id v rfl
      have hreceived := receivedOf_append s (Output.keep s.store job.id v) job.id old.id v
      rw [if_neg hne, List.append_nil] at hrows hreceived
      exact hf.congr hrows hreceived

theorem Sound.refuse (hs : Sound s) (hjob : job ∈ s.store.jobs)
    (hfit : ¬ job.outputBytes + v.size ≤ Store.OUTPUT_LIMIT) :
    Sound { s with store := refuse s.store job.id, received := s.received ++ [(job.id, v)] } := by
  have hids : (Output.refuse s.store job.id).jobs.map Job.id = s.store.jobs.map Job.id :=
    ids_updateJobs s.store _ fun _ => rfl
  refine ⟨hs.sequence, hs.sorted, hs.range, hids ▸ hs.ids, hids ▸ hs.kept, hids ▸ hs.received_append hjob v, ?_⟩
  intro j hj
  obtain ⟨old, hold, rfl⟩ := List.mem_map.mp hj
  have hf := hs.faithful old hold
  by_cases heq : old.id = job.id
  · obtain rfl := List.inj_on_of_nodup_map hs.ids hold hjob heq
    rw [if_pos (decide_eq_true rfl)]
    exact hf.refuse hfit
  · rw [if_neg (by simpa using heq)]
    have hne : ¬ job.id = old.id := fun h => heq h.symm
    have hreceived := receivedOf_append s (Output.refuse s.store job.id) job.id old.id v
    rw [if_neg hne, List.append_nil] at hreceived
    exact hf.congr rfl hreceived

theorem Sound.next (hs : Sound s) (hn : s.next e = some t) : Sound t := by
  cases e with
  | record profile channel params kind id =>
    simp only [Output.next] at hn
    split at hn
    · next store hok =>
      obtain rfl := Option.some.inj hn
      exact hs.record hok
    · exact Option.some.inj hn ▸ hs
  | output channel params =>
    obtain rfl := Option.some.inj hn
    unfold Store.recordOutput
    cases hfound : s.store.outputJob channel params with
    | none =>
      simp only [Option.map_none, Option.toList_none, List.append_nil]
      exact hs
    | some id =>
      obtain ⟨job, hjob, rfl⟩ := List.mem_map.mp (outputJob_mem hfound)
      simp only [Option.map_some, Option.toList_some]
      rcases saveOutput_cases hs hjob params with ⟨hfit, hsave⟩ | ⟨hfit, hsave⟩
      · rw [hsave]
        exact hs.keep hjob hfit
      · rw [hsave]
        exact hs.refuse hjob hfit
  | state id state exit =>
    obtain rfl := Option.some.inj hn
    exact hs.update _ (fun _ => rfl) (fun _ => rfl) fun _ => rfl
  | close channel =>
    obtain rfl := Option.some.inj hn
    exact hs.update _ (fun _ => rfl) (fun _ => rfl) fun _ => rfl
  | reopen reason =>
    obtain rfl := Option.some.inj hn
    have hupdate := hs.update (fun job => job.state.active) (f := fun job => { job with state := .unknown })
      (fun _ => rfl) (fun _ => rfl) fun _ => rfl
    refine ⟨hupdate.sequence, hupdate.sorted, hupdate.range, hupdate.ids, hupdate.kept, hupdate.received, ?_⟩
    intro job hjob
    exact (hupdate.faithful job hjob).congr rfl rfl

theorem sound_of_reaches (hrun : Reaches h s) : Sound s := by
  refine hrun.invariant ⟨Int.le_refl 0, .nil, by simp, .nil, by simp, by simp, by simp⟩ ?_
  exact fun _ _ _ hs _ => hs.next

-- ---------------------------------------------------------------------------
-- Paging
-- ---------------------------------------------------------------------------

theorem pageAfter_prefix (bytes : Nat) (rows : List JobOutput) : Store.pageAfter bytes rows <+: rows := by
  induction rows generalizing bytes with
  | nil => exact List.prefix_rfl
  | cons row rows ih =>
    unfold Store.pageAfter
    split
    · exact List.nil_prefix
    · exact List.cons_prefix_cons.mpr ⟨rfl, ih _⟩

theorem page_prefix (rows : List JobOutput) : Store.page rows <+: rows := by
  cases rows with
  | nil => exact List.prefix_rfl
  | cons row rows => exact List.cons_prefix_cons.mpr ⟨rfl, pageAfter_prefix _ rows⟩

/-- The chunks of a reply, from what lies behind the reader's cursor. -/
def chunks (rows : List JobOutput) : List JobOutput := Store.page (rows.take Store.PAGE)

theorem chunks_prefix (rows : List JobOutput) : chunks rows <+: rows :=
  List.IsPrefix.trans ( page_prefix _) (List.take_prefix _ _)

theorem chunks_nil {rows : List JobOutput} (h : chunks rows = []) : rows = [] := by
  cases rows with
  | nil => rfl
  | cons row rows => cases h

/-- What a reply says of its chunks. -/
theorem takeReply_outputReply (job : Value) (after : Int) (rows : List JobOutput) :
    takeReply (Store.outputReply job after rows) =
      (rows.map JobOutput.record, advance JobOutput.cursor after rows) := by
  have hnames : ("job" == "chunks") = false ∧ ("next_cursor" == "chunks") = false ∧
      ("next_cursor" == "job") = false := by decide
  simp only [takeReply, Store.outputReply, Value.index, Value.get_object, List.lookup_cons, beq_self_eq_true,
    hnames, Option.getD_some, Value.asArray, advance]

/-- The calls of a reader are the pages of the job's rows. -/
theorem calls_eq (hs : Sound s) (hjob : job ∈ s.store.jobs) (created updated : Int) (n : Nat) (after : Int) :
    calls s.store job.profile job.id created updated n after =
      (drain JobOutput.cursor chunks (rowsOf s.store job.id) n after).map fun p =>
        (p.1.map JobOutput.record, p.2) := by
  have hfound : s.store.jobs.find? (fun j => j.profile = job.profile ∧ j.id = job.id) = some job := by
    cases hfind : s.store.jobs.find? fun j => j.profile = job.profile ∧ j.id = job.id with
    | none =>
      have := List.find?_eq_none.mp hfind job hjob
      simp at this
    | some j =>
      have hj := List.find?_some hfind
      simp only [decide_eq_true_eq] at hj
      exact congrArg some (List.inj_on_of_nodup_map hs.ids (List.mem_of_find?_eq_some hfind) hjob hj.2)
  have hrows : ∀ after, s.store.outputRows job.id after =
      (rest JobOutput.cursor (rowsOf s.store job.id) after).take Store.PAGE := by
    intro after
    unfold Store.outputRows rest rowsOf
    rw [List.filter_filter]
    congr 1
    refine List.filter_congr fun row _ => ?_
    rw [← Bool.decide_and, decide_eq_decide]
    exact and_comm
  induction n generalizing after with
  | zero => rfl
  | succ n ih =>
    have hreply : s.store.jobOutputOf job.profile job.id after created updated =
        .ok (Store.outputReply (Store.jobValue job created updated) after
          (chunks (rest JobOutput.cursor (rowsOf s.store job.id) after))) := by
      unfold Store.jobOutputOf
      rw [hfound]
      simp only [hrows]
      rfl
    rw [calls, hreply]
    simp only [takeReply_outputReply, ih]
    rfl

/-- The records that are kept for a job are those that fitted when they came;
its row counts them and says whether one was refused. A reader that starts
from 0 gets each of them once, in order, and then empty pages at the same cursor. -/
theorem output_admitted (hrun : Reaches h s) (hjob : job ∈ s.store.jobs) :
    keptOf s job.id = admitted Store.OUTPUT_LIMIT (receivedOf s job.id) ∧
      job.outputBytes = sizes (keptOf s job.id) ∧ job.outputBytes ≤ Store.OUTPUT_LIMIT ∧
      (job.outputTruncated = true ↔ (keptOf s job.id).length < (receivedOf s job.id).length) ∧
      ∀ created updated n, (keptOf s job.id).length ≤ n →
        ((calls s.store job.profile job.id created updated n 0).map Prod.fst).flatten = keptOf s job.id ∧
          ∀ m, calls s.store job.profile job.id created updated (n + m) 0 =
            calls s.store job.profile job.id created updated n 0 ++ List.replicate m
              ([], ((calls s.store job.profile job.id created updated n 0).getLast?.map Prod.snd).getD 0) := by
  have hs := sound_of_reaches hrun
  have hf := hs.faithful job hjob
  have hlimit : job.outputBytes ≤ Store.OUTPUT_LIMIT := by
    rw [hf.bytes, hf.kept]
    exact sizes_admitted (by decide)
  refine ⟨hf.kept, hf.bytes, hlimit, hf.truncated, ?_⟩
  intro created updated n hn
  have hsorted : Ascending JobOutput.cursor (rowsOf s.store job.id) := hs.sorted.filter _
  have hall : rest JobOutput.cursor (rowsOf s.store job.id) 0 = rowsOf s.store job.id := by
    refine List.filter_eq_self.mpr fun row hrow => ?_
    exact decide_eq_true (hs.range row (List.mem_of_mem_filter hrow)).1
  have hlength : (rest JobOutput.cursor (rowsOf s.store job.id) 0).length ≤ n := by
    rw [hall]
    exact (List.length_map (f := JobOutput.record) ▸ hn)
  constructor
  · rw [calls_eq hs hjob, List.map_map]
    have hdrain := drain_all hsorted chunks_prefix (fun _ => chunks_nil) hlength
    rw [hall] at hdrain
    have hmap := congrArg (List.map JobOutput.record) hdrain
    rw [List.map_flatten, List.map_map] at hmap
    exact hmap
  · intro m
    have hrest := rest_position hsorted chunks_prefix (fun _ => chunks_nil) hlength
    rw [calls_eq hs hjob, calls_eq hs hjob, drain_append, drain_nil chunks_prefix hrest, List.map_append,
      List.map_replicate]
    congr 2
    unfold position
    rw [List.getLast?_map, Option.map_map]
    rfl

/-- Output of the process `p` whose text has `n` letters. -/
def sample (n : Nat) : Value := .object [("chunk", .string (letters n)), ("processId", .string "p")]

theorem size_sample (n : Nat) : (sample n).size = n + 28 := by
  have hnames : (Wire.Json.string.put "chunk").length = 7 ∧ (Wire.Json.string.put "processId").length = 11 := by decide
  have hprocess : (Value.string "p").size = 3 := by decide
  have hchunk : (Value.string (letters n)).size = n + 2 := by
    rw [Value.size, Value.encode, length_put_letters]
  simp only [sample, size_object, List.map_cons, List.map_nil, List.sum_cons, List.sum_nil, hnames, hchunk, hprocess]
  omega

theorem output_admitted_one : ∃ h s job, Reaches h s ∧ job ∈ s.store.jobs ∧ receivedOf s job.id = [sample 1] ∧
    keptOf s job.id = admitted Store.OUTPUT_LIMIT (receivedOf s job.id) := by
  have hrun : Reaches [.output "c" (sample 1), .record "w" "c" (sample 0) "command" "j"] _ :=
    .step (.step .start trivial rfl) trivial rfl
  refine ⟨_, _, _, hrun, List.mem_singleton_self _, rfl, ?_⟩
  exact (output_admitted hrun (List.mem_singleton_self _)).1

/-- Any output of the one job of a channel can be received. -/
theorem receives (texts : List Nat) : ∃ h s job, Reaches h s ∧ s.store.jobs = [job] ∧ job.id = "j" ∧
    job.channel = "c" ∧ job.processId = "p" ∧ receivedOf s "j" = texts.map sample := by
  induction texts using List.reverseRecOn with
  | nil =>
    have hrun : Reaches [.record "w" "c" (sample 0) "command" "j"] _ := .step .start trivial rfl
    exact ⟨_, _, _, hrun, rfl, rfl, rfl, rfl, rfl⟩
  | append_singleton texts n ih =>
    obtain ⟨h, s, job, hrun, hjobs, hid, hchannel, hprocess, hreceived⟩ := ih
    have hfound : s.store.outputJob "c" (sample n) = some job.id := by
      show s.store.processJob "c" "p" = some job.id
      simp [Store.processJob, hjobs, hchannel, hprocess]
    have hmem : job ∈ s.store.jobs := hjobs ▸ List.mem_singleton_self job
    have hstep : s.next (.output "c" (sample n)) = some { s with
        store := s.store.saveOutput job.id (sample n)
        received := s.received ++ [(job.id, sample n)] } := by
      simp only [next, Store.recordOutput, hfound, Option.map_some, Option.toList_some]
    have hrun' := Run.step hrun trivial hstep
    have hnew : ∀ store, receivedOf { s with store, received := s.received ++ [(job.id, sample n)] } "j" =
        (texts ++ [n]).map sample := by
      intro store
      rw [receivedOf_append, if_pos hid, hreceived, List.map_append]
      rfl
    have hcases := saveOutput_cases (sound_of_reaches hrun) hmem (sample n)
    rcases hcases with ⟨-, hsave⟩ | ⟨-, hsave⟩
    · rw [hsave] at hrun'
      refine ⟨_, _, { job with outputBytes := job.outputBytes + (sample n).size }, hrun', ?_, hid, hchannel, hprocess,
        hnew _⟩
      show s.store.jobs.map _ = [_]
      rw [hjobs, List.map_singleton, if_pos (decide_eq_true rfl)]
    · rw [hsave] at hrun'
      refine ⟨_, _, { job with outputTruncated := true }, hrun', ?_, hid, hchannel, hprocess, hnew _⟩
      show s.store.jobs.map _ = [_]
      rw [hjobs, List.map_singleton, if_pos (decide_eq_true rfl)]

theorem admitted_replicate {big : Value} (n : Nat) (hfit : n * big.size ≤ room) (records : List Value) :
    admitted room (List.replicate n big ++ records) =
      List.replicate n big ++ admitted (room - n * big.size) records := by
  induction n generalizing room with
  | zero => simp
  | succ n ih =>
    have hexpand : ((n + 1 : Nat) : Int) * big.size = n * big.size + big.size := by
      rw [Nat.cast_succ, Int.add_mul, Int.one_mul]
    have hnonneg : (0 : Int) ≤ n * big.size := Int.mul_nonneg (Int.natCast_nonneg n) (Int.natCast_nonneg _)
    rw [hexpand] at hfit
    rw [List.replicate_succ, List.cons_append, admitted, if_pos (by omega), ih (by omega), hexpand]
    congr 3
    omega

/-- After thirty-three large records one more does not fit, and a small one
behind it is kept. -/
theorem kept_no_prefix : ∃ h s job, Reaches h s ∧ job ∈ s.store.jobs ∧
    ¬ keptOf s job.id <+: receivedOf s job.id := by
  obtain ⟨h, s, job, hrun, hjobs, hid, -, -, hreceived⟩ := receives (List.replicate 33 2000000 ++ [2000000, 1])
  have hmem : job ∈ s.store.jobs := hjobs ▸ List.mem_singleton_self job
  refine ⟨h, s, job, hrun, hmem, ?_⟩
  have hbig := size_sample 2000000
  have hsmall := size_sample 1
  have hlimit : Store.OUTPUT_LIMIT = 67108864 := rfl
  rw [((sound_of_reaches hrun).faithful job hmem).kept, hid, hreceived, List.map_append, List.map_replicate,
    admitted_replicate 33 (by rw [hbig, hlimit]; decide), List.map_cons, List.map_cons, List.map_nil, admitted,
    if_neg (by rw [hbig, hlimit]; decide), admitted, if_pos (by rw [hbig, hsmall, hlimit]; decide), admitted,
    List.prefix_append_right_inj]
  intro hprefix
  have hhead := (List.cons_prefix_cons.mp hprefix).1
  rw [hhead] at hsmall
  omega

end Output

end RemoteCodex.Server
