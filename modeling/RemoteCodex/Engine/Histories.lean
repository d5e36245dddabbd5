import RemoteCodex.Engine.Turns

/-!
# The histories of a transfer

A task is created once and goes through turn after turn: it is queued, executed
and settled, the user resolves its conflicts, restarts its files and cancels it,
and the client may be gone at any point and come back. Whatever either end of
the transfer answers, nothing is replaced without consent; a task that is
completed has left nothing out in silence; and one that has ended has removed
its stages.
-/

namespace RemoteCodex.Engine

open Interact Transfer
open Remote (ClientError)

namespace Chronicle

variable {digest : Files.Bytes → String} {s : Chronicle} {turn : Turn}

/-- Whatever is done next: what a `Prepare` may replace is a file, which the
destination has shown there, and the user has chosen to replace what was shown
or everything. -/
theorem replaced_with_consent (h : History digest s) {root : Nat} {target token : String} {stamp old : Stamp}
    {bytes : Files.Bytes} {a b : Scene × List Asked} (hasked : Prog.Occurs recorded (turn.program digest).run
      (s.scene, s.asked) (.call false root (.prepare target token stamp (some old)) bytes) a b) :
    stamp.kind = .file ∧ old.kind = .file ∧ Said a.2 false root (.stat target) (.stat (some old)) ∧
      Consented (turn.answers s.scene.kept ++ s.answers) old := by
  have hguards := Follows.guards digest turn h.regular
  unfold Guarded Act.Sat at hguards
  exact (hguards.occurs hasked).2 root target token stamp old bytes rfl

/-- In a completed task each item is done: it was skipped for a reason, or it is
where it belongs. -/
theorem completed_accounted (h : History digest s) (hcompleted : s.scene.kept.task.view.status = .completed) :
    s.scene.kept.task.scanned = true ∧ ∀ i ∈ s.scene.kept.items, i.done = true ∧
      (i.skipped = true ∨ i.Finished s.asked) ∧ i.Placed s.asked s.answers s.scene.kept.task.base s.scene.kept.items := by
  have hregular := h.regular
  obtain ⟨hscanned, hdone⟩ := hregular.completed hcompleted
  refine ⟨hscanned, fun i hi => ⟨hdone i hi, ?_, ?_⟩⟩
  · exact (hregular.sound i hi).finished (hdone i hi)
  · exact hregular.placed i hi (.inl (hdone i hi))

/-- Each stage that was begun was removed later, or the task has not ended and an
item in the store still knows of the stage. -/
theorem stage_removed (h : History digest s) {later earlier : List Asked} {root : Nat} {target token : String}
    {stamp : Stamp} {expected : Option Stamp} {reply : Option (Except ClientError Reply)}
    (hlog : s.asked = later ++ ⟨false, root, .prepare target token stamp expected, reply⟩ :: earlier) :
    (∃ r, ⟨false, root, .cancel target token, some (.ok r)⟩ ∈ later) ∨
      s.scene.kept.task.view.status.ended = false ∧
        ∃ i ∈ s.scene.kept.items, i.staged = true ∧ i.stage = (root, target, token) := by
  have hregular := h.regular
  refine (cancelled_or_staged hlog).imp_right fun hstage => ⟨?_, hregular.stages _ hstage⟩
  cases hended : s.scene.kept.task.view.status.ended with
  | false => rfl
  | true =>
    rw [hregular.ended hended] at hstage
    cases hstage

-- ---------------------------------------------------------------------------
-- A file that is replaced
-- ---------------------------------------------------------------------------

/-- The chronicle after a turn that nothing disturbs. -/
def after (digest : Files.Bytes → String) (turn : Turn) (s : Chronicle) : Chronicle :=
  let t := ((turn.program digest).run.run recorded (s.scene, s.asked)).2
  ⟨t.1, t.2, turn.answers s.scene.kept ++ s.answers⟩

theorem recorded_rely (s : Scene × List Asked) : recorded.rely s s := ⟨⟨rfl, trivial⟩, rfl⟩

theorem History.after (h : History digest s) (turn : Turn) : History digest (s.after digest turn) :=
  .turn h ⟨Prog.stops_run recorded_rely _ _, rfl⟩

def sourceFile : Stamp := ⟨.file, 0, 2, 1, 1, 0⟩

def targetFile : Stamp := ⟨.file, 3, 1, 1, 2, 0⟩

/-- Both ends have a file of the same name, and do whatever they are asked. -/
def willing : Bool → Command → Reply
  | true, .stat _ => .stat (some sourceFile)
  | false, .stat _ => .stat (some targetFile)
  | _, .prepare .. => .ready 0 false
  | _, .hash .. => .hash "d"
  | _, _ => .done

def begun : Chronicle where
  scene :=
    { kept := { task :=
        { view := { workspace := "/", direction := .upload, destination := "/d" }
          sources := [⟨0, "a"⟩] } }
      around :=
        { opens := .ok ⟨0, 0⟩
          answer := fun source _ command _ => .ok (willing source command, [])
          token := "t" } }

def oneRound : Turn := .execute (.ok ()) [⟨.ok ⟨"s", true⟩, 1⟩]

/-- The conflict is found, and the user chooses to replace the file. -/
def resolved : Chronicle := (begun.after (fun _ => "d") oneRound).after (fun _ => "d") (.resolve .replace false)

theorem resolved_history : History (fun _ => "d") resolved := by
  have hbegun : History (fun _ => "d") begun := .created ⟨rfl, rfl, rfl, rfl, rfl, rfl, rfl, rfl⟩
  exact (hbegun.after oneRound).after (.resolve .replace false)

def replaced : Chronicle := resolved.after (fun _ => "d") oneRound

theorem replaced_history : History (fun _ => "d") replaced := resolved_history.after oneRound

def replacement : Command := .prepare "/d/a" "t" sourceFile (some targetFile)

theorem replaced_with_consent_chosen : ∃ a b : Scene × List Asked,
    Prog.Occurs recorded (oneRound.program fun _ => "d").run (resolved.scene, resolved.asked) (.call false 0 replacement []) a b ∧
      Said a.2 false 0 (.stat "/d/a") (.stat (some targetFile)) ∧ Consented resolved.answers targetFile := by
  obtain ⟨op, a, b, hafter, hop⟩ : ∃ op a b, Prog.StopsAfter recorded (oneRound.program fun _ => "d").run
      (resolved.scene, resolved.asked) op a b b ∧ decide (op = .call false 0 replacement []) = true :=
    Prog.stepAt_any (n := 14) recorded_rely (by decide +kernel)
  obtain rfl := of_decide_eq_true hop
  obtain ⟨-, -, hsaid, hconsent⟩ := replaced_with_consent resolved_history hafter.occurs
  exact ⟨a, b, hafter.occurs, hsaid, hconsent⟩

theorem completed_accounted_one : replaced.scene.kept.task.view.status = .completed ∧
    replaced.scene.kept.items.length = 1 ∧ ∀ i ∈ replaced.scene.kept.items, i.done = true ∧ (i.skipped = true ∨ i.Finished replaced.asked) := by
  have hcompleted : replaced.scene.kept.task.view.status = .completed := by decide +kernel
  refine ⟨hcompleted, by decide +kernel, fun i hi => ?_⟩
  obtain ⟨hdone, hfinished, -⟩ := (completed_accounted replaced_history hcompleted).2 i hi
  exact ⟨hdone, hfinished⟩

theorem stage_removed_one : ∃ later earlier root reply,
    replaced.asked = later ++ ⟨false, root, replacement, reply⟩ :: earlier ∧
      ∃ r, ⟨false, root, .cancel "/d/a" "t", some (.ok r)⟩ ∈ later := by
  have hany : (replaced.asked.any fun a => !a.source && a.command = replacement) = true := by decide +kernel
  obtain ⟨⟨source, root, command, reply⟩, ha, hboth⟩ := List.any_eq_true.mp hany
  simp only [Bool.and_eq_true, Bool.not_eq_true', decide_eq_true_eq] at hboth
  obtain ⟨rfl, rfl⟩ := hboth
  obtain ⟨later, earlier, hlog⟩ := List.append_of_mem ha
  refine ⟨later, earlier, root, reply, hlog, (stage_removed replaced_history hlog).resolve_right fun hleft => ?_⟩
  have hended : replaced.scene.kept.task.view.status.ended = true := by decide +kernel
  rw [hended] at hleft
  cases hleft.1

end Chronicle

end RemoteCodex.Engine
