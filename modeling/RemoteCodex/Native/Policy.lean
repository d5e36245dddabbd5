import RemoteCodex.Protocol.Value
import RemoteCodex.Transfer.Paths

/-!
# What a turn may change

A turn may name a directory, a permission preset or a sandbox policy of its
own. Without Full Access a sandboxed session accepts only what stays within the
workspace it is bound to.
-/

namespace RemoteCodex.Native

open Protocol
open Transfer (Component pathComponents fault)

structure SessionBinding where
  sessionId : String
  cwd : String
  environmentId : String
  codexHome : String
  executionMode : String
  deriving DecidableEq, Repr

def exceedsLimit : Fault :=
  fault "EXECUTION_PERMISSION_LIMIT" "these permissions require an explicit Full Access choice for this session"

/-- `params.get(key)` where null is the same as nothing. -/
def given (params : Value) (key : String) : Option Value := (params.get key).filter fun v => !v.isNull

def REVIEWERS : List String := ["user", "auto_review", "guardian_subagent"]

def validateReviewer (v : Value) : Except Fault Unit :=
  if v.isNull || v.asStr.any REVIEWERS.contains then .ok ()
  else .error (fault "INVALID_APPROVALS_REVIEWER" "unsupported native approval reviewer")

def validateCwd (cwd : String) (v : Value) : Except Fault Unit :=
  if v.asStr = some cwd then .ok ()
  else .error (fault "WORKSPACE_SETTINGS_LOCKED" "the session's execution directory cannot change")

def validatePreset (unrestricted : Bool) (v : Value) : Except Fault Unit :=
  match v.asStr with
  | some ":workspace" => .ok ()
  | some ":danger-full-access" => if unrestricted then .ok () else .error exceedsLimit
  | _ => .error (fault "UNSUPPORTED_PERMISSION_PRESET"
      "this workspace supports the native workspace and Full Access presets")

/-- `Path::starts_with` compares whole components. -/
def validateRoot (cwd : String) (unrestricted : Bool) (root : Value) : Except Fault Unit :=
  match root.asStr with
  | none => .error exceedsLimit
  | some text =>
    let path := pathComponents text
    if !unrestricted && (!(pathComponents cwd).isPrefixOf path || path.contains .parentDir) then
      .error exceedsLimit
    else .ok ()

def isTrue : Value → Bool
  | .bool b => b
  | _ => false

/-- The policies that leave the sandbox in place. -/
def validateSandboxed (cwd : String) (unrestricted : Bool) (policy : Value) : Except Fault Unit :=
  if !unrestricted && isTrue (policy.index "networkAccess") then .error exceedsLimit
  else
    match policy.get "writableRoots" with
    | none => .ok ()
    | some roots =>
      match roots.asArray with
      | none => .error exceedsLimit
      | some roots => roots.forM (validateRoot cwd unrestricted)

def validateSandbox (cwd : String) (unrestricted : Bool) (policy : Value) : Except Fault Unit :=
  match (policy.index "type").asStr with
  | some "dangerFullAccess" => if unrestricted then .ok () else .error exceedsLimit
  | some "readOnly" => validateSandboxed cwd unrestricted policy
  | some "workspaceWrite" => validateSandboxed cwd unrestricted policy
  | _ => .error exceedsLimit

/-- Only what is there is checked. -/
def checkGiven (v : Option Value) (check : Value → Except Fault Unit) : Except Fault Unit :=
  match v with
  | some v => check v
  | none => .ok ()

def validate (params : Value) (binding : SessionBinding) (fullAccess : Bool) : Except Fault Unit := do
  checkGiven (given params "cwd") (validateCwd binding.cwd)
  let unrestricted := binding.executionMode = "unrestricted" || fullAccess
  let permissions := given params "permissions"
  let sandbox := given params "sandboxPolicy"
  if permissions.isSome && sandbox.isSome then
    .error (fault "INVALID_NATIVE_SETTINGS" "choose a permissions preset or a sandbox policy, not both")
  checkGiven permissions (validatePreset unrestricted)
  checkGiven sandbox (validateSandbox binding.cwd unrestricted)
  checkGiven (params.get "approvalsReviewer") validateReviewer

-- ---------------------------------------------------------------------------
-- Paths, resolved without looking at the disk
-- ---------------------------------------------------------------------------

/-- A path as far as it is resolved, with one more component. -/
def enter (done : List Component) : Component → List Component
  | .curDir => done
  | .parentDir =>
    match done.getLast? with
    | some (.normal _) => done.dropLast
    | some .rootDir => done
    | _ => done ++ [.parentDir]
  | c => done ++ [c]

def resolve (path : List Component) : List Component := path.foldl enter []

def Absolute (path : String) : Prop := (pathComponents path).head? = some .rootDir

/-- `path` is absolute and, resolved, begins with `dir`, resolved. -/
structure Within (dir path : String) : Prop where
  absolute : Absolute path
  inside : resolve (pathComponents dir) <+: resolve (pathComponents path)

theorem foldl_enter (path done : List Component) (h : .parentDir ∉ path) :
    path.foldl enter done = done ++ path.filter fun c => c ≠ .curDir := by
  induction path generalizing done with
  | nil => simp
  | cons c path ih =>
    rw [List.foldl_cons, ih _ fun hmem => h (List.mem_cons_of_mem _ hmem)]
    cases c with
    | parentDir => exact absurd (List.mem_cons_self ..) h
    | curDir => simp [enter]
    | rootDir => simp [enter]
    | normal name => simp [enter]

/-- Without a component that leads up, what begins with a directory stays in it. -/
theorem within_of_prefix {dir path : String} (hdir : Absolute dir) (hstart : pathComponents dir <+: pathComponents path)
    (hup : .parentDir ∉ pathComponents path) : Within dir path := by
  obtain ⟨rest, hrest⟩ := hstart
  constructor
  · unfold Absolute at *
    rw [← hrest, List.head?_append, hdir]
    rfl
  · rw [← hrest] at hup ⊢
    simp only [List.mem_append, not_or] at hup
    refine ⟨rest.filter fun c => c ≠ .curDir, ?_⟩
    simp only [resolve, List.foldl_append, foldl_enter _ _ hup.1, foldl_enter _ _ hup.2, List.nil_append]

-- ---------------------------------------------------------------------------
-- What a sandboxed session accepts
-- ---------------------------------------------------------------------------

/-- The policy leaves the sandbox in place, the network closed, and only
directories within `cwd` writable. -/
structure Sandboxed (cwd : String) (policy : Value) : Prop where
  type : policy.index "type" = .string "readOnly" ∨ policy.index "type" = .string "workspaceWrite"
  network : policy.index "networkAccess" ≠ .bool true
  roots : ∀ roots, policy.get "writableRoots" = some roots →
    ∃ items, roots = .array items ∧ ∀ root ∈ items, ∃ path, root = .string path ∧ Within cwd path

/-- The parameters of a turn ask for nothing beyond the workspace. -/
structure Limited (binding : SessionBinding) (params : Value) : Prop where
  cwd : given params "cwd" = none ∨ given params "cwd" = some (.string binding.cwd)
  preset : given params "permissions" = none ∨ given params "permissions" = some (.string ":workspace")
  sandbox : ∀ policy, given params "sandboxPolicy" = some policy → Sandboxed binding.cwd policy

section

variable {cwd : String} {v policy params : Value} {binding : SessionBinding}

theorem eq_string {text : String} (h : v.asStr = some text) : v = .string text := by
  cases v with
  | string t => rw [Option.some.inj h]
  | _ => cases h

theorem eq_array {items : List Value} (h : v.asArray = some items) : v = .array items := by
  cases v with
  | array is => rw [Option.some.inj h]
  | _ => cases h

theorem preset_limited (h : validatePreset false v = .ok ()) : v = .string ":workspace" := by
  unfold validatePreset at h
  split at h
  · next hv => exact eq_string hv
  · cases h
  · cases h

theorem root_limited (habs : Absolute cwd) (h : validateRoot cwd false v = .ok ()) :
    ∃ path, v = .string path ∧ Within cwd path := by
  unfold validateRoot at h
  split at h
  · cases h
  · next path hv =>
    simp only [Bool.not_false, Bool.true_and] at h
    split at h
    · cases h
    · next hin =>
      simp only [Bool.or_eq_true, Bool.not_eq_true', not_or, Bool.not_eq_false, List.isPrefixOf_iff_prefix,
        List.contains_iff_mem] at hin
      exact ⟨path, eq_string hv, within_of_prefix habs hin.1 hin.2⟩

theorem bind_ok {a b : Except Fault Unit} (h : (a >>= fun _ => b) = .ok ()) : a = .ok () ∧ b = .ok () := by
  cases a with
  | error e => cases h
  | ok u => exact ⟨rfl, h⟩

theorem forM_ok {check : Value → Except Fault Unit} {items : List Value} (h : items.forM check = .ok ()) :
    ∀ item ∈ items, check item = .ok () := by
  induction items with
  | nil => simp
  | cons item items ih =>
    obtain ⟨hitem, hitems⟩ := bind_ok h
    exact List.forall_mem_cons.mpr ⟨hitem, ih hitems⟩

theorem sandboxed_limited (habs : Absolute cwd) (h : validateSandboxed cwd false policy = .ok ()) :
    policy.index "networkAccess" ≠ .bool true ∧ ∀ roots, policy.get "writableRoots" = some roots →
      ∃ items, roots = .array items ∧ ∀ root ∈ items, ∃ path, root = .string path ∧ Within cwd path := by
  unfold validateSandboxed at h
  split at h
  · cases h
  · next hnetwork =>
    refine ⟨fun htrue => by simp [htrue, isTrue] at hnetwork, ?_⟩
    intro roots hroots
    simp only [hroots] at h
    split at h
    · cases h
    · next items hitems =>
      exact ⟨items, eq_array hitems, fun root hmem => root_limited habs (forM_ok h root hmem)⟩

theorem sandbox_limited (habs : Absolute cwd) (h : validateSandbox cwd false policy = .ok ()) :
    Sandboxed cwd policy := by
  unfold validateSandbox at h
  split at h
  · cases h
  · next htype =>
    obtain ⟨hnetwork, hroots⟩ := sandboxed_limited habs h
    exact ⟨.inl (eq_string htype), hnetwork, hroots⟩
  · next htype =>
    obtain ⟨hnetwork, hroots⟩ := sandboxed_limited habs h
    exact ⟨.inr (eq_string htype), hnetwork, hroots⟩
  · cases h

theorem checkGiven_ok {v : Option Value} {check : Value → Except Fault Unit} (h : checkGiven v check = .ok ())
    {w : Value} (hw : v = some w) : check w = .ok () := by
  subst hw
  exact h

/-- What each check of `validate` came to. -/
theorem validate_ok {fullAccess : Bool} (h : validate params binding fullAccess = .ok ()) :
    checkGiven (given params "cwd") (validateCwd binding.cwd) = .ok () ∧
      checkGiven (given params "permissions")
        (validatePreset (binding.executionMode = "unrestricted" || fullAccess)) = .ok () ∧
      checkGiven (given params "sandboxPolicy")
        (validateSandbox binding.cwd (binding.executionMode = "unrestricted" || fullAccess)) = .ok () := by
  unfold validate at h
  obtain ⟨hcwd, h⟩ := bind_ok h
  dsimp only at h
  split at h
  · cases h
  · obtain ⟨hpreset, h⟩ := bind_ok h
    exact ⟨hcwd, hpreset, (bind_ok h).1⟩

theorem limited_of_validate (hmode : binding.executionMode ≠ "unrestricted") (habs : Absolute binding.cwd)
    (h : validate params binding false = .ok ()) : Limited binding params := by
  obtain ⟨hcwd, hpreset, hsandbox⟩ := validate_ok h
  simp only [hmode, decide_false, Bool.or_self] at hpreset hsandbox
  refine ⟨?_, ?_, ?_⟩
  · cases hgiven : given params "cwd" with
    | none => exact .inl rfl
    | some v =>
      have hv := checkGiven_ok hcwd hgiven
      unfold validateCwd at hv
      split at hv
      · next heq => exact .inr (congrArg some (eq_string heq))
      · cases hv
  · cases hgiven : given params "permissions" with
    | none => exact .inl rfl
    | some v => exact .inr (congrArg some (preset_limited (checkGiven_ok hpreset hgiven)))
  · exact fun policy hgiven => sandbox_limited habs (checkGiven_ok hsandbox hgiven)

end

end RemoteCodex.Native
