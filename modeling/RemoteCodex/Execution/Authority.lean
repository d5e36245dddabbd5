import RemoteCodex.Execution.Policy

/-!
# What a request may be handed over for

`Allowed` says what holds of a request `permission` lets through, in terms of
where its authority comes from: the environment has no restrictions, the
sandbox has, or somebody has approved of it. Only the answers to the
executor's own requests need none.
-/

namespace RemoteCodex.Execution

open Protocol

/-- The method belongs to the execution environment. -/
def Environmental (method : String) : Prop :=
  method ∈ METHODS ∨ ∃ start ∈ PREFIXES, start.toList <+: method.toList

/-- The method starts a process or changes files. -/
def Restricted (method : String) : Prop := method = "process/start" ∨ method ∈ MUTATIONS

/-- The approval names this channel and this operation, and just this command. -/
structure Approves (grant : CommandApproval) (channel operation : String) (message : Value) : Prop where
  channel : grant.channel = channel
  operation : grant.id = operation
  known : grant.thread ≠ "" ∧ grant.turn ≠ "" ∧ grant.item ≠ ""
  command : grant.Starts message

/-- The choice is one for this channel; for a process it is one for its thread. -/
structure Admits (grant : SessionPermissions) (channel : String) (message : Value) : Prop where
  channel : grant.channel = channel
  known : grant.id ≠ "" ∧ grant.thread ≠ ""
  method : ∃ method, (message.index "method").asStr = some method ∧ Restricted method
  thread : (message.index "method").asStr = some "process/start" → threadOf message = some grant.thread

/-- Where the authority for a restricted method comes from. -/
inductive Authority (c : Crates) (runtime : Runtime) (channel operation : String) (approval : Option CommandApproval)
    (permissions : Option SessionPermissions) (message : Value) : Prop
  | unrestricted : runtime.unrestricted = true → Authority c runtime channel operation approval permissions message
  | sandbox : managed ((message.index "params").index "sandbox") = true →
      Authority c runtime channel operation approval permissions message
  | mcp : (message.index "method").asStr = some "process/start" →
      authorizedMcp c runtime (message.index "params") = true →
      Authority c runtime channel operation approval permissions message
  | approval (grant : CommandApproval) : approval = some grant → Approves grant channel operation message →
      Authority c runtime channel operation approval permissions message
  | session (grant : SessionPermissions) : permissions = some grant → Admits grant channel message →
      Authority c runtime channel operation approval permissions message

/-- No variable the accounts are kept in is set for the process. -/
def Discreet (params : Value) : Prop :=
  ∀ env, params.index "env" = .object env → ∀ key ∈ CREDENTIALS, env.lookup key = none

structure Allowed (c : Crates) (runtime : Runtime) (channel operation : String) (approval : Option CommandApproval)
    (permissions : Option SessionPermissions) (message : Value) : Prop where
  single : approval = none ∨ permissions = none
  approves : ∀ grant, approval = some grant → Approves grant channel operation message
  admits : ∀ grant, permissions = some grant → Admits grant channel message
  method : ∀ method, (message.index "method").asStr = some method → Environmental method
  answer : (message.index "method").asStr = none →
    (message.get "id").isSome ∧ ((message.get "result").isSome ∨ (message.get "error").isSome)
  authority : ∀ method, (message.index "method").asStr = some method → Restricted method →
    Authority c runtime channel operation approval permissions message
  discreet : (message.index "method").asStr = some "process/start" → Discreet (message.index "params")

-- ---------------------------------------------------------------------------
-- The checks
-- ---------------------------------------------------------------------------

theorem approves_of_validFor {grant : CommandApproval} {channel operation : String} {message : Value}
    (h : grant.validFor channel operation message = true) : Approves grant channel operation message := by
  simp only [CommandApproval.validFor, Bool.and_eq_true, decide_eq_true_eq] at h
  obtain ⟨⟨⟨⟨⟨hchannel, hoperation⟩, hthread⟩, hturn⟩, hitem⟩, hmatches⟩ := h
  exact ⟨hchannel, hoperation, ⟨hthread, hturn, hitem⟩, (grant.matches_iff message).mp hmatches⟩

theorem admits_of_matches {grant : SessionPermissions} {channel : String} {message : Value}
    (h : grant.matches channel message = true) : Admits grant channel message := by
  unfold SessionPermissions.matches at h
  split at h
  · cases h
  · next hknown =>
    simp only [Bool.or_eq_true, decide_eq_true_eq, not_or, ne_eq, not_not] at hknown
    obtain ⟨⟨hid, hthread⟩, hchannel⟩ := hknown
    refine ⟨hchannel, ⟨hid, hthread⟩, ?_, ?_⟩
    · split at h
      · next hm => exact ⟨_, hm, .inl rfl⟩
      · next hm => exact ⟨_, hm, .inr (by decide)⟩
      · next hm => exact ⟨_, hm, .inr (by decide)⟩
      · next hm => exact ⟨_, hm, .inr (by decide)⟩
      · next hm => exact ⟨_, hm, .inr (by decide)⟩
      · cases h
    · intro hm
      rw [hm] at h
      exact of_decide_eq_true h

theorem environmental_of_check {method : String}
    (h : (!METHODS.contains method && !(PREFIXES.any fun start => hasPrefix start method)) = false) :
    Environmental method := by
  simp only [Bool.and_eq_false_iff, Bool.not_eq_false'] at h
  rcases h with h | h
  · exact .inl (List.contains_iff_mem.mp h)
  · obtain ⟨start, hmem, hstart⟩ := List.any_eq_true.mp h
    exact .inr ⟨start, hmem, List.isPrefixOf_iff_prefix.mp hstart⟩

theorem discreet_of_check {params : Value} (h : forwardsCredentials params = false) : Discreet params := by
  intro env henv key hkey
  unfold forwardsCredentials at h
  rw [henv] at h
  have hnone := List.any_eq_false.mp h key hkey
  exact Option.not_isSome_iff_eq_none.mp hnone

/-- What `validate` leaves: `approved` and `full` stand for the two ways of
having been given authority. -/
structure Valid (c : Crates) (runtime : Runtime) (message : Value) (approved full : Bool) : Prop where
  method : ∀ method, (message.index "method").asStr = some method → Environmental method
  answer : (message.index "method").asStr = none →
    (message.get "id").isSome ∧ ((message.get "result").isSome ∨ (message.get "error").isSome)
  mutation : ∀ method, (message.index "method").asStr = some method → method ∈ MUTATIONS →
    runtime.unrestricted = true ∨ full = true ∨ managed ((message.index "params").index "sandbox") = true
  start : (message.index "method").asStr = some "process/start" →
    (runtime.unrestricted = true ∨ full = true ∨ managed ((message.index "params").index "sandbox") = true ∨
      authorizedMcp c runtime (message.index "params") = true ∨ approved = true) ∧
      Discreet (message.index "params")

theorem valid_of_validate {c : Crates} {runtime : Runtime} {message : Value} {approved full : Bool}
    (h : validate c runtime message approved full = .ok ()) : Valid c runtime message approved full := by
  unfold validate at h
  split at h
  · next hnone =>
    split at h
    · next hanswer =>
      simp only [Bool.and_eq_true, Bool.or_eq_true] at hanswer
      have hnever : ∀ {method}, (message.index "method").asStr ≠ some method := by
        intro method hm
        rw [hnone] at hm
        cases hm
      exact ⟨fun _ hm => absurd hm hnever, fun _ => hanswer, fun _ hm => absurd hm hnever,
        fun hm => absurd hm hnever⟩
    · cases h
  · next method hmethod =>
    have hsame : ∀ {m}, (message.index "method").asStr = some m → m = method := fun hm =>
      Option.some.inj (hm.symm.trans hmethod)
    dsimp only at h
    split at h
    · cases h
    · next henv =>
      have henv := environmental_of_check (Bool.eq_false_iff.mpr henv)
      split at h
      · cases h
      · next hmutation =>
        simp only [Bool.and_eq_true, Bool.not_eq_true', not_and, Bool.not_eq_false] at hmutation
        have hmut : ∀ m, (message.index "method").asStr = some m → m ∈ MUTATIONS →
            runtime.unrestricted = true ∨ full = true ∨
              managed ((message.index "params").index "sandbox") = true := by
          intro m hm hin
          rw [hsame hm] at hin
          cases hu : runtime.unrestricted with
          | true => exact .inl rfl
          | false =>
            cases hf : full with
            | true => exact .inr (.inl rfl)
            | false => exact .inr (.inr (hmutation ⟨⟨List.contains_iff_mem.mpr hin, hu⟩, hf⟩))
        refine ⟨fun m hm => hsame hm ▸ henv, fun hnone => ?_, hmut, fun hstart => ?_⟩
        · rw [hmethod] at hnone
          cases hnone
        · rw [if_pos (hsame hstart).symm] at h
          split at h
          · cases h
          · next hauthority =>
            split at h
            · cases h
            · next hcredentials =>
              refine ⟨?_, discreet_of_check (Bool.eq_false_iff.mpr hcredentials)⟩
              simp only [Bool.and_eq_true, Bool.not_eq_true', not_and, Bool.not_eq_false] at hauthority
              cases hu : runtime.unrestricted with
              | true => exact .inl rfl
              | false =>
                cases hf : full with
                | true => exact .inr (.inl rfl)
                | false =>
                  cases hs : managed ((message.index "params").index "sandbox") with
                  | true => exact .inr (.inr (.inl rfl))
                  | false =>
                    cases hmcp : authorizedMcp c runtime (message.index "params") with
                    | true => exact .inr (.inr (.inr (.inl rfl)))
                    | false => exact .inr (.inr (.inr (.inr (hauthority ⟨⟨⟨hu, hf⟩, hs⟩, hmcp⟩))))

/-- A message `validate` lets through has the authority the grants it was validated with give. -/
theorem Valid.authority {c : Crates} {runtime : Runtime} {channel operation : String}
    {approval : Option CommandApproval} {permissions : Option SessionPermissions} {message : Value}
    {approved full : Bool} (h : Valid c runtime message approved full)
    (happroved : approved = true → ∃ grant, approval = some grant ∧ Approves grant channel operation message)
    (hfull : full = true → ∃ grant, permissions = some grant ∧ Admits grant channel message) {method : String}
    (hmethod : (message.index "method").asStr = some method) (hrestricted : Restricted method) :
    Authority c runtime channel operation approval permissions message := by
  have hsession : full = true → Authority c runtime channel operation approval permissions message := by
    intro hf
    obtain ⟨grant, hgrant, hadmits⟩ := hfull hf
    exact .session grant hgrant hadmits
  rcases hrestricted with rfl | hmutation
  · rcases (h.start hmethod).1 with hu | hf | hs | hmcp | ha
    · exact .unrestricted hu
    · exact hsession hf
    · exact .sandbox hs
    · exact .mcp hmethod hmcp
    · obtain ⟨grant, hgrant, happroves⟩ := happroved ha
      exact .approval grant hgrant happroves
  · rcases h.mutation method hmethod hmutation with hu | hf | hs
    · exact .unrestricted hu
    · exact hsession hf
    · exact .sandbox hs

theorem allowed_of_permission {c : Crates} {runtime : Runtime} {channel operation : String}
    {approval : Option CommandApproval} {permissions : Option SessionPermissions} {message : Value}
    (h : permission c runtime channel operation approval permissions message = .ok ()) :
    Allowed c runtime channel operation approval permissions message := by
  have hallowed : ∀ {approved full : Bool}, Valid c runtime message approved full →
      (approval = none ∨ permissions = none) →
      (∀ grant, approval = some grant → Approves grant channel operation message) →
      (∀ grant, permissions = some grant → Admits grant channel message) →
      (approved = true → approval ≠ none) → (full = true → permissions ≠ none) →
      Allowed c runtime channel operation approval permissions message := by
    intro approved full hvalid hsingle happroves hadmits happroved hfull
    refine ⟨hsingle, happroves, hadmits, hvalid.method, hvalid.answer, fun method hmethod => ?_,
      fun hstart => (hvalid.start hstart).2⟩
    refine hvalid.authority (fun ha => ?_) (fun hf => ?_) hmethod
    · obtain ⟨grant, hgrant⟩ := Option.ne_none_iff_exists'.mp (happroved ha)
      exact ⟨grant, hgrant, happroves grant hgrant⟩
    · obtain ⟨grant, hgrant⟩ := Option.ne_none_iff_exists'.mp (hfull hf)
      exact ⟨grant, hgrant, hadmits grant hgrant⟩
  unfold permission at h
  split at h
  · cases h
  · next grant =>
    split at h
    · next hmatches =>
      refine hallowed (valid_of_validate h) (.inl rfl) nofun ?_ (fun h => by cases h) nofun
      rintro _ ⟨⟩
      exact admits_of_matches hmatches
    · cases h
  · next grant =>
    split at h
    · next hvalid =>
      refine hallowed (valid_of_validate h) (.inr rfl) ?_ nofun nofun (fun h => by cases h)
      rintro _ ⟨⟩
      exact approves_of_validFor hvalid
    · cases h
  · exact hallowed (valid_of_validate h) (.inl rfl) nofun nofun (fun h => by cases h) (fun h => by cases h)

end RemoteCodex.Execution
