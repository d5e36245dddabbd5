import RemoteCodex.Config.Layer

/-!
# The environment of a process

What a configuration sets in the environment of a process, and what it removes
from it first. The plan looks at the names and the kinds of the settings; their
values pass through it.
-/

namespace RemoteCodex.Config

open Interact

structure EnvironmentPlan where
  remove : List String
  set : Sorted String ConfigValue

/-- One variable of the remote environment, with proxy mode `inherit`. -/
def inheritProxy (parseUrl : ParseUrl) (config : EffectiveConfig) (proxies : Sorted String ConfigValue)
    (entry : String × String) : Except ConfigError (Sorted String ConfigValue) :=
  if !PROXY_NAMES.contains (lower entry.1) then .ok proxies
  else
    match EnvironmentName.parse entry.1 with
    | .error e => .error e
    | .ok name =>
      -- a configured value replaces both inherited aliases
      if (config.get (.environment name)).isSome then .ok proxies
      else
        match if entry.2.isEmpty then .ok (.text "") else parseValue parseUrl (.environment name) entry.2 with
        | .error e => .error e
        | .ok value =>
          if (proxies.get name.val).any (· ≠ value) then .error .conflictingProxyAliases
          else .ok (proxies.insert name.val value)

def inheritProxies (parseUrl : ParseUrl) (config : EffectiveConfig) :
    Sorted String ConfigValue → List (String × String) → Except ConfigError (Sorted String ConfigValue)
  | proxies, [] => .ok proxies
  | proxies, entry :: rest =>
    match inheritProxy parseUrl config proxies entry with
    | .error e => .error e
    | .ok proxies => inheritProxies parseUrl config proxies rest

/-- One setting: the proxies apart from the other variables. -/
def placeSetting (mode : ProxyMode) (placed : Sorted String ConfigValue × Sorted String ConfigValue)
    (setting : ConfigKey × ConfigValue) : Sorted String ConfigValue × Sorted String ConfigValue :=
  match setting.1 with
  | .environment name =>
    if name.isProxy then
      if mode ≠ .direct then (placed.1.insert name.val setting.2, placed.2) else placed
    else (placed.1, placed.2.insert name.val setting.2)
  | _ => placed

/-- A proxy is set under both spellings. -/
def setAliases (set : Sorted String ConfigValue) (proxy : String × ConfigValue) : Sorted String ConfigValue :=
  (set.insert proxy.1 proxy.2).insert (upper proxy.1) proxy.2

def removed (remote : Sorted String String) : List String :=
  PROXY_NAMES.flatMap (fun name => [name, upper name]) ++
    (remote.entries.map Prod.fst).filter fun name => PROXY_NAMES.contains (lower name)

def planEnvironment (parseUrl : ParseUrl) (config : EffectiveConfig) (remote : Sorted String String) :
    Except ConfigError EnvironmentPlan :=
  match if config.mode = .inherit then inheritProxies parseUrl config .empty remote.entries else .ok .empty with
  | .error e => .error e
  | .ok inherited =>
    let (proxies, set) := config.entries.foldl (placeSetting config.mode) (inherited, .empty)
    .ok { remove := removed remote, set := proxies.entries.foldl setAliases set }

-- ---------------------------------------------------------------------------
-- Values pass through
-- ---------------------------------------------------------------------------

/-- `m` and `m'` have the same keys, and their values are related. -/
def Alike (R : ConfigValue → ConfigValue → Prop) (m m' : Sorted String ConfigValue) : Prop :=
  ∀ name, Option.Rel R (m.get name) (m'.get name)

variable {R : ConfigValue → ConfigValue → Prop} {parseUrl : ParseUrl} {config config' : EffectiveConfig}
  {m m' : Sorted String ConfigValue} {v v' : ConfigValue} {remote : Sorted String String}

theorem Alike.insert (h : Alike R m m') (name : String) (hv : R v v') : Alike R (m.insert name v) (m'.insert name v') := by
  intro k
  rw [Sorted.get_insert, Sorted.get_insert]
  split
  · exact .some hv
  · exact h k

theorem Alike.isSome (h : Alike R m m') (name : String) : (m.get name).isSome ↔ (m'.get name).isSome := by
  have hname := h name
  generalize m.get name = a at hname ⊢
  generalize m'.get name = b at hname ⊢
  cases hname with
  | none => exact Iff.rfl
  | some _ => exact Iff.rfl

theorem Alike.entries (h : Alike R m m') : List.Forall₂ (fun e f => e.1 = f.1 ∧ R e.2 f.2) m.entries m'.entries := by
  refine Sorted.forall₂ (R := fun _ => R) ?_ ?_
  · exact h.isSome
  · intro k v w hv hw
    have := h k
    rw [hv, hw] at this
    cases this
    assumption

theorem Alike.refl (hR : ∀ v, R v v) (m : Sorted String ConfigValue) : Alike R m m := by
  intro k
  cases m.get k with
  | none => exact .none
  | some v => exact .some (hR v)

/-- What is inherited depends on which variables are configured, not on their values. -/
theorem inheritProxies_congr (hkeys : ∀ key, (config.get key).isSome = (config'.get key).isSome)
    (proxies : Sorted String ConfigValue) (entries : List (String × String)) :
    inheritProxies parseUrl config proxies entries = inheritProxies parseUrl config' proxies entries := by
  induction entries generalizing proxies with
  | nil => rfl
  | cons entry rest ih =>
    have hone : inheritProxy parseUrl config proxies entry = inheritProxy parseUrl config' proxies entry := by
      unfold inheritProxy
      simp only [hkeys]
    rw [inheritProxies, inheritProxies, hone]
    cases inheritProxy parseUrl config' proxies entry with
    | error e => rfl
    | ok proxies => exact ih proxies

/-- Inherited values are plain text. -/
theorem inheritProxies_text {proxies inherited : Sorted String ConfigValue} {entries : List (String × String)}
    (h : inheritProxies parseUrl config proxies entries = .ok inherited)
    (htext : ∀ name v, proxies.get name = some v → ∃ text, v = .text text) :
    ∀ name v, inherited.get name = some v → ∃ text, v = .text text := by
  induction entries generalizing proxies with
  | nil => exact Except.ok.inj h ▸ htext
  | cons entry rest ih =>
    rw [inheritProxies] at h
    split at h
    · cases h
    · next after hone =>
      refine ih h ?_
      unfold inheritProxy at hone
      split at hone
      · exact Except.ok.inj hone ▸ htext
      · split at hone
        · cases hone
        · next name hname =>
          split at hone
          · exact Except.ok.inj hone ▸ htext
          · split at hone
            · cases hone
            · next value hvalue =>
              split at hone
              · cases hone
              · obtain rfl := Except.ok.inj hone
                intro k v hv
                rw [Sorted.get_insert] at hv
                split at hv
                · obtain rfl := Option.some.inj hv
                  split at hvalue
                  · exact ⟨"", (Except.ok.inj hvalue).symm⟩
                  · exact parseValue_environment hvalue
                · exact htext k v hv

theorem placeSetting_alike {mode : ProxyMode} {p p' : Sorted String ConfigValue × Sorted String ConfigValue}
    (h : Alike R p.1 p'.1 ∧ Alike R p.2 p'.2) {e f : ConfigKey × ConfigValue} (hkey : e.1 = f.1) (hv : R e.2 f.2) :
    Alike R (placeSetting mode p e).1 (placeSetting mode p' f).1 ∧
      Alike R (placeSetting mode p e).2 (placeSetting mode p' f).2 := by
  unfold placeSetting
  rw [← hkey]
  split
  · next name _ =>
    split
    · split
      · exact ⟨h.1.insert name.val hv, h.2⟩
      · exact h
    · exact ⟨h.1, h.2.insert name.val hv⟩
  · exact h

theorem setAliases_alike (h : Alike R m m') {e f : String × ConfigValue} (hkey : e.1 = f.1) (hv : R e.2 f.2) :
    Alike R (setAliases m e) (setAliases m' f) := by
  unfold setAliases
  rw [← hkey]
  exact (h.insert e.1 hv).insert (upper e.1) hv

/-- Two configurations with the same keys and related values have plans with
the same keys and related values, or none. -/
theorem plan_alike (hmode : config.mode = config'.mode)
    (hkeys : ∀ key, (config.get key).isSome = (config'.get key).isSome)
    (hvalues : ∀ name v w, config.get (.environment name) = some v → config'.get (.environment name) = some w → R v w)
    (htext : ∀ text, R (.text text) (.text text)) :
    (∃ e, planEnvironment parseUrl config remote = .error e ∧ planEnvironment parseUrl config' remote = .error e) ∨
      ∃ plan plan', planEnvironment parseUrl config remote = .ok plan ∧
        planEnvironment parseUrl config' remote = .ok plan' ∧ plan.remove = plan'.remove ∧ Alike R plan.set plan'.set := by
  have hinherit : (if config.mode = .inherit then inheritProxies parseUrl config .empty remote.entries else .ok .empty) =
      if config'.mode = .inherit then inheritProxies parseUrl config' .empty remote.entries else .ok .empty := by
    rw [hmode, inheritProxies_congr hkeys]
  have htexts : ∀ inherited, (if config'.mode = .inherit then inheritProxies parseUrl config' .empty remote.entries
      else .ok .empty) = .ok inherited → Alike R inherited inherited := by
    intro inherited hok k
    cases hget : inherited.get k with
    | none => exact .none
    | some v =>
      refine .some ?_
      split at hok
      · obtain ⟨text, rfl⟩ := inheritProxies_text hok (by simp) k v hget
        exact htext text
      · obtain rfl := Except.ok.inj hok
        cases hget
  -- settings that are no variables are not placed, so their values are free
  have hpairs : List.Forall₂ (fun (e f : ConfigKey × ConfigValue) => e.1 = f.1 ∧ (e.1.isEnvironment = true → R e.2 f.2))
      config.entries config'.entries := by
    refine Sorted.forall₂ (R := fun (key : ConfigKey) v w => key.isEnvironment = true → R v w) (fun key => by rw [hkeys key]) ?_
    intro key v w hv hw henv
    cases key with
    | environment name => exact hvalues name v w hv hw
    | _ => cases henv
  have hplaced : ∀ {l l' : List (ConfigKey × ConfigValue)},
      List.Forall₂ (fun e f => e.1 = f.1 ∧ (e.1.isEnvironment = true → R e.2 f.2)) l l' →
      ∀ {p p' : Sorted String ConfigValue × Sorted String ConfigValue}, Alike R p.1 p'.1 ∧ Alike R p.2 p'.2 →
        Alike R (l.foldl (placeSetting config'.mode) p).1 (l'.foldl (placeSetting config'.mode) p').1 ∧
          Alike R (l.foldl (placeSetting config'.mode) p).2 (l'.foldl (placeSetting config'.mode) p').2 := by
    intro l l' hl
    induction hl with
    | nil => exact fun h => h
    | @cons e f _ _ hef _ ih =>
      intro p p' h
      apply ih
      by_cases henv : e.1.isEnvironment = true
      · exact placeSetting_alike h hef.1 (hef.2 henv)
      · have hstay : ∀ p : Sorted String ConfigValue × Sorted String ConfigValue, ∀ g : ConfigKey × ConfigValue,
            g.1.isEnvironment = false → placeSetting config'.mode p g = p := by
          intro p g hg
          unfold placeSetting
          split
          · next name heq => rw [heq] at hg; cases hg
          · rfl
        have he := eq_false_of_ne_true henv
        rw [hstay p e he, hstay p' f (hef.1 ▸ he)]
        exact h
  have haliases : ∀ {l l' : List (String × ConfigValue)}, List.Forall₂ (fun e f => e.1 = f.1 ∧ R e.2 f.2) l l' →
      ∀ {m m' : Sorted String ConfigValue}, Alike R m m' → Alike R (l.foldl setAliases m) (l'.foldl setAliases m') := by
    intro l l' hl
    induction hl with
    | nil => exact fun h => h
    | cons hef _ ih => exact fun h => ih (setAliases_alike h hef.1 hef.2)
  unfold planEnvironment
  rw [hinherit, hmode]
  cases hresult : (if config'.mode = .inherit then inheritProxies parseUrl config' .empty remote.entries
      else .ok .empty) with
  | error e => exact .inl ⟨e, rfl, rfl⟩
  | ok inherited =>
    have hall := @hplaced _ _ hpairs (inherited, .empty) (inherited, .empty)
      ⟨htexts inherited hresult, fun _ => .none⟩
    exact .inr ⟨_, _, rfl, rfl, rfl, haliases hall.1.entries hall.2⟩

end RemoteCodex.Config
