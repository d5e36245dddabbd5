import RemoteCodex.Config.Environment

/-!
# The environment a plan leaves

What a process is started with when the plan of a configuration is applied to
an environment: the removed names are cleared, then the plan's variables are
set. A proxy is taken by its name in lower case, whatever its spellings.
-/

namespace RemoteCodex.Config

open Interact

/-- `environment` without the names of `remove`, with the variables of `set` over it. -/
def EnvironmentPlan.apply (plan : EnvironmentPlan) (environment : Sorted String String) : Sorted String ConfigValue :=
  plan.set.entries.foldl (fun left e => left.insert e.1 e.2)
    (plan.remove.foldl Sorted.erase (environment.entries.foldl (fun left e => left.insert e.1 (.text e.2)) .empty))

theorem get_apply (plan : EnvironmentPlan) (environment : Sorted String String) (name : String) :
    (plan.apply environment).get name =
      (plan.set.get name).or (if name ∈ plan.remove then none else (environment.get name).map .text) := by
  unfold EnvironmentPlan.apply
  rw [Sorted.get_foldl_insert (fun v => v) _ _ _ plan.set.keys_ascending, Sorted.get_foldl_erase,
    Sorted.get_foldl_insert ConfigValue.text _ _ _ environment.keys_ascending, Sorted.get_empty, Option.or_none,
    Option.map_id']
  rfl

variable {parseUrl : ParseUrl} {config : EffectiveConfig} {remote : Sorted String String} {mode : ProxyMode}

-- ---------------------------------------------------------------------------
-- Names
-- ---------------------------------------------------------------------------

theorem lower_proxy {p : String} (h : p ∈ PROXY_NAMES) : lower p = p ∧ lower (upper p) = p := by
  simp only [PROXY_NAMES, List.mem_cons, List.not_mem_nil, or_false] at h
  rcases h with rfl | rfl | rfl | rfl <;> decide

theorem EnvironmentName.parse_ok {name : String} {kept : EnvironmentName} (h : parse name = .ok kept) :
    parseName name = .ok kept.val := by
  unfold parse at h
  split at h
  · next got hgot =>
    cases h
    exact hgot
  · cases h

/-- A spelling of a proxy is kept in lower case. -/
theorem parseName_spelling {name kept : String} (h : parseName name = .ok kept) (hproxy : lower name ∈ PROXY_NAMES) :
    kept = lower name := by
  unfold parseName at h
  split at h
  · cases h
  · split at h
    · cases h
    · rw [if_pos (List.contains_iff_mem.mpr hproxy)] at h
      exact (Except.ok.inj h).symm

/-- The name of a variable, as a configuration keeps it, is no other spelling of a proxy. -/
theorem EnvironmentName.val_spelling (name : EnvironmentName) (hproxy : lower name.val ∈ PROXY_NAMES) :
    name.val = lower name.val := parseName_spelling name.kept hproxy

def ConfigKey.variable : ConfigKey → Option String
  | .environment name => some name.val
  | _ => none

theorem ConfigKey.variable_inj {key key' : ConfigKey} {name : String} (h : key.variable = some name)
    (h' : key'.variable = some name) : key = key' := by
  cases key with
  | environment n =>
    cases key' with
    | environment n' =>
      obtain ⟨val, _⟩ := n
      obtain ⟨val', _⟩ := n'
      obtain rfl : val = val' := Option.some.inj (h.trans h'.symm)
      rfl
    | _ => cases h'
  | _ => cases h

/-- What a list of settings has for the variable `name`. -/
def settingOf (settings : List (ConfigKey × ConfigValue)) (name : String) : Option ConfigValue :=
  (settings.find? fun e => e.1.variable = some name).map Prod.snd

theorem settingOf_cons (e : ConfigKey × ConfigValue) (es : List (ConfigKey × ConfigValue)) (name : String) :
    settingOf (e :: es) name = if e.1.variable = some name then some e.2 else settingOf es name := by
  unfold settingOf
  rw [List.find?_cons]
  by_cases h : e.1.variable = some name
  · simp [h]
  · simp [h]

theorem settingOf_entries (config : EffectiveConfig) (name : EnvironmentName) :
    settingOf config.entries name.val = config.get (.environment name) := by
  unfold Sorted.get
  induction config.entries with
  | nil => rfl
  | cons e es ih =>
    rw [settingOf_cons, List.lookup_cons, ih]
    by_cases h : e.1 = .environment name
    · simp [h, ConfigKey.variable]
    · have hother : ¬ e.1.variable = some name.val := fun hv => h (ConfigKey.variable_inj hv rfl)
      have hb : (ConfigKey.environment name == e.1) = false := by simpa using Ne.symm h
      rw [if_neg hother, hb]

theorem settingOf_none (h : ∀ n : EnvironmentName, n.val = name → config.get (.environment n) = none) :
    settingOf config.entries name = none := by
  cases hs : settingOf config.entries name with
  | none => rfl
  | some v =>
    obtain ⟨e, hfind, -⟩ := Option.map_eq_some_iff.mp hs
    have hv : e.1.variable = some name := by simpa using List.find?_some hfind
    obtain ⟨key, w⟩ := e
    cases key with
    | environment n =>
      obtain rfl := Option.some.inj hv
      rw [settingOf_entries, h n rfl] at hs
      cases hs
    | _ => cases hv

-- ---------------------------------------------------------------------------
-- Settings and aliases
-- ---------------------------------------------------------------------------

/-- Proxies are placed apart from the other variables, and not at all in direct mode. -/
theorem get_placed (es : List (ConfigKey × ConfigValue)) (hes : (es.map Prod.fst).Pairwise (· < ·))
    (placed : Sorted String ConfigValue × Sorted String ConfigValue) (name : String) :
    ((es.foldl (placeSetting mode) placed).1.get name =
      (if name ∈ PROXY_NAMES ∧ mode ≠ .direct then settingOf es name else none).or (placed.1.get name)) ∧
    ((es.foldl (placeSetting mode) placed).2.get name =
      (if name ∈ PROXY_NAMES then none else settingOf es name).or (placed.2.get name)) := by
  induction es generalizing placed with
  | nil => simp [settingOf]
  | cons e es ih =>
    obtain ⟨hhead, hrest⟩ := List.pairwise_cons.mp hes
    obtain ⟨ihproxies, ihset⟩ := ih hrest (placeSetting mode placed e)
    rw [List.foldl_cons, ihproxies, ihset, settingOf_cons]
    -- the keys are distinct, so no later setting is of the same variable
    have hlast : e.1.variable = some name → settingOf es name = none := by
      intro hv
      unfold settingOf
      rw [Option.map_eq_none_iff, List.find?_eq_none]
      intro f hf hfv
      have hlt := hhead f.1 (List.mem_map_of_mem hf)
      rw [ConfigKey.variable_inj (of_decide_eq_true hfv) hv] at hlt
      exact absurd hlt (lt_irrefl _)
    obtain ⟨key, v⟩ := e
    cases key with
    | environment n =>
      by_cases hn : n.val = name
      · subst hn
        rw [hlast rfl]
        by_cases hp : n.val ∈ PROXY_NAMES
        · by_cases hm : mode = .direct
          · simp [placeSetting, EnvironmentName.isProxy, hp, hm]
          · simp [placeSetting, EnvironmentName.isProxy, hp, hm, ConfigKey.variable, Sorted.get_insert]
        · simp [placeSetting, EnvironmentName.isProxy, hp, ConfigKey.variable, Sorted.get_insert]
      · have hn' : ¬ name = n.val := fun h => hn h.symm
        have hstay : (placeSetting mode placed (.environment n, v)).1.get name = placed.1.get name ∧
            (placeSetting mode placed (.environment n, v)).2.get name = placed.2.get name := by
          unfold placeSetting
          simp only
          split
          · split
            · exact ⟨by rw [Sorted.get_insert, if_neg hn'], rfl⟩
            · exact ⟨rfl, rfl⟩
          · exact ⟨rfl, by rw [Sorted.get_insert, if_neg hn']⟩
        have hother : ¬ (ConfigKey.environment n).variable = some name := fun h => hn (Option.some.inj h)
        rw [hstay.1, hstay.2, if_neg hother]
        exact ⟨rfl, rfl⟩
    | _ => exact ⟨rfl, rfl⟩

/-- A proxy is set under its lower-case and its upper-case name, and under no other. -/
theorem get_aliases (es : List (String × ConfigValue)) (hes : (es.map Prod.fst).Pairwise (· < ·))
    (hproxies : ∀ e ∈ es, e.1 ∈ PROXY_NAMES) (set : Sorted String ConfigValue) (name : String) :
    (es.foldl setAliases set).get name =
      (if name = lower name ∨ name = upper (lower name) then es.lookup (lower name) else none).or (set.get name) := by
  induction es generalizing set with
  | nil => simp
  | cons e es ih =>
    obtain ⟨hhead, hrest⟩ := List.pairwise_cons.mp hes
    obtain ⟨hlower, hupper⟩ := lower_proxy (hproxies e List.mem_cons_self)
    rw [List.foldl_cons, ih hrest (fun f hf => hproxies f (List.mem_cons_of_mem _ hf)), setAliases, Sorted.get_insert,
      Sorted.get_insert, List.lookup_cons]
    by_cases heq : lower name = e.1
    · have hnone : es.lookup e.1 = none := by
        rw [List.lookup_eq_none_iff]
        intro f hf
        simpa using ne_of_lt (hhead f.1 (List.mem_map_of_mem hf))
      rw [heq, hnone]
      by_cases hlow : name = e.1
      · simp [hlow]
      · by_cases hup : name = upper e.1
        · simp [hup]
        · simp [hlow, hup]
    · have hlow : ¬ name = e.1 := fun h => heq (h ▸ hlower)
      have hup : ¬ name = upper e.1 := fun h => heq (h ▸ hupper)
      have hb : (lower name == e.1) = false := by simpa using heq
      rw [if_neg hup, if_neg hlow, hb]

-- ---------------------------------------------------------------------------
-- Inherited proxies
-- ---------------------------------------------------------------------------

/-- The configuration has no setting of the variable `name`. -/
def Unconfigured (config : EffectiveConfig) (name : String) : Prop :=
  ∀ n : EnvironmentName, n.val = name → config.get (.environment n) = none

/-- `proxies` has just the proxies of the entries that are not configured, each
with the one value that all its spellings have. -/
structure Inherited (config : EffectiveConfig) (seen : List (String × String)) (proxies : Sorted String ConfigValue) :
    Prop where
  from_seen : ∀ p v, proxies.get p = some v →
    p ∈ PROXY_NAMES ∧ Unconfigured config p ∧ ∃ e ∈ seen, lower e.1 = p ∧ v = .text e.2
  agree : ∀ e ∈ seen, lower e.1 ∈ PROXY_NAMES → Unconfigured config (lower e.1) →
    proxies.get (lower e.1) = some (.text e.2)

theorem Inherited.skip {seen : List (String × String)} {proxies : Sorted String ConfigValue}
    (h : Inherited config seen proxies) {entry : String × String}
    (hskip : lower entry.1 ∈ PROXY_NAMES → ¬ Unconfigured config (lower entry.1)) :
    Inherited config (seen ++ [entry]) proxies where
  from_seen p v hv := by
    obtain ⟨hp, hfree, e, he, heq⟩ := h.from_seen p v hv
    exact ⟨hp, hfree, e, List.mem_append_left _ he, heq⟩
  agree e he hproxy hfree := by
    rcases List.mem_append.mp he with he | he
    · exact h.agree e he hproxy hfree
    · obtain rfl := List.mem_singleton.mp he
      exact absurd hfree (hskip hproxy)

/-- The text of an inherited value is not changed. -/
theorem inherited_value {name : EnvironmentName} {raw : String} {v : ConfigValue}
    (h : (if raw.isEmpty then .ok (.text "") else parseValue parseUrl (.environment name) raw) = .ok v) : v = .text raw := by
  split at h
  · next hempty =>
    obtain rfl : raw = "" := String.isEmpty_iff.mp hempty
    exact (Except.ok.inj h).symm
  · obtain ⟨text, rfl⟩ := parseValue_environment h
    unfold parseValue at h
    split at h
    · cases h
    · simp only at h
      split at h
      · cases h
      · split at h
        · cases h
        · exact (Except.ok.inj h).symm

theorem inheritProxy_inherited {seen : List (String × String)} {proxies after : Sorted String ConfigValue}
    {entry : String × String} (h : Inherited config seen proxies)
    (hone : inheritProxy parseUrl config proxies entry = .ok after) : Inherited config (seen ++ [entry]) after := by
  unfold inheritProxy at hone
  split at hone
  · next hother =>
    obtain rfl := Except.ok.inj hone
    exact h.skip fun hin => by simp [hin] at hother
  · next hproxy =>
    have hproxy : lower entry.1 ∈ PROXY_NAMES := by simpa using hproxy
    split at hone
    · cases hone
    · next name hname =>
      have hval := parseName_spelling (EnvironmentName.parse_ok hname) hproxy
      split at hone
      · next hconfigured =>
        obtain rfl := Except.ok.inj hone
        exact h.skip fun _ hfree => by simp [hfree name hval] at hconfigured
      · next hfree =>
        have hfree : Unconfigured config (lower entry.1) := by
          intro n hn
          have hsame : n.val = name.val := hn.trans hval.symm
          obtain ⟨_, _⟩ := n
          obtain ⟨_, _⟩ := name
          obtain rfl := hsame
          simpa using hfree
        split at hone
        · cases hone
        · next v hvalue =>
          obtain rfl := inherited_value hvalue
          split at hone
          · cases hone
          · next hsame =>
            -- an earlier spelling has the same value, or there is none
            have hsame : ∀ w, proxies.get (lower entry.1) = some w → w = .text entry.2 := by
              intro w hw
              rw [hval, hw] at hsame
              simpa using hsame
            obtain rfl := Except.ok.inj hone
            rw [hval]
            constructor
            · intro p v hv
              rw [Sorted.get_insert] at hv
              split at hv
              · next hp =>
                obtain rfl := Option.some.inj hv
                exact ⟨hp ▸ hproxy, hp ▸ hfree, entry, by simp, hp.symm, rfl⟩
              · obtain ⟨hp, hf, e, he, heq⟩ := h.from_seen p v hv
                exact ⟨hp, hf, e, List.mem_append_left _ he, heq⟩
            · intro e he hp hf
              rw [Sorted.get_insert]
              rcases List.mem_append.mp he with he | he
              · split
                · next heq =>
                  have hget := h.agree e he hp hf
                  rw [heq] at hget
                  rw [hsame _ hget]
                · exact h.agree e he hp hf
              · obtain rfl := List.mem_singleton.mp he
                rw [if_pos rfl]

theorem inheritProxies_inherited {seen entries : List (String × String)} {proxies inherited : Sorted String ConfigValue}
    (h : Inherited config seen proxies) (hall : inheritProxies parseUrl config proxies entries = .ok inherited) :
    Inherited config (seen ++ entries) inherited := by
  induction entries generalizing seen proxies with
  | nil =>
    obtain rfl := Except.ok.inj hall
    rwa [List.append_nil]
  | cons entry rest ih =>
    rw [inheritProxies] at hall
    split at hall
    · cases hall
    · next after hone =>
      have := ih (inheritProxy_inherited h hone) hall
      rwa [List.append_assoc] at this

-- ---------------------------------------------------------------------------
-- The plan
-- ---------------------------------------------------------------------------

/-- The value the proxy `p` has in the environment: the configured one, or the
one that every inherited spelling has, in inherit mode. -/
def ProxyValue (config : EffectiveConfig) (remote : Sorted String String) (p : String) (v : ConfigValue) : Prop :=
  (∃ n : EnvironmentName, n.val = p ∧ config.get (.environment n) = some v) ∨
    (Unconfigured config p ∧ config.mode = .inherit ∧ (∃ name, lower name = p ∧ (remote.get name).isSome) ∧
      ∀ name raw, lower name = p → remote.get name = some raw → v = .text raw)

/-- What the plan sets. -/
theorem get_plan {plan : EnvironmentPlan} (h : planEnvironment parseUrl config remote = .ok plan) :
    plan.remove = removed remote ∧ ∃ inherited, (config.mode ≠ .inherit → inherited = .empty) ∧
      (config.mode = .inherit → Inherited config remote.entries inherited) ∧
      (∀ name, lower name ∉ PROXY_NAMES → plan.set.get name = settingOf config.entries name) ∧
      ∀ name, lower name ∈ PROXY_NAMES → plan.set.get name =
        if name = lower name ∨ name = upper (lower name) then
          (if config.mode = .direct then none else settingOf config.entries (lower name)).or (inherited.get (lower name))
        else none := by
  unfold planEnvironment at h
  split at h
  · cases h
  · next inherited hinherited =>
    obtain rfl := Except.ok.inj h
    have hempty : config.mode ≠ .inherit → inherited = .empty := by
      intro hm
      rw [if_neg hm] at hinherited
      exact (Except.ok.inj hinherited).symm
    have hfrom : config.mode = .inherit → Inherited config remote.entries inherited := by
      intro hm
      rw [if_pos hm] at hinherited
      have hnone : Inherited config [] Sorted.empty :=
        ⟨fun p v hv => by simp at hv, fun e he => absurd he List.not_mem_nil⟩
      simpa using inheritProxies_inherited hnone hinherited
    refine ⟨rfl, inherited, hempty, hfrom, ?_⟩
    have hkeys := config.keys_ascending
    generalize hplaced : config.entries.foldl (placeSetting config.mode) (inherited, .empty) = placed
    have hget := fun name => hplaced ▸ @get_placed config.mode config.entries hkeys (inherited, .empty) name
    have hproxies : ∀ e ∈ placed.1.entries, e.1 ∈ PROXY_NAMES := by
      intro e he
      have hsome := Sorted.get_eq_some.mpr he
      rw [(hget e.1).1] at hsome
      by_cases hp : e.1 ∈ PROXY_NAMES
      · exact hp
      · simp only [hp, false_and, ↓reduceIte, Option.none_or] at hsome
        by_cases hm : config.mode = .inherit
        · exact ((hfrom hm).from_seen _ _ hsome).1
        · rw [hempty hm] at hsome
          cases hsome
    have halias := get_aliases placed.1.entries placed.1.keys_ascending hproxies placed.2
    have hlower : ∀ name, lower name ∈ PROXY_NAMES → placed.2.get name = none := by
      intro name hname
      rw [(hget name).2, Sorted.get_empty, Option.or_none]
      split
      · rfl
      · next hother =>
        apply settingOf_none
        rintro n rfl
        exact absurd (n.val_spelling hname ▸ hname) hother
    constructor
    · intro name hname
      have hother : name ∉ PROXY_NAMES := fun h => hname ((lower_proxy h).1.symm ▸ h)
      have hlookup : placed.1.entries.lookup (lower name) = none := by
        cases hl : placed.1.entries.lookup (lower name) with
        | none => rfl
        | some v => exact absurd (hproxies _ (Sorted.get_eq_some.mp hl)) hname
      simp only [halias, hlookup, ite_self, Option.none_or, (hget name).2, hother, ↓reduceIte, Sorted.get_empty,
        Option.or_none]
    · intro name hname
      simp only [halias, hlower name hname, Option.or_none]
      split
      · refine ((hget (lower name)).1).trans ?_
        by_cases hm : config.mode = .direct
        · simp [hm]
        · simp [hm, hname]
      · rfl

/-- What the environment has before the plan's variables are set. -/
theorem kept_after_removal (remote : Sorted String String) (name : String) :
    (if name ∈ removed remote then none else (remote.get name).map ConfigValue.text) =
      if lower name ∈ PROXY_NAMES then none else (remote.get name).map .text := by
  by_cases hproxy : lower name ∈ PROXY_NAMES
  · rw [if_pos hproxy]
    split
    · rfl
    · next hleft =>
      cases hget : remote.get name with
      | none => rfl
      | some raw =>
        have hin : name ∈ removed remote := by
          refine List.mem_append_right _ (List.mem_filter.mpr ⟨?_, List.contains_iff_mem.mpr hproxy⟩)
          exact List.mem_map_of_mem (Sorted.get_eq_some.mp hget)
        exact absurd hin hleft
  · rw [if_neg hproxy, if_neg]
    intro hin
    rcases List.mem_append.mp hin with hin | hin
    · obtain ⟨p, hp, hname⟩ := List.mem_flatMap.mp hin
      obtain ⟨hlower, hupper⟩ := lower_proxy hp
      rcases List.mem_cons.mp hname with rfl | hname
      · exact hproxy (hlower.symm ▸ hp)
      · obtain rfl := List.mem_singleton.mp hname
        exact hproxy (hupper.symm ▸ hp)
    · exact hproxy (List.contains_iff_mem.mp (List.mem_filter.mp hin).2)

theorem proxyValue_configured {n : EnvironmentName} {v : ConfigValue} (h : config.get (.environment n) = some v) {p : String}
    (hn : n.val = p) {w : ConfigValue} (hw : ProxyValue config remote p w) : w = v := by
  rcases hw with ⟨n', hn', hw⟩ | ⟨hfree, -⟩
  · have hsame : n'.val = n.val := hn'.trans hn.symm
    obtain ⟨_, _⟩ := n
    obtain ⟨_, _⟩ := n'
    obtain rfl := hsame
    exact Option.some.inj (hw.symm.trans h)
  · rw [hfree n hn] at h
    cases h

/-- The value of a proxy is what the plan has for its two names. -/
theorem proxyValue_iff {inherited : Sorted String ConfigValue} (hempty : config.mode ≠ .inherit → inherited = .empty)
    (hfrom : config.mode = .inherit → Inherited config remote.entries inherited) {p : String} (hp : p ∈ PROXY_NAMES)
    (v : ConfigValue) :
    (settingOf config.entries p).or (inherited.get p) = some v ↔ ProxyValue config remote p v := by
  let n : EnvironmentName := ⟨p, parseName_proxy hp⟩
  have hlower := (lower_proxy hp).1
  rw [show settingOf config.entries p = _ from settingOf_entries config n]
  cases hset : config.get (.environment n) with
  | some w =>
    constructor
    · intro h
      obtain rfl : w = v := Option.some.inj h
      exact .inl ⟨n, rfl, hset⟩
    · exact fun h => congrArg some (proxyValue_configured hset rfl h).symm
  | none =>
    have hfree : Unconfigured config p := by
      rintro ⟨val, _⟩ hn
      obtain rfl : val = p := hn
      exact hset
    rw [Option.none_or]
    by_cases hm : config.mode = .inherit
    · have hin := hfrom hm
      constructor
      · intro hv
        obtain ⟨-, -, e, he, heq, rfl⟩ := hin.from_seen p v hv
        refine .inr ⟨hfree, hm, ⟨e.1, heq, ?_⟩, ?_⟩
        · rw [Sorted.get_eq_some.mpr he]
          rfl
        · rintro name raw rfl hraw
          have hagree := hin.agree _ (Sorted.get_eq_some.mp hraw) hp hfree
          exact Option.some.inj (hv.symm.trans hagree)
      · rintro (⟨n', hn', hv⟩ | ⟨-, -, ⟨name, hname, hsome⟩, hone⟩)
        · rw [hfree n' hn'] at hv
          cases hv
        · obtain ⟨raw, hraw⟩ := Option.isSome_iff_exists.mp hsome
          subst hname
          rw [hin.agree _ (Sorted.get_eq_some.mp hraw) hp hfree, hone name raw rfl hraw]
    · rw [hempty hm]
      constructor
      · intro h
        cases h
      · rintro (⟨n', hn', hv⟩ | ⟨-, hm', -⟩)
        · rw [hfree n' hn'] at hv
          cases hv
        · exact absurd hm' hm

/-- A plan leaves no proxy in direct mode, and else each proxy under its two
names or not at all; the other variables are the configured ones over those of
the environment. Inherited spellings that disagree have no plan. -/
theorem planned_environment (parseUrl : ParseUrl) (config : EffectiveConfig) (remote : Sorted String String) :
    (∀ plan, planEnvironment parseUrl config remote = .ok plan →
      (config.mode = .direct → ∀ name, lower name ∈ PROXY_NAMES → (plan.apply remote).get name = none) ∧
      (config.mode ≠ .direct → ∀ p ∈ PROXY_NAMES,
        ((¬ ∃ v, ProxyValue config remote p v) ∧ ∀ name, lower name = p → (plan.apply remote).get name = none) ∨
        ∃ v, ProxyValue config remote p v ∧
          ∀ name, lower name = p → (plan.apply remote).get name = if name = p ∨ name = upper p then some v else none) ∧
      (∀ (n : EnvironmentName) v, n.isProxy = false → config.get (.environment n) = some v →
        (plan.apply remote).get n.val = some v) ∧
      ∀ name, lower name ∉ PROXY_NAMES → Unconfigured config name →
        (plan.apply remote).get name = (remote.get name).map .text) ∧
    (config.mode = .inherit → ∀ p ∈ PROXY_NAMES, Unconfigured config p → ∀ a b x y, lower a = p → lower b = p →
      remote.get a = some x → remote.get b = some y → x ≠ y → ∃ e, planEnvironment parseUrl config remote = .error e) := by
  constructor
  · intro plan h
    obtain ⟨hremove, inherited, hempty, hfrom, hothers, hproxies⟩ := get_plan h
    have hget := fun name => hremove ▸ get_apply plan remote name
    simp only [kept_after_removal] at hget
    refine ⟨?_, ?_, ?_, ?_⟩
    · intro hm name hname
      rw [hget, hproxies name hname, if_pos hname, Option.or_none, hempty (by simp [hm])]
      simp [hm]
    · intro hm p hp
      have hvalue := proxyValue_iff hempty hfrom hp
      have hnames : ∀ name, lower name = p → (plan.apply remote).get name =
          if name = p ∨ name = upper p then (settingOf config.entries p).or (inherited.get p) else none := by
        rintro name rfl
        rw [hget, hproxies name hp, if_pos hp, Option.or_none, if_neg hm]
      cases hv : (settingOf config.entries p).or (inherited.get p) with
      | none =>
        refine .inl ⟨?_, ?_⟩
        · rintro ⟨v, hpv⟩
          rw [(hvalue v).mpr hpv] at hv
          cases hv
        · intro name hname
          rw [hnames name hname, hv, ite_self]
      | some v =>
        refine .inr ⟨v, (hvalue v).mp hv, ?_⟩
        intro name hname
        rw [hnames name hname, hv]
    · intro n v hn hv
      have hother : lower n.val ∉ PROXY_NAMES := by
        intro hp
        rw [EnvironmentName.isProxy, n.val_spelling hp, List.contains_iff_mem.mpr hp] at hn
        cases hn
      rw [hget, hothers _ hother, settingOf_entries, hv]
      rfl
    · intro name hother hfree
      rw [hget, hothers name hother, settingOf_none hfree, if_neg hother]
      rfl
  · intro hm p hp hfree a b x y ha hb hx hy hne
    cases hplan : planEnvironment parseUrl config remote with
    | error e => exact ⟨e, rfl⟩
    | ok plan =>
      obtain ⟨-, inherited, -, hfrom, -⟩ := get_plan hplan
      have hin := hfrom hm
      have hax := hin.agree _ (Sorted.get_eq_some.mp hx) (ha ▸ hp) (ha ▸ hfree)
      have hby := hin.agree _ (Sorted.get_eq_some.mp hy) (hb ▸ hp) (hb ▸ hfree)
      rw [ha] at hax
      rw [hb, hax] at hby
      exact absurd (ConfigValue.text.inj (Option.some.inj hby)) hne

end RemoteCodex.Config
