import RemoteCodex.Engine.Accounting
import RemoteCodex.Engine.Regular

/-!
# What an operation does

`Guards` is what every operation of a turn does to the store and the commands,
and what each kind of operation needs for it.
-/

namespace RemoteCodex.Engine

open Interact Transfer
open Remote (ClientError)

/-- What an operation does: the store stays regular, and nothing is replaced but
a file that was seen there, with consent. -/
def Guards (answers : List Answer) (op : EngineOp) (a b : Scene × List Asked) : Prop :=
  Regular answers b.1.kept b.2 ∧
    ∀ root target token stamp old bytes, op = .call false root (.prepare target token stamp (some old)) bytes →
      stamp.kind = .file ∧ old.kind = .file ∧ Said a.2 false root (.stat target) (.stat (some old)) ∧
        Consented answers old

/-- A program that stays within `Guards`; where it fails nothing more is asked. -/
abbrev Guarded (answers : List Answer) (x : E α) (s : Scene × List Asked) (Q : α → Scene × List Asked → Prop) : Prop :=
  Act.Sat recorded (Guards answers) x s Q fun _ _ => True

/-- The store and the commands are what they were. -/
def Still (s t : Scene × List Asked) : Prop := t.1.kept = s.1.kept ∧ t.2 = s.2

section

variable {answers : List Answer} {s t : Scene × List Asked} {task : Task} {item : Item} {ε α : Type}

theorem Still.refl (s : Scene × List Asked) : Still s s := ⟨rfl, rfl⟩

theorem Still.trans {u : Scene × List Asked} (h : Still s t) (h' : Still t u) : Still s u :=
  ⟨h'.1.trans h.1, h'.2.trans h.2⟩

theorem Still.regular (h : Still s t) (hs : Regular answers s.1.kept s.2) : Regular answers t.1.kept t.2 := by
  rw [h.1, h.2]
  exact hs

-- ---------------------------------------------------------------------------
-- Operations
-- ---------------------------------------------------------------------------

/-- An operation that is no command and leaves the store as it is. -/
theorem quiet_guards {op : EngineOp} {E : ClientError → Scene × List Asked → Prop}
    (h : Regular answers s.1.kept s.2) (hquiet : ∀ a, (Scene.exec op a).2 = a) (hnote : ∀ r, note op r = []) :
    Act.Sat recorded (Guards answers) (ask op) s (fun r t => Still s t ∧ r = (Scene.exec op t.1).1) E := by
  refine Act.Sat.asked (fun _ _ hcut => hcut) fun a ha => ?_
  have hregular : Regular answers a.kept s.2 := ha.1 ▸ h
  have hguards : ∀ b : Scene × List Asked, Guards answers op (a, s.2) (a, s.2) := by
    intro b
    refine ⟨hregular, ?_⟩
    rintro root target token stamp old bytes rfl
    exact absurd (hnote none) (List.cons_ne_nil _ _)
  have hexec : ((machine fun _ => True).exec op a).2 = a := hquiet a
  rw [hnote, hnote, hexec, List.nil_append]
  exact ⟨hguards s, hguards s, ⟨ha.1, rfl⟩, rfl⟩

theorem loadTask_guards (h : Regular answers s.1.kept s.2) :
    Guarded answers loadTask s fun r t => Still s t ∧ r = s.1.kept.task := by
  refine Act.Sat.bind (quiet_guards h (fun _ => rfl) fun _ => rfl) ?_
  rintro r t ⟨hstill, rfl⟩
  exact Act.Sat.ofExcept (fun a ha => ⟨hstill, hstill.1 ▸ reads_ok ha⟩) fun _ _ => trivial

theorem loadItems_guards (h : Regular answers s.1.kept s.2) :
    Guarded answers loadItems s fun r t => Still s t ∧ r = s.1.kept.items := by
  refine Act.Sat.bind (quiet_guards h (fun _ => rfl) fun _ => rfl) ?_
  rintro r t ⟨hstill, rfl⟩
  exact Act.Sat.ofExcept (fun a ha => ⟨hstill, hstill.1 ▸ reads_ok ha⟩) fun _ _ => trivial

theorem loadProgress_guards (h : Regular answers s.1.kept s.2) : Guarded answers loadProgress s fun _ t => Still s t := by
  refine Act.Sat.bind (quiet_guards h (fun _ => rfl) fun _ => rfl) ?_
  rintro r t ⟨hstill, -⟩
  exact Act.Sat.ofExcept (fun _ _ => hstill) fun _ _ => trivial

theorem openPeers_guards (h : Regular answers s.1.kept s.2) (workspace : String) (expected : Option RootIdentity) :
    Guarded answers (openPeers workspace expected) s fun _ t => Still s t := by
  refine Act.Sat.bind (quiet_guards h (fun _ => rfl) fun _ => rfl) ?_
  rintro r t ⟨hstill, -⟩
  exact Act.Sat.ofExcept (fun _ _ => hstill) fun _ _ => trivial

/-- The same where the answer does not matter. -/
theorem ask_guards {op : EngineOp} {E : ClientError → Scene × List Asked → Prop} (h : Regular answers s.1.kept s.2)
    (hquiet : ∀ a, (Scene.exec op a).2 = a) (hnote : ∀ r, note op r = []) :
    Act.Sat recorded (Guards answers) (ask op) s (fun _ t => Still s t) E :=
  (quiet_guards h hquiet hnote).mono (fun _ _ ht => ht.1) fun _ _ he => he

/-- A command, with what it adds to the commands whether it is answered or not. -/
theorem call_guards {source : Bool} {root : Nat} {command : Command} (bytes : Files.Bytes)
    (h : ∀ r, Regular answers s.1.kept (⟨source, root, command, r⟩ :: s.2))
    (hprepare : ∀ target token stamp old, source = false → command = .prepare target token stamp (some old) →
      stamp.kind = .file ∧ old.kind = .file ∧ Said s.2 false root (.stat target) (.stat (some old)) ∧
        Consented answers old) :
    Act.Sat recorded (Guards answers) (call source root command bytes) s
      (fun r t => t.1.kept = s.1.kept ∧ t.2 = ⟨source, root, command, some (.ok r.1)⟩ :: s.2)
      (fun e t => t.1.kept = s.1.kept ∧ t.2 = ⟨source, root, command, some (.error e)⟩ :: s.2) := by
  have hguards : ∀ (a : Scene) r, a.kept = s.1.kept → Guards answers (.call source root command bytes) (a, s.2)
      (a, ⟨source, root, command, r⟩ :: s.2) := by
    intro a r ha
    refine ⟨ha ▸ h r, ?_⟩
    intro root' target token stamp old bytes' heq
    cases heq
    exact hprepare _ _ _ _ rfl rfl
  refine Act.Sat.bind (R := fun (r : Except ClientError (Reply × Files.Bytes)) t => t.1.kept = s.1.kept ∧
    t.2 = ⟨source, root, command, some (r.map Prod.fst)⟩ :: s.2) ?_ ?_
  · exact Act.Sat.asked (fun _ _ hcut => hcut) fun a ha =>
      ⟨hguards a none ha.1, hguards a _ ha.1, ha.1, rfl⟩
  · rintro (e | r) t ht
    · exact Act.Sat.throw ht
    · exact Act.Sat.pure ht

/-- A command that makes no stage. -/
theorem plain_guards {source : Bool} {root : Nat} {command : Command} (h : Regular answers s.1.kept s.2)
    (hplain : source = false → ∀ target token stamp expected, command ≠ .prepare target token stamp expected)
    (bytes : Files.Bytes) :
    Act.Sat recorded (Guards answers) (call source root command bytes) s
      (fun r t => t.1.kept = s.1.kept ∧ t.2 = ⟨source, root, command, some (.ok r.1)⟩ :: s.2)
      (fun e t => t.1.kept = s.1.kept ∧ t.2 = ⟨source, root, command, some (.error e)⟩ :: s.2) :=
  call_guards bytes (fun _ => h.fewer (List.subset_cons_self _ _) (stages_subset hplain))
    fun _ _ _ _ hsource hcommand => absurd hcommand (hplain hsource _ _ _ _)

/-- The commands have grown, and no stage is new. -/
structure Grown (s t : Scene × List Asked) : Prop where
  kept : t.1.kept = s.1.kept
  log : s.2 ⊆ t.2
  stages : stages t.2 ⊆ stages s.2

theorem Still.grown (h : Still s t) : Grown s t := by
  obtain ⟨hkept, hlog⟩ := h
  exact ⟨hkept, hlog ▸ List.Subset.refl _, hlog ▸ List.Subset.refl _⟩

theorem Grown.trans {u : Scene × List Asked} (h : Grown s t) (h' : Grown t u) : Grown s u :=
  ⟨h'.kept.trans h.kept, List.Subset.trans h.log h'.log, List.Subset.trans h'.stages h.stages⟩

theorem Grown.regular (h : Grown s t) (hs : Regular answers s.1.kept s.2) : Regular answers t.1.kept t.2 := by
  rw [h.kept]
  exact hs.fewer h.log h.stages

theorem grown_cons {source : Bool} {root : Nat} {command : Command} {reply : Option (Except ClientError Reply)}
    (hkept : t.1.kept = s.1.kept) (hlog : t.2 = ⟨source, root, command, reply⟩ :: s.2)
    (hplain : source = false → ∀ target token stamp expected, command ≠ .prepare target token stamp expected) :
    Grown s t :=
  ⟨hkept, hlog ▸ List.subset_cons_self _ _, hlog ▸ stages_subset hplain⟩

theorem stat_guards (h : Regular answers s.1.kept s.2) (source : Bool) (root : Nat) (path : String) :
    Guarded answers (stat source root path) s fun r t => Grown s t ∧ Said t.2 source root (.stat path) (.stat r) := by
  refine Act.Sat.bind ((plain_guards h (by nofun) []).mono (fun _ _ ht => ht) fun _ _ _ => trivial) ?_
  rintro ⟨reply, bytes⟩ t ⟨hkept, hlog⟩
  cases reply with
  | stat stamp =>
    refine Act.Sat.pure ⟨grown_cons hkept hlog (by nofun), ?_⟩
    rw [hlog]
    exact List.mem_cons_self
  | _ => exact Act.Sat.throw trivial

-- ---------------------------------------------------------------------------
-- Transactions
-- ---------------------------------------------------------------------------

theorem Committed.regular {k k' : Stored} {r : Except ClientError Unit} {scene : Scene} {log : List Asked}
    (h : Committed k k' r scene) (hk : Regular answers k log) (hk' : Regular answers k' log) :
    Regular answers scene.kept log := by
  rcases h with ⟨-, hkept⟩ | ⟨-, hkept⟩
  · exact hkept ▸ hk'
  · exact hkept ▸ hk

theorem Committed.guards {k k' : Stored} {r : Except ClientError Unit} (h : Committed k k' r s.1) :
    Act.Sat recorded (Guards answers) (ofExcept r : E Unit) s (fun _ t => t.1.kept = k' ∧ t.2 = s.2)
      (fun _ t => t.1.kept = k ∧ t.2 = s.2) := by
  rcases h with ⟨rfl, hkept⟩ | ⟨⟨e, rfl⟩, hkept⟩
  · exact Act.Sat.pure ⟨hkept, rfl⟩
  · exact Act.Sat.throw ⟨hkept, rfl⟩

/-- An operation that is a transaction: it is carried out, or it is not. -/
theorem commit_guards (op : EngineOp) {k : Stored} {a : Scene} {r : Except ClientError Unit} (ha : a.kept = s.1.kept)
    (h : Regular answers s.1.kept s.2) (h' : Regular answers k s.2) (hnote : ∀ r, note op r = [])
    (hexec : ((machine fun _ => True).exec op a).2 = (a.commits k).2) (hr : r = (a.commits k).1) :
    Guards answers op (a, s.2) (a, note op none ++ s.2) ∧
      Guards answers op (a, s.2) (((machine fun _ => True).exec op a).2, s.2) ∧
      Committed s.1.kept k r ((machine fun _ => True).exec op a).2 := by
  have hc := committed a k
  rw [ha, ← hexec, ← hr] at hc
  have hcall : ∀ root target token stamp old bytes, op = .call false root (.prepare target token stamp (some old)) bytes →
      stamp.kind = .file ∧ old.kind = .file ∧ Said s.2 false root (.stat target) (.stat (some old)) ∧
        Consented answers old := by
    rintro root target token stamp old bytes rfl
    exact absurd (hnote none) (List.cons_ne_nil _ _)
  rw [hnote none]
  exact ⟨⟨ha ▸ h, hcall⟩, ⟨hc.regular h h', hcall⟩, hc⟩

theorem saveItem_guards (h : Regular answers s.1.kept s.2) (h' : Regular answers (s.1.kept.saveItem item) s.2) :
    Act.Sat recorded (Guards answers) (saveItem item) s (fun _ t => t.1.kept = s.1.kept.saveItem item ∧ t.2 = s.2)
      (fun _ t => Still s t) := by
  refine Act.Sat.bind (R := fun (r : Except ClientError Unit) t =>
    Committed s.1.kept (s.1.kept.saveItem item) r t.1 ∧ t.2 = s.2) (Act.Sat.asked (fun _ _ hcut => hcut) fun a ha => ?_)
    fun r t ht => ht.1.guards.mono (fun _ _ hu => ⟨hu.1, hu.2.trans ht.2⟩) fun _ _ hu => ⟨hu.1, hu.2.trans ht.2⟩
  obtain ⟨hcut, hdone, hc⟩ := commit_guards (.saveItem item) ha.1 h h' (fun _ => rfl) (by rw [← ha.1]; rfl) rfl
  exact ⟨hcut, hdone, by rw [← ha.1] at hc ⊢; exact hc, rfl⟩

theorem resetScan_guards (h : Regular answers s.1.kept s.2) (h' : Regular answers (s.1.kept.setItems []) s.2) :
    Act.Sat recorded (Guards answers) resetScan s (fun _ t => t.1.kept = s.1.kept.setItems [] ∧ t.2 = s.2)
      (fun _ t => Still s t) := by
  refine Act.Sat.bind (R := fun (r : Except ClientError Unit) t =>
    Committed s.1.kept (s.1.kept.setItems []) r t.1 ∧ t.2 = s.2) (Act.Sat.asked (fun _ _ hcut => hcut) fun a ha => ?_)
    fun r t ht => ht.1.guards.mono (fun _ _ hu => ⟨hu.1, hu.2.trans ht.2⟩) fun _ _ hu => ⟨hu.1, hu.2.trans ht.2⟩
  obtain ⟨hcut, hdone, hc⟩ := commit_guards (.resetScan) ha.1 h h' (fun _ => rfl) (by rw [← ha.1]; rfl) rfl
  exact ⟨hcut, hdone, by rw [← ha.1] at hc ⊢; exact hc, rfl⟩

theorem saveTask_guards (h : Regular answers s.1.kept s.2) (h' : Regular answers (s.1.kept.saveTask task) s.2) :
    Act.Sat recorded (Guards answers) (saveTask task) s (fun _ t => t.1.kept = s.1.kept.saveTask task ∧ t.2 = s.2)
      (fun _ t => Still s t) := by
  refine Act.Sat.bind (R := fun (r : Except ClientError Unit) t =>
    Committed s.1.kept (s.1.kept.saveTask task) r t.1 ∧ t.2 = s.2) (Act.Sat.asked (fun _ _ hcut => hcut) fun a ha => ?_)
    fun r t ht => ht.1.guards.mono (fun _ _ hu => ⟨hu.1, hu.2.trans ht.2⟩) fun _ _ hu => ⟨hu.1, hu.2.trans ht.2⟩
  obtain ⟨hcut, hdone, hc⟩ := commit_guards (.saveTask task) ha.1 h h' (fun _ => rfl) (by rw [← ha.1]; rfl) rfl
  exact ⟨hcut, hdone, by rw [← ha.1] at hc ⊢; exact hc, rfl⟩

theorem publish_guards (h : Regular answers s.1.kept s.2) (h' : Regular answers (s.1.kept.saveTask task) s.2) :
    Guarded answers (publish task) s fun _ t => t.1.kept = s.1.kept.saveTask task ∧ t.2 = s.2 := by
  refine Act.Sat.bind ((saveTask_guards h h').mono (fun _ _ ht => ht) fun _ _ _ => trivial) ?_
  rintro _ t ⟨hkept, hlog⟩
  have hafter : Regular answers t.1.kept t.2 := by
    rw [hkept, hlog]
    exact h'
  refine (ask_guards hafter (fun _ => rfl) fun _ => rfl).mono (fun _ _ hu => ?_) fun _ _ he => he
  exact ⟨hu.1.trans hkept, hu.2.trans hlog⟩

end

end RemoteCodex.Engine
