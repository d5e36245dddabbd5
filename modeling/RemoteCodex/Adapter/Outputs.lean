import RemoteCodex.Adapter.Serving

/-!
# Outputs in a native history

A source names an item of a turn, and the page it was seen on. From that page
on the items are looked through, newest first, until the item is found.
-/

namespace RemoteCodex.Adapter.History

open Interact Protocol Tools
open Cursors (Leaves Serves)

variable {σ : Type} (M : Machine Op Ans σ) (history : σ → List NativeTurn) (thread : String)

/-- What is listed for a turn are its items, whatever the cursor, and no two have one name. -/
structure Honest : Prop where
  distinct : ∀ s, ∀ t ∈ history s, ∀ a ∈ t.items, ∀ b ∈ t.items, ∀ name, (a.index "id").asStr = some name →
    (b.index "id").asStr = some name → a = b
  entries : ∀ s turn cursor limit v entries, answer M s "thread/items/list" (itemsParams thread turn cursor limit) = .ok v →
    (v.index "data").asArray = some entries → ∀ entry ∈ entries, (entry.index "turnId").asStr = some turn →
      ∃ t ∈ history s, t.id = turn ∧ entry.index "item" ∈ t.items

variable (pretty : Value → String) (parseUrl : String → Option Url)

/-- The item shows this output. -/
def Shows (item : Value) (text : String) : Prop := ∃ tool, project pretty parseUrl item = some tool ∧ tool.output = text

/-- The output of the item that a source names. -/
def Output (turns : List NativeTurn) (source : ToolOutputSource) (text : String) : Prop :=
  ∃ t ∈ turns, t.id = source.turn ∧ ∃ item ∈ t.items, (item.index "id").asStr = some source.item ∧
    Shows pretty parseUrl item text

/-- The item is on the page of the source, or on an older one. -/
def Located (itemPlaces : String → String → Option Nat) (turns : List NativeTurn) (source : ToolOutputSource)
    (text : String) : Prop :=
  ∃ t ∈ turns, t.id = source.turn ∧ ∃ rows, Leaves (itemPlaces t.id) t.items source.cursor rows ∧
    ∃ item ∈ rows, (item.index "id").asStr = some source.item ∧ Shows pretty parseUrl item text

variable {M history thread pretty parseUrl} {itemPlaces : String → String → Option Nat}
variable {turns turns' : List NativeTurn} {source : ToolOutputSource} {text text' : String} {s : σ}

theorem Output.grow (h : Output pretty parseUrl turns source text) (hgrow : turns <:+ turns') :
    Output pretty parseUrl turns' source text := by
  obtain ⟨t, ht, hrest⟩ := h
  exact ⟨t, hgrow.subset ht, hrest⟩

theorem Located.grow (h : Located pretty parseUrl itemPlaces turns source text) (hgrow : turns <:+ turns') :
    Located pretty parseUrl itemPlaces turns' source text := by
  obtain ⟨t, ht, hrest⟩ := h
  exact ⟨t, hgrow.subset ht, hrest⟩

theorem Located.output (h : Located pretty parseUrl itemPlaces turns source text) :
    Output pretty parseUrl turns source text := by
  obtain ⟨t, ht, hid, rows, hrows, item, hitem, hrest⟩ := h
  exact ⟨t, ht, hid, item, hrows.suffix.subset hitem, hrest⟩

/-- A source names one output. -/
theorem Output.unique (hserving : ServesItems M history thread itemPlaces) (hhonest : Honest M history thread)
    (h : Output pretty parseUrl (history s) source text) (h' : Output pretty parseUrl (history s) source text') :
    text = text' := by
  obtain ⟨t, ht, hid, item, hitem, hname, tool, hproject, rfl⟩ := h
  obtain ⟨t', ht', hid', item', hitem', hname', tool', hproject', rfl⟩ := h'
  obtain rfl : t = t' := List.inj_on_of_nodup_map (hserving.distinct s) ht ht' (hid.trans hid'.symm)
  obtain rfl := hhonest.distinct s t ht item hitem item' hitem' _ hname hname'
  obtain rfl := Option.some.inj (hproject.symm.trans hproject')
  rfl

-- ---------------------------------------------------------------------------
-- One page of items
-- ---------------------------------------------------------------------------

/-- The tool that is taken from a page is that of an entry for the source. -/
theorem toolIn_some {data : List Value} {tool : ToolItem} (h : toolIn pretty parseUrl source data = some tool) :
    ∃ entry ∈ data, (entry.index "turnId").asStr = some source.turn ∧
      ((entry.index "item").index "id").asStr = some source.item ∧
      project pretty parseUrl (entry.index "item") = some tool := by
  obtain ⟨entry, hfind, hproject⟩ := Option.bind_eq_some_iff.mp h
  have hnamed := List.find?_some hfind
  rw [Bool.and_eq_true, decide_eq_true_eq, decide_eq_true_eq] at hnamed
  exact ⟨entry, List.mem_of_find?_eq_some hfind, hnamed.1, hnamed.2, hproject⟩

theorem toolIn_none {data : List Value}
    (h : ∀ entry ∈ data, ((entry.index "item").index "id").asStr ≠ some source.item) :
    toolIn pretty parseUrl source data = none := by
  refine Option.bind_eq_none_iff.mpr fun entry hfind => ?_
  have hnamed := List.find?_some hfind
  rw [Bool.and_eq_true, decide_eq_true_eq, decide_eq_true_eq] at hnamed
  exact absurd hnamed.2 (h entry (List.mem_of_find?_eq_some hfind))

theorem mem_of_entries {turn : String} {data entries : List Value} (h : List.Forall₂ (Entry turn) data entries) :
    ∀ entry ∈ entries, ∃ item ∈ data, Entry turn item entry := by
  intro entry hentry
  induction h with
  | nil => cases hentry
  | cons hhead _ ih =>
    rcases List.mem_cons.mp hentry with rfl | hentry
    · exact ⟨_, List.mem_cons_self, hhead⟩
    · obtain ⟨item, hitem, hof⟩ := ih hentry
      exact ⟨item, List.mem_cons_of_mem _ hitem, hof⟩

theorem entry_of_mem {turn : String} {data entries : List Value} (h : List.Forall₂ (Entry turn) data entries) :
    ∀ item ∈ data, ∃ entry ∈ entries, Entry turn item entry := by
  intro item hitem
  induction h with
  | nil => cases hitem
  | cons hhead _ ih =>
    rcases List.mem_cons.mp hitem with rfl | hitem
    · exact ⟨_, List.mem_cons_self, hhead⟩
    · obtain ⟨entry, hentry, hof⟩ := ih hitem
      exact ⟨entry, List.mem_cons_of_mem _ hentry, hof⟩

/-- The tool of the one item with the name of the source. -/
theorem toolIn_item {data entries : List Value} {item : Value} {tool : ToolItem}
    (h : List.Forall₂ (Entry source.turn) data entries) (hitem : item ∈ data)
    (hname : (item.index "id").asStr = some source.item) (hproject : project pretty parseUrl item = some tool)
    (hone : ∀ other ∈ data, (other.index "id").asStr = some source.item → other = item) :
    toolIn pretty parseUrl source entries = some tool := by
  obtain ⟨entry, hentry, hof⟩ := entry_of_mem h item hitem
  have hfound : ∃ found, entries.find? (fun entry =>
      (entry.index "turnId").asStr = some source.turn && ((entry.index "item").index "id").asStr = some source.item) =
        some found := by
    refine Option.isSome_iff_exists.mp (List.find?_isSome.mpr ⟨entry, hentry, ?_⟩)
    rw [hof.item, hof.turnId, hname]
    simp
  obtain ⟨found, hfind⟩ := hfound
  have hnamed := List.find?_some hfind
  rw [Bool.and_eq_true, decide_eq_true_eq, decide_eq_true_eq] at hnamed
  obtain ⟨other, hother, hotherOf⟩ := mem_of_entries h found (List.mem_of_find?_eq_some hfind)
  obtain rfl := hone other hother (hotherOf.item ▸ hnamed.2)
  unfold toolIn
  rw [hfind, Option.bind_some, hotherOf.item]
  exact hproject

-- ---------------------------------------------------------------------------
-- The pages of a turn
-- ---------------------------------------------------------------------------

/-- What is found is the output of the source. -/
theorem lookFor_sound (hserving : ServesItems M history thread itemPlaces) (hhonest : Honest M history thread)
    (source : ToolOutputSource) (fuel : Nat) (cursor : Option String) (s : σ) :
    Always M (lookFor pretty parseUrl thread source fuel cursor) s
      (fun r t => history s <:+ history t ∧ ∀ text, r = some text → Output pretty parseUrl (history t) source text)
      (fun _ t => history s <:+ history t) := by
  induction fuel generalizing cursor s with
  | zero => exact .pure ⟨List.suffix_rfl, fun _ h => by cases h⟩
  | succ fuel ih =>
    unfold lookFor
    refine .bind (R := fun v t => history s <:+ history t ∧ ∀ entries, (v.index "data").asArray = some entries →
      ∀ tool, toolIn pretty parseUrl source entries = some tool → Output pretty parseUrl (history t) source tool.output)
      (always_call fun a ha => ?_) ?_
    · have hgrow := (hserving.rely s a ha).trans (hserving.exec
        (.call "thread/items/list" (itemsParams thread source.turn cursor ITEM_LIMIT)) a)
      cases hanswer : answer M a "thread/items/list" (itemsParams thread source.turn cursor ITEM_LIMIT) with
      | error f => exact hgrow
      | ok v =>
        refine ⟨hgrow, fun entries hentries tool htool => ?_⟩
        obtain ⟨entry, hentry, hturn, hname, hproject⟩ := toolIn_some htool
        obtain ⟨t, ht, hid, hitem⟩ := hhonest.entries a _ _ _ v entries hanswer hentries entry hentry hturn
        exact ⟨t, (hserving.exec _ a).subset ht, hid, _, hitem, hname, tool, hproject, rfl⟩
    · intro v t hv
      refine .bind (R := fun entries t => history s <:+ history t ∧
        ∀ tool, toolIn pretty parseUrl source entries = some tool → Output pretty parseUrl (history t) source tool.output)
        (always_required (fun entries hentries => ⟨hv.1, hv.2 entries hentries⟩) fun _ => hv.1) ?_
      intro entries t hentries
      cases htool : toolIn pretty parseUrl source entries with
      | some tool =>
        refine .pure ⟨hentries.1, fun text htext => ?_⟩
        obtain rfl := Option.some.inj htext
        exact hentries.2 tool htool
      | none =>
        simp only
        cases (v.index "nextCursor").asStr with
        | none => exact .throw hentries.1
        | some next =>
          simp only
          split
          · exact .throw hentries.1
          · exact .mono (ih (some next) t) (fun r u hu => ⟨hentries.1.trans hu.1, hu.2⟩) fun _ u hu => hentries.1.trans hu

/-- The item is found in as many pages as there are rows. -/
theorem lookFor_finds (hserving : ServesItems M history thread itemPlaces) (hhonest : Honest M history thread)
    {t : NativeTurn} {rows : List Value} {cursor : Option String} {item : Value} {tool : ToolItem} (fuel : Nat)
    (ht : t ∈ history s) (hid : t.id = source.turn) (hrows : Leaves (itemPlaces t.id) t.items cursor rows)
    (hitem : item ∈ rows) (hname : (item.index "id").asStr = some source.item)
    (hproject : project pretty parseUrl item = some tool) :
    Always M (lookFor pretty parseUrl thread source fuel cursor) s
      (fun r _ => (r = none ∨ r = some tool.output) ∧ (rows.length ≤ fuel → r ≠ none)) (fun _ _ => False) := by
  induction fuel generalizing cursor s rows with
  | zero =>
    have hpos := List.length_pos_of_mem hitem
    exact .pure ⟨.inl rfl, fun h => absurd h (by omega)⟩
  | succ fuel ih =>
    unfold lookFor
    refine .bind (R := fun v b => t ∈ history b ∧ ∃ data entries next, v.index "data" = .array entries ∧
      List.Forall₂ (Entry t.id) data entries ∧ v.index "nextCursor" = asValue next ∧
      Serves (itemPlaces t.id) rows ITEM_LIMIT data next) (always_call fun a ha => ?_) ?_
    · have hta := (hserving.rely s a ha).subset ht
      obtain ⟨v, data, entries, next, hanswer, hpage⟩ := hserving.items a cursor rows ITEM_LIMIT t hta hrows (by decide)
      rw [← hid, hanswer]
      exact ⟨(hserving.exec _ a).subset hta, data, entries, next, hpage⟩
    · rintro v b ⟨htb, data, entries, next, hdata, hentries, hnext, hserves⟩
      refine .bind (R := fun found c => found = entries ∧ t ∈ history c)
        (always_required (fun found hfound => ?_) fun hnone => ?_) ?_
      · rw [hdata] at hfound
        exact ⟨(Option.some.inj hfound).symm, htb⟩
      · rw [hdata] at hnone
        cases hnone
      · rintro found c ⟨rfl, htc⟩
        have hone : ∀ other ∈ t.items, (other.index "id").asStr = some source.item → other = item := fun other hother h =>
          hhonest.distinct c t htc other hother item (hrows.suffix.subset hitem) _ h hname
        by_cases hin : item ∈ data
        · have hpage : ∀ other ∈ data, (other.index "id").asStr = some source.item → other = item := fun other hother =>
            hone other (hrows.suffix.subset (hserves.front.subset hother))
          rw [toolIn_item (hid ▸ hentries) hin hname hproject hpage]
          exact .pure ⟨.inr rfl, fun _ h => by cases h⟩
        · have hpage : ∀ entry ∈ found, ((entry.index "item").index "id").asStr ≠ some source.item := by
            intro entry hentry h
            obtain ⟨other, hother, hof⟩ := mem_of_entries hentries entry hentry
            rw [hof.item] at h
            exact hin (hone other (hrows.suffix.subset (hserves.front.subset hother)) h ▸ hother)
          rw [toolIn_none hpage, hnext, asStr_asValue]
          cases next with
          | none => exact absurd (hserves.done rfl ▸ hitem) hin
          | some next =>
            obtain ⟨rest, hsplit, hrest, hless, -⟩ := hserves.rest hrows
            have hmove : ¬ cursor = some next := by
              rintro rfl
              obtain ⟨n, hplace, hn, rfl⟩ := hrows
              obtain ⟨m, hplace', hm, rfl⟩ := hrest
              obtain rfl := Option.some.inj (hplace.symm.trans hplace')
              exact Nat.lt_irrefl _ hless
            have hbehind : item ∈ rest := by
              rw [hsplit] at hitem
              exact (List.mem_append.mp hitem).resolve_left hin
            simp only [if_neg hmove]
            refine .mono (ih htc hrest hbehind) (fun r _ hr => ⟨hr.1, fun hfuel => hr.2 (by omega)⟩) fun _ _ h => h

-- ---------------------------------------------------------------------------
-- With an engine of its own
-- ---------------------------------------------------------------------------

variable {bound : SessionBinding}

theorem readOutput_sound (hserving : ServesItems M history bound.session.id itemPlaces)
    (hhonest : Honest M history bound.session.id) (source : ToolOutputSource) (fuel : Nat) (s : σ) :
    Always M (readOutput pretty parseUrl fuel bound source) s
      (fun r t => history s <:+ history t ∧ ∀ text, r = some text → Output pretty parseUrl (history t) source text)
      (fun _ t => history s <:+ history t) := by
  unfold readOutput
  split
  · exact .throw List.suffix_rfl
  · refine always_withEngine fun a ha => ?_
    have hgrow := (hserving.rely s a ha).trans (hserving.exec (.start bound.codexHome) a)
    rw [hserving.start a bound.codexHome]
    refine .mono (lookFor_sound hserving hhonest source fuel source.cursor _) (fun r t ht b hb => ?_) fun f t ht b hb => ?_
    · have hend := (hserving.rely t b hb).trans (hserving.exec .shutdown b)
      exact ⟨(hgrow.trans ht.1).trans hend, fun text htext => (ht.2 text htext).grow hend⟩
    · exact (hgrow.trans ht).trans ((hserving.rely t b hb).trans (hserving.exec .shutdown b))

/-- An output that is there is read, in as many pages as its turn has items. -/
theorem readOutput_finds (hserving : ServesItems M history bound.session.id itemPlaces)
    (hhonest : Honest M history bound.session.id) (hsession : source.session = bound.session.id)
    (h : Located pretty parseUrl itemPlaces (history s) source text) :
    ∃ pages, ∀ fuel, Always M (readOutput pretty parseUrl fuel bound source) s
      (fun r _ => (r = none ∨ r = some text) ∧ (pages ≤ fuel → r ≠ none)) (fun _ _ => False) := by
  obtain ⟨t, ht, hid, rows, hrows, item, hitem, hname, tool, hproject, rfl⟩ := h
  refine ⟨rows.length, fun fuel => ?_⟩
  unfold readOutput
  rw [if_neg (not_not_intro hsession)]
  refine always_withEngine fun a ha => ?_
  have hgrow := (hserving.rely s a ha).trans (hserving.exec (.start bound.codexHome) a)
  rw [hserving.start a bound.codexHome]
  exact .mono (lookFor_finds hserving hhonest fuel (hgrow.subset ht) hid hrows hitem hname hproject)
    (fun _ _ hr _ _ => hr) fun _ _ h => h.elim

theorem one_honest : Honest oneEngine oneHistory "thread" where
  distinct s t ht a ha b hb name _ _ := by
    obtain rfl := List.mem_singleton.mp ht
    rw [List.mem_singleton.mp ha, List.mem_singleton.mp hb]
  entries s turn cursor limit v entries hanswer hdata entry hentry hturn := by
    change oneAnswer "thread/items/list" (itemsParams "thread" turn cursor limit) = .ok v at hanswer
    unfold oneAnswer at hanswer
    split at hanswer
    · next hmethod => exact absurd hmethod (by decide)
    · split at hanswer
      · cases hanswer
      · split at hanswer
        · next hmethod => exact absurd hmethod (by decide)
        · split at hanswer
          · obtain rfl := Except.ok.inj hanswer
            obtain rfl : [oneEntry] = entries := Option.some.inj hdata
            obtain rfl := List.mem_singleton.mp hentry
            exact ⟨oneTurn, List.mem_singleton_self oneTurn, Option.some.inj hturn, List.mem_singleton_self oneItem⟩
          · cases hanswer

end RemoteCodex.Adapter.History
