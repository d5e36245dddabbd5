import RemoteCodex.Chat.Merging
import RemoteCodex.Interact.Places

/-!
# Native history

Which item of which turn a message is, and where that stands in the native
history. A message of no turn may stand for an item whose turn the chat has not
been told.
-/

namespace RemoteCodex.Chat

open Interact Protocol
open scoped List

/-- An item and its turn. -/
abbrev Seat := String × Option String

def Message.seat (m : Message) : Seat := (m.id, truthy m.turn.value)

/-- What an item is known by: its identity and its client identity. -/
abbrev Label := String × Option String

def Label.keys (i : Label) : List String := i.1 :: (truthy i.2).toList

def Message.label (m : Message) : Label := (m.id, m.clientId.value)

def HistoryItem.label (i : HistoryItem) : Label := (i.id, i.clientId)

/-- A turn of the native history. -/
structure NativeTurn where
  id : String
  items : List Label
  deriving DecidableEq, Repr

def NativeTurn.seats (t : NativeTurn) : List Seat := t.items.map fun i => (i.1, some t.id)

def nativeItems (history : List NativeTurn) : List Label := history.flatMap NativeTurn.items

def seats (history : List NativeTurn) : List Seat := history.flatMap NativeTurn.seats

def Label.Apart (i j : Label) : Prop := ∀ k ∈ i.keys, k ∉ j.keys

instance (i j : Label) : Decidable (Label.Apart i j) := inferInstanceAs (Decidable (∀ _ ∈ _, _))

structure Native (before : String → String → Bool) (history : List NativeTurn) : Prop where
  ascending : history.Pairwise fun t u => before t.id u.id = true ∧ before u.id t.id = false
  named : ∀ t ∈ history, t.id ≠ ""
  distinct : (nativeItems history).Pairwise Label.Apart
  clients : ∀ i ∈ nativeItems history, i.2 ≠ some ""

instance (before : String → String → Bool) (history : List NativeTurn) : Decidable (Native before history) :=
  decidable_of_iff ((history.Pairwise fun t u => before t.id u.id = true ∧ before u.id t.id = false) ∧
      (∀ t ∈ history, t.id ≠ "") ∧ (nativeItems history).Pairwise Label.Apart ∧ ∀ i ∈ nativeItems history, i.2 ≠ some "")
    ⟨fun ⟨h₁, h₂, h₃, h₄⟩ => ⟨h₁, h₂, h₃, h₄⟩, fun ⟨h₁, h₂, h₃, h₄⟩ => ⟨h₁, h₂, h₃, h₄⟩⟩

variable {before : String → String → Bool} {history : List NativeTurn} {t u : NativeTurn} {i j : Label} {s s' : Seat}
variable {a b h m : Message} {messages items : List Message} {page : HistoryPage}

theorem mem_seats : s ∈ seats history ↔ ∃ t ∈ history, ∃ i ∈ t.items, (i.1, some t.id) = s := by
  simp [seats, NativeTurn.seats]

theorem map_fst_seats (history : List NativeTurn) : (seats history).map Prod.fst = (nativeItems history).map Prod.fst := by
  simp [seats, nativeItems, NativeTurn.seats, List.map_flatMap, Function.comp_def]

instance : Std.Symm Label.Apart := ⟨fun _ _ hij k hj hi => hij k hi hj⟩

theorem Native.label_eq (hnative : Native before history) (hi : i ∈ nativeItems history) (hj : j ∈ nativeItems history)
    {k : String} (hki : k ∈ i.keys) (hkj : k ∈ j.keys) : i = j := by
  by_contra hne
  exact hnative.distinct.forall hi hj hne k hki hkj

theorem Native.nodup_fst (hnative : Native before history) : ((seats history).map Prod.fst).Nodup := by
  rw [map_fst_seats]
  refine List.pairwise_map.mpr (hnative.distinct.imp fun {i j} hij heq => hij i.1 List.mem_cons_self ?_)
  rw [heq]
  exact List.mem_cons_self

theorem Native.nodup (hnative : Native before history) : (seats history).Nodup := .of_map _ hnative.nodup_fst

theorem Native.turn_eq (hnative : Native before history) (ht : t ∈ history) (hu : u ∈ history) (hid : t.id = u.id) : t = u := by
  have hnodup : (history.map NativeTurn.id).Nodup := List.pairwise_map.mpr (hnative.ascending.imp fun {t u} htu heq => by
    rw [heq, htu.2] at htu
    cases htu.1)
  exact List.inj_on_of_nodup_map hnodup ht hu hid

theorem Native.seat_eq (hnative : Native before history) (hs : s ∈ seats history) (hs' : s' ∈ seats history)
    (hid : s.1 = s'.1) : s = s' :=
  List.inj_on_of_nodup_map hnative.nodup_fst hs hs' hid

theorem seats_part (ht : t ∈ history) : t.seats <:+: seats history := by
  obtain ⟨front, back, rfl⟩ := List.append_of_mem ht
  exact ⟨seats front, seats back, by simp [seats]⟩

/-- The seats of two turns are in the order of the turns. -/
theorem Native.comes (hnative : Native before history) {t u : String} (hs : s ∈ seats history)
    (hs' : s' ∈ seats history) (ht : s.2 = some t) (hu : s'.2 = some u) (hne : t ≠ u) (hbefore : before t u = true) :
    Comes (seats history) s s' := by
  have horder : (seats history).Pairwise fun a b => a.2 = b.2 ∨
      ∃ t u, a.2 = some t ∧ b.2 = some u ∧ before u t = false := by
    refine List.pairwise_flatMap.mpr ⟨fun t _ => ?_, hnative.ascending.imp fun {t u} htu => ?_⟩
    · refine List.pairwise_map.mpr (List.pairwise_of_forall fun _ _ => .inl rfl)
    · intro a ha b hb
      obtain ⟨i, -, rfl⟩ := List.mem_map.mp ha
      obtain ⟨j, -, rfl⟩ := List.mem_map.mp hb
      exact .inr ⟨t.id, u.id, rfl, rfl, htu.2⟩
  have hseat : s ≠ s' := by
    rintro rfl
    exact hne (Option.some.inj (ht.symm.trans hu))
  refine (comes_or hs hseat).resolve_right fun hback => ?_
  rcases pairwise_of_comes horder hs' hs hback with heq | ⟨u', t', hu', ht', hnot⟩
  · exact hne (Option.some.inj (ht.symm.trans (heq.symm.trans hu)))
  · rw [hu] at hu'
    rw [ht] at ht'
    obtain rfl := Option.some.inj hu'
    obtain rfl := Option.some.inj ht'
    rw [hbefore] at hnot
    cases hnot

-- ---------------------------------------------------------------------------
-- Pages
-- ---------------------------------------------------------------------------

def HistoryItem.nonempty (i : HistoryItem) : Bool :=
  !i.text.isEmpty || i.tool.isSome || i.questions.any fun questions => !questions.isEmpty

def HistoryTurn.labels (turn : HistoryTurn) : List Label := turn.items.map HistoryItem.label

/-- The page has a fragment of each of its turns. -/
structure PageOf (history : List NativeTurn) (page : HistoryPage) : Prop where
  once : (page.turns.map HistoryTurn.id).Nodup
  fragment : ∀ turn ∈ page.turns, ∃ t ∈ history, t.id = turn.id ∧ turn.labels <:+: t.items
  nonempty : ∀ turn ∈ page.turns, ∀ item ∈ turn.items, item.nonempty = true

def HistoryTurn.seats (turn : HistoryTurn) : List Seat := turn.items.map fun i => (i.id, some turn.id)

theorem seats_turnMessages {turn : HistoryTurn} (hturn : turn.id ≠ "") (firstUser : Bool) (items : List HistoryItem) :
    (turnMessages turn firstUser items).map Message.seat = items.map fun i => (i.id, some turn.id) := by
  induction items generalizing firstUser with
  | nil => rfl
  | cons item items ih =>
    have hseat : truthy (some turn.id) = some turn.id := Option.filter_some_pos (decide_eq_true hturn)
    rw [turnMessages, List.map_cons, List.map_cons, ih]
    exact congrArg (· :: _) (Prod.ext rfl hseat)

theorem labels_turnMessages (turn : HistoryTurn) (firstUser : Bool) (items : List HistoryItem) :
    (turnMessages turn firstUser items).map Message.label = items.map HistoryItem.label := by
  induction items generalizing firstUser with
  | nil => rfl
  | cons item items ih =>
    rw [turnMessages, List.map_cons, List.map_cons, ih]
    rfl

theorem shown_turnMessages {turn : HistoryTurn} {firstUser : Bool} {items : List HistoryItem}
    (hitems : ∀ item ∈ items, item.nonempty = true) (hm : m ∈ turnMessages turn firstUser items) : m.shown = true := by
  induction items generalizing firstUser with
  | nil => cases hm
  | cons item items ih =>
    rcases List.mem_cons.mp hm with rfl | hm
    · exact hitems item List.mem_cons_self
    · exact ih (fun item hitem => hitems item (List.mem_cons_of_mem _ hitem)) hm

/-- The turns of a page in their order. -/
def sortedTurns (before : String → String → Bool) (page : HistoryPage) : List HistoryTurn :=
  page.turns.insertionSort fun a b => before a.id b.id

theorem mem_sortedTurns {turn : HistoryTurn} : turn ∈ sortedTurns before page ↔ turn ∈ page.turns :=
  (List.perm_insertionSort _ _).mem_iff

theorem historyMessages_eq (hpage : PageOf history page) : historyMessages before page =
    (sortedTurns before page).flatMap fun turn => turnMessages turn true turn.items := by
  refine List.filter_eq_self.mpr fun m hm => ?_
  obtain ⟨turn, hturn, hm⟩ := List.mem_flatMap.mp hm
  exact shown_turnMessages (hpage.nonempty turn (mem_sortedTurns.mp hturn)) hm

theorem PageOf.part (hpage : PageOf history page) {turn : HistoryTurn} (hturn : turn ∈ page.turns) :
    turn.seats <:+: seats history := by
  obtain ⟨t, ht, hid, front, back, hitems⟩ := hpage.fragment turn hturn
  refine List.IsInfix.trans ⟨front.map fun i => (i.1, some t.id), back.map fun i => (i.1, some t.id), ?_⟩ (seats_part ht)
  have hturns : turn.seats = turn.labels.map fun i => (i.1, some t.id) := by
    rw [HistoryTurn.seats, HistoryTurn.labels, List.map_map, hid]
    rfl
  rw [hturns, NativeTurn.seats, ← hitems, List.map_append, List.map_append]

theorem PageOf.named (hnative : Native before history) (hpage : PageOf history page) {turn : HistoryTurn}
    (hturn : turn ∈ page.turns) : turn.id ≠ "" := by
  obtain ⟨t, ht, hid, -⟩ := hpage.fragment turn hturn
  rw [← hid]
  exact hnative.named t ht

theorem seats_historyMessages (hnative : Native before history) (hpage : PageOf history page) :
    (historyMessages before page).map Message.seat = (sortedTurns before page).flatMap HistoryTurn.seats := by
  rw [historyMessages_eq hpage, List.map_flatMap]
  refine List.flatMap_congr fun turn hturn => ?_
  exact seats_turnMessages (hpage.named hnative (mem_sortedTurns.mp hturn)) true turn.items

/-- The messages of a page are in native order. -/
theorem PageOf.pairwise (hordered : Ordered before) (hnative : Native before history) (hpage : PageOf history page) :
    ((historyMessages before page).map Message.seat).Pairwise (Comes (seats history)) := by
  have htotal : Std.Total fun a b : HistoryTurn => before a.id b.id = true := ⟨fun a b => hordered.total a.id b.id⟩
  have htrans : IsTrans HistoryTurn fun a b => before a.id b.id = true := ⟨fun a b c => hordered.trans a.id b.id c.id⟩
  have hsorted : (sortedTurns before page).Pairwise fun a b => before a.id b.id = true := List.pairwise_insertionSort _ _
  have honce : (sortedTurns before page).Pairwise fun a b => a.id ≠ b.id :=
    List.pairwise_map.mp (((List.perm_insertionSort _ _).map HistoryTurn.id).nodup_iff.mpr hpage.once)
  rw [seats_historyMessages hnative hpage]
  refine List.pairwise_flatMap.mpr ⟨fun turn hturn => ?_, (hsorted.and honce).imp_of_mem fun {a b} ha hb hab => ?_⟩
  · exact pairwise_comes_sublist hnative.nodup (hpage.part (mem_sortedTurns.mp hturn)).sublist
  · intro s hs s' hs'
    have hseat := (hpage.part (mem_sortedTurns.mp ha)).subset hs
    have hseat' := (hpage.part (mem_sortedTurns.mp hb)).subset hs'
    obtain ⟨i, -, rfl⟩ := List.mem_map.mp hs
    obtain ⟨j, -, rfl⟩ := List.mem_map.mp hs'
    exact hnative.comes hseat hseat' rfl rfl hab.2 hab.1

theorem PageOf.label_mem (hpage : PageOf history page) (hh : h ∈ historyMessages before page) :
    h.label ∈ nativeItems history := by
  rw [historyMessages_eq hpage] at hh
  obtain ⟨turn, hturn, hh⟩ := List.mem_flatMap.mp hh
  obtain ⟨t, ht, -, hpart⟩ := hpage.fragment turn (mem_sortedTurns.mp hturn)
  have hlabel : h.label ∈ turn.labels := by
    rw [HistoryTurn.labels, ← labels_turnMessages turn true]
    exact List.mem_map_of_mem hh
  exact List.mem_flatMap.mpr ⟨t, ht, hpart.subset hlabel⟩

theorem PageOf.seat_mem (hnative : Native before history) (hpage : PageOf history page)
    (hh : h ∈ historyMessages before page) : h.seat ∈ seats history := by
  have hseat : h.seat ∈ (sortedTurns before page).flatMap HistoryTurn.seats := by
    rw [← seats_historyMessages hnative hpage]
    exact List.mem_map_of_mem hh
  obtain ⟨turn, hturn, hseat⟩ := List.mem_flatMap.mp hseat
  exact (hpage.part (mem_sortedTurns.mp hturn)).subset hseat

/-- A message of a page is of one of its turns. -/
theorem PageOf.turn_of (hnative : Native before history) (hpage : PageOf history page) (hh : h ∈ historyMessages before page) :
    ∃ turn ∈ page.turns, h.label ∈ turn.labels ∧ h.seat.2 = some turn.id := by
  rw [historyMessages_eq hpage] at hh
  obtain ⟨turn, hturn, hh⟩ := List.mem_flatMap.mp hh
  have hlabel : h.label ∈ (turnMessages turn true turn.items).map Message.label := List.mem_map_of_mem hh
  have hseat : h.seat ∈ (turnMessages turn true turn.items).map Message.seat := List.mem_map_of_mem hh
  rw [labels_turnMessages] at hlabel
  rw [seats_turnMessages (hpage.named hnative (mem_sortedTurns.mp hturn))] at hseat
  obtain ⟨i, -, heq⟩ := List.mem_map.mp hseat
  exact ⟨turn, mem_sortedTurns.mp hturn, hlabel, heq ▸ rfl⟩

/-- An item of a page is one of its messages. -/
theorem PageOf.exists_of_label (hnative : Native before history) (hpage : PageOf history page) {turn : HistoryTurn}
    (hturn : turn ∈ page.turns) (hi : i ∈ turn.labels) :
    ∃ h ∈ historyMessages before page, h.seat = (i.1, some turn.id) := by
  obtain ⟨item, hitem, rfl⟩ := List.mem_map.mp hi
  have hseat : (item.id, some turn.id) ∈ (historyMessages before page).map Message.seat := by
    rw [seats_historyMessages hnative hpage]
    exact List.mem_flatMap.mpr ⟨turn, mem_sortedTurns.mpr hturn, List.mem_map_of_mem hitem⟩
  exact List.mem_map.mp hseat

/-- No two messages of a page are known by the same. -/
theorem PageOf.apart (hordered : Ordered before) (hnative : Native before history) (hpage : PageOf history page) :
    (historyMessages before page).Pairwise Apart := by
  refine (List.pairwise_map.mp (hpage.pairwise hordered hnative)).imp_of_mem fun {a b} ha hb hab => ?_
  rintro ⟨k, hka, hkb⟩
  have hlabel : a.label = b.label := hnative.label_eq (hpage.label_mem ha) (hpage.label_mem hb) hka hkb
  have hid : a.id = b.id := congrArg Prod.fst hlabel
  exact hab.ne (hnative.seat_eq (hpage.seat_mem hnative ha) (hpage.seat_mem hnative hb) hid)

/-- What is natively between two messages of a turn is in the page. -/
theorem PageOf.between (hnative : Native before history) (hpage : PageOf history page) (ha : a ∈ historyMessages before page)
    (hb : b ∈ historyMessages before page) (hturn : a.seat.2 = b.seat.2) (hs : s ∈ seats history)
    (has : Comes (seats history) a.seat s) (hsb : Comes (seats history) s b.seat) :
    ∃ c ∈ historyMessages before page, c.seat = s := by
  have hflat := seats_historyMessages hnative hpage
  have hseat : ∀ {m}, m ∈ historyMessages before page → ∃ turn ∈ page.turns, m.seat ∈ turn.seats := by
    intro m hm
    have hmem : m.seat ∈ (sortedTurns before page).flatMap HistoryTurn.seats := hflat ▸ List.mem_map_of_mem hm
    obtain ⟨turn, hturn, hmem⟩ := List.mem_flatMap.mp hmem
    exact ⟨turn, mem_sortedTurns.mp hturn, hmem⟩
  have hsnd : ∀ {turn : HistoryTurn} {s : Seat}, s ∈ turn.seats → s.2 = some turn.id := by
    intro turn s hs
    obtain ⟨i, -, rfl⟩ := List.mem_map.mp hs
    rfl
  obtain ⟨turn, hturn', ha'⟩ := hseat ha
  obtain ⟨other, hother, hb'⟩ := hseat hb
  have hsame : turn = other := by
    refine List.inj_on_of_nodup_map hpage.once hturn' hother ?_
    exact Option.some.inj ((hsnd ha').symm.trans (hturn.trans (hsnd hb')))
  subst hsame
  have hpart := mem_fragment hnative.nodup (hpage.part hturn') ha' hb' hs has hsb
  have hmem : s ∈ (historyMessages before page).map Message.seat := by
    rw [hflat]
    exact List.mem_flatMap.mpr ⟨turn, mem_sortedTurns.mpr hturn', hpart⟩
  obtain ⟨c, hc, heq⟩ := List.mem_map.mp hmem
  exact ⟨c, hc, heq⟩

/-- Between two seats of a turn are seats of that turn. -/
theorem Native.same_turn (hnative : Native before history) {r : Seat} (hs : s ∈ seats history) (hs' : s' ∈ seats history)
    (hr : r ∈ seats history) (hturn : s.2 = s'.2) (hsr : Comes (seats history) s r) (hrs : Comes (seats history) r s') :
    r.2 = s.2 := by
  obtain ⟨t, ht, i, hi, rfl⟩ := mem_seats.mp hs
  obtain ⟨u, hu, j, hj, rfl⟩ := mem_seats.mp hs'
  have hid : t.id = u.id := Option.some.inj hturn
  obtain rfl := hnative.turn_eq ht hu hid
  have hpart := mem_fragment hnative.nodup (seats_part ht) (List.mem_map_of_mem hi) (List.mem_map_of_mem hj) hr hsr hrs
  obtain ⟨k, -, rfl⟩ := List.mem_map.mp hpart
  rfl

end RemoteCodex.Chat
