import Mathlib.Data.Finset.Card
import Exchange.Verify.Step

/-!
# Trigger cascades

A triggered stop market order sweeps the book, its trades may trigger further
stops, and the stop maps are pruned on the way back only. `Cascade` says what a
completed part of such a cascade has done to the book. While no triggered slot
holds anything but a stop market order the slots of a finite set are vacated one
by one, so a budget that counts the occupied ones suffices.
-/

namespace Exchange

open PriorityBook

variable {A : Type} [Slab A Order] {b b' b'' : OrderBook A} {q q' q'' : PriorityBook}
  {no : NewOrder} {side side' : Side} {t p : Price} {s : Nat}

/-! ## The stop maps -/

namespace OrderBook

omit [Slab A Order] in
/-- The slot is filed in the stop map of `side` under the trigger price `t`. -/
def Lists (b : OrderBook A) (side : Side) (t : Price) (s : Nat) : Prop :=
  ∃ slots, (b.stops side)[t]? = some slots ∧ s ∈ slots

omit [Slab A Order] in
/-- No slot is filed at two places. -/
def FiledOnce (b : OrderBook A) : Prop :=
  ∀ side t side' t' s, b.Lists side t s → b.Lists side' t' s → side = side' ∧ t = t'

omit [Slab A Order] in
theorem mem_triggered : s ∈ b.triggered side p ↔ ∃ t, b.Lists side t s ∧ side.triggers t p := by
  unfold triggered Lists
  simp only [List.mem_flatMap, List.mem_filter]
  constructor
  · rintro ⟨⟨t, slots⟩, ⟨hmem, ht⟩, hs⟩
    exact ⟨t, ⟨slots, OrderedMap.mem_toList_iff.1 hmem, hs⟩, ht⟩
  · rintro ⟨t, ⟨slots, hmem, hs⟩, ht⟩
    exact ⟨(t, slots), ⟨OrderedMap.mem_toList_iff.2 hmem, ht⟩, hs⟩

omit [Slab A Order] in
theorem stops_retainStops :
    ((b.retainStops side p).stops side')[t]? =
      if side' = side ∧ side.triggers t p then none else (b.stops side')[t]? := by
  have hlookup : ((b.stops side).filter fun t _ => !side.triggers t p)[t]? =
      if side.triggers t p then none else (b.stops side)[t]? := by
    rw [OrderedMap.getElem?_filter]
    cases side.triggers t p <;> rfl
  by_cases h : side' = side
  · subst h
    rw [show ((b.retainStops side' p).stops side') =
      (b.stops side').filter fun t _ => !side'.triggers t p by cases side' <;> rfl, hlookup]
    simp
  · rw [show ((b.retainStops side p).stops side') = b.stops side' by
      cases side <;> cases side' <;> first | rfl | exact absurd rfl h, if_neg fun h' => h h'.1]

omit [Slab A Order] in
/-- The entries that are not triggered stay. -/
theorem lists_retainStops :
    (b.retainStops side p).Lists side' t s ↔
      b.Lists side' t s ∧ ¬(side' = side ∧ side.triggers t p) := by
  unfold Lists
  rw [stops_retainStops]
  by_cases h : side' = side ∧ side.triggers t p
  · simp [h]
  · simp [h]

omit [Slab A Order] in
/-- Filing a slot leaves the other entries in place. -/
theorem lists_of_lookup {side₀ : Side} {t₀ : Price} {s₀ : Nat}
    (hstops : ∀ side (t : Price), (b'.stops side)[t]? =
      if side = side₀ ∧ t = t₀ then some ((b.stops side)[t]?.getD [] ++ [s₀])
      else (b.stops side)[t]?) :
    b'.Lists side t s ↔ b.Lists side t s ∨ (side = side₀ ∧ t = t₀ ∧ s = s₀) := by
  unfold Lists
  rw [hstops]
  by_cases ho : side = side₀ ∧ t = t₀
  · rw [if_pos ho]
    cases hl : (b.stops side)[t]? with
    | none => simp [ho.1, ho.2]
    | some slots => simp [ho.1, ho.2]
  · rw [if_neg ho]
    exact ⟨.inl, fun hl => hl.resolve_right fun hl => ho ⟨hl.1, hl.2.1⟩⟩

omit [Slab A Order] in
/-- All slots that are filed. -/
def filedSlots (b : OrderBook A) : Finset Nat :=
  (b.stopBuys.toList.flatMap (·.2) ++ b.stopSells.toList.flatMap (·.2)).toFinset

omit [Slab A Order] in
theorem Lists.mem_filedSlots (h : b.Lists side t s) : s ∈ b.filedSlots := by
  obtain ⟨slots, hslots, hs⟩ := h
  unfold filedSlots
  rw [List.mem_toFinset, List.mem_append, List.mem_flatMap, List.mem_flatMap]
  cases side
  · exact .inl ⟨(t, slots), OrderedMap.mem_toList_iff.2 hslots, hs⟩
  · exact .inr ⟨(t, slots), OrderedMap.mem_toList_iff.2 hslots, hs⟩

/-- How many slots of `L` hold an order. -/
def occupied (b : OrderBook A) (L : Finset Nat) : Nat :=
  (L.filter fun s => (coreOf b.arena s).isSome).card

end OrderBook

/-- The book refines the priority book. -/
def Models (b : OrderBook A) (q : PriorityBook) : Prop := ∃ σ, Refines b σ none q

theorem Models.stops_eq (h : Models b q) (h' : Models b' q') (hbuys : q'.stopBuys = q.stopBuys)
    (hsells : q'.stopSells = q.stopSells) (side : Side) : b'.stops side = b.stops side := by
  obtain ⟨σ, hr⟩ := h
  obtain ⟨σ', hr'⟩ := h'
  cases side
  · exact hr'.stopBuys.trans (hbuys.trans hr.stopBuys.symm)
  · exact hr'.stopSells.trans (hsells.trans hr.stopSells.symm)

/-- A held stop order is in its slot. -/
theorem Models.held_core (h : Models b q) {o : Order} (hs : q.held s = some o) :
    coreOf b.arena s = some o := by
  obtain ⟨σ, hr⟩ := h
  exact (hr.filed.held_core s o hs).1

namespace PriorityBook

/-- The stop maps without the entries of `side` triggered at `last`. -/
def prune (q : PriorityBook) (side : Side) (last : Price) : PriorityBook :=
  { q with
    stopBuys := match side with
      | .buy => q.stopBuys.filter fun t _ => !Side.buy.triggers t last
      | .sell => q.stopBuys
    stopSells := match side with
      | .buy => q.stopSells
      | .sell => q.stopSells.filter fun t _ => !Side.sell.triggers t last }

theorem WF.prune (hq : q.WF) (side : Side) (last : Price) : (q.prune side last).WF :=
  ⟨hq.maker, hq.ordered, hq.uncrossed, hq.ids, hq.apart, hq.backed, hq.bare⟩

end PriorityBook

theorem Models.retainStops (h : Models b q) (side : Side) (last : Price) :
    Models (b.retainStops side last) (q.prune side last) := by
  obtain ⟨σ, hr⟩ := h
  have hlevel : ∀ side' p, (b.retainStops side last).level? side' p = b.level? side' p := by
    intro side' p
    cases side' <;> rfl
  refine ⟨σ, hr.wired.congr hlevel (fun _ _ _ _ => rfl) (fun _ _ _ _ => rfl), hr.filed,
    hr.loose_links, fun side' p => ?_, fun side' p l hl => ?_, hr.wf.prune side last, hr.symbol,
    hr.tick, ?_, ?_, hr.lastTrade⟩
  · rw [hlevel]
    exact hr.present side' p
  · rw [hlevel] at hl
    exact hr.tally side' p l hl
  · cases side
    · exact congrArg (·.filter fun t _ => !Side.buy.triggers t last) hr.stopBuys
    · exact hr.stopBuys
  · cases side
    · exact hr.stopSells
    · exact congrArg (·.filter fun t _ => !Side.sell.triggers t last) hr.stopSells

/-! ## Executing an order -/

namespace PriorityBook

/-- The makers after a sweep are makers from before at the same prices, and the last
trade was with one of them. -/
theorem tradeAll_prices (side : Side) (ok : Price → Bool) (need : Qty) :
    (∀ side', ((q.tradeAll side (fills ok need (q.makers side))).makers side').length ≤
        (q.makers side').length ∧
      ∀ m' ∈ (q.tradeAll side (fills ok need (q.makers side))).makers side',
        ∃ m ∈ q.makers side', m.price = m'.price) ∧
    ∀ p, (q.tradeAll side (fills ok need (q.makers side))).lastTrade = some p →
      q.lastTrade = some p ∨ ∃ m ∈ q.makers side, ok m.price = true ∧ m.price = p := by
  refine (sweep_rule (P := fun q₁ _ _ =>
    (∀ side', (q₁.makers side').length ≤ (q.makers side').length ∧
      ∀ m' ∈ q₁.makers side', ∃ m ∈ q.makers side', m.price = m'.price) ∧
    ∀ p, q₁.lastTrade = some p →
      q.lastTrade = some p ∨ ∃ m ∈ q.makers side, ok m.price = true ∧ m.price = p)
    (fun q₁ need fs m ms ⟨hmakers, hlast⟩ hm hneed hok => ⟨fun side' => ?_, fun p hp => ?_⟩) []
    ⟨fun side' => ⟨Nat.le_refl _, fun m' hm' => ⟨m', hm', rfl⟩⟩, fun p hp => .inl hp⟩).1
  · obtain ⟨hlen, hprices⟩ := hmakers side'
    rcases side.eq_or_eq_opposite side' with rfl | rfl
    · rw [hm] at hlen hprices
      by_cases hleft : m.remaining - min need m.remaining = 0
      · rw [makers_trade_of_eq hm hleft]
        refine ⟨?_, fun m' hm' => hprices m' (List.mem_cons_of_mem _ hm')⟩
        rw [List.length_cons] at hlen
        omega
      · rw [makers_trade_of_ne hm hleft]
        refine ⟨by simpa using hlen, fun m' hm' => ?_⟩
        rcases List.mem_cons.1 hm' with rfl | hm'
        · exact hprices m List.mem_cons_self
        · exact hprices m' (List.mem_cons_of_mem _ hm')
    · rw [(trade_frame side q₁ m _).1]
      exact ⟨hlen, hprices⟩
  · have hmp : some m.price = some p := by
      rw [← hp]
      unfold trade
      dsimp only
      split
      · rfl
      · rfl
    obtain ⟨m₀, hm₀, hprice⟩ := (hmakers side).2 m (hm ▸ List.mem_cons_self)
    refine .inr ⟨m₀, hm₀, ?_, hprice.trans (Option.some.inj hmp)⟩
    rw [hprice]
    exact hok

/-- The makers after an execution: those from before, and the remainder of a limit
order. -/
theorem execute_prices (q : PriorityBook) (no : NewOrder) (seq : Seq) (ts : Ts) :
    (∀ side, (no.kind ≠ .limit →
        ((q.execute no seq ts).1.makers side).length ≤ (q.makers side).length) ∧
      ∀ m' ∈ (q.execute no seq ts).1.makers side, (∃ m ∈ q.makers side, m.price = m'.price) ∨
        (no.kind = .limit ∧ side = no.side ∧ m'.price = no.price)) ∧
    ∀ p, (q.execute no seq ts).1.lastTrade = some p → q.lastTrade = some p ∨
      ∃ m ∈ q.makers no.side.opposite, no.accepts m.price = true ∧ m.price = p := by
  obtain ⟨hmakers, hlast⟩ := tradeAll_prices (q := q) no.side.opposite no.accepts no.qty
  unfold execute settle
  dsimp only
  generalize q.tradeAll no.side.opposite
    (fills no.accepts no.qty (q.makers no.side.opposite)) = q₁ at hmakers hlast ⊢
  have hkeep : ∀ side, ((no.kind ≠ .limit →
      (q₁.makers side).length ≤ (q.makers side).length) ∧
      ∀ m' ∈ q₁.makers side, (∃ m ∈ q.makers side, m.price = m'.price) ∨
        (no.kind = .limit ∧ side = no.side ∧ m'.price = no.price)) := fun side =>
    ⟨fun _ => (hmakers side).1, fun m' hm' => .inl ((hmakers side).2 m' hm')⟩
  split
  · exact ⟨hkeep, hlast⟩
  · split
    · next hlimit =>
      refine ⟨fun side => ⟨fun h => absurd hlimit h, fun m' hm' => ?_⟩, hlast⟩
      rcases mem_makers_rest.1 hm' with hm' | ⟨rfl, hside⟩
      · exact .inl ((hmakers side).2 m' hm')
      · exact .inr ⟨hlimit, hside, rfl⟩
    · exact ⟨hkeep, hlast⟩

end PriorityBook

/-! ## What a cascade does -/

/-- `b'` and `q'` come from `b` and `q` by completed activations, those of the slots
in `T` among them. Only the entries of `T` may be waiting to be pruned. -/
structure Cascade (T : List Nat) (b : OrderBook A) (q : PriorityBook) (b' : OrderBook A)
    (q' : PriorityBook) : Prop where
  vacant : ∀ s, coreOf b.arena s = none → coreOf b'.arena s = none
  held : ∀ s o, q.held s = some o → q'.held s = some o ∨ coreOf b'.arena s = none
  still : ∀ s o, q'.held s = some o → q.held s = some o
  pulled : ∀ s ∈ T, q'.held s = none
  size : ∀ side, (q'.makers side).length ≤ (q.makers side).length
  prices : ∀ side, ∀ m' ∈ q'.makers side, ∃ m ∈ q.makers side, m.price = m'.price
  shrinks : ∀ side (t : Price) slots, (b'.stops side)[t]? = some slots →
    (b.stops side)[t]? = some slots
  filed : ∀ side t s o, b.Lists side t s → q'.held s = some o → b'.Lists side t s
  clean : b.FiledOnce → ∀ side t s, b'.Lists side t s → q'.held s = none →
    q.held s = none ∨ s ∈ T

namespace Cascade

variable {T T' : List Nat}

theorem lists (h : Cascade T b q b' q') (hl : b'.Lists side t s) : b.Lists side t s := by
  obtain ⟨slots, hslots, hs⟩ := hl
  exact ⟨slots, h.shrinks side t slots hslots, hs⟩

theorem filedOnce (h : Cascade T b q b' q') (hb : b.FiledOnce) : b'.FiledOnce :=
  fun side t side' t' s hl hl' => hb side t side' t' s (h.lists hl) (h.lists hl')

/-- A change that keeps the stops and vacates no slot of a stop. -/
theorem of_frame (hheld : q'.held = q.held)
    (hstops : ∀ side, b'.stops side = b.stops side)
    (hvacant : ∀ s, coreOf b.arena s = none → coreOf b'.arena s = none)
    (hsize : ∀ side, (q'.makers side).length ≤ (q.makers side).length)
    (hprices : ∀ side, ∀ m' ∈ q'.makers side, ∃ m ∈ q.makers side, m.price = m'.price) :
    Cascade [] b q b' q' where
  vacant := hvacant
  held s o h := .inl (by rw [hheld, h])
  still s o h := by rw [← hheld, h]
  pulled s h := by cases h
  size := hsize
  prices := hprices
  shrinks side t slots h := by rw [← hstops, h]
  filed side t s o h _ := by
    unfold OrderBook.Lists
    rw [hstops]
    exact h
  clean _ side t s _ h := .inl (by rw [← hheld, h])

theorem refl (b : OrderBook A) (q : PriorityBook) : Cascade [] b q b q :=
  .of_frame rfl (fun _ => rfl) (fun _ h => h) (fun _ => Nat.le_refl _) fun _ m hm => ⟨m, hm, rfl⟩

/-- A vacant slot needs no activation. -/
theorem skip (hm : Models b q) (hs : coreOf b.arena s = none) : Cascade [s] b q b q :=
  { refl b q with
    pulled := fun r hr => by
      rw [List.mem_singleton.1 hr]
      cases hq : q.held s with
      | none => rfl
      | some o =>
        rw [hm.held_core hq] at hs
        cases hs
    clean := fun _ _ _ _ _ h => .inl h }

/-- A held stop order is pulled out of its slot. -/
theorem release (hcore : coreOf b'.arena = Function.update (coreOf b.arena) s none)
    (hstops : ∀ side, b'.stops side = b.stops side) : Cascade [s] b q b' (q.release s) := by
  have hheld : (q.release s).held = Function.update q.held s none := rfl
  refine ⟨fun r hr => ?_, fun r o hr => ?_, fun r o hr => ?_, fun r hr => ?_,
    fun side => Nat.le_refl _, fun side m hm => ⟨m, hm, rfl⟩, fun side t slots hslots => ?_,
    fun side t r o hl _ => ?_, fun _ side t r hl hr => ?_⟩
  · rw [hcore]
    by_cases hrs : r = s
    · rw [hrs, Function.update_self]
    · rw [Function.update_of_ne hrs, hr]
  · by_cases hrs : r = s
    · exact .inr (by rw [hcore, hrs, Function.update_self])
    · exact .inl (by rw [hheld, Function.update_of_ne hrs, hr])
  · by_cases hrs : r = s
    · rw [hheld, hrs, Function.update_self] at hr
      cases hr
    · rwa [hheld, Function.update_of_ne hrs] at hr
  · rw [hheld, List.mem_singleton.1 hr, Function.update_self]
  · rwa [hstops] at hslots
  · unfold OrderBook.Lists
    rw [hstops]
    exact hl
  · by_cases hrs : r = s
    · exact .inr (List.mem_singleton.2 hrs)
    · rw [hheld, Function.update_of_ne hrs] at hr
      exact .inl hr

theorem trans (h : Cascade T b q b' q') (h' : Cascade T' b' q' b'' q'') :
    Cascade (T ++ T') b q b'' q'' where
  vacant s hs := h'.vacant s (h.vacant s hs)
  held s o hs := by
    rcases h.held s o hs with hs' | hs'
    · exact h'.held s o hs'
    · exact .inr (h'.vacant s hs')
  still s o hs := h.still s o (h'.still s o hs)
  pulled s hs := by
    rcases List.mem_append.1 hs with hs | hs
    · cases hq : q''.held s with
      | none => rfl
      | some o =>
        have hq' := h'.still s o hq
        rw [h.pulled s hs] at hq'
        cases hq'
    · exact h'.pulled s hs
  size side := (h'.size side).trans (h.size side)
  prices side m'' hm'' := by
    obtain ⟨m', hm', hp'⟩ := h'.prices side m'' hm''
    obtain ⟨m, hm, hp⟩ := h.prices side m' hm'
    exact ⟨m, hm, hp.trans hp'⟩
  shrinks side t slots hs := h.shrinks side t slots (h'.shrinks side t slots hs)
  filed side t s o hl hs := h'.filed side t s o (h.filed side t s o hl (h'.still s o hs)) hs
  clean hb side t s hl hs := by
    rcases h'.clean (h.filedOnce hb) side t s hl hs with hs' | hs'
    · rcases h.clean hb side t s (h'.lists hl) hs' with hs'' | hs''
      · exact .inl hs''
      · exact .inr (List.mem_append_left _ hs'')
    · exact .inr (List.mem_append_right _ hs')

theorem occupied_le (h : Cascade T b q b' q') (L : Finset Nat) :
    b'.occupied L ≤ b.occupied L := by
  refine Finset.card_le_card fun s hs => ?_
  obtain ⟨hL, hs⟩ := Finset.mem_filter.1 hs
  refine Finset.mem_filter.2 ⟨hL, ?_⟩
  cases hc : coreOf b.arena s with
  | none =>
    rw [h.vacant s hc] at hs
    cases hs
  | some o => rfl

/-- Vacating a slot of `L` uses up one of its occupied slots. -/
theorem occupied_lt (h : Cascade T b q b' q') {L : Finset Nat} (hs : s ∈ L)
    (hocc : coreOf b.arena s ≠ none) (hvac : coreOf b'.arena s = none) :
    b'.occupied L < b.occupied L := by
  refine Finset.card_lt_card ⟨fun r hr => ?_, fun hsub => ?_⟩
  · obtain ⟨hL, hr⟩ := Finset.mem_filter.1 hr
    refine Finset.mem_filter.2 ⟨hL, ?_⟩
    cases hc : coreOf b.arena r with
    | none =>
      rw [h.vacant r hc] at hr
      cases hr
    | some o => rfl
  · have hmem := hsub (Finset.mem_filter.2 ⟨hs, Option.isSome_iff_ne_none.2 hocc⟩)
    have hsome := (Finset.mem_filter.1 hmem).2
    rw [hvac] at hsome
    cases hsome

/-- Activating all slots of a side that are triggered and pruning their entries
leaves nothing waiting. -/
theorem prune (h : Cascade (b.triggered side p) b q b' q') :
    Cascade [] b q (b'.retainStops side p) (q'.prune side p) where
  vacant := h.vacant
  held := h.held
  still := h.still
  pulled s hs := by cases hs
  size := h.size
  prices := h.prices
  shrinks side' t slots hs := by
    rw [OrderBook.stops_retainStops] at hs
    split at hs
    · cases hs
    · exact h.shrinks side' t slots hs
  filed side' t s o hl hs := by
    refine OrderBook.lists_retainStops.2 ⟨h.filed side' t s o hl hs, ?_⟩
    rintro ⟨rfl, ht⟩
    have hnone := h.pulled s (OrderBook.mem_triggered.2 ⟨t, hl, ht⟩)
    rw [show q'.held s = some o from hs] at hnone
    cases hnone
  clean hb side' t s hl hs := by
    obtain ⟨hl', hkept⟩ := OrderBook.lists_retainStops.1 hl
    rcases h.clean hb side' t s hl' hs with hq | hT
    · exact .inl hq
    · obtain ⟨t', hlt, ht'⟩ := OrderBook.mem_triggered.1 hT
      obtain ⟨rfl, rfl⟩ := hb side' t side t' s (h.lists hl') hlt
      exact absurd ⟨rfl, ht'⟩ hkept

end Cascade

end Exchange
