import Exchange.Verify.StopListing

/-!
# Stop triggering is complete

The trigger loops run with the last trade price they were called with and with slots
collected before, while the orders they activate move that price. Each activation that
does re-submit an order leaves no reached stop waiting, and if there is none the price
has not moved and pruning both maps at it suffices.
-/

namespace Exchange

open Fuel

variable {A : Type} [Slab A Order] {b b' : OrderBook A} {no : NewOrder} {seq : Seq} {ts : Ts}
  {events : List OutputEvent} {s : Nat} {side : Side} {last : Price}

/-- No stop whose trigger the last trade has reached is waiting. -/
def NoneWaiting (b : OrderBook A) : Prop :=
  ∀ last, b.lastTrade = some last → ∀ side (t : Price), side.triggers t last = true →
    (b.stops side)[t]? = none

omit [Slab A Order] in
theorem NoneWaiting.retainStops (h : NoneWaiting b) (side : Side) (last : Price) :
    NoneWaiting (b.retainStops side last) := by
  intro l hl side' t ht
  rw [OrderBook.stops_retainStops]
  split
  · rfl
  · exact h l hl side' t ht

section Triggers

variable {resubmit : OrderBook A → NewOrder → Outcome (OrderBook A × List OutputEvent)}

/-- What is asked of a call that re-submits a triggered order. -/
def Completes (resubmit : OrderBook A → NewOrder → Outcome (OrderBook A × List OutputEvent)) :
    Prop :=
  ∀ b no b' events, Sound b none → validate b no = none → no.kind ≠ .fok →
    no.kind.isStop = false → resubmit b no = .ok (b', events) → NoneWaiting b'

variable (haccepts : Accepts resubmit) (hcompletes : Completes resubmit)
include haccepts hcompletes

/-- Activating a slot does nothing, or leaves no reached stop waiting. -/
theorem activate_completes (h : activate resubmit b s = .ok (b', events)) (hb : Sound b none) :
    Sound b' none ∧ (b' = b ∨ NoneWaiting b') := by
  refine ⟨(activate_inv haccepts h hb).1, ?_⟩
  cases activate_cases h with
  | vacant _ => exact .inl rfl
  | resubmitted ho hremove hnew =>
    obtain ⟨hb₁, hvalid, hfok⟩ := activated_valid hb ho hremove
    exact .inr (hcompletes _ _ _ _ hb₁ hvalid hfok (Sheds.isStop_activated _) hnew)

theorem activateAll_completes {slots : List Nat}
    (h : activateAll resubmit slots b = .ok (b', events)) (hb : Sound b none) :
    Sound b' none ∧ (b' = b ∨ NoneWaiting b') := by
  induction slots generalizing b events with
  | nil =>
    cases h
    exact ⟨hb, .inl rfl⟩
  | cons slot rest ih =>
    obtain ⟨⟨b₁, events₁⟩, hfirst, h⟩ := bind_eq_ok.1 h
    obtain ⟨⟨b₂, events₂⟩, hrest, h⟩ := bind_eq_ok.1 h
    cases h
    obtain ⟨hb₁, hfirst⟩ := activate_completes haccepts hcompletes hfirst hb
    obtain ⟨hb₂, hrest⟩ := ih hrest hb₁
    refine ⟨hb₂, ?_⟩
    rcases hrest with rfl | hrest
    · exact hfirst
    · exact .inr hrest

theorem triggerSide_completes (h : triggerSide resubmit b side last = .ok (b', events))
    (hb : Sound b none) : Sound b' none ∧ (b' = b.retainStops side last ∨ NoneWaiting b') := by
  obtain ⟨⟨b₁, events₁⟩, hall, h⟩ := bind_eq_ok.1 h
  cases h
  obtain ⟨hb₁, hall⟩ := activateAll_completes haccepts hcompletes hall hb
  refine ⟨hb₁, ?_⟩
  rcases hall with rfl | hall
  · exact .inl rfl
  · exact .inr (hall.retainStops side last)

/-- **The trigger loops.** Called with the last trade price they leave no stop waiting that
the last trade price has reached when they return. -/
theorem triggerStops_completes (h : triggerStops resubmit b last = .ok (b', events))
    (hb : Sound b none) (hlast : b.lastTrade = some last) : NoneWaiting b' := by
  obtain ⟨⟨b₁, buys⟩, hbuys, h⟩ := bind_eq_ok.1 h
  obtain ⟨⟨b₂, sells⟩, hsells, h⟩ := bind_eq_ok.1 h
  cases h
  obtain ⟨hb₁, hbuys⟩ := triggerSide_completes haccepts hcompletes hbuys hb
  obtain ⟨-, hsells⟩ := triggerSide_completes haccepts hcompletes hsells hb₁
  rcases hsells with rfl | hsells
  · rcases hbuys with rfl | hbuys
    · -- nothing was activated
      intro l hl side t ht
      obtain rfl : last = l := Option.some.inj (hlast.symm.trans hl)
      rw [OrderBook.stops_retainStops, OrderBook.stops_retainStops]
      cases side with
      | buy => rw [if_neg (by simp), if_pos ⟨rfl, ht⟩]
      | sell => rw [if_pos ⟨rfl, ht⟩]
    · exact hbuys.retainStops .sell last
  · exact hsells

end Triggers

/-- **New orders.** -/
theorem applyNew_completes {fuel : Nat} (h : applyNew seq ts fuel b no = .ok (b', events))
    (hb : Sound b none) (hkind : no.kind.isStop = false)
    (haccepted : ∀ reason, .rejected no.id reason seq ∉ events) : NoneWaiting b' := by
  induction fuel generalizing b no b' events with
  | zero => cases h
  | succ fuel ih =>
    have hexecuted : ∀ {b₁ fills}, validate b no = none →
        execute fuel b no seq ts = .ok (b₁, fills) → Sound b₁ none := by
      intro b₁ fills hvalid hexec
      obtain ⟨hqty, -, hprice⟩ := validate_eq_none.1 hvalid
      exact (execute_inv hexec hb hqty hkind fun hk => hprice (by rw [hk]; rfl)).1
    cases applyNew_cases h with
    | @refused reason _ => exact absurd (List.mem_singleton_self _) (haccepted reason)
    | held _ hstop => cases hkind.symm.trans hstop
    | killed _ _ _ => exact absurd (by simp) (haccepted .fokUnfillable)
    | untraded _ _ _ _ hnever =>
      intro l hl
      cases hnever.symm.trans hl
    | traded hvalid _ _ hexec hlast htrigger =>
      have haccepts : Accepts (applyNew (A := A) seq ts fuel) :=
        fun b no b' events hb hvalid hk h =>
          ⟨(applyNew_inv h hb).1, (applyNew_inv h hb).2.2 hvalid hk⟩
      have hcompletes : Completes (applyNew (A := A) seq ts fuel) := by
        intro b no b' events hb hvalid hk hstop h
        refine ih h hb hstop fun reason hmem => ?_
        cases (applyNew_inv h hb).2.2 hvalid hk _ hmem
      exact triggerStops_completes haccepts hcompletes htrigger (hexecuted hvalid hexec) hlast

variable {symbol : SymbolId} {tick : Price} {log : List Entry}

/-- **Triggering is complete.** After a new order that is no stop and not rejected, no
stop waits that the last trade price has reached. -/
theorem reaches_noneWaiting (h : Reaches symbol tick log b)
    (hkind : no.kind = .limit ∨ no.kind = .market ∨ no.kind = .ioc ∨ no.kind = .fok)
    (happ : Applies b ⟨seq, ts, .new no⟩ b' events)
    (haccepted : ∀ reason, .rejected no.id reason seq ∉ events) {l : Price}
    (hlast : b'.lastTrade = some l) :
    (∀ t : Price, t ≤ l → b'.stopBuys[t]? = none) ∧
      ∀ t : Price, l ≤ t → b'.stopSells[t]? = none := by
  have hstop : no.kind.isStop = false := by
    rcases hkind with hk | hk | hk | hk
    · rw [hk]; rfl
    · rw [hk]; rfl
    · rw [hk]; rfl
    · rw [hk]; rfl
  obtain ⟨fuel, happ⟩ := happ
  have hnone := applyNew_completes happ (reaches_sound h) hstop haccepted l hlast
  exact ⟨fun t ht => hnone .buy t (decide_eq_true ht),
    fun t ht => hnone .sell t (decide_eq_true ht)⟩

/-- Asks at 100, 105 and 110, and stop orders to buy at 100, 105 and 120. -/
def stopLadder : List Sequenced :=
  [⟨1, 0, .new ⟨1, 0, .sell, .limit, .gtc, 100, 0, 1⟩⟩,
   ⟨2, 0, .new ⟨2, 0, .sell, .limit, .gtc, 105, 0, 1⟩⟩,
   ⟨3, 0, .new ⟨3, 0, .sell, .limit, .gtc, 110, 0, 5⟩⟩,
   ⟨4, 0, .new ⟨4, 0, .buy, .stopMarket, .gtc, 0, 100, 1⟩⟩,
   ⟨5, 0, .new ⟨5, 0, .buy, .stopMarket, .gtc, 0, 105, 1⟩⟩,
   ⟨6, 0, .new ⟨6, 0, .buy, .stopMarket, .gtc, 0, 120, 1⟩⟩]

/-- A market buy trades at 100; the first stop trades at 105 and activates the second. -/
theorem reaches_noneWaiting_sample : ∃ (b b' : OrderBook (VecSlab Order)) (log : List Entry)
    (events : List OutputEvent),
    Reaches 0 1 log b ∧ log.map Prod.fst = stopLadder ∧
      Applies b ⟨7, 0, .new ⟨7, 0, .buy, .market, .gtc, 0, 0, 1⟩⟩ b' events ∧
      b'.lastTrade = some 110 ∧ b'.stopBuys.toList.map Prod.fst = [120] ∧
      ∀ t : Price, t ≤ 110 → b'.stopBuys[t]? = none := by
  have hok : ∃ r r', applyAll 9 (OrderBook.new 0 1 : OrderBook (VecSlab Order)) stopLadder =
        .ok r ∧
      applyWithin 9 r.1 ⟨7, 0, .new ⟨7, 0, .buy, .market, .gtc, 0, 0, 1⟩⟩ = .ok r' ∧
      r.2.map Prod.fst = stopLadder ∧ (r'.2.all fun e => !e.rejects) = true ∧
      r'.1.lastTrade = some 110 ∧ r'.1.stopBuys.toList.map Prod.fst = [120] := by
    refine ⟨_, _, rfl, rfl, ?_⟩
    decide +kernel
  obtain ⟨⟨b, log⟩, ⟨b', events⟩, hrun, happ, hlog, hquiet, hlast, hstops⟩ := hok
  have hreach := reaches_applyAll hrun
  have haccepted : ∀ reason, .rejected 7 reason 7 ∉ events := by
    intro reason hmem
    have h := List.all_eq_true.1 hquiet _ hmem
    cases h
  exact ⟨b, b', log, events, hreach, hlog, ⟨9, happ⟩, hlast, hstops,
    (reaches_noneWaiting hreach (.inr (.inl rfl)) ⟨9, happ⟩ haccepted hlast).1⟩

end Exchange
