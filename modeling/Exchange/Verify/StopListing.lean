import Exchange.Verify.Termination

/-!
# Where stop orders are listed

On every reachable book a stop order in the arena is listed under its side and trigger
price. A call that is not itself one for a stop order only sheds stops: it holds none
that was not held, lists none that was not listed, and what it still holds is still
listed.
-/

namespace Exchange

open Fuel

variable {A : Type} [Slab A Order] {b b' b'' : OrderBook A} {no : NewOrder} {seq : Seq} {ts : Ts}
  {events : List OutputEvent} {s : Nat} {side : Side} {t : Price}

/-! ## Matching -/

theorem Rewired.stops (h : Rewired b b') (side : Side) : b'.stops side = b.stops side := by
  cases side
  · exact h.stopBuys
  · exact h.stopSells

/-- The orders of `b'` are orders of `b` of which some more may be filled, and the stop
maps are the same. -/
structure Depletes (b b' : OrderBook A) : Prop where
  core : ∀ s o', coreOf b'.arena s = some o' →
    ∃ o left, coreOf b.arena s = some o ∧ o' = { o with remaining := left }
  stops : ∀ side, b'.stops side = b.stops side

namespace Depletes

theorem refl (b : OrderBook A) : Depletes b b :=
  ⟨fun _ o' ho' => ⟨o', o'.remaining, ho', rfl⟩, fun _ => rfl⟩

theorem trans (h : Depletes b b') (h' : Depletes b' b'') : Depletes b b'' := by
  refine ⟨fun s o'' ho'' => ?_, fun side => (h'.stops side).trans (h.stops side)⟩
  obtain ⟨o', left', ho', rfl⟩ := h'.core s o'' ho''
  obtain ⟨o, left, ho, rfl⟩ := h.core s o' ho'
  exact ⟨o, left', ho, rfl⟩

theorem rewired (h : Rewired b b') : Depletes b b' := by
  refine ⟨fun s o' ho' => ⟨o', o'.remaining, ?_, rfl⟩, h.stops⟩
  rw [← h.core, ho']

theorem remove (h : b.removeOrder s = .ok b') : Depletes b b' := by
  have hcore := removeOrder_core h
  obtain ⟨o, -, rfl⟩ := removeOrder_inv h
  refine ⟨fun r x hx => ⟨x, x.remaining, ?_, rfl⟩, OrderBook.stops_setArena b _⟩
  rw [hcore] at hx
  by_cases hr : r = s
  · rw [hr, Function.update_self] at hx
    cases hx
  · rwa [Function.update_of_ne hr] at hx

theorem setIndex (b : OrderBook A) (m : Std.ExtTreeMap OrderId Location) :
    Depletes b (b.setIndex m) :=
  ⟨(refl b).core, OrderBook.stops_setIndex b m⟩

variable {a : Aggressor} {qty total total' : Qty}

theorem tradeWith {makerSlot : Nat} {p : Price} (hne : makerSlot ≠ a.slot)
    (h : tradeWith b a makerSlot p seq ts = .ok (b', qty, events)) : Depletes b b' := by
  obtain ⟨taker, maker, htaker, hmaker, -, hcore, -⟩ := tradeWith_inv hne h
  refine ⟨fun s o' ho' => ?_, ?_⟩
  · rw [hcore] at ho'
    by_cases hm : s = makerSlot
    · rw [hm, Function.update_self] at ho'
      split at ho'
      · cases ho'
      · cases ho'
        exact ⟨maker, _, hm ▸ hmaker, rfl⟩
    · rw [Function.update_of_ne hm] at ho'
      by_cases ht : s = a.slot
      · rw [ht, Function.update_self] at ho'
        cases ho'
        exact ⟨taker, _, ht ▸ htaker, rfl⟩
      · rw [Function.update_of_ne ht] at ho'
        exact ⟨o', o'.remaining, ho', rfl⟩
  · obtain ⟨taker, -, h⟩ := bind_eq_ok.1 h
    obtain ⟨maker, -, h⟩ := bind_eq_ok.1 h
    obtain ⟨b₁, h₁, h⟩ := bind_eq_ok.1 h
    obtain ⟨b₂, h₂, h⟩ := bind_eq_ok.1 h
    obtain ⟨taker', -, h⟩ := bind_eq_ok.1 h
    obtain ⟨maker', -, h⟩ := bind_eq_ok.1 h
    obtain ⟨a₁, rfl⟩ := modifyOrder_setArena h₁
    obtain ⟨a₂, rfl⟩ := modifyOrder_setArena h₂
    intro side
    dsimp only at h
    split at h
    · obtain ⟨b₃, h₃, h⟩ := bind_eq_ok.1 h
      cases h
      obtain ⟨o, -, rfl⟩ := removeOrder_inv h₃
      rw [(Rewired.removeEmpty _ _ _).stops]
      simp only [OrderBook.stops_setArena, OrderBook.stops_setIndex, OrderBook.stops_setLastTrade]
    · obtain ⟨b₃, h₃, h⟩ := bind_eq_ok.1 h
      cases h
      rw [(Rewired.reinsertAtHead h₃).stops]
      simp only [OrderBook.stops_setArena, OrderBook.stops_setLastTrade]

theorem matchLoop {fuel : Nat} (h : matchLoop a seq ts fuel b total = .ok (b', total', events)) :
    Depletes b b' := by
  induction fuel generalizing b total events with
  | zero => cases h
  | succ fuel ih =>
    cases matchLoop_cases h with
    | done => exact refl _
    | traded hstep hloop =>
      rcases matchStep_cases hstep with hs | ⟨b₀, makerSlot, p, hrewired, hne, htrade⟩
      · exact absurd hloop (hs.matchLoop_ne_ok fuel _)
      · exact ((rewired hrewired).trans (tradeWith hne htrade)).trans (ih hloop)

theorem settle {slot : Nat} {filled : Qty} (h : settle b no slot filled seq = .ok (b', events)) :
    Depletes b b' := by
  cases settle_cases h with
  | closed _ _ _ hremoved => exact (remove hremoved).trans (setIndex _ _)
  | rested _ _ _ hrested => exact (setIndex b _).trans (rewired (Rewired.insertResting hrested))
  | dropped _ _ _ hremoved => exact remove hremoved
  | left _ _ => exact refl _

end Depletes

/-! ## Shedding stops -/

/-- Stops of `b'` are stops of `b`, what is listed was listed, and the stops that are
held are listed as before. -/
structure Sheds (b b' : OrderBook A) : Prop where
  held : ∀ s o', coreOf b'.arena s = some o' → o'.kind.isStop = true →
    ∃ o left, coreOf b.arena s = some o ∧ o' = { o with remaining := left }
  shrinks : ∀ side (t : Price) slots, (b'.stops side)[t]? = some slots →
    (b.stops side)[t]? = some slots
  listed : ∀ s o', coreOf b'.arena s = some o' → o'.kind.isStop = true →
    b.Lists o'.side o'.stopPrice s → b'.Lists o'.side o'.stopPrice s

namespace Sheds

theorem of_stops_eq (hheld : ∀ s o', coreOf b'.arena s = some o' → o'.kind.isStop = true →
      ∃ o left, coreOf b.arena s = some o ∧ o' = { o with remaining := left })
    (hstops : ∀ side, b'.stops side = b.stops side) : Sheds b b' where
  held := hheld
  shrinks side t slots h := by rw [← hstops, h]
  listed s o' _ _ h := by
    unfold OrderBook.Lists
    rw [hstops]
    exact h

theorem depletes (h : Depletes b b') : Sheds b b' :=
  of_stops_eq (fun s o' ho' _ => h.core s o' ho') h.stops

theorem refl (b : OrderBook A) : Sheds b b := depletes (Depletes.refl b)

theorem trans (h : Sheds b b') (h' : Sheds b' b'') : Sheds b b'' where
  held s o'' ho'' hstop := by
    obtain ⟨o', left', ho', rfl⟩ := h'.held s o'' ho'' hstop
    obtain ⟨o, left, ho, rfl⟩ := h.held s o' ho' hstop
    exact ⟨o, left', ho, rfl⟩
  shrinks side t slots hs := h.shrinks side t slots (h'.shrinks side t slots hs)
  listed s o'' ho'' hstop hl := by
    obtain ⟨o', left', ho', rfl⟩ := h'.held s o'' ho'' hstop
    exact h'.listed s _ ho'' hstop (h.listed s o' ho' hstop hl)

theorem lists (h : Sheds b b') (hl : b'.Lists side t s) : b.Lists side t s := by
  obtain ⟨slots, hslots, hs⟩ := hl
  exact ⟨slots, h.shrinks side t slots hslots, hs⟩

/-- An order that is no stop enters and is matched. -/
theorem execute {fuel : Nat} (hkind : no.kind.isStop = false)
    (h : execute fuel b no seq ts = .ok (b', events)) : Sheds b b' := by
  obtain ⟨o, b₁, filled, fills, closing, hloop, hsettle, rfl⟩ := execute_calls h
  have hdepletes := (Depletes.matchLoop hloop).trans (Depletes.settle hsettle)
  refine of_stops_eq (fun s o' ho' hstop => ?_) fun side => ?_
  · obtain ⟨o, left, ho, rfl⟩ := hdepletes.core s o' ho'
    rw [OrderBook.arena_setArena, coreOf_insert] at ho
    by_cases hs : s = Slab.vacantKey b.arena
    · rw [hs, Function.update_self] at ho
      cases ho
      exact absurd hstop (Bool.eq_false_iff.1 hkind)
    · rw [Function.update_of_ne hs] at ho
      exact ⟨o, left, ho, rfl⟩
  · rw [hdepletes.stops, OrderBook.stops_setArena]

section Triggers

variable {resubmit : OrderBook A → NewOrder → Outcome (OrderBook A × List OutputEvent)}
  (hresubmit : ∀ b no b' events, no.kind.isStop = false → resubmit b no = .ok (b', events) →
    Sheds b b')
include hresubmit

omit [Slab A Order] hresubmit in
theorem isStop_activated (o : Order) : o.activated.kind.isStop = false := by
  unfold Order.activated
  dsimp only
  split
  · rfl
  · rfl

/-- What is activated is no longer a held stop. -/
theorem activate (h : activate resubmit b s = .ok (b', events)) :
    Sheds b b' ∧ ∀ o', coreOf b'.arena s = some o' → o'.kind.isStop = false := by
  cases activate_cases h with
  | vacant hvacant =>
    refine ⟨refl b, fun o' ho' => ?_⟩
    obtain ⟨x, hx, -⟩ := get?_of_core ho'
    cases hvacant.symm.trans hx
  | @resubmitted o _ _ _ _ hremove hnew =>
    have hshed := hresubmit _ _ _ _ (isStop_activated o) hnew
    have hdepletes := (Depletes.setIndex b (b.idIndex.erase o.id)).trans (Depletes.remove hremove)
    refine ⟨(depletes hdepletes).trans hshed, fun o' ho' => ?_⟩
    by_contra hstop
    obtain ⟨x, left, hx, -⟩ := hshed.held s o' ho' (Bool.not_eq_false _ ▸ hstop)
    rw [removeOrder_core hremove, Function.update_self] at hx
    cases hx

theorem activateAll {slots : List Nat} (h : activateAll resubmit slots b = .ok (b', events)) :
    Sheds b b' ∧ ∀ s ∈ slots, ∀ o', coreOf b'.arena s = some o' → o'.kind.isStop = false := by
  induction slots generalizing b events with
  | nil =>
    cases h
    exact ⟨refl _, fun s hs => absurd hs List.not_mem_nil⟩
  | cons slot rest ih =>
    obtain ⟨⟨b₁, events₁⟩, hfirst, h⟩ := bind_eq_ok.1 h
    obtain ⟨⟨b₂, events₂⟩, hrest, h⟩ := bind_eq_ok.1 h
    cases h
    obtain ⟨hshed₁, hclear₁⟩ := activate hresubmit hfirst
    obtain ⟨hshed₂, hclear₂⟩ := ih hrest
    refine ⟨hshed₁.trans hshed₂, fun s hs o' ho' => ?_⟩
    rcases List.mem_cons.1 hs with rfl | hs
    · by_contra hstop
      obtain ⟨o, left, ho, rfl⟩ := hshed₂.held s o' ho' (Bool.not_eq_false _ ▸ hstop)
      exact hstop (hclear₁ o ho)
    · exact hclear₂ s hs o' ho'

/-- Only entries of stops that have been activated are pruned. -/
theorem triggerSide {last : Price} (h : triggerSide resubmit b side last = .ok (b', events)) :
    Sheds b b' := by
  obtain ⟨⟨b₁, events₁⟩, hall, h⟩ := bind_eq_ok.1 h
  cases h
  obtain ⟨hshed, hclear⟩ := activateAll hresubmit hall
  refine ⟨hshed.held, fun side' t slots hs => ?_, fun s o' ho' hstop hl => ?_⟩
  · rw [OrderBook.stops_retainStops] at hs
    split at hs
    · cases hs
    · exact hshed.shrinks side' t slots hs
  · refine OrderBook.lists_retainStops.2 ⟨hshed.listed s o' ho' hstop hl, ?_⟩
    rintro ⟨rfl, ht⟩
    have hfalse := hclear s (OrderBook.mem_triggered.2 ⟨_, hl, ht⟩) o' ho'
    exact absurd hstop (Bool.eq_false_iff.1 hfalse)

theorem triggerStops {last : Price} (h : triggerStops resubmit b last = .ok (b', events)) :
    Sheds b b' := by
  obtain ⟨⟨b₁, buys⟩, hbuys, h⟩ := bind_eq_ok.1 h
  obtain ⟨⟨b₂, sells⟩, hsells, h⟩ := bind_eq_ok.1 h
  cases h
  exact (triggerSide hresubmit hbuys).trans (triggerSide hresubmit hsells)

end Triggers

/-- **New orders.** An order that is no stop sheds stops, however far its triggers
cascade. -/
theorem applyNew {fuel : Nat} (hkind : no.kind.isStop = false)
    (h : applyNew seq ts fuel b no = .ok (b', events)) : Sheds b b' := by
  induction fuel generalizing b no b' events with
  | zero => cases h
  | succ fuel ih =>
    cases applyNew_cases h with
    | refused _ => exact refl _
    | held _ hstop => exact absurd hstop (Bool.eq_false_iff.1 hkind)
    | killed _ _ _ => exact refl _
    | untraded _ _ _ hexec _ => exact execute hkind hexec
    | traded _ _ _ hexec _ htrigger =>
      exact (execute hkind hexec).trans (triggerStops (fun _ _ _ _ hkind h => ih hkind h) htrigger)

end Sheds

/-! ## Listed stops -/

/-- Every stop order in the arena is listed under its side and trigger price. -/
def Listed (b : OrderBook A) : Prop :=
  ∀ s o, coreOf b.arena s = some o → o.kind.isStop = true → b.Lists o.side o.stopPrice s

namespace Listed

theorem sheds (hb : Listed b) (h : Sheds b b') : Listed b' := by
  intro s o' ho' hstop
  obtain ⟨o, left, ho, rfl⟩ := h.held s o' ho' hstop
  exact h.listed s _ ho' hstop (hb s o ho hstop)

theorem holdStop (hb : Listed b) : Listed (holdStop b no seq ts) := by
  intro s o ho hstop
  have hcore : coreOf (Exchange.holdStop b no seq ts).arena =
      Function.update (coreOf b.arena) (Slab.vacantKey b.arena) (some (no.toOrder seq ts)) :=
    coreOf_insert
  refine (OrderBook.lists_of_lookup (holdStop_lookup b no seq ts)).2 ?_
  rw [hcore] at ho
  by_cases hs : s = Slab.vacantKey b.arena
  · rw [hs, Function.update_self] at ho
    cases ho
    exact .inr ⟨rfl, rfl, hs⟩
  · rw [Function.update_of_ne hs] at ho
    exact .inl (hb s o ho hstop)

theorem applyNew {fuel : Nat} (hb : Listed b) (h : applyNew seq ts fuel b no = .ok (b', events)) :
    Listed b' := by
  cases hkind : no.kind.isStop with
  | false => exact hb.sheds (Sheds.applyNew hkind h)
  | true =>
    rcases applyNew_stop_cases hkind h with ⟨-, rfl⟩ | ⟨-, rfl⟩
    · exact hb
    · exact hb.holdStop

end Listed

/-- Taking an order out leaves the stop maps alone. -/
theorem takeOut_depletes {m : Std.ExtTreeMap OrderId Location} {b₁ : OrderBook A} {p : Price}
    {qty : Qty} (h₁ : (b.setIndex m).removeSlot s side p qty = .ok b₁)
    (h₂ : b₁.removeOrder s = .ok b') : Depletes b b' :=
  ((Depletes.setIndex b m).trans (Depletes.rewired (Rewired.removeSlot h₁))).trans
    (Depletes.remove h₂)

variable {symbol : SymbolId} {tick : Price} {log : List Entry} {id : OrderId}

theorem applyCancel_depletes (h : applyCancel b id seq = .ok (b', events)) : Depletes b b' := by
  cases applyCancel_cases h with
  | unknown _ => exact Depletes.refl _
  | cancelled _ _ h₁ h₂ => exact takeOut_depletes h₁ h₂

theorem Listed.applyReplace {fuel : Nat} {newPrice : Price} {newQty : Qty} (hb : Listed b)
    (h : applyReplace fuel b id newPrice newQty seq ts = .ok (b', events)) : Listed b' := by
  cases applyReplace_cases h with
  | zeroQty _ => exact hb
  | unknown _ _ => exact hb
  | replaced _ _ _ h₁ h₂ hnew =>
    exact (hb.sheds (Sheds.depletes (takeOut_depletes h₁ h₂))).applyNew hnew

/-- **Stops are listed.** On every reached book a stop order is listed where its trigger
is. -/
theorem reaches_listed (h : Reaches symbol tick log b) : Listed b := by
  refine Transition.Run.invariant (I := fun _ b => Listed b) (fun s o ho _ => ?_) ?_ h
  · have hnone : coreOf (Slab.new : A) s = none := by simp [coreOf, Slab.get?_new]
    cases hnone.symm.trans ho
  · rintro - b ⟨⟨seq, ts, cmd⟩, events⟩ b' - hb ⟨fuel, h⟩
    cases cmd with
    | new no => exact hb.applyNew h
    | cancel id symbol => exact hb.sheds (Sheds.depletes (applyCancel_depletes h))
    | replace id newPrice newQty symbol => exact hb.applyReplace h

end Exchange
