import Exchange.Verify.Termination

/-!
# The stop maps

A stop order enters the arena, the index and a stop map; it leaves all three
when it is triggered, but Cancel and Replace forget the stop map. In runs that
use neither on a held stop order, and trigger no stop limit order, the maps list
exactly the held stop orders.
-/

namespace Exchange

variable {A : Type} [Slab A Order] {b b' : OrderBook A} {q q' : PriorityBook} {side : Side}
  {t : Price} {s : Nat}

/-- Every filed slot holds a stop order of that side and trigger price, and every
stop order is filed exactly once. -/
structure StopMaps (b : OrderBook A) : Prop where
  listed : ∀ side t s, b.Lists side t s → ∃ o loc, b.slot? s = some o ∧ o.kind.isStop = true ∧
    o.side = side ∧ o.stopPrice = t ∧ b.idIndex[o.id]? = some loc ∧ loc.slot = s
  filed : ∀ s o, b.slot? s = some o → o.kind.isStop = true →
    ∃ slots, (b.stops o.side)[o.stopPrice]? = some slots ∧ slots.count s = 1
  once : b.FiledOnce

/-- The same against the held stop orders of the priority book. -/
structure StopsFiled (b : OrderBook A) (q : PriorityBook) : Prop where
  listed : ∀ side t s, b.Lists side t s → ∃ o, q.held s = some o ∧ o.side = side ∧ o.stopPrice = t
  filed : ∀ s o, q.held s = some o → b.Lists o.side o.stopPrice s
  nodup : ∀ side (t : Price) slots, (b.stops side)[t]? = some slots → slots.Nodup

namespace StopsFiled

omit [Slab A Order] in
theorem filedOnce (h : StopsFiled b q) : b.FiledOnce := by
  intro side t side' t' s hl hl'
  obtain ⟨o, ho, rfl, rfl⟩ := h.listed side t s hl
  obtain ⟨o', ho', rfl, rfl⟩ := h.listed side' t' s hl'
  rw [ho] at ho'
  cases ho'
  exact ⟨rfl, rfl⟩

theorem stopMaps (h : StopsFiled b q) (hm : Models b q) : StopMaps b := by
  obtain ⟨σ, hr⟩ := hm
  refine ⟨fun side t s hl => ?_, fun s x hx hstop => ?_, h.filedOnce⟩
  · obtain ⟨o, ho, hside, hprice⟩ := h.listed side t s hl
    obtain ⟨hcore, hstop⟩ := hr.filed.held_core s o ho
    obtain ⟨x, hx, rfl⟩ := get?_of_core hcore
    exact ⟨x, _, hx, hstop, hside, hprice,
      hr.filed.index_eq (o := x.unlinked) hcore nofun, rfl⟩
  · have hcore := coreOf_of_slot? hx
    have hheld : q.held s = some x.unlinked := by
      rcases (hr.filed.covered s _ hcore).resolve_left nofun with hσ | hheld
      · have hnot := (hr.filed.side_price hσ hcore).2.2
        rw [show x.unlinked.kind = x.kind from rfl, hstop] at hnot
        cases hnot
      · exact hheld
    obtain ⟨slots, hslots, hs⟩ := h.filed s _ hheld
    exact ⟨slots, hslots, List.count_eq_one_of_mem (h.nodup _ _ _ hslots) hs⟩

/-- A slot that no order occupies is not filed. -/
theorem not_lists (h : StopsFiled b q) (hm : Models b q) (hs : coreOf b.arena s = none) :
    ¬b.Lists side t s := by
  intro hl
  obtain ⟨o, ho, -⟩ := h.listed side t s hl
  rw [hm.held_core ho] at hs
  cases hs

theorem new (symbol : SymbolId) (tick : Price) :
    StopsFiled (OrderBook.new symbol tick : OrderBook A) (PriorityBook.new symbol tick) := by
  have hstops : ∀ side (t : Price), ((OrderBook.new symbol tick : OrderBook A).stops side)[t]? =
      none := by
    intro side t
    cases side <;> simp [OrderBook.stops, OrderBook.new]
  refine ⟨fun side t s hl => ?_, fun s o h => ?_, fun side t slots hslots => ?_⟩
  · obtain ⟨slots, hslots, -⟩ := hl
    rw [hstops] at hslots
    cases hslots
  · cases h
  · rw [hstops] at hslots
    cases hslots

/-- A cascade prunes what it has activated. -/
theorem settles (h : StopsFiled b q) (hs : Settles b q b' q') : StopsFiled b' q' := by
  obtain ⟨b₁, q₁, hheld, hstops, hc⟩ := hs
  have hlists : ∀ {side t s}, b₁.Lists side t s ↔ b.Lists side t s := by
    intro side t s
    unfold OrderBook.Lists
    rw [hstops]
  have hone : b₁.FiledOnce := fun side t side' t' s hl hl' =>
    h.filedOnce side t side' t' s (hlists.1 hl) (hlists.1 hl')
  refine ⟨fun side t s hl => ?_, fun s o ho => ?_, fun side t slots hslots => ?_⟩
  · obtain ⟨o, ho, hside, hprice⟩ := h.listed side t s (hlists.1 (hc.lists hl))
    refine ⟨o, ?_, hside, hprice⟩
    have hq₁ : q₁.held s = some o := by rw [hheld, ho]
    cases hq' : q'.held s with
    | none =>
      rcases hc.clean hone side t s hl hq' with hnone | hmem
      · rw [hq₁] at hnone
        cases hnone
      · cases hmem
    | some o' =>
      have hq₁' := hc.still s o' hq'
      rw [hq₁] at hq₁'
      exact hq₁'.symm
  · have hq : q.held s = some o := by rw [← hheld, hc.still s o ho]
    exact hc.filed _ _ s o (hlists.2 (h.filed s o hq)) ho
  · refine h.nodup side t slots ?_
    rw [← hstops]
    exact hc.shrinks side t slots hslots

/-- A stop order is filed in a slot that was vacant. -/
theorem hold (h : StopsFiled b q) (hm : Models b q) {o : Order} (hs : coreOf b.arena s = none)
    (hheld : q'.held = Function.update q.held s (some o))
    (hstops : ∀ side (t : Price), (b'.stops side)[t]? =
      if side = o.side ∧ t = o.stopPrice then some ((b.stops side)[t]?.getD [] ++ [s])
      else (b.stops side)[t]?) : StopsFiled b' q' := by
  have hlists : ∀ {side t r}, b'.Lists side t r ↔
      b.Lists side t r ∨ (side = o.side ∧ t = o.stopPrice ∧ r = s) :=
    OrderBook.lists_of_lookup hstops
  have hne : ∀ {side t r}, b.Lists side t r → r ≠ s := by
    rintro side t r hl rfl
    exact h.not_lists hm hs hl
  refine ⟨fun side t r hl => ?_, fun r o' ho' => ?_, fun side t slots hslots => ?_⟩
  · rw [hheld]
    rcases hlists.1 hl with hl | ⟨rfl, rfl, rfl⟩
    · rw [Function.update_of_ne (hne hl)]
      exact h.listed side t r hl
    · exact ⟨o, Function.update_self .., rfl, rfl⟩
  · rw [hheld] at ho'
    by_cases hr : r = s
    · subst hr
      rw [Function.update_self] at ho'
      cases ho'
      exact hlists.2 (.inr ⟨rfl, rfl, rfl⟩)
    · rw [Function.update_of_ne hr] at ho'
      exact hlists.2 (.inl (h.filed r o' ho'))
  · rw [hstops] at hslots
    by_cases ho : side = o.side ∧ t = o.stopPrice
    · rw [if_pos ho] at hslots
      cases hslots
      have hold : ((b.stops side)[t]?.getD []).Nodup := by
        cases hl : (b.stops side)[t]? with
        | none => exact List.nodup_nil
        | some slots => exact h.nodup side t slots hl
      refine List.nodup_append.2 ⟨hold, List.nodup_singleton s, fun r hr r' hr' => ?_⟩
      rw [List.mem_singleton.1 hr']
      cases hl : (b.stops side)[t]? with
      | none =>
        rw [hl] at hr
        cases hr
      | some slots =>
        rw [hl] at hr
        exact hne ⟨slots, hl, hr⟩
    · rw [if_neg ho] at hslots
      exact h.nodup side t slots hslots

end StopsFiled

/-! ## Commands that keep the stop maps -/

/-- The command takes no held stop order out, and triggers no stop limit order. -/
def Command.KeepsStops (b : OrderBook A) (c : Command) : Prop :=
  (∀ id, c.takesOut = some id → ∀ loc o, b.idIndex[id]? = some loc →
    b.slot? loc.slot = some o → o.kind.isStop = false) ∧
  ∀ no, c.Matches b no → Harmless b no

theorem Command.KeepsStops.clear {c : Command} (h : c.KeepsStops b) (hf : StopsFiled b q)
    (hm : Models b q) : c.Clear b :=
  fun no hno => ⟨h.2 no hno, fun _ _ _ _ hl _ => hf.not_lists hm coreOf_vacantKey hl⟩

variable [LifoSlab A Order]

/-- **The step.** -/
theorem apply_stopsFiled (hm : Models b q) (hf : StopsFiled b q) {cmd : Sequenced}
    (hcmd : cmd.cmd.KeepsStops b) {events : List OutputEvent} (h : Applies b cmd b' events) :
    ∃ q', Models b' q' ∧ StopsFiled b' q' := by
  obtain ⟨b'', q', events', happ, hm', heffect⟩ := apply_returns hm (hcmd.clear hf hm)
  obtain ⟨rfl, -⟩ := Applies.unique h happ
  refine ⟨q', hm', ?_⟩
  cases heffect with
  | settled hs => exact hf.settles hs
  | held hs hheld hstops => exact hf.hold hm hs hheld hstops
  | pulled hid hloc ho hstop =>
    rw [hcmd.1 _ hid _ _ hloc ho] at hstop
    cases hstop

/-- The book is reached from a new one by commands that keep the stop maps. -/
def ReachesKeeping (symbol : SymbolId) (tick : Price) (log : List Entry) (b : OrderBook A) : Prop :=
  Transition.Run (Transition.restrict (fun b e => e.1.cmd.KeepsStops b) ApplyStep)
    (OrderBook.new symbol tick) log b

/-- **The stop maps list exactly the held stop orders.** -/
theorem reachesKeeping_stopMaps {symbol : SymbolId} {tick : Price} {log : List Entry}
    (h : ReachesKeeping symbol tick log b) : StopMaps b := by
  have hinv : ∃ q, Models b q ∧ StopsFiled b q := by
    refine Transition.Run.invariant
      (I := fun _ (b : OrderBook A) => ∃ q, Models b q ∧ StopsFiled b q)
      ⟨_, ⟨_, Refines.new symbol tick⟩, .new symbol tick⟩ ?_ h
    intro _ b e b' _ ⟨q, hm, hf⟩ ⟨hkeeps, hstep⟩
    exact apply_stopsFiled hm hf hkeeps hstep
  obtain ⟨q, hm, hf⟩ := hinv
  exact hf.stopMaps hm

omit [LifoSlab A Order] in
theorem Command.keepsStops_of_filedSlots
    (hfiled : ∀ s ∈ b.filedSlots, (b.slot? s).all fun o => o.kind = .stopMarket) {c : Command}
    (hc : c.takesOut = none) : c.KeepsStops b := by
  refine ⟨fun id hid => ?_, fun no _ side t s o hl _ ho => ?_⟩
  · rw [hc] at hid
    cases hid
  · have h := hfiled s hl.mem_filedSlots
    rw [ho] at h
    simpa using h

/-- Of two stop orders the trade of the last command triggers the second. -/
theorem reachesKeeping_stopMaps_sample :
    ∃ (b : OrderBook (VecSlab Order)) (log : List Entry), ReachesKeeping 0 1 log b ∧
      log.length = 4 ∧ b.stopBuys.toList = [(105, [0])] ∧ StopMaps b := by
  have hok : ∃ r₁ r₂ r₃ r₄,
      applyWithin 9 (OrderBook.new 0 1 : OrderBook (VecSlab Order))
        ⟨1, 0, .new ⟨1, 0, .buy, .stopMarket, .gtc, 0, 105, 1⟩⟩ = .ok r₁ ∧
      applyWithin 9 r₁.1 ⟨2, 0, .new ⟨2, 0, .buy, .stopMarket, .gtc, 0, 100, 1⟩⟩ = .ok r₂ ∧
      applyWithin 9 r₂.1 ⟨3, 0, .new ⟨3, 0, .sell, .limit, .gtc, 100, 0, 2⟩⟩ = .ok r₃ ∧
      applyWithin 9 r₃.1 ⟨4, 0, .new ⟨4, 0, .buy, .limit, .gtc, 100, 0, 1⟩⟩ = .ok r₄ ∧
      (∀ s ∈ r₁.1.filedSlots, (r₁.1.slot? s).all fun o => o.kind = .stopMarket) ∧
      (∀ s ∈ r₂.1.filedSlots, (r₂.1.slot? s).all fun o => o.kind = .stopMarket) ∧
      (∀ s ∈ r₃.1.filedSlots, (r₃.1.slot? s).all fun o => o.kind = .stopMarket) ∧
      r₄.1.stopBuys.toList = [(105, [0])] := by
    refine ⟨_, _, _, _, rfl, rfl, rfl, rfl, ?_⟩
    decide +kernel
  obtain ⟨⟨b₁, e₁⟩, ⟨b₂, e₂⟩, ⟨b₃, e₃⟩, ⟨b₄, e₄⟩, h₁, h₂, h₃, h₄, hf₁, hf₂, hf₃, hstops⟩ := hok
  have hrun₁ : ReachesKeeping 0 1 ([] ++ [(_, e₁)]) b₁ :=
    Transition.Run.nil.snoc ⟨Command.keepsStops_of_filedSlots (by decide) rfl, 9, h₁⟩
  have hrun₂ : ReachesKeeping 0 1 ([] ++ [(_, e₁)] ++ [(_, e₂)]) b₂ :=
    hrun₁.snoc ⟨Command.keepsStops_of_filedSlots hf₁ rfl, 9, h₂⟩
  have hrun₃ : ReachesKeeping 0 1 ([] ++ [(_, e₁)] ++ [(_, e₂)] ++ [(_, e₃)]) b₃ :=
    hrun₂.snoc ⟨Command.keepsStops_of_filedSlots hf₂ rfl, 9, h₃⟩
  have hrun₄ : ReachesKeeping 0 1 ([] ++ [(_, e₁)] ++ [(_, e₂)] ++ [(_, e₃)] ++ [(_, e₄)]) b₄ :=
    hrun₃.snoc ⟨Command.keepsStops_of_filedSlots hf₃ rfl, 9, h₄⟩
  exact ⟨b₄, _, hrun₄, rfl, hstops, reachesKeeping_stopMaps hrun₄⟩

/-- Cancelling a held stop order leaves its slot in the stop map. -/
theorem cancel_forgets_stopMap :
    ∃ (b : OrderBook (VecSlab Order)) (log : List Entry), Reaches 0 1 log b ∧
      log.map Prod.fst = [⟨1, 0, .new ⟨1, 0, .buy, .stopMarket, .gtc, 0, 100, 1⟩⟩,
        ⟨2, 0, .cancel 1 0⟩] ∧ ¬StopMaps b := by
  have hok : ∃ r, applyAll 9 (OrderBook.new 0 1 : OrderBook (VecSlab Order))
      [⟨1, 0, .new ⟨1, 0, .buy, .stopMarket, .gtc, 0, 100, 1⟩⟩, ⟨2, 0, .cancel 1 0⟩] = .ok r ∧
      r.2.map Prod.fst = [⟨1, 0, .new ⟨1, 0, .buy, .stopMarket, .gtc, 0, 100, 1⟩⟩,
        ⟨2, 0, .cancel 1 0⟩] ∧
      (r.1.stops .buy)[(100 : Price)]? = some [0] ∧ r.1.slot? 0 = none := by
    refine ⟨_, rfl, ?_⟩
    decide +kernel
  obtain ⟨⟨b, log⟩, hall, hlog, hlisted, hvacant⟩ := hok
  refine ⟨b, log, reaches_applyAll hall, hlog, fun h => ?_⟩
  obtain ⟨o, loc, ho, -⟩ := h.listed .buy 100 0 ⟨[0], hlisted, List.mem_singleton_self 0⟩
  rw [hvacant] at ho
  cases ho

end Exchange
