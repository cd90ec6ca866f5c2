import Exchange.Verify.Step

/-!
# The representation invariant, and no crossed book

What every stop-free run keeps, in the terms of the order book itself: the
levels, the intrusive links, the arena and the id index describe one set of
resting orders, and the two sides never meet.
-/

namespace Exchange

open Links

variable {A : Type} [Slab A Order] {b : OrderBook A}

/-- The levels thread the queues `σ` through the links, each queued order is of
its level and wants to trade, and arena, index and queues name the same slots. -/
structure Represents (b : OrderBook A) (σ : Queues Nat) : Prop where
  /-- A stored level has orders. -/
  nonempty : ∀ side p, (b.level? side p).isSome → σ side p ≠ []
  absent : ∀ side p, b.level? side p = none → σ side p = []
  /-- From head to tail along `next`, backwards along `prev`, without repetition. -/
  chain : ∀ side p l, b.level? side p = some l →
    Chain (fun s => (b.slot? s).map fun o => (o.prev, o.next)) l.head l.tail (σ side p)
  queued : ∀ side p, ∀ s ∈ σ side p,
    ∃ o, b.slot? s = some o ∧ o.side = side ∧ o.price = p ∧ o.remaining ≠ 0
  disjoint : ∀ side p side' p' s, s ∈ σ side p → s ∈ σ side' p' → side = side' ∧ p = p'
  occupied : ∀ s, (b.slot? s).isSome ↔ ∃ side p, s ∈ σ side p
  indexed : ∀ s, (∃ (id : OrderId) (loc : Location), b.idIndex[id]? = some loc ∧ loc.slot = s) ↔
    ∃ side p, s ∈ σ side p
  /-- An index entry is the order's own id, side and price. -/
  located : ∀ (id : OrderId) loc, b.idIndex[id]? = some loc →
    loc.slot ∈ σ loc.side loc.price ∧
      ∃ o, b.slot? loc.slot = some o ∧ o.id = id ∧ o.side = loc.side ∧ o.price = loc.price

theorem Refines.represents {σ : Queues Nat} {q : PriorityBook} (hr : Refines b σ none q)
    (hq : q.StopFree) : Represents b σ := by
  have hslot : ∀ s o, coreOf b.arena s = some o → ∃ o', b.slot? s = some o' ∧ o'.unlinked = o :=
    fun s o h => get?_of_core h
  have hcore : ∀ s, (b.slot? s).isSome = (coreOf b.arena s).isSome := fun s => by
    simp [OrderBook.slot?, coreOf]
  have hlen : ∀ side p, σ side p = [] ↔ q.queue side p = [] := fun side p => by
    rw [← List.length_eq_zero_iff, (hr.filed.queued side p).length_eq, List.length_eq_zero_iff]
  have hmem : ∀ s o, coreOf b.arena s = some o → s ∈ σ o.side o.price := fun s o h =>
    ((hr.filed.covered s o h).resolve_left (by simp)).resolve_right (by simp [hq.held])
  refine ⟨fun side p h => ?_, hr.wired.absent, hr.wired.chain, fun side p s h => ?_,
    fun side p side' p' s h h' => hr.wired.disjoint h' h, fun s => ?_, fun s => ?_,
    fun id loc h => ?_⟩
  · rw [Ne, hlen]
    exact (hr.present side p).1 h
  · obtain ⟨o, ho, hc⟩ := hr.filed.core_of_mem h
    obtain ⟨o', ho', hu⟩ := hslot s o hc
    obtain ⟨hmaker, hprice⟩ := PriorityBook.mem_queue.1 ho
    obtain ⟨-, hside, hrem⟩ := hr.wf.maker side o hmaker
    rw [← hu] at hside hprice hrem
    exact ⟨o', ho', hside, hprice, hrem⟩
  · rw [hcore]
    constructor
    · intro h
      obtain ⟨o, ho⟩ := Option.isSome_iff_exists.1 h
      exact ⟨_, _, hmem s o ho⟩
    · rintro ⟨side, p, h⟩
      exact hr.wired.occupied h
  · constructor
    · rintro ⟨id, loc, h, rfl⟩
      obtain ⟨o, ho, -⟩ := hr.filed.of_index h
      exact ⟨_, _, hmem _ o ho⟩
    · rintro ⟨side, p, h⟩
      obtain ⟨o, -, ho⟩ := hr.filed.core_of_mem h
      exact ⟨o.id, o.location s, hr.filed.index_eq ho (by simp), rfl⟩
  · obtain ⟨o, ho, hid, hloc, -⟩ := hr.filed.of_index h
    obtain ⟨o', ho', hu⟩ := hslot _ o ho
    have hmem' := hmem _ o ho
    obtain ⟨-, -, hstop⟩ := hr.filed.side_price hmem' ho
    have hside : o.side = loc.side := by rw [← hloc]; rfl
    have hprice : o.price = loc.price := by
      rw [← hloc, Order.location, hstop]
      rfl
    refine ⟨hside ▸ hprice ▸ hmem', o', ho', ?_⟩
    rw [← hu] at hid hside hprice
    exact ⟨hid, hside, hprice⟩

section Runs

variable {symbol : SymbolId} {tick : Price} {log : List Entry}

/-- **Representation.** After every call of a stop-free run the book represents
its resting orders; the next call returns, and indexes no vacant slot. -/
theorem stopFree_represents (h : ReachesStopFree symbol tick log b) :
    (∃ σ, Represents b σ) ∧
      ∀ cmd : Sequenced, cmd.cmd.StopFree →
        (∃ b' events, Applies b cmd b' events) ∧
          ∀ fuel slot, applyWithin fuel b cmd ≠ .error (.vacantSlot slot) := by
  obtain ⟨q, -, ⟨σ, hr⟩, hq⟩ := reaches_refines h
  refine ⟨⟨σ, hr.represents hq⟩, fun cmd hcmd => ?_⟩
  obtain ⟨b', -, happ, -⟩ := apply_refines hr hq hcmd
  exact ⟨⟨b', _, happ⟩, happ.ne_vacantSlot⟩

theorem stopFree_represents_sample : ∃ b : OrderBook (VecSlab Order),
    b.depth 2 = ⟨[(101, 4)], [(103, 6)], some 100⟩ ∧ (∃ σ, Represents b σ) ∧
      ∃ b' events, Applies b ⟨6, 0, .cancel 2 0⟩ b' events := by
  obtain ⟨b, log, hrun, -, hdepth, -⟩ := sampleRun
  obtain ⟨hrep, hnext⟩ := stopFree_represents hrun
  exact ⟨b, hdepth, hrep, (hnext ⟨6, 0, .cancel 2 0⟩ (by decide)).1⟩

/-- **No crossed book.** Every bid is strictly below every ask. -/
theorem stopFree_uncrossed (h : ReachesStopFree symbol tick log b) :
    (∀ bid ask, (b.level? .buy bid).isSome → (b.level? .sell ask).isSome → bid < ask) ∧
      b.checkNoCross = true := by
  obtain ⟨q, -, ⟨σ, hr⟩, -⟩ := reaches_refines h
  have hlt : ∀ bid ask, (b.level? .buy bid).isSome → (b.level? .sell ask).isSome →
      bid < ask := by
    intro bid ask hbid hask
    obtain ⟨x, hx⟩ := List.exists_mem_of_ne_nil _ ((hr.present _ _).1 hbid)
    obtain ⟨y, hy⟩ := List.exists_mem_of_ne_nil _ ((hr.present _ _).1 hask)
    obtain ⟨hx', rfl⟩ := PriorityBook.mem_queue.1 hx
    obtain ⟨hy', rfl⟩ := PriorityBook.mem_queue.1 hy
    have hcross := hr.wf.uncrossed .buy x hx' y hy'
    simp only [Side.withinLimit, decide_eq_false_iff_not] at hcross
    rw [Int64.le_iff_toInt_le] at hcross
    rw [Int64.lt_iff_toInt_lt]
    omega
  refine ⟨hlt, ?_⟩
  have hbest : ∀ side p l, b.best? side = some (p, l) → (b.level? side p).isSome := by
    intro side p l hbest
    have h := (OrderedMap.first?_spec hbest).1
    change ((b.levels side)[p]?).isSome = true
    rw [h]
    rfl
  unfold OrderBook.checkNoCross OrderBook.bestBid OrderBook.bestAsk
  cases hb : b.best? .buy with
  | none => rfl
  | some bid =>
    cases ha : b.best? .sell with
    | none => rfl
    | some ask => exact decide_eq_true (hlt _ _ (hbest _ _ _ hb) (hbest _ _ _ ha))

theorem stopFree_uncrossed_sample : ∃ b : OrderBook (VecSlab Order),
    b.depth 2 = ⟨[(101, 4)], [(103, 6)], some 100⟩ ∧ b.checkNoCross = true := by
  obtain ⟨b, log, hrun, -, hdepth, -⟩ := sampleRun
  exact ⟨b, hdepth, (stopFree_uncrossed hrun).2⟩

end Runs

end Exchange
