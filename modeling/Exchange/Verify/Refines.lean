import Exchange.Verify.Filed
import Exchange.Verify.Sweep

/-!
# The order book refines the priority book

`Refines b σ hidden q`: the levels of `b` thread the queues of `q`, the arena and
the id index hold exactly the orders of `q`, and the cached totals, the stop maps
and the last trade are those of `q`. During a match the taker is in the arena
but not in `q`: it is the hidden slot.
-/

namespace Exchange

open Links

variable {A : Type} [Slab A Order]

namespace Side

theorem keyOrder_lt {side : Side} {p p' : Price} :
    side.keyOrder p p' = .lt ↔ side.rank p < side.rank p' := by
  cases side
  · change compareOfLessAndEq p' p = .lt ↔ _
    rw [compareOfLessAndEq_eq_lt, Int64.lt_iff_toInt_lt]
    simp [rank]
  · change compareOfLessAndEq p p' = .lt ↔ _
    rw [compareOfLessAndEq_eq_lt, Int64.lt_iff_toInt_lt]
    rfl

end Side

/-- The totals a level caches. -/
def PriceLevel.tally (l : PriceLevel) : Tally := ⟨l.totalQty, l.count⟩

structure Refines (b : OrderBook A) (σ : Queues Nat) (hidden : Option Nat) (q : PriorityBook) :
    Prop where
  wired : Wired b σ
  filed : Filed (coreOf b.arena) (fun id => b.idIndex[id]?) σ q.queue q.held hidden
  loose_links : ∀ s o, q.held s = some o → linksOf b.arena s = some (none, none)
  present : ∀ side p, (b.level? side p).isSome = true ↔ q.queue side p ≠ []
  tally : ∀ side p l, b.level? side p = some l → q.tally side p = l.tally
  wf : q.WF
  symbol : b.symbol = q.symbol
  tick : b.tick = q.tick
  stopBuys : b.stopBuys = q.stopBuys
  stopSells : b.stopSells = q.stopSells
  lastTrade : b.lastTrade = q.lastTrade

namespace PriorityBook

/-- Replacing a list replaces one queue. -/
theorem queue_put {q : PriorityBook} {side : Side} {p : Price} {ms : List Order} {tally : Tally}
    (hms : ∀ p', p' ≠ p → ms.filter (fun o => o.price = p') = q.queue side p') :
    (q.put side p ms tally).queue =
      Queues.set q.queue side p (ms.filter fun o => o.price = p) := by
  funext side' p'
  by_cases h : side' = side ∧ p' = p
  · obtain ⟨rfl, rfl⟩ := h
    rw [queue_put_self, Queues.set_self]
  · rw [queue_put_of_ne h hms, Queues.set_of_ne h]

end PriorityBook

namespace Refines

variable {b : OrderBook A} {σ : Queues Nat} {hidden : Option Nat} {q : PriorityBook}
  {side : Side} {p : Price} {m o : Order} {ms : List Order}

theorem new (symbol : SymbolId) (tick : Price) :
    Refines (OrderBook.new symbol tick : OrderBook A) (fun _ _ => []) none
      (PriorityBook.new symbol tick) := by
  have hlevel : ∀ side p, (OrderBook.new symbol tick : OrderBook A).level? side p = none := by
    intro side p
    cases side <;> simp [OrderBook.level?, OrderBook.levels, OrderBook.new]
  have hcore : ∀ s, coreOf (OrderBook.new symbol tick : OrderBook A).arena s = none := by
    simp [coreOf, OrderBook.new, Slab.get?_new]
  have hqueue : ∀ side p, (PriorityBook.new symbol tick).queue side p = [] := fun _ _ => rfl
  have hheld : ∀ s o, ¬(PriorityBook.new symbol tick).held s = some o := fun s o h => by
    have h' : (none : Option Order) = some o := h
    cases h'
  refine ⟨⟨fun _ _ _ => rfl, fun side p l h => ?_, fun _ _ s h => ?_⟩,
    ⟨fun side p => ?_, fun _ _ => List.nodup_nil, fun side p o h => ?_,
      fun s o h => absurd h (hheld s o), fun s o h => ?_, fun s h => ?_, fun id loc => ?_⟩,
    fun s o h => absurd h (hheld s o), fun side p => ?_, fun side p l h => ?_, .new symbol tick,
    rfl, rfl, rfl, rfl, rfl⟩
  · rw [hlevel] at h
    cases h
  · cases h
  · rw [hqueue]
    exact .nil
  · rw [hqueue] at h
    cases h
  · rw [hcore] at h
    cases h
  · cases h
  · have hindex : (OrderBook.new symbol tick : OrderBook A).idIndex[id]? = none := by
      simp [OrderBook.new]
    rw [hindex]
    constructor
    · rintro ⟨⟩
    · rintro ⟨o, ho, -⟩
      rw [hcore] at ho
      cases ho
  · rw [hlevel, hqueue]
    simp
  · rw [hlevel] at h
    cases h

/-- Where there is no level, nothing is queued or cached. -/
theorem bare_of_none (hr : Refines b σ hidden q) {p : Price} (hl : b.level? side p = none) :
    q.queue side p = [] ∧ q.tally side p = .none := by
  have hnil : q.queue side p = [] := by
    by_contra hne
    have hsome := (hr.present side p).2 hne
    rw [hl] at hsome
    cases hsome
  exact ⟨hnil, hr.wf.bare side p hnil⟩

/-! ## Reading the best level -/

/-- The level of the first maker is the best one. -/
theorem best?_of_cons (hr : Refines b σ hidden q) (hm : q.makers side = m :: ms) :
    ∃ l, b.best? side = some (m.price, l) ∧ b.level? side m.price = some l := by
  have hq : q.queue side m.price ≠ [] := by
    rw [PriorityBook.queue_of_makers_cons hm]
    exact List.cons_ne_nil _ _
  obtain ⟨l, hl⟩ := Option.isSome_iff_exists.1 ((hr.present side m.price).2 hq)
  refine ⟨l, OrderedMap.first?_eq_some hl fun p' l' hl' => ?_, hl⟩
  have hq' : q.queue side p' ≠ [] :=
    (hr.present side p').1 (by rw [show b.level? side p' = some l' from hl']; rfl)
  obtain ⟨o, ho⟩ := List.exists_mem_of_ne_nil _ hq'
  obtain ⟨hmem, rfl⟩ := PriorityBook.mem_queue.1 ho
  have hord := hr.wf.ordered side
  rw [hm] at hord hmem
  have hle : side.rank m.price ≤ side.rank o.price := by
    rcases List.mem_cons.1 hmem with rfl | hmem
    · exact le_refl _
    · exact (List.pairwise_cons.1 hord).1 o hmem
  rcases Int.lt_or_eq_of_le hle with hlt | heq
  · exact .inr (Side.keyOrder_lt.2 hlt)
  · exact .inl (Side.rank_inj heq).symm

theorem best?_of_nil (hr : Refines b σ hidden q) (hm : q.makers side = []) :
    b.best? side = none := by
  refine OrderedMap.first?_eq_none_iff.2 fun p' => ?_
  have hq : q.queue side p' = [] := by rw [PriorityBook.queue, hm, List.filter_nil]
  cases hl : b.level? side p' with
  | none => exact hl
  | some l =>
    have := (hr.present side p').1 (by rw [hl]; rfl)
    exact absurd hq this

/-- The head of the best queue is the first maker. -/
theorem head_slot (hr : Refines b σ hidden q) (hm : q.makers side = m :: ms) :
    ∃ s qs, σ side m.price = s :: qs ∧ coreOf b.arena s = some m := by
  have h := hr.filed.queued side m.price
  rw [PriorityBook.queue_of_makers_cons hm] at h
  obtain ⟨s, qs, hs, -, hσ⟩ := List.forall₂_cons_right_iff.1 h
  exact ⟨s, qs, hσ, hs⟩

/-! ## Putting a level

The levels after an update of one level, against the book after the
corresponding update of one list. -/

theorem present_put (hr : Refines b σ hidden q) {b' : OrderBook A} {tally : Tally}
    {L : Option PriceLevel}
    (hlevel : ∀ side' p', b'.level? side' p' =
      if side' = side ∧ p' = p then L else b.level? side' p')
    (hms : ∀ p', p' ≠ p → ms.filter (fun o => o.price = p') = q.queue side p')
    (hnone : L = none → ms.filter (fun o => o.price = p) = [])
    (hsome : ∀ l, L = some l → ms.filter (fun o => o.price = p) ≠ [] ∧ tally = l.tally) :
    (∀ side' p', (b'.level? side' p').isSome = true ↔
        (q.put side p ms tally).queue side' p' ≠ []) ∧
      ∀ side' p' l, b'.level? side' p' = some l →
        (q.put side p ms tally).tally side' p' = l.tally := by
  refine ⟨fun side' p' => ?_, fun side' p' l h => ?_⟩
  · rw [hlevel, PriorityBook.queue_put hms]
    by_cases h : side' = side ∧ p' = p
    · obtain ⟨rfl, rfl⟩ := h
      rw [if_pos ⟨rfl, rfl⟩, Queues.set_self]
      cases hL : L with
      | none => simp [hnone hL]
      | some l => simp [(hsome l hL).1]
    · rw [if_neg h, Queues.set_of_ne h]
      exact hr.present side' p'
  · rw [hlevel] at h
    by_cases hsp : side' = side ∧ p' = p
    · obtain ⟨rfl, rfl⟩ := hsp
      rw [if_pos ⟨rfl, rfl⟩] at h
      obtain ⟨hne, ht⟩ := hsome l h
      simp [PriorityBook.put, hne, ht]
    · rw [if_neg hsp] at h
      simp only [PriorityBook.put, hsp, if_false]
      exact hr.tally side' p' l h

/-- The book after an update of one level refines the book after the
corresponding update of one list. -/
theorem put (hr : Refines b σ hidden q) {b' : OrderBook A} {σ' : Queues Nat}
    {hidden' : Option Nat} {tally : Tally} {L : Option PriceLevel} (hw : Wired b' σ')
    (hf : Filed (coreOf b'.arena) (fun id => b'.idIndex[id]?) σ'
      (Queues.set q.queue side p (ms.filter fun o => o.price = p)) q.held hidden')
    (hlinks : ∀ s o, q.held s = some o → linksOf b'.arena s = linksOf b.arena s)
    (hlevel : ∀ side' p', b'.level? side' p' =
      if side' = side ∧ p' = p then L else b.level? side' p')
    (hms : ∀ p', p' ≠ p → ms.filter (fun o => o.price = p') = q.queue side p')
    (hnone : L = none → ms.filter (fun o => o.price = p) = [])
    (hsome : ∀ l, L = some l → ms.filter (fun o => o.price = p) ≠ [] ∧ tally = l.tally)
    (hwf : (q.put side p ms tally).WF)
    (hhead : b'.symbol = b.symbol ∧ b'.tick = b.tick ∧ b'.stopBuys = b.stopBuys ∧
      b'.stopSells = b.stopSells) :
    Refines b' σ' hidden' { q.put side p ms tally with lastTrade := b'.lastTrade } := by
  obtain ⟨hpresent, htally⟩ := hr.present_put hlevel hms hnone hsome
  obtain ⟨hsymbol, htick, hbuys, hsells⟩ := hhead
  refine ⟨hw, ?_, fun s o h => ?_, hpresent, htally, hwf.withLastTrade _,
    hsymbol.trans hr.symbol, htick.trans hr.tick, hbuys.trans hr.stopBuys,
    hsells.trans hr.stopSells, rfl⟩
  · have hqueue : (q.put side p ms tally).queue = _ := PriorityBook.queue_put hms
    rw [← hqueue] at hf
    exact hf
  · rw [hlinks s o h]
    exact hr.loose_links s o h

/-- The same when no trade took place. -/
theorem put_of_lastTrade (hr : Refines b σ hidden q) {b' : OrderBook A} {σ' : Queues Nat}
    {hidden' : Option Nat} {tally : Tally} {L : Option PriceLevel} (hw : Wired b' σ')
    (hf : Filed (coreOf b'.arena) (fun id => b'.idIndex[id]?) σ'
      (Queues.set q.queue side p (ms.filter fun o => o.price = p)) q.held hidden')
    (hlinks : ∀ s o, q.held s = some o → linksOf b'.arena s = linksOf b.arena s)
    (hlevel : ∀ side' p', b'.level? side' p' =
      if side' = side ∧ p' = p then L else b.level? side' p')
    (hms : ∀ p', p' ≠ p → ms.filter (fun o => o.price = p') = q.queue side p')
    (hnone : L = none → ms.filter (fun o => o.price = p) = [])
    (hsome : ∀ l, L = some l → ms.filter (fun o => o.price = p) ≠ [] ∧ tally = l.tally)
    (hwf : (q.put side p ms tally).WF)
    (hhead : b'.symbol = b.symbol ∧ b'.tick = b.tick ∧ b'.stopBuys = b.stopBuys ∧
      b'.stopSells = b.stopSells ∧ b'.lastTrade = b.lastTrade) :
    Refines b' σ' hidden' (q.put side p ms tally) := by
  obtain ⟨hsymbol, htick, hbuys, hsells, hlast⟩ := hhead
  have h := hr.put hw hf hlinks hlevel hms hnone hsome hwf ⟨hsymbol, htick, hbuys, hsells⟩
  rw [hlast, hr.lastTrade] at h
  exact h

/-! ## The taker -/

/-- A sequenced order enters the arena. -/
theorem enter (hr : Refines b σ none q) (o : Order) :
    Refines (b.setArena (Slab.insert b.arena o)) σ (some (Slab.vacantKey b.arena)) q := by
  have hvac : coreOf b.arena (Slab.vacantKey b.arena) = none := coreOf_vacantKey
  have hσ : ∀ side p, ∀ s ∈ σ side p, s ≠ Slab.vacantKey b.arena := by
    rintro side p s hs rfl
    obtain ⟨o', -, ho'⟩ := hr.filed.core_of_mem hs
    rw [hvac] at ho'
    cases ho'
  refine ⟨hr.wired.congr (fun _ _ => OrderBook.level?_setArena ..) (fun side p s hs => ?_)
    (fun side p s hs => ?_), ?_, fun s o' h => ?_, fun side p => ?_, fun side p l h => ?_, hr.wf,
    hr.symbol, hr.tick, hr.stopBuys, hr.stopSells, hr.lastTrade⟩
  · rw [OrderBook.arena_setArena, linksOf_insert, Function.update_of_ne (hσ side p s hs)]
  · rw [OrderBook.arena_setArena, coreOf_insert, Function.update_of_ne (hσ side p s hs)]
  · rw [OrderBook.arena_setArena, coreOf_insert]
    exact hr.filed.enter hvac
  · have hne : s ≠ Slab.vacantKey b.arena := by
      rintro rfl
      rw [(hr.filed.held_core _ _ h).1] at hvac
      cases hvac
    rw [OrderBook.arena_setArena, linksOf_insert, Function.update_of_ne hne]
    exact hr.loose_links s o' h
  · rw [OrderBook.level?_setArena]
    exact hr.present side p
  · rw [OrderBook.level?_setArena] at h
    exact hr.tally side p l h

/-- The taker leaves the arena. -/
theorem leave {s : Nat} (hr : Refines b σ (some s) q) (hs : (Slab.get? b.arena s).isSome) :
    Refines (b.setArena (Slab.remove b.arena s)) σ none q := by
  obtain ⟨hσ, hheld⟩ := hr.filed.loose s rfl
  refine ⟨hr.wired.congr (fun _ _ => OrderBook.level?_setArena ..) (fun side p r hr' => ?_)
    (fun side p r hr' => ?_), ?_, fun r o' h => ?_, fun side p => ?_, fun side p l h => ?_, hr.wf,
    hr.symbol, hr.tick, hr.stopBuys, hr.stopSells, hr.lastTrade⟩
  · rw [OrderBook.arena_setArena, linksOf_remove hs,
      Function.update_of_ne (ne_of_mem_of_not_mem hr' (hσ side p))]
  · rw [OrderBook.arena_setArena, coreOf_remove hs,
      Function.update_of_ne (ne_of_mem_of_not_mem hr' (hσ side p))]
  · rw [OrderBook.arena_setArena, coreOf_remove hs]
    exact hr.filed.leave
  · have hne : r ≠ s := by
      rintro rfl
      rw [hheld] at h
      cases h
    rw [OrderBook.arena_setArena, linksOf_remove hs, Function.update_of_ne hne]
    exact hr.loose_links r o' h
  · rw [OrderBook.level?_setArena]
    exact hr.present side p
  · rw [OrderBook.level?_setArena] at h
    exact hr.tally side p l h

end Refines

end Exchange
