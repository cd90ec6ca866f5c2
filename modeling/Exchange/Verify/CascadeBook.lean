import Exchange.Verify.StopFiring
import Exchange.Verify.Representation

/-!
# The book after cascades

Runs of clear commands keep what stop-free runs keep: the levels thread queues through the
arena, the two sides never meet, and the orders of a level stand in the order in which they
were accepted. Besides the queued orders the arena holds the stop orders that wait, outside
every queue.
-/

namespace Exchange

open Links PriorityBook Transition

/-! ## Arrival -/

namespace PriorityBook

variable {q q₁ : PriorityBook} {seq : Seq} {ts : Ts} {es : List OutputEvent} {no : NewOrder}
  {o : Order} {id : OrderId} {pos pos' : OrderId → Nat} {n : Nat}

/-- An order that does not rest changes no place. -/
theorem Ranked.execute_of_ne_limit (hr : Ranked pos n q) (hkind : no.kind ≠ .limit) (seq : Seq)
    (ts : Ts) : Ranked pos n (q.execute no seq ts).1 := by
  have hr' := hr.tradeAll no.side.opposite no.accepts no.qty
  unfold PriorityBook.execute PriorityBook.settle
  dsimp only
  split
  · exact hr'
  · exact hr'

namespace Fires

/-- Market orders that fire change no place. -/
theorem ranked (h : q.Fires seq ts es q₁) (hr : Ranked pos n q) : Ranked pos n q₁ := by
  induction h with
  | refl => exact hr
  | prune _ _ _ ih => exact ⟨ih.order, ih.earlier⟩
  | @fire es q₁ side t p s o _ _ hkind _ _ _ ih =>
    have hreleased : Ranked pos n (q₁.release s) := ⟨ih.order, ih.earlier⟩
    refine hreleased.execute_of_ne_limit ?_ seq ts
    rw [show o.activated.kind = .market from if_pos hkind]
    exact nofun

/-- An order that is accepted when it fires was held. -/
theorem waits_of_accepts (h : q.Fires seq ts es q₁) {e : OutputEvent} (he : e ∈ es)
    (haccepts : e.accepts id = true) : q.Waits id := by
  induction h with
  | refl => cases he
  | prune _ _ _ ih => exact ih he
  | @fire es q₁ side t p s o h hheld _ _ _ _ ih =>
    rcases List.mem_append.1 he with he | he
    · exact ih he
    · rcases List.mem_cons.1 he with rfl | he
      · exact ⟨s, o, h.still hheld, by simpa [OutputEvent.accepts] using haccepts⟩
      · rw [accepts_of_mem_execute he] at haccepts
        cases haccepts

end Fires

/-- An order comes in, at the end of the log. -/
theorem Ranked.enters (hr : Ranked pos n q) (hq : q.StopWF) (h : q.Enters seq ts no q₁ es)
    (hpos : ∀ id, pos' id = if es.any (·.accepts id) then n else pos id) :
    Ranked pos' (n + 1) q₁ := by
  -- no maker is accepted by the command
  have hkept : (∀ side, ∀ x ∈ q.makers side, es.any (·.accepts x.id) = false) →
      Ranked pos' n q := fun hquiet => hr.congr fun side x hx => by
    rw [hpos, hquiet side x hx]
    rfl
  have hfresh : (∀ reason, ¬q.Refuses no reason) → ∀ side, ∀ x ∈ q.makers side, no.id ≠ x.id := by
    intro hno side x hx hid
    obtain ⟨hlive, -⟩ := hq.wf.not_lives.1 (qty_and_not_lives_of_not_refuses hno).2
    exact hq.wf.live?_eq_none.1 hlive side x hx hid.symm
  cases h with
  | rejected => exact (hkept fun _ _ _ => rfl).mono (Nat.le_succ n)
  | held hno =>
    have hr' := hkept fun side x hx => by simpa [OutputEvent.accepts] using hfresh hno side x hx
    exact ⟨hr'.order, fun side x hx => Nat.lt_succ_of_lt (hr'.earlier side x hx)⟩
  | killed hno =>
    have hr' := hkept fun side x hx => by simpa [OutputEvent.accepts] using hfresh hno side x hx
    exact hr'.mono (Nat.le_succ n)
  | @executed _ es hno hstop hfok hfires =>
    have hr' : Ranked pos' n q := by
      refine hkept fun side x hx => List.any_eq_false.2 fun e he => ?_
      rw [Bool.not_eq_true]
      rcases List.mem_append.1 he with he | he
      · rcases List.mem_cons.1 he with rfl | he
        · simpa [OutputEvent.accepts] using hfresh hno side x hx
        · exact accepts_of_mem_execute he
      · refine Bool.eq_false_iff.2 fun haccepts => ?_
        obtain ⟨s, o, ho, hid⟩ := hfires.waits_of_accepts he haccepts
        rw [held_execute] at ho
        exact hq.wf.live?_eq_none.1 (hq.fresh s o ho) side x hx hid.symm
    refine hfires.ranked (hr'.execute hq.wf ?_ seq ts)
    rw [hpos, if_pos]
    simp [OutputEvent.accepts]

theorem Ranked.takesOut (hr : Ranked pos n q) (h : q.TakesOut id o q₁) : Ranked pos n q₁ := by
  cases h with
  | maker => exact hr.drop o
  | held => exact ⟨hr.order, hr.earlier⟩

end PriorityBook

/-- **The ranking step.** -/
theorem StopStep.ranked {q q₁ : PriorityBook} {e : Entry} {pos pos' : OrderId → Nat} {n : Nat}
    (h : StopStep q e q₁) (hq : q.StopWF) (hr : Ranked pos n q)
    (hpos : ∀ id, pos' id = if e.2.any (·.accepts id) then n else pos id) :
    Ranked pos' (n + 1) q₁ := by
  have hquiet : (∀ id, e.2.any (·.accepts id) = false) → ∀ {q}, Ranked pos n q →
      Ranked pos' (n + 1) q := fun hnone q hr =>
    (hr.congr fun _ x _ => by rw [hpos, hnone]; rfl).mono (Nat.le_succ n)
  cases h with
  | new h => exact hr.enters hq h hpos
  | cancelUnknown => exact hquiet (fun _ => rfl) hr
  | cancel h => exact hquiet (fun _ => rfl) (hr.takesOut h)
  | replaceZero => exact hquiet (fun _ => rfl) hr
  | replaceUnknown => exact hquiet (fun _ => rfl) hr
  | @replace seq ts id newPrice newQty symbol o q₂ q₁ es hqty h henters =>
    exact (hr.takesOut h).enters (h.stopWF hq) henters hpos

/-- The makers of a run stand in the order of price and acceptance. -/
theorem ranked_stopRun {symbol : SymbolId} {tick : Price} {log : List Entry} {q : PriorityBook}
    (h : Run StopStep (PriorityBook.new symbol tick) log q) :
    q.StopWF ∧ Ranked (arrival log) (log.length + 1) q := by
  refine Run.invariant (I := fun log q => q.StopWF ∧ Ranked (arrival log) (log.length + 1) q)
    ⟨.new symbol tick, fun _ => List.Pairwise.nil, fun _ _ => nofun⟩ ?_ h
  rintro log q e q' - ⟨hq, hr⟩ hstep
  have hr' := hstep.ranked hq hr (arrival_snoc log e)
  rw [List.length_append, List.length_singleton]
  exact ⟨hstep.stopWF hq, hr'⟩

/-! ## Representation -/

variable {A : Type} [Slab A Order] {b : OrderBook A} {q : PriorityBook} {log : List Entry}
  {side : Side} {p : Price}

/-- A relation of the values is one of the keys they belong to. -/
theorem forall₂_pairwise {α β : Type} {R : α → β → Prop} {P : β → β → Prop} {S : α → α → Prop}
    {l : List α} {u : List β} (h : List.Forall₂ R l u) (hP : u.Pairwise P)
    (hS : ∀ {a a' b b'}, R a b → R a' b' → P b b' → S a a') : l.Pairwise S := by
  induction h with
  | nil => exact .nil
  | @cons a b l u hab hlu ih =>
    obtain ⟨hfirst, htail⟩ := List.pairwise_cons.1 hP
    refine List.pairwise_cons.2 ⟨fun a' ha' => ?_, ih htail⟩
    obtain ⟨b', hb', hab'⟩ := forall₂_mem_left hlu ha'
    exact hS hab hab' (hfirst b' hb')

/-- The levels thread the queues `σ` through the links, and every other order of the arena
is a stop order without links; the index names all of them, by their own ids, sides and
prices, and `pos` orders each queue. -/
structure RepresentsHeld (pos : OrderId → Nat) (b : OrderBook A) (σ : Queues Nat) : Prop where
  /-- A stored level has orders. -/
  nonempty : ∀ side p, (b.level? side p).isSome ↔ σ side p ≠ []
  /-- From head to tail along `next`, backwards along `prev`, without repetition. -/
  chain : ∀ side p l, b.level? side p = some l →
    Chain (fun s => (b.slot? s).map fun o => (o.prev, o.next)) l.head l.tail (σ side p)
  queued : ∀ side p, ∀ s ∈ σ side p,
    ∃ o, b.slot? s = some o ∧ o.kind = .limit ∧ o.side = side ∧ o.price = p ∧ o.remaining ≠ 0
  arranged : ∀ side p, (σ side p).Pairwise fun s s' => ∀ o o', b.slot? s = some o →
    b.slot? s' = some o' → pos o.id < pos o'.id
  disjoint : ∀ side p side' p' s, s ∈ σ side p → s ∈ σ side' p' → side = side' ∧ p = p'
  loose : ∀ s o, b.slot? s = some o → (∀ side p, s ∉ σ side p) →
    o.kind.isStop = true ∧ o.remaining ≠ 0 ∧ o.prev = none ∧ o.next = none
  indexed : ∀ (id : OrderId) loc, b.idIndex[id]? = some loc ↔
    ∃ o, b.slot? loc.slot = some o ∧ o.id = id ∧ o.location loc.slot = loc
  occupied : ∀ s, (b.slot? s).isSome →
    ∃ (id : OrderId) (loc : Location), b.idIndex[id]? = some loc ∧ loc.slot = s

/-- The best prices do not cross. -/
theorem Refines.uncrossed {σ : Queues Nat} (hr : Refines b σ none q) (bid ask : Price)
    (hbid : (b.level? .buy bid).isSome) (hask : (b.level? .sell ask).isSome) : bid < ask := by
  obtain ⟨x, hx⟩ := List.exists_mem_of_ne_nil _ ((hr.present _ _).1 hbid)
  obtain ⟨y, hy⟩ := List.exists_mem_of_ne_nil _ ((hr.present _ _).1 hask)
  obtain ⟨hx', rfl⟩ := mem_queue.1 hx
  obtain ⟨hy', rfl⟩ := mem_queue.1 hy
  have hcross := hr.wf.uncrossed .buy x hx' y hy'
  simp only [Side.withinLimit, decide_eq_false_iff_not] at hcross
  rw [Int64.le_iff_toInt_le] at hcross
  rw [Int64.lt_iff_toInt_lt]
  omega

theorem Refines.representsHeld {σ : Queues Nat} {pos : OrderId → Nat} {n : Nat}
    (hr : Refines b σ none q) (hq : q.StopWF) (hrank : Ranked pos n q) :
    RepresentsHeld pos b σ := by
  have hm : Models b q := ⟨σ, hr⟩
  have hlen : ∀ side p, σ side p = [] ↔ q.queue side p = [] := fun side p => by
    rw [← List.length_eq_zero_iff, (hr.filed.queued side p).length_eq, List.length_eq_zero_iff]
  have hslot : ∀ {s x}, b.slot? s = some x → coreOf b.arena s = some x.unlinked :=
    fun h => congrArg (·.map Order.unlinked) h
  refine ⟨fun side p => ?_, hr.wired.chain, fun side p s hs => ?_, fun side p => ?_,
    fun side p side' p' s h h' => hr.wired.disjoint h' h, fun s x hx hout => ?_,
    fun id loc => ?_, fun s hs => ?_⟩
  · rw [hr.present, Ne, Ne, hlen]
  · obtain ⟨o, ho, hcore⟩ := hr.filed.core_of_mem hs
    obtain ⟨x, hx, rfl⟩ := get?_of_core hcore
    obtain ⟨hmaker, hprice⟩ := mem_queue.1 ho
    obtain ⟨hkind, hside, hrem⟩ := hr.wf.maker side _ hmaker
    exact ⟨x, hx, hkind, hside, hprice, hrem⟩
  · have hordered : (q.queue side p).Pairwise fun o o' => pos o.id < pos o'.id := by
      have hsub : (q.queue side p).Pairwise (Precedes pos side) := (hrank.order side).filter _
      refine hsub.imp_of_mem fun {o o'} ho ho' h => ?_
      rcases h with hlt | ⟨-, hlt⟩
      · rw [(mem_queue.1 ho).2, (mem_queue.1 ho').2] at hlt
        exact absurd hlt (Int.lt_irrefl _)
      · exact hlt
    refine forall₂_pairwise (hr.filed.queued side p) hordered fun {s s' o o'} hs hs' hlt => ?_
    intro x x' hx hx'
    rw [hslot hx] at hs
    rw [hslot hx'] at hs'
    cases hs
    cases hs'
    exact hlt
  · rcases (hr.filed.covered s _ (hslot hx)).resolve_left nofun with hσ | hheld
    · exact absurd hσ (hout _ _)
    · have hsame := hm.slot?_of_held hheld
      rw [hx] at hsame
      have hlinks : x = x.unlinked := Option.some.inj hsame
      refine ⟨(hm.held_iff.1 hheld).2, hq.wants s x.unlinked hheld, ?_, ?_⟩
      · rw [hlinks]
        rfl
      · rw [hlinks]
        rfl
  · rw [hr.filed.index_iff]
    constructor
    · rintro ⟨o, hcore, -, hid, hloc⟩
      obtain ⟨x, hx, rfl⟩ := get?_of_core hcore
      exact ⟨x, hx, hid, hloc⟩
    · rintro ⟨x, hx, hid, hloc⟩
      exact ⟨x.unlinked, hslot hx, nofun, hid, hloc⟩
  · obtain ⟨x, hx⟩ := Option.isSome_iff_exists.1 hs
    exact ⟨x.id, _, hr.filed.index_eq (o := x.unlinked) (hslot hx) nofun, rfl⟩

/-- **The book after cascades.** After a run of clear commands, whatever they triggered,
the book represents its orders, each queue in the order of acceptance, and does not cross. -/
theorem reachesClear_represents [LifoSlab A Order] {symbol : SymbolId} {tick : Price}
    (h : ReachesClear symbol tick log b) :
    (∃ σ, RepresentsHeld (arrival log) b σ) ∧
      ∀ bid ask, (b.level? .buy bid).isSome → (b.level? .sell ask).isSome → bid < ask := by
  obtain ⟨q, hrun, ⟨σ, hr⟩, -⟩ := reachesClear_stopRun h
  obtain ⟨hq, hrank⟩ := ranked_stopRun hrun
  exact ⟨⟨σ, hr.representsHeld hq hrank⟩, hr.uncrossed⟩

theorem reachesClear_represents_sample : ∃ (b : OrderBook (VecSlab Order)) (log : List Entry),
    log.map Prod.fst = cascadeCommands ∧ b.depth 2 = ⟨[], [(100, 1)], some 100⟩ ∧
      b.idIndex.contains 2 = true ∧ (∃ σ, RepresentsHeld (arrival log) b σ) ∧
      ∀ bid ask, (b.level? .buy bid).isSome → (b.level? .sell ask).isSome → bid < ask := by
  obtain ⟨b, log, hrun, hlog, -, hdepth, -, hid⟩ := cascadeRun
  obtain ⟨hrep, hcross⟩ := reachesClear_represents hrun
  exact ⟨b, log, hlog, hdepth, hid, hrep, hcross⟩

end Exchange
