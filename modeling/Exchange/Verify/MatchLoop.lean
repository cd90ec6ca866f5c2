import Exchange.Verify.Refines

/-!
# The match loop sweeps the opposite side

One iteration of the loop is one trade of the priority book, whether the maker
is filled or put back in front of its level; the loop is the sweep.
-/

namespace Exchange

open Links PriorityBook

variable {A : Type} [Slab A Order] {b : OrderBook A} {σ : Queues Nat} {q : PriorityBook}
  {t : Aggressor} {m o : Order} {ms : List Order}

/-- The write of a trade to one of its two orders. -/
theorem modifyOrder_fill {s : Nat} (h : coreOf b.arena s = some o) (qty : Qty) :
    ∃ a, (b.modifyOrder s fun o => { o with remaining := o.remaining - qty }) =
        .ok (b.setArena a) ∧
      coreOf a = Function.update (coreOf b.arena) s
        (some { o with remaining := o.remaining - qty }) ∧
      linksOf a = linksOf b.arena :=
  modifyOrder_core h (fun o => { o with remaining := o.remaining - qty })
    (fun _ => ⟨rfl, rfl⟩) fun _ => rfl

omit [Slab A Order] in
/-- Dropping a level that is empty. -/
theorem level?_removeEmpty {side side' : Side} {p p' : Price} {l : PriceLevel}
    (hl : b.level? side p = some l) :
    (b.removeEmpty side p).level? side' p' =
      if side' = side ∧ p' = p then if l.isEmpty then none else some l
      else b.level? side' p' := by
  unfold OrderBook.removeEmpty
  rw [hl, Option.any_some]
  by_cases h : side' = side ∧ p' = p
  · obtain ⟨rfl, rfl⟩ := h
    split
    · simp [OrderBook.level?_eraseLevel]
    · simp [hl]
  · split
    · simp [OrderBook.level?_eraseLevel, h]
    · rfl

omit [Slab A Order] in
theorem removeEmpty_frame (b : OrderBook A) (side : Side) (p : Price) :
    (b.removeEmpty side p).arena = b.arena ∧ (b.removeEmpty side p).idIndex = b.idIndex ∧
      (b.removeEmpty side p).symbol = b.symbol ∧ (b.removeEmpty side p).tick = b.tick ∧
      (b.removeEmpty side p).stopBuys = b.stopBuys ∧
      (b.removeEmpty side p).stopSells = b.stopSells ∧
      (b.removeEmpty side p).lastTrade = b.lastTrade := by
  unfold OrderBook.removeEmpty
  split
  · exact ⟨rfl, rfl, rfl, rfl, rfl, rfl, rfl⟩
  · exact ⟨rfl, rfl, rfl, rfl, rfl, rfl, rfl⟩

theorem Wired.removeEmpty (hw : Wired b σ) (side : Side) (p : Price) :
    Wired (b.removeEmpty side p) σ := by
  unfold OrderBook.removeEmpty
  cases hl : b.level? side p with
  | none => exact hw
  | some l =>
    rw [Option.any_some]
    split
    · next h => exact hw.erase ((hw.isEmpty_iff hl).1 h)
    · exact hw

section Trade

variable {side : Side} {s : Nat} {qs : List Nat} {l l₁ : PriceLevel} {a₁ a : A} {n : Qty}

/-- What the pop of the maker and the writes of a trade leave to be finished. -/
structure Popped (b : OrderBook A) (σ : Queues Nat) (taker : Nat) (q : PriorityBook)
    (side : Side) (m : Order) (ms : List Order) (s : Nat) (qs : List Nat) (l l₁ : PriceLevel)
    (a₁ : A) : Prop where
  refines : Refines b σ (some taker) q
  makers : q.makers side = m :: ms
  queue : σ side m.price = s :: qs
  core : coreOf b.arena s = some m
  level : b.level? side m.price = some l
  totalQty : l₁.totalQty = l.totalQty.satSub m.remaining
  count : l₁.count = l.count
  core_eq : coreOf a₁ = coreOf b.arena
  frame : ∀ r, r ∉ σ side m.price → linksOf a₁ r = linksOf b.arena r
  wired : Wired ((b.putLevel side m.price l₁).setArena a₁) (σ.set side m.price qs)

/-- The slots still queued are neither the maker's nor the taker's. -/
theorem Popped.queued_ne {taker : Nat} (hp : Popped b σ taker q side m ms s qs l l₁ a₁) :
    ∀ side' p', ∀ r ∈ (σ.set side m.price qs) side' p', r ≠ s ∧ r ≠ taker := by
  intro side' p' r hr
  have hnd := hp.refines.filed.nodup side m.price
  have htaker := (hp.refines.filed.loose taker rfl).1
  rw [hp.queue] at hnd
  by_cases h : side' = side ∧ p' = m.price
  · obtain ⟨rfl, rfl⟩ := h
    rw [Queues.set_self] at hr
    refine ⟨ne_of_mem_of_not_mem hr (List.nodup_cons.1 hnd).1, ?_⟩
    exact ne_of_mem_of_not_mem (hp.queue ▸ List.mem_cons_of_mem s hr) (htaker side' m.price)
  · rw [Queues.set_of_ne h] at hr
    refine ⟨?_, ne_of_mem_of_not_mem hr (htaker side' p')⟩
    rintro rfl
    exact h (hp.refines.wired.disjoint (hp.queue ▸ List.mem_cons_self) hr)

/-- A maker that is filled leaves the book. -/
theorem Popped.filled {taker : Nat} (hp : Popped b σ taker q side m ms s qs l l₁ a₁)
    (hleft : m.remaining - n = 0)
    (hcore : coreOf a =
      Function.update (Function.update (coreOf b.arena) taker (some o)) s none)
    (hlinks : linksOf a = Function.update (linksOf a₁) s none) :
    Refines (((((b.putLevel side m.price l₁).setArena a).setLastTrade m.price).setIndex
      (b.idIndex.erase m.id)).removeEmpty side m.price) (σ.set side m.price qs) (some taker)
      (q.trade side m n) := by
  have hqueued := hp.queued_ne
  obtain ⟨hr, hm, hσ, hs, hl, htot, hcount, hcore₁, hframe, hw⟩ := hp
  generalize hb₄ : (((b.putLevel side m.price l₁).setArena a).setLastTrade m.price).setIndex
    (b.idIndex.erase m.id) = b₄
  have hlevel₄ : ∀ side' p', b₄.level? side' p' =
      if side' = side ∧ p' = m.price then some l₁ else b.level? side' p' := by
    intro side' p'
    rw [← hb₄]
    simp [OrderBook.level?_putLevel]
  have harena : b₄.arena = a := by rw [← hb₄]; rfl
  have hl₄ : b₄.level? side m.price = some l₁ := by simp [hlevel₄]
  have hsmem : s ∈ σ side m.price := by rw [hσ]; exact List.mem_cons_self
  have hw₄ : Wired b₄ (σ.set side m.price qs) := by
    refine hw.congr (fun side' p' => ?_) (fun side' p' r hr' => ?_) fun side' p' r hr' => ?_
    · rw [hlevel₄, OrderBook.level?_setArena, OrderBook.level?_putLevel]
    · rw [harena, hlinks, Function.update_of_ne (hqueued _ _ r hr').1]
      rfl
    · rw [harena, hcore, Function.update_of_ne (hqueued _ _ r hr').1,
        Function.update_of_ne (hqueued _ _ r hr').2]
      exact (congrFun hcore₁ r).symm
  have hempty := hw₄.isEmpty_iff hl₄
  rw [Queues.set_self] at hempty
  have hqs : qs = [] ↔ (ms.filter fun o => o.price = m.price) = [] := by
    have hrel := hr.filed.queued side m.price
    rw [hσ, queue_of_makers_cons hm] at hrel
    have hlen := (List.forall₂_cons.1 hrel).2.length_eq
    rw [← List.length_eq_zero_iff, ← List.length_eq_zero_iff, hlen]
  obtain ⟨h₁, h₂, h₃, h₄, h₅, h₆, h₇⟩ := removeEmpty_frame b₄ side m.price
  have hlast : (b₄.removeEmpty side m.price).lastTrade = some m.price := by rw [h₇, ← hb₄]; rfl
  have hwf := hr.wf.trade hm n
  have htrade := trade_of_eq hm hleft
  rw [htrade] at hwf ⊢
  rw [← hlast]
  refine hr.put (L := if l₁.isEmpty then none else some l₁) (hw₄.removeEmpty side m.price)
    ?_ (fun r o' hr' => ?_) (fun side' p' => ?_)
    (fun p' hp' => (queue_of_makers_cons_ne hm hp').symm) (fun h => ?_) (fun l' h => ?_) ?_ ?_
  · rw [h₁, h₂, harena, hcore, ← hb₄]
    change Filed _ (fun id => (b.idIndex.erase m.id)[id]?) _ _ _ _
    rw [OrderedMap.lookup_erase]
    exact hr.filed.touch.remove_head hσ (queue_of_makers_cons hm)
  · have hrs : r ≠ s := by
      rintro rfl
      rw [hr.filed.not_held hsmem] at hr'
      cases hr'
    have hrσ : r ∉ σ side m.price := fun h => by
      rw [hr.filed.not_held h] at hr'
      cases hr'
    rw [h₁, harena, hlinks, Function.update_of_ne hrs, hframe r hrσ]
  · rw [level?_removeEmpty hl₄]
    split
    · rfl
    · next h => rw [hlevel₄, if_neg h]
  · by_cases he : l₁.isEmpty = true
    · exact hqs.1 (hempty.1 he)
    · simp [he] at h
  · by_cases he : l₁.isEmpty = true
    · simp [he] at h
    · rw [if_neg he] at h
      cases h
      refine ⟨fun h => he (hempty.2 (hqs.2 h)), ?_⟩
      rw [hr.tally _ _ _ hl, Tally.pop, PriceLevel.tally, PriceLevel.tally, htot, hcount]
  · exact hwf.withLastTrade q.lastTrade
  · rw [h₃, h₄, h₅, h₆, ← hb₄]
    exact ⟨rfl, rfl, rfl, rfl⟩

/-- A maker that is not filled is back in front of its level. -/
theorem Popped.reduced {taker : Nat} {l₂ : PriceLevel} {b' : OrderBook A}
    (hp : Popped b σ taker q side m ms s qs l l₁ a₁) (hleft : m.remaining - n ≠ 0)
    (hcore : coreOf b'.arena = Function.update (Function.update (coreOf b.arena) taker (some o)) s
      (some { m with remaining := m.remaining - n }))
    (hlinks : ∀ r, r ∉ σ side m.price → linksOf b'.arena r = linksOf a₁ r)
    (hlevel : ∀ side' p', b'.level? side' p' =
      if side' = side ∧ p' = m.price then some l₂ else b.level? side' p')
    (htot : l₂.totalQty = l₁.totalQty + (m.remaining - n)) (hcount : l₂.count = l₁.count + 1)
    (hw : Wired b' σ) (hindex : b'.idIndex = b.idIndex)
    (hhead : b'.symbol = b.symbol ∧ b'.tick = b.tick ∧ b'.stopBuys = b.stopBuys ∧
      b'.stopSells = b.stopSells) (hlast : b'.lastTrade = some m.price) :
    Refines b' σ (some taker) (q.trade side m n) := by
  obtain ⟨hr, hm, hσ, hs, hl, htot₁, hcount₁, hcore₁, hframe, -⟩ := hp
  have hwf := hr.wf.trade hm n
  have htrade := trade_of_ne hm hleft
  rw [htrade] at hwf ⊢
  rw [← hlast]
  have hfilter : (({ m with remaining := m.remaining - n } :: ms).filter
      fun o => o.price = m.price) =
      { m with remaining := m.remaining - n } :: ms.filter fun o => o.price = m.price :=
    List.filter_cons_of_pos (by simp)
  refine hr.put (L := some l₂) hw ?_ (fun r o' hr' => ?_) hlevel (fun p' hp' => ?_) nofun
    (fun l' h => ?_) (hwf.withLastTrade q.lastTrade) hhead
  · rw [hcore, hindex, hfilter]
    exact hr.filed.touch.reduce_head hσ (queue_of_makers_cons hm) rfl rfl rfl rfl
  · have hrσ : r ∉ σ side m.price := fun h => by
      rw [hr.filed.not_held h] at hr'
      cases hr'
    rw [hlinks r hrσ, hframe r hrσ]
  · rw [queue_of_makers_cons_ne hm hp', List.filter_cons_of_neg (by simpa using Ne.symm hp')]
  · cases h
    refine ⟨by rw [hfilter]; exact List.cons_ne_nil _ _, ?_⟩
    rw [hr.tally _ _ _ hl, Tally.pop, Tally.join, PriceLevel.tally, PriceLevel.tally, htot,
      hcount, htot₁, hcount₁]

/-- A trade of `n` with the maker: the trade of the priority book, the taker reduced, and no
order and no id that was not there. -/
structure Traded (b : OrderBook A) (q : PriorityBook) (t : Aggressor) (o m : Order) (n : Qty)
    (b' : OrderBook A) (σ' : Queues Nat) : Prop where
  refines : Refines b' σ' (some t.slot) (q.trade t.side.opposite m n)
  taker : coreOf b'.arena t.slot = some { o with remaining := o.remaining - n }
  vacant : ∀ r, coreOf b.arena r = none → coreOf b'.arena r = none
  unindexed : ∀ id : OrderId, b.idIndex[id]? = none → b'.idIndex[id]? = none

section Finish

variable (hp : Popped b σ t.slot q t.side.opposite m ms s qs l l₁ a₁)
  (ho : coreOf b.arena t.slot = some o)
  (hcore : coreOf a = Function.update (Function.update (coreOf b.arena) t.slot
    (some { o with remaining := o.remaining - n })) s
      (some { m with remaining := m.remaining - n }))
  (hlinks : linksOf a = linksOf a₁)
include hp ho hcore hlinks

omit ho hcore hlinks in
theorem Popped.ne_taker : s ≠ t.slot :=
  ne_of_mem_of_not_mem (hp.queue ▸ List.mem_cons_self) ((hp.refines.filed.loose _ rfl).1 _ _)

omit hlinks in
/-- The writes of the trade occupy no slot. -/
theorem Popped.vacant_of_writes {r : Nat} (hr : coreOf b.arena r = none) : coreOf a r = none := by
  have hrs : r ≠ s := fun e => by
    rw [e, hp.core] at hr
    cases hr
  have hrt : r ≠ t.slot := fun e => by
    rw [e, ho] at hr
    cases hr
  rw [hcore, Function.update_of_ne hrs, Function.update_of_ne hrt, hr]

/-- The end of a trade that fills the maker. -/
theorem Popped.trade_filled (hleft : m.remaining - n = 0) :
    Traded b q t o m n (((((b.putLevel t.side.opposite m.price l₁).setArena
      (Slab.remove a s)).setLastTrade m.price).setIndex (b.idIndex.erase m.id)).removeEmpty
        t.side.opposite m.price) (σ.set t.side.opposite m.price qs) := by
  have hocc : (Slab.get? a s).isSome := by
    obtain ⟨x, hx, -⟩ := get?_of_core (a := a) (s := s) (by rw [hcore, Function.update_self])
    rw [hx]
    rfl
  have hremoved : coreOf (Slab.remove a s) = Function.update (coreOf a) s none :=
    coreOf_remove hocc
  refine ⟨hp.filled (o := { o with remaining := o.remaining - n }) hleft ?_ ?_, ?_,
    fun r hr => ?_, fun id hid => ?_⟩
  · rw [hremoved, hcore, Function.update_idem]
  · rw [linksOf_remove hocc, hlinks]
  · rw [(removeEmpty_frame _ _ _).1]
    change coreOf (Slab.remove a s) t.slot = _
    rw [hremoved, Function.update_of_ne hp.ne_taker.symm, hcore,
      Function.update_of_ne hp.ne_taker.symm, Function.update_self]
  · rw [(removeEmpty_frame _ _ _).1]
    change coreOf (Slab.remove a s) r = none
    rw [hremoved]
    by_cases hrs : r = s
    · rw [hrs, Function.update_self]
    · rw [Function.update_of_ne hrs, hp.vacant_of_writes ho hcore hr]
  · rw [(removeEmpty_frame _ _ _).2.1]
    change (b.idIndex.erase m.id)[id]? = none
    rw [OrderedMap.getElem?_erase, hid, ite_self]

/-- The end of a trade that does not. -/
theorem Popped.trade_reduced (hleft : m.remaining - n ≠ 0) :
    ∃ b', reinsertAtHead (((b.putLevel t.side.opposite m.price l₁).setArena a).setLastTrade
        m.price) s m.price t.side.opposite = .ok b' ∧ Traded b q t o m n b' σ := by
  have hsmem : s ∈ σ t.side.opposite m.price := by
    rw [hp.queue]
    exact List.mem_cons_self
  have hside : m.side = t.side.opposite :=
    (hp.refines.filed.side_price hsmem hp.core).1
  have hwired : Wired (((b.putLevel t.side.opposite m.price l₁).setArena a).setLastTrade m.price)
      (σ.set t.side.opposite m.price qs) := by
    refine hp.wired.congr (fun side' p' => by simp) (fun side' p' r _ => ?_)
      fun side' p' r hr => ?_
    · change linksOf a r = linksOf a₁ r
      rw [hlinks]
    · obtain ⟨hrs, hrt⟩ := hp.queued_ne side' p' r hr
      change coreOf a r = coreOf a₁ r
      rw [hcore, Function.update_of_ne hrs, Function.update_of_ne hrt, hp.core_eq]
  have hmaker : coreOf a s = some { m with remaining := m.remaining - n } := by
    rw [hcore, Function.update_self]
  have hback := hwired.reinsertAtHead (s := s) hmaker fun side' p' h =>
    (hp.queued_ne side' p' s h).1 rfl
  dsimp only at hback
  rw [hside, Queues.set_self, Queues.set_set, Queues.set_eq_self hp.queue] at hback
  obtain ⟨a', l₂, hback, htot, hcount, hcore', hframe, hw⟩ := hback
  have hl₁ : (((b.putLevel t.side.opposite m.price l₁).setArena a).setLastTrade m.price).level?
      t.side.opposite m.price = some l₁ := by
    simp [OrderBook.level?_putLevel]
  rw [hl₁, Option.getD_some] at htot hcount
  have hsame : coreOf a' = coreOf a := hcore'
  refine ⟨_, hback, hp.reduced (o := { o with remaining := o.remaining - n }) hleft
    (hsame.trans hcore) ?_ ?_ htot hcount hw rfl ⟨rfl, rfl, rfl, rfl⟩ rfl, ?_, fun r hr => ?_,
    fun id hid => hid⟩
  · intro r hr
    have hrs : r ≠ s := fun e => hr (e ▸ hsmem)
    have hrq : r ∉ qs := fun h => hr (hp.queue ▸ List.mem_cons_of_mem s h)
    change linksOf a' r = linksOf a₁ r
    rw [hframe r hrq hrs]
    change linksOf a r = linksOf a₁ r
    rw [hlinks]
  · intro side' p'
    simp only [OrderBook.level?_setArena, OrderBook.level?_putLevel,
      OrderBook.level?_setLastTrade]
    split <;> rfl
  · change coreOf a' t.slot = _
    rw [hsame, hcore, Function.update_of_ne hp.ne_taker.symm, Function.update_self]
  · change coreOf a' r = none
    rw [hsame, hp.vacant_of_writes ho hcore hr]

end Finish

end Trade

/-- The body of the loop after the pop: both orders are reduced by the lesser remainder, and
the maker leaves or goes back to the front. -/
theorem tradeWith_eq {s : Nat} (ho : coreOf b.arena t.slot = some o)
    (hm : coreOf b.arena s = some m) (hst : s ≠ t.slot) {n : Qty}
    (hn : min o.remaining m.remaining = n) (seq : Seq) (ts : Ts) :
    ∃ a, coreOf a = Function.update (Function.update (coreOf b.arena) t.slot
        (some { o with remaining := o.remaining - n })) s
          (some { m with remaining := m.remaining - n }) ∧
      linksOf a = linksOf b.arena ∧
      tradeWith b t s m.price seq ts =
        if m.remaining - n = 0 then
          .ok ((((b.setArena (Slab.remove a s)).setLastTrade m.price).setIndex
            (b.idIndex.erase m.id)).removeEmpty t.side.opposite m.price, n,
            fillEvents seq ts o.id t.side (m, n))
        else do
          let b ← reinsertAtHead ((b.setArena a).setLastTrade m.price) s m.price t.side.opposite
          return (b, n, fillEvents seq ts o.id t.side (m, n)) := by
  obtain ⟨o₁, ho₁, hu₁, -⟩ := order_of_core ho
  obtain ⟨m₁, hm₁, hv₁, -⟩ := order_of_core hm
  have hremo : o₁.remaining = o.remaining := by rw [← hu₁]; rfl
  have hremm : m₁.remaining = m.remaining := by rw [← hv₁]; rfl
  -- the two writes
  obtain ⟨a₂, h₂, hc₂, hl₂⟩ := modifyOrder_fill ho n
  obtain ⟨a, h₃, hc₃, hl₃⟩ := modifyOrder_fill (b := b.setArena a₂) (s := s) (o := m)
    (by rw [OrderBook.arena_setArena, hc₂, Function.update_of_ne hst, hm]) n
  rw [OrderBook.setArena_setArena] at h₃
  rw [OrderBook.arena_setArena, hc₂] at hc₃
  rw [OrderBook.arena_setArena, hl₂] at hl₃
  refine ⟨a, hc₃, hl₃, ?_⟩
  -- what is read back of them
  obtain ⟨o₃, ho₃, hu₃, -⟩ := order_of_core (b := (b.setArena a).setLastTrade m.price)
    (s := t.slot) (o := { o with remaining := o.remaining - n })
    (by rw [OrderBook.arena_setLastTrade, OrderBook.arena_setArena, hc₃,
      Function.update_of_ne hst.symm, Function.update_self])
  obtain ⟨m₃, hm₃, hv₃⟩ := get?_of_core (a := a) (s := s)
    (o := { m with remaining := m.remaining - n }) (by rw [hc₃, Function.update_self])
  have hido : o₃.id = o.id := by simpa using congrArg Order.id hu₃
  have hidm : m₃.id = m.id := by simpa using congrArg Order.id hv₃
  have hremm₃ : m₃.remaining = m.remaining - n := by simpa using congrArg Order.remaining hv₃
  have hm₃' : ((b.setArena a).setLastTrade m.price).order s = .ok m₃ := order_eq hm₃
  have hr₃ : (((b.setArena a).setLastTrade m.price).setIndex
      (b.idIndex.erase m.id)).removeOrder s = .ok ((((b.setArena a).setLastTrade
        m.price).setIndex (b.idIndex.erase m.id)).setArena (Slab.remove a s)) :=
    removeOrder_eq hm₃
  have hindex : ((b.setArena a).setLastTrade m.price).idIndex = b.idIndex := rfl
  unfold tradeWith
  simp only [ho₁, hm₁, Fuel.ok_bind, hremo, hremm, hn, h₂, h₃, ho₃, hm₃', hremm₃, hido, hidm,
    hindex, hr₃, Fuel.pure_eq_ok]
  split
  · next hleft =>
    simp only [fillEvents, hleft, if_true]
    rfl
  · next hleft => simp only [fillEvents, hleft, if_false]

/-- **One trade.** While the taker wants more and accepts the best maker, an
iteration of the loop is one trade of the priority book. -/
theorem matchStep_trade (hr : Refines b σ (some t.slot) q) (ho : coreOf b.arena t.slot = some o)
    (hm : q.makers t.side.opposite = m :: ms) (hn : o.remaining ≠ 0)
    (hok : t.crosses m.price = true) (seq : Seq) (ts : Ts) :
    ∃ b' σ', matchStep b t seq ts = .ok (some (b', min o.remaining m.remaining,
        fillEvents seq ts o.id t.side (m, min o.remaining m.remaining))) ∧
      Traded b q t o m (min o.remaining m.remaining) b' σ' := by
  obtain ⟨l, hbest, hl⟩ := hr.best?_of_cons hm
  obtain ⟨s, qs, hσ, hs⟩ := hr.head_slot hm
  obtain ⟨a₁, l₁, hpop, htot, hcount, hcore₁, hframe₁, hw₁⟩ := hr.wired.popHead hl hσ hs
  have hp : Popped b σ t.slot q t.side.opposite m ms s qs l l₁ a₁ :=
    ⟨hr, hm, hσ, hs, hl, htot, hcount, hcore₁, hframe₁, hw₁⟩
  obtain ⟨o₀, ho₀, hu₀, -⟩ := order_of_core ho
  have hrem₀ : o₀.remaining = o.remaining := by rw [← hu₀]; rfl
  have hstep : matchStep b t seq ts = do
      let r ← tradeWith ((b.putLevel t.side.opposite m.price l₁).setArena a₁) t s m.price seq ts
      return some r := by
    unfold matchStep
    simp only [ho₀, Fuel.ok_bind, hrem₀, hn, if_false, hbest, hok, if_true, hpop]
  obtain ⟨a, hcore, hlinks, htrade⟩ :=
    tradeWith_eq (b := (b.putLevel t.side.opposite m.price l₁).setArena a₁) (s := s)
      ((congrFun hcore₁ t.slot).trans ho) ((congrFun hcore₁ s).trans hs) hp.ne_taker rfl seq ts
  rw [OrderBook.arena_setArena, hcore₁] at hcore
  rw [hstep, htrade]
  by_cases hleft : m.remaining - min o.remaining m.remaining = 0
  · rw [if_pos hleft]
    exact ⟨_, _, rfl, hp.trade_filled ho hcore hlinks hleft⟩
  · obtain ⟨b', hback, htraded⟩ := hp.trade_reduced ho hcore hlinks hleft
    rw [if_neg hleft]
    refine ⟨b', σ, ?_, htraded⟩
    rw [OrderBook.setArena_setArena, hback]
    rfl

/-- The loop breaks at a filled taker, an empty side or an unacceptable maker. -/
theorem matchStep_stop (hr : Refines b σ (some t.slot) q) (ho : coreOf b.arena t.slot = some o)
    (hstop : o.remaining = 0 ∨ ∀ m ∈ (q.makers t.side.opposite).head?, t.crosses m.price = false)
    (seq : Seq) (ts : Ts) : matchStep b t seq ts = .ok none := by
  obtain ⟨o₀, ho₀, hu₀, -⟩ := order_of_core ho
  have hrem₀ : o₀.remaining = o.remaining := by rw [← hu₀]; rfl
  unfold matchStep
  rw [ho₀, Fuel.ok_bind, hrem₀]
  by_cases hz : o.remaining = 0
  · simp [hz]
  · rw [if_neg hz]
    cases hm : q.makers t.side.opposite with
    | nil =>
      rw [hr.best?_of_nil hm]
      rfl
    | cons m ms =>
      obtain ⟨l, hbest, -⟩ := hr.best?_of_cons hm
      have hok := hstop.resolve_left hz m (by rw [hm]; rfl)
      rw [hbest]
      simp [hok]

theorem matchLoop_stop (hr : Refines b σ (some t.slot) q) (ho : coreOf b.arena t.slot = some o)
    (hstop : o.remaining = 0 ∨ ∀ m ∈ (q.makers t.side.opposite).head?, t.crosses m.price = false)
    (seq : Seq) (ts : Ts) {fuel : Nat} (hfuel : 0 < fuel) (total : Qty) :
    matchLoop t seq ts fuel b total = .ok (b, total, []) := by
  obtain ⟨fuel, rfl⟩ := Nat.exists_eq_succ_of_ne_zero (Nat.pos_iff_ne_zero.1 hfuel)
  simp [matchLoop, matchStep_stop hr ho hstop seq ts]

/-- The loop trades the fills `fs`: the trades of the priority book, the taker reduced, and
no order and no id that was not there. -/
def Sweeps (t : Aggressor) (seq : Seq) (ts : Ts) (fuel : Nat) (b : OrderBook A)
    (q : PriorityBook) (o : Order) (total : Qty) (fs : List (Order × Qty)) : Prop :=
  ∃ b' σ', matchLoop t seq ts fuel b total =
      .ok (b', total + taken fs, fs.flatMap (fillEvents seq ts o.id t.side)) ∧
    Refines b' σ' (some t.slot) (q.tradeAll t.side.opposite fs) ∧
    coreOf b'.arena t.slot = some { o with remaining := o.remaining - taken fs } ∧
    (∀ r, coreOf b.arena r = none → coreOf b'.arena r = none) ∧
    ∀ id : OrderId, b.idIndex[id]? = none → b'.idIndex[id]? = none

theorem Sweeps.stop (hr : Refines b σ (some t.slot) q) (ho : coreOf b.arena t.slot = some o)
    (hstop : o.remaining = 0 ∨ ∀ m ∈ (q.makers t.side.opposite).head?, t.crosses m.price = false)
    (seq : Seq) (ts : Ts) {fuel : Nat} (hfuel : 0 < fuel) (total : Qty) :
    Sweeps t seq ts fuel b q o total [] := by
  refine ⟨b, σ, ?_, by simpa using hr, by simpa using ho, fun _ h => h, fun _ h => h⟩
  rw [matchLoop_stop hr ho hstop seq ts hfuel]
  simp

/-- One trade, and then what is left to sweep. -/
theorem Sweeps.trade {n : Qty} {b₁ : OrderBook A} {σ₁ : Queues Nat} {seq : Seq} {ts : Ts}
    {fuel : Nat} {total : Qty} {fs : List (Order × Qty)}
    (hstep : matchStep b t seq ts = .ok (some (b₁, n, fillEvents seq ts o.id t.side (m, n))))
    (htraded : Traded b q t o m n b₁ σ₁)
    (hrest : Sweeps t seq ts fuel b₁ (q.trade t.side.opposite m n)
      { o with remaining := o.remaining - n } (total + n) fs) :
    Sweeps t seq ts (fuel + 1) b q o total ((m, n) :: fs) := by
  obtain ⟨b', σ', hloop, hr', ho', hvac', hindex'⟩ := hrest
  refine ⟨b', σ', ?_, hr', ?_, fun r h => hvac' r (htraded.vacant r h),
    fun id h => hindex' id (htraded.unindexed id h)⟩
  · simp [matchLoop, hstep, hloop, UInt64.add_assoc]
  · have hsub : o.remaining - n - taken fs = o.remaining - (n + taken fs) := by grind
    rw [ho']
    simp [hsub]

/-- **The loop is the sweep.** -/
theorem matchLoop_sweeps (hr : Refines b σ (some t.slot) q)
    (ho : coreOf b.arena t.slot = some o) {fuel : Nat}
    (hfuel : (q.makers t.side.opposite).length + 2 ≤ fuel) (seq : Seq) (ts : Ts) (total : Qty)
    {fs : List (Order × Qty)}
    (hfs : fills t.crosses o.remaining (q.makers t.side.opposite) = fs) :
    Sweeps t seq ts fuel b q o total fs := by
  subst hfs
  generalize hms : q.makers t.side.opposite = ms at hfuel
  induction ms generalizing b σ q o total fuel with
  | nil => exact .stop hr ho (.inr (by simp [hms])) seq ts (by omega) total
  | cons m ms ih =>
    by_cases h : o.remaining = 0 ∨ t.crosses m.price = false
    · rw [fills_of_stop h]
      exact .stop hr ho (h.imp_right (by simp [hms])) seq ts (by omega) total
    · obtain ⟨hn, hok⟩ := not_or.1 h
      have hok : t.crosses m.price = true := by simpa using hok
      obtain ⟨b₁, σ₁, hstep, htraded⟩ := matchStep_trade hr ho hms hn hok seq ts
      obtain ⟨fuel, rfl⟩ := Nat.exists_eq_succ_of_ne_zero (show fuel ≠ 0 by omega)
      rw [List.length_cons] at hfuel
      rw [fills_of_go hn hok]
      refine .trade hstep htraded ?_
      rcases min_cases o.remaining m with ⟨-, -, hleft⟩ | ⟨heq, -, -⟩
      · exact ih htraded.refines htraded.taker _ (makers_trade_of_eq hms hleft) (by omega)
      · -- the taker is filled, so the next iteration breaks
        have hzero : o.remaining - min o.remaining m.remaining = 0 := by
          rw [heq, UInt64.sub_self]
        have hnone : fills t.crosses (o.remaining - min o.remaining m.remaining) ms = [] := by
          simp [hzero]
        rw [hnone]
        exact .stop htraded.refines htraded.taker (.inl hzero) seq ts (by omega) _

end Exchange
