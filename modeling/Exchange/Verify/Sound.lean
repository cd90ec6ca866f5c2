import Exchange.Verify.Refines
import Exchange.Verify.Inversion

/-!
# Orders that may be in the arena

What holds of every order in the arena on any run, stop orders included, where the
links of the book may no longer be what they should be: an order in the arena
wants to trade, and is a stop or a limit order at a positive price. The lemmas
here invert calls that return.
-/

namespace Exchange

open Fuel

variable {A : Type} [Slab A Order] {b b' : OrderBook A} {s : Nat} {o : Order}

/-! ## Calls that return -/

theorem slot?_of_order (h : b.order s = .ok o) : b.slot? s = some o := by
  unfold OrderBook.order at h
  split at h
  · next ho =>
    cases h
    exact ho
  · cases h

theorem modifyOrder_inv {f : Order → Order} (h : b.modifyOrder s f = .ok b') :
    ∃ o, b.slot? s = some o ∧ b' = b.setArena (Slab.set b.arena s (f o)) := by
  obtain ⟨o, ho, h⟩ := bind_eq_ok.1 h
  cases h
  exact ⟨o, slot?_of_order ho, rfl⟩

theorem modifyOrder_setArena {f : Order → Order} (h : b.modifyOrder s f = .ok b') :
    ∃ a, b' = b.setArena a := by
  obtain ⟨o, -, rfl⟩ := modifyOrder_inv h
  exact ⟨_, rfl⟩

theorem removeOrder_inv (h : b.removeOrder s = .ok b') :
    ∃ o, b.slot? s = some o ∧ b' = b.setArena (Slab.remove b.arena s) := by
  obtain ⟨o, ho, h⟩ := bind_eq_ok.1 h
  cases h
  exact ⟨o, slot?_of_order ho, rfl⟩

theorem removeOrder_core (h : b.removeOrder s = .ok b') :
    coreOf b'.arena = Function.update (coreOf b.arena) s none := by
  obtain ⟨o, ho, rfl⟩ := removeOrder_inv h
  exact coreOf_remove (Option.isSome_iff_exists.2 ⟨o, ho⟩)

theorem coreOf_of_slot? (h : b.slot? s = some o) : coreOf b.arena s = some o.unlinked :=
  congrArg (Option.map Order.unlinked) h

/-! ## Rewiring

Writes to links and levels leave the orders, the index, the stop maps and the last
trade alone. -/

structure Rewired (b b' : OrderBook A) : Prop where
  core : coreOf b'.arena = coreOf b.arena
  idIndex : b'.idIndex = b.idIndex
  stopBuys : b'.stopBuys = b.stopBuys
  stopSells : b'.stopSells = b.stopSells
  lastTrade : b'.lastTrade = b.lastTrade

namespace Rewired

theorem refl (b : OrderBook A) : Rewired b b := ⟨rfl, rfl, rfl, rfl, rfl⟩

theorem trans {b'' : OrderBook A} (h : Rewired b b') (h' : Rewired b' b'') : Rewired b b'' :=
  ⟨h'.core.trans h.core, h'.idIndex.trans h.idIndex, h'.stopBuys.trans h.stopBuys,
    h'.stopSells.trans h.stopSells, h'.lastTrade.trans h.lastTrade⟩

theorem putLevel (b : OrderBook A) (side : Side) (p : Price) (l : PriceLevel) :
    Rewired b (b.putLevel side p l) := ⟨rfl, rfl, rfl, rfl, rfl⟩

theorem eraseLevel (b : OrderBook A) (side : Side) (p : Price) :
    Rewired b (b.eraseLevel side p) := ⟨rfl, rfl, rfl, rfl, rfl⟩

theorem removeEmpty (b : OrderBook A) (side : Side) (p : Price) :
    Rewired b (b.removeEmpty side p) := by
  unfold OrderBook.removeEmpty
  split
  · exact eraseLevel b side p
  · exact refl b

theorem modifyOrder {f : Order → Order} (h : b.modifyOrder s f = .ok b')
    (hf : ∀ o, (f o).unlinked = o.unlinked) : Rewired b b' := by
  obtain ⟨o, ho, rfl⟩ := modifyOrder_inv h
  refine ⟨?_, rfl, rfl, rfl, rfl⟩
  have hs : (Slab.get? b.arena s).isSome := Option.isSome_iff_exists.2 ⟨o, ho⟩
  rw [OrderBook.arena_setArena, coreOf_set hs, hf]
  exact Function.update_eq_self_iff.2 (coreOf_of_slot? ho).symm

theorem modifyLinked {slot : Option Nat} {f : Order → Order}
    (h : b.modifyLinked slot f = .ok b') (hf : ∀ o, (f o).unlinked = o.unlinked) :
    Rewired b b' := by
  cases slot with
  | none =>
    cases h
    exact refl b
  | some s => exact modifyOrder h hf

theorem popHead {side : Side} {p : Price} {popped : Option Nat}
    (h : b.popHead side p = .ok (popped, b')) : Rewired b b' := by
  unfold OrderBook.popHead at h
  split at h
  · cases h
    exact refl b
  · split at h
    · cases h
      exact refl b
    · obtain ⟨o, -, h⟩ := bind_eq_ok.1 h
      obtain ⟨b₁, h₁, h⟩ := bind_eq_ok.1 h
      cases h
      exact (putLevel b _ _ _).trans (modifyLinked h₁ fun _ => rfl)

theorem reinsertAtHead {side : Side} {p : Price}
    (h : Exchange.reinsertAtHead b s p side = .ok b') : Rewired b b' := by
  obtain ⟨b₁, h₁, h⟩ := bind_eq_ok.1 h
  obtain ⟨o, -, h⟩ := bind_eq_ok.1 h
  obtain ⟨b₂, h₂, h⟩ := bind_eq_ok.1 h
  exact (modifyOrder h₁ fun _ => rfl).trans ((putLevel _ _ _ _).trans
    ((modifyOrder h₂ fun _ => rfl).trans (modifyLinked h fun _ => rfl)))

theorem insertResting (h : b.insertResting s = .ok b') : Rewired b b' := by
  obtain ⟨o, -, h⟩ := bind_eq_ok.1 h
  obtain ⟨b₁, h₁, h⟩ := bind_eq_ok.1 h
  exact (putLevel _ _ _ _).trans ((modifyOrder h₁ fun _ => rfl).trans
    (modifyLinked h fun _ => rfl))

theorem removeSlot {side : Side} {p : Price} {qty : Qty}
    (h : b.removeSlot s side p qty = .ok b') : Rewired b b' := by
  obtain ⟨o, -, h⟩ := bind_eq_ok.1 h
  obtain ⟨b₁, h₁, h⟩ := bind_eq_ok.1 h
  obtain ⟨b₂, h₂, h⟩ := bind_eq_ok.1 h
  have hlinks := (modifyLinked h₁ fun _ => rfl).trans (modifyLinked h₂ fun _ => rfl)
  split at h
  · cases h
    exact hlinks
  · dsimp only at h
    split at h
    · cases h
      exact hlinks.trans (eraseLevel _ _ _)
    · cases h
      exact hlinks.trans (putLevel _ _ _ _)

end Rewired

/-- Links are kept apart from the levels. -/
theorem levels_of_modifyLinked {slot : Option Nat} {f : Order → Order} {side : Side}
    (h : b.modifyLinked slot f = .ok b') : b'.levels side = b.levels side := by
  cases slot with
  | none =>
    cases h
    rfl
  | some s =>
    obtain ⟨o, -, rfl⟩ := modifyOrder_inv h
    cases side <;> rfl

/-- Unlinking an order leaves the other side alone. -/
theorem levels_of_removeSlot {side : Side} {p : Price} {qty : Qty}
    (h : b.removeSlot s side p qty = .ok b') :
    b'.levels side.opposite = b.levels side.opposite := by
  obtain ⟨o, -, h⟩ := bind_eq_ok.1 h
  obtain ⟨b₁, h₁, h⟩ := bind_eq_ok.1 h
  obtain ⟨b₂, h₂, h⟩ := bind_eq_ok.1 h
  rw [← levels_of_modifyLinked h₁, ← levels_of_modifyLinked h₂]
  split at h
  · cases h
    rfl
  · dsimp only at h
    split at h <;> cases h <;> cases side <;> rfl

/-! ## Sound orders -/

/-- An order that wants to trade, a stop or a limit at a positive price. -/
structure Order.Sound (o : Order) : Prop where
  remaining : o.remaining ≠ 0
  kind : o.kind = .stopMarket ∨ (o.kind = .limit ∨ o.kind = .stopLimit) ∧ 0 < o.price

/-- All orders but the one being matched are sound. -/
def Sound (b : OrderBook A) (taker : Option Nat) : Prop :=
  ∀ s o, coreOf b.arena s = some o → taker ≠ some s → o.Sound

theorem Sound.rewired {taker : Option Nat} (hb : Sound b taker) (h : Rewired b b') :
    Sound b' taker := by
  intro s o ho
  rw [h.core] at ho
  exact hb s o ho

/-- A refusal, or the kill of a fill-or-kill order. -/
def OutputEvent.rejects : OutputEvent → Bool
  | .rejected .. => true
  | _ => false

/-! ## Trades -/

section Trades

variable {t : Aggressor} {seq : Seq} {ts : Ts} {makerSlot : Nat} {makerPrice : Price}
  {taker maker : Order} {qty total : Qty} {events : List OutputEvent}

theorem modifyOrder_reduce (ho : coreOf b.arena s = some o)
    (h : (b.modifyOrder s fun o => { o with remaining := o.remaining - qty }) = .ok b') :
    coreOf b'.arena =
      Function.update (coreOf b.arena) s (some { o with remaining := o.remaining - qty }) := by
  obtain ⟨o', ho', rfl⟩ := modifyOrder_inv h
  have hs : (Slab.get? b.arena s).isSome := Option.isSome_iff_exists.2 ⟨o', ho'⟩
  cases ho.symm.trans (coreOf_of_slot? ho')
  rw [OrderBook.arena_setArena, coreOf_set hs]
  rfl

/-- A trade reduces the taker and reduces or removes the maker. -/
theorem tradeWith_inv (hne : makerSlot ≠ t.slot)
    (h : tradeWith b t makerSlot makerPrice seq ts = .ok (b', qty, events)) :
    ∃ taker maker, coreOf b.arena t.slot = some taker ∧ coreOf b.arena makerSlot = some maker ∧
      qty = min taker.remaining maker.remaining ∧
      coreOf b'.arena = Function.update
        (Function.update (coreOf b.arena) t.slot
          (some { taker with remaining := taker.remaining - qty }))
        makerSlot
        (if maker.remaining - qty = 0 then none
          else some { maker with remaining := maker.remaining - qty }) ∧
      b'.idIndex = (if maker.remaining - qty = 0 then b.idIndex.erase maker.id else b.idIndex) ∧
      ∀ e ∈ events, e.rejects = false := by
  obtain ⟨taker, htaker, h⟩ := bind_eq_ok.1 h
  obtain ⟨maker, hmaker, h⟩ := bind_eq_ok.1 h
  obtain ⟨b₁, h₁, h⟩ := bind_eq_ok.1 h
  obtain ⟨b₂, h₂, h⟩ := bind_eq_ok.1 h
  obtain ⟨taker', -, h⟩ := bind_eq_ok.1 h
  obtain ⟨maker', hmaker', h⟩ := bind_eq_ok.1 h
  have hcore := coreOf_of_slot? (slot?_of_order htaker)
  have hcore' := coreOf_of_slot? (slot?_of_order hmaker)
  generalize hn : min taker.remaining maker.remaining = n at h₁ h₂ h
  have hcore₁ := modifyOrder_reduce hcore h₁
  have hcore₂ := modifyOrder_reduce
    (by rw [hcore₁, Function.update_of_ne hne, hcore']) h₂
  have hmaker₂ := (coreOf_of_slot? (slot?_of_order hmaker')).symm
  rw [OrderBook.arena_setLastTrade, hcore₂, Function.update_self] at hmaker₂
  have hmaker₂ := Option.some.inj hmaker₂
  have hrem : maker'.remaining = maker.remaining - n := (congrArg Order.remaining hmaker₂ :)
  have hid : maker'.id = maker.id := (congrArg Order.id hmaker₂ :)
  have hindex : b₂.idIndex = b.idIndex := by
    obtain ⟨a₁, rfl⟩ := modifyOrder_setArena h₁
    obtain ⟨a₂, rfl⟩ := modifyOrder_setArena h₂
    rfl
  rw [hcore₁] at hcore₂
  rw [hrem, hid] at h
  refine ⟨taker.unlinked, maker.unlinked, hcore, hcore', ?_⟩
  split at h
  · next hleft =>
    obtain ⟨b₃, h₃, h⟩ := bind_eq_ok.1 h
    cases h
    have hcore₃ := removeOrder_core h₃
    obtain ⟨o, -, rfl⟩ := removeOrder_inv h₃
    have hgone : maker.unlinked.remaining - qty = 0 := hleft
    refine ⟨hn.symm, ?_, ?_, ?_⟩
    · rw [(Rewired.removeEmpty _ _ _).core, if_pos hgone]
      refine hcore₃.trans ?_
      rw [OrderBook.arena_setIndex, OrderBook.arena_setLastTrade, hcore₂, Function.update_idem]
    · rw [(Rewired.removeEmpty _ _ _).idIndex, if_pos hgone]
      exact congrArg (fun m => m.erase maker.id) hindex
    · intro e he
      rcases List.mem_pair.1 he with rfl | rfl
      · rfl
      · rfl
  · next hleft =>
    obtain ⟨b₃, h₃, h⟩ := bind_eq_ok.1 h
    cases h
    have hstays : ¬maker.unlinked.remaining - qty = 0 := hleft
    refine ⟨hn.symm, ?_, ?_, ?_⟩
    · rw [(Rewired.reinsertAtHead h₃).core, if_neg hstays]
      exact hcore₂
    · rw [(Rewired.reinsertAtHead h₃).idIndex, if_neg hstays]
      exact hindex
    · intro e he
      rcases List.mem_pair.1 he with rfl | rfl
      · rfl
      · rfl

end Trades

/-! ## A taker does not trade with itself

Were the taker at the head of a level it crosses, it would be put back there after
every trade, and the match loop would not return. -/

section Stuck

variable {t : Aggressor} {seq : Seq} {ts : Ts} {qty total : Qty} {events : List OutputEvent}
  {side : Side} {p : Price} {l : PriceLevel}

omit [Slab A Order] in
theorem best?_setArena (b : OrderBook A) (a : A) (side : Side) :
    (b.setArena a).best? side = b.best? side := by
  cases side <;> rfl

omit [Slab A Order] in
theorem best?_setLastTrade (b : OrderBook A) (price : Price) (side : Side) :
    (b.setLastTrade price).best? side = b.best? side := by
  cases side <;> rfl

omit [Slab A Order] in
theorem best?_putLevel (h : b.best? side = some (p, l)) (l' : PriceLevel) :
    (b.putLevel side p l').best? side = some (p, l') := by
  obtain ⟨-, hmin⟩ := OrderedMap.first?_spec h
  have hlevel : ∀ p', (b.putLevel side p l').level? side p' =
      if p' = p then some l' else b.level? side p' := by
    intro p'
    rw [OrderBook.level?_putLevel]
    simp only [true_and]
  refine OrderedMap.first?_eq_some ((hlevel p).trans (if_pos rfl)) fun p' v hv => ?_
  have hv := (hlevel p').symm.trans hv
  split at hv
  · next he => exact .inl he
  · exact hmin p' v hv

theorem modifyLinked_setArena {slot : Option Nat} {f : Order → Order}
    (h : b.modifyLinked slot f = .ok b') : ∃ a, b' = b.setArena a := by
  cases slot with
  | none =>
    cases h
    exact ⟨b.arena, rfl⟩
  | some s => exact modifyOrder_setArena h

/-- Popping the head of the best level leaves that level the best one. -/
theorem popHead_inv (hbest : b.best? side = some (p, l))
    (h : b.popHead side p = .ok (some s, b')) :
    l.head = some s ∧ ∃ l', b'.best? side = some (p, l') := by
  have hl : b.level? side p = some l := (OrderedMap.first?_spec hbest).1
  unfold OrderBook.popHead at h
  rw [hl] at h
  dsimp only at h
  split at h
  · cases h
  · next slot hhead =>
    obtain ⟨o, -, h⟩ := bind_eq_ok.1 h
    obtain ⟨b₁, h₁, h⟩ := bind_eq_ok.1 h
    cases h
    obtain ⟨a, rfl⟩ := modifyLinked_setArena h₁
    exact ⟨hhead, _, (best?_setArena _ _ _).trans (best?_putLevel hbest _)⟩

/-- The taker heads the best level, and crosses it. -/
def Stuck (b : OrderBook A) (t : Aggressor) : Prop :=
  ∃ p l o, b.best? t.side.opposite = some (p, l) ∧ t.crosses p = true ∧ l.head = some t.slot ∧
    coreOf b.arena t.slot = some o ∧ o.remaining ≠ 0

/-- A trade of the taker with itself puts it back where it was. -/
theorem stuck_of_tradeWith (hbest : b.best? t.side.opposite = some (p, l))
    (hcross : t.crosses p = true) (ho : coreOf b.arena t.slot = some o) (hrem : o.remaining ≠ 0)
    (h : tradeWith b t t.slot p seq ts = .ok (b', qty, events)) : Stuck b' t := by
  obtain ⟨taker, htaker, h⟩ := bind_eq_ok.1 h
  obtain ⟨maker, hmaker, h⟩ := bind_eq_ok.1 h
  cases htaker.symm.trans hmaker
  cases ho.symm.trans (coreOf_of_slot? (slot?_of_order htaker))
  obtain ⟨b₁, h₁, h⟩ := bind_eq_ok.1 h
  obtain ⟨b₂, h₂, h⟩ := bind_eq_ok.1 h
  obtain ⟨taker', -, h⟩ := bind_eq_ok.1 h
  obtain ⟨maker', hmaker', h⟩ := bind_eq_ok.1 h
  have hmin : min taker.remaining taker.remaining = taker.remaining :=
    UInt64.toNat_inj.1 (by rw [toNat_min, Nat.min_self])
  rw [hmin] at h₁ h₂ h
  have hcore₁ := modifyOrder_reduce ho h₁
  have hcore₂ := modifyOrder_reduce
    (by rw [hcore₁, Function.update_self]) h₂
  rw [hcore₁, Function.update_idem] at hcore₂
  -- all of it is taken off twice
  have hleft : taker.remaining - taker.remaining - taker.remaining ≠ 0 := by
    have hrem : taker.remaining ≠ 0 := hrem
    grind
  have hrem' : maker'.remaining = taker.remaining - taker.remaining - taker.remaining := by
    have h := coreOf_of_slot? (slot?_of_order hmaker')
    rw [OrderBook.arena_setLastTrade, hcore₂, Function.update_self] at h
    exact (congrArg Order.remaining (Option.some.inj h)).symm
  rw [hrem', if_neg hleft] at h
  obtain ⟨b₃, h₃, h⟩ := bind_eq_ok.1 h
  cases h
  have hcore₃ := (Rewired.reinsertAtHead h₃).core
  obtain ⟨b₄, h₄, h₃⟩ := bind_eq_ok.1 h₃
  obtain ⟨o₄, -, h₃⟩ := bind_eq_ok.1 h₃
  obtain ⟨b₅, h₅, h₃⟩ := bind_eq_ok.1 h₃
  obtain ⟨a₁, rfl⟩ := modifyOrder_setArena h₁
  obtain ⟨a₂, rfl⟩ := modifyOrder_setArena h₂
  obtain ⟨a₄, rfl⟩ := modifyOrder_setArena h₄
  obtain ⟨a₅, rfl⟩ := modifyOrder_setArena h₅
  obtain ⟨a₃, rfl⟩ := modifyLinked_setArena h₃
  have hbest₄ : (((((b.setArena a₁).setArena a₂).setLastTrade p).setArena a₄).best?
      t.side.opposite) = some (p, l) := by
    rw [best?_setArena, best?_setLastTrade, best?_setArena, best?_setArena]
    exact hbest
  have ho₃ := (congrFun hcore₃ t.slot).trans ((congrFun hcore₂ t.slot).trans
    (Function.update_self ..))
  exact ⟨p, _, _, (best?_setArena _ _ _).trans ((best?_setArena _ _ _).trans
    (best?_putLevel hbest₄ _)), hcross, rfl, ho₃, hleft⟩

theorem matchStep_inv (h : matchStep b t seq ts = .ok (some (b', qty, events))) :
    ∃ o p l b₁ makerSlot, coreOf b.arena t.slot = some o ∧ o.remaining ≠ 0 ∧
      b.best? t.side.opposite = some (p, l) ∧ t.crosses p = true ∧
      b.popHead t.side.opposite p = .ok (some makerSlot, b₁) ∧
      tradeWith b₁ t makerSlot p seq ts = .ok (b', qty, events) := by
  obtain ⟨o, ho, h⟩ := bind_eq_ok.1 h
  split at h
  · cases h
  · next hrem =>
    split at h
    · cases h
    · next p l hbest =>
      split at h
      · next hcross =>
        obtain ⟨⟨popped, b₁⟩, hpop, h⟩ := bind_eq_ok.1 h
        cases popped with
        | none => cases h
        | some makerSlot =>
          obtain ⟨r, htrade, h⟩ := bind_eq_ok.1 h
          cases h
          exact ⟨o.unlinked, p, l, b₁, makerSlot, coreOf_of_slot? (slot?_of_order ho), hrem, hbest,
            hcross, hpop, htrade⟩
      · cases h

/-- What is done by one iteration that does not get stuck. -/
theorem matchStep_cases (h : matchStep b t seq ts = .ok (some (b', qty, events))) :
    Stuck b' t ∨ ∃ b₁ makerSlot p, Rewired b b₁ ∧ makerSlot ≠ t.slot ∧
      tradeWith b₁ t makerSlot p seq ts = .ok (b', qty, events) := by
  obtain ⟨o, p, l, b₁, makerSlot, ho, hrem, hbest, hcross, hpop, htrade⟩ := matchStep_inv h
  have hrewired := Rewired.popHead hpop
  by_cases hself : makerSlot = t.slot
  · subst hself
    obtain ⟨-, l', hbest'⟩ := popHead_inv hbest hpop
    exact .inl (stuck_of_tradeWith hbest' hcross (by rw [hrewired.core, ho]) hrem htrade)
  · exact .inr ⟨b₁, makerSlot, p, hrewired, hself, htrade⟩

/-- A stuck taker does not get away. -/
theorem Stuck.step (hs : Stuck b t) {r : Option (OrderBook A × Qty × List OutputEvent)}
    (h : matchStep b t seq ts = .ok r) : ∃ x, r = some x ∧ Stuck x.1 t := by
  obtain ⟨p, l, o, hbest, hcross, hhead, ho, hrem⟩ := hs
  cases r with
  | none =>
    obtain ⟨o', ho', h⟩ := bind_eq_ok.1 h
    cases ho.symm.trans (coreOf_of_slot? (slot?_of_order ho'))
    rw [if_neg (show ¬o'.remaining = 0 from hrem), hbest] at h
    dsimp only at h
    rw [if_pos hcross] at h
    obtain ⟨⟨popped, b₁⟩, hpop, h⟩ := bind_eq_ok.1 h
    cases popped with
    | none =>
      have hl : b.level? t.side.opposite p = some l := (OrderedMap.first?_spec hbest).1
      unfold OrderBook.popHead at hpop
      rw [hl] at hpop
      dsimp only at hpop
      rw [hhead] at hpop
      obtain ⟨o₁, -, hpop⟩ := bind_eq_ok.1 hpop
      obtain ⟨b₂, -, hpop⟩ := bind_eq_ok.1 hpop
      cases hpop
    | some makerSlot =>
      obtain ⟨r, -, h⟩ := bind_eq_ok.1 h
      cases h
  | some x =>
    obtain ⟨b', qty, events⟩ := x
    refine ⟨_, rfl, ?_⟩
    obtain ⟨o', p', l', b₁, makerSlot, -, -, hbest', -, hpop, htrade⟩ := matchStep_inv h
    cases hbest.symm.trans hbest'
    obtain ⟨hhead', l₁, hbest₁⟩ := popHead_inv hbest hpop
    cases hhead.symm.trans hhead'
    exact stuck_of_tradeWith hbest₁ hcross (by rw [(Rewired.popHead hpop).core, ho]) hrem htrade

theorem Stuck.matchLoop_ne_ok (hs : Stuck b t) (fuel : Nat)
    (r : OrderBook A × Qty × List OutputEvent) : matchLoop t seq ts fuel b total ≠ .ok r := by
  induction fuel generalizing b total r with
  | zero => nofun
  | succ fuel ih =>
    intro h
    obtain ⟨r₁, hstep, h⟩ := bind_eq_ok.1 h
    obtain ⟨⟨b₁, qty, events⟩, rfl, hs₁⟩ := hs.step hstep
    obtain ⟨r₂, hloop, -⟩ := bind_eq_ok.1 h
    exact ih hs₁ r₂ hloop

end Stuck

/-! ## Matching keeps the arena sound -/

section Matching

variable {t : Aggressor} {seq : Seq} {ts : Ts} {qty total total' : Qty}
  {events : List OutputEvent}

/-- **The match loop.** The other orders stay sound, and what the taker has traded and
what it has left add up. -/
theorem matchLoop_inv {fuel n : Nat}
    (h : matchLoop t seq ts fuel b total = .ok (b', total', events))
    (hb : Sound b (some t.slot)) (ho : coreOf b.arena t.slot = some o)
    (hsum : total.toNat + o.remaining.toNat = n) (hn : n < 2 ^ 64) :
    Sound b' (some t.slot) ∧
      (∃ left : Qty, coreOf b'.arena t.slot = some { o with remaining := left } ∧
        total'.toNat + left.toNat = n) ∧
      ∀ e ∈ events, e.rejects = false := by
  induction fuel generalizing b total o events with
  | zero => cases h
  | succ fuel ih =>
    cases matchLoop_cases h with
    | done => exact ⟨hb, ⟨o.remaining, ho, hsum⟩, nofun⟩
    | @traded b₁ _ _ _ _ _ hstep hloop =>
      rcases matchStep_cases hstep with hs | ⟨b₀, makerSlot, p, hrewired, hne, htrade⟩
      · exact absurd hloop (hs.matchLoop_ne_ok fuel _)
      obtain ⟨taker, maker, htaker, hmaker, rfl, hcore, -, hquiet⟩ := tradeWith_inv hne htrade
      rw [hrewired.core] at htaker hmaker hcore
      cases ho.symm.trans htaker
      have hmin := toNat_min o.remaining maker.remaining
      have hle : min o.remaining maker.remaining ≤ o.remaining := by
        rw [UInt64.le_iff_toNat_le]
        omega
      have hleft := UInt64.toNat_sub_of_le _ _ hle
      have htotal : (total + min o.remaining maker.remaining).toNat =
          total.toNat + (min o.remaining maker.remaining).toNat := by
        rw [UInt64.toNat_add]
        exact Nat.mod_eq_of_lt (by omega)
      have ho₁ : coreOf b₁.arena t.slot =
          some { o with remaining := o.remaining - min o.remaining maker.remaining } := by
        rw [hcore, Function.update_of_ne hne.symm, Function.update_self]
      have hb₁ : Sound b₁ (some t.slot) := by
        intro s x hx hs
        rw [hcore] at hx
        by_cases hm : s = makerSlot
        · subst hm
          rw [Function.update_self] at hx
          have hsound := hb s maker hmaker hs
          split at hx
          · cases hx
          · next hrem =>
            cases hx
            exact ⟨hrem, hsound.kind⟩
        · rw [Function.update_of_ne hm, Function.update_of_ne fun e => hs (by rw [e])] at hx
          exact hb s x hx hs
      obtain ⟨hb', ⟨left, hleft', hsum'⟩, hquiet'⟩ := ih hloop hb₁ ho₁ (by dsimp only; omega)
      refine ⟨hb', ⟨left, hleft', hsum'⟩, fun e he => ?_⟩
      rcases List.mem_append.1 he with he | he
      · exact hquiet e he
      · exact hquiet' e he

variable {no : NewOrder} {slot : Nat} {filled : Qty}

theorem Sound.remove (hb : Sound b (some s)) (h : b.removeOrder s = .ok b') : Sound b' none := by
  intro r x hx _
  rw [removeOrder_core h] at hx
  by_cases hr : r = s
  · rw [hr, Function.update_self] at hx
    cases hx
  · rw [Function.update_of_ne hr] at hx
    exact hb r x hx fun e => hr (Option.some.inj e).symm

theorem Sound.reveal (hb : Sound b (some s)) (ho : ∀ o, coreOf b.arena s = some o → o.Sound) :
    Sound b none := by
  intro r x hx _
  by_cases hr : r = s
  · exact ho x (hr ▸ hx)
  · exact hb r x hx fun e => hr (Option.some.inj e).symm

/-- Settling leaves the taker out of the arena, or in it as a limit order that still
wants to trade. -/
theorem settle_inv {left : Qty} (h : settle b no slot filled seq = .ok (b', events))
    (hb : Sound b (some slot))
    (ho : coreOf b.arena slot = some { no.toOrder seq ts with remaining := left })
    (hsum : filled.toNat + left.toNat = no.qty.toNat) (hqty : no.qty ≠ 0)
    (hkind : no.kind.isStop = false) (hprice : no.kind = .limit → 0 < no.price) :
    Sound b' none ∧ ∀ e ∈ events, e.rejects = false := by
  have hleft : ∀ {o : Order}, b.order slot = .ok o → o.remaining = left := fun ho' =>
    congrArg Order.remaining
      (Option.some.inj ((coreOf_of_slot? (slot?_of_order ho')).symm.trans ho))
  cases settle_cases h with
  | @closed o b₁ _ _ _ hremoved =>
    exact ⟨show Sound b₁ none from hb.remove hremoved, by simp [OutputEvent.rejects]⟩
  | rested ho' hopen hlimit hrested =>
    rw [hleft ho'] at hopen
    have hwants : left ≠ 0 := by
      rintro rfl
      refine hopen ⟨?_, rfl⟩
      rw [UInt64.toNat_zero, Nat.add_zero] at hsum
      rw [gt_iff_lt, UInt64.lt_iff_toNat_lt, hsum, UInt64.toNat_zero]
      exact Nat.pos_of_ne_zero (toNat_ne_zero.2 hqty)
    have hb₀ : Sound b none := hb.reveal fun x hx => by
      cases ho.symm.trans hx
      exact ⟨hwants, .inr ⟨.inl hlimit, hprice hlimit⟩⟩
    have hindexed : Sound (b.setIndex (b.idIndex.insert no.id ⟨no.price, no.side, slot⟩)) none :=
      hb₀
    refine ⟨hindexed.rewired (Rewired.insertResting hrested), ?_⟩
    split <;> simp [OutputEvent.rejects]
  | dropped _ _ _ hremoved =>
    refine ⟨hb.remove hremoved, ?_⟩
    split <;> simp [OutputEvent.rejects]
  | left _ hstop =>
    rw [hkind] at hstop
    cases hstop

end Matching

end Exchange
