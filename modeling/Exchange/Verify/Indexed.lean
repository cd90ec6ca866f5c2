import Exchange.Verify.Maintained

/-!
# The id index locates orders

On every reachable book, stop orders included, the slot of an index entry holds an
order of the entry's id, although the links of the book may no longer be what they
should be.
-/

namespace Exchange

open Fuel

variable {A : Type} [Slab A Order] {b b' : OrderBook A} {no : NewOrder} {seq : Seq} {ts : Ts}
  {events : List OutputEvent} {o : Order} {s : Nat}

/-! ## Index entries -/

/-- Every index entry locates an order with its id, other than the one being matched. -/
def Indexed (b : OrderBook A) (taker : Option Nat) : Prop :=
  ∀ (id : OrderId) loc, b.idIndex[id]? = some loc →
    taker ≠ some loc.slot ∧ ∃ o, coreOf b.arena loc.slot = some o ∧ o.id = id

namespace Indexed

theorem weaken {taker : Option Nat} (hb : Indexed b taker) : Indexed b none :=
  fun id loc hloc => ⟨nofun, (hb id loc hloc).2⟩

theorem rewired {taker : Option Nat} (hb : Indexed b taker) (h : Rewired b b') :
    Indexed b' taker := by
  intro id loc hloc
  rw [h.idIndex] at hloc
  rw [h.core]
  exact hb id loc hloc

theorem erase {taker : Option Nat} (hb : Indexed b taker) (id : OrderId) :
    Indexed (b.setIndex (b.idIndex.erase id)) taker := by
  intro id' loc hloc
  have hloc := (OrderedMap.getElem?_erase b.idIndex id id').symm.trans hloc
  split at hloc
  · cases hloc
  · exact hb id' loc hloc

/-- Once an id is erased its slot is nobody's. -/
theorem release (hb : Indexed b none) (ho : coreOf b.arena s = some o) :
    Indexed (b.setIndex (b.idIndex.erase o.id)) (some s) := by
  intro id loc hloc
  have hloc := (OrderedMap.getElem?_erase b.idIndex o.id id).symm.trans hloc
  split at hloc
  · cases hloc
  · next hne =>
    obtain ⟨-, x, hx, hid⟩ := hb id loc hloc
    refine ⟨fun e => hne ?_, x, hx, hid⟩
    cases ho.symm.trans (Option.some.inj e ▸ hx)
    exact hid.symm

theorem enter (hb : Indexed b none) (o : Order) :
    Indexed (b.setArena (Slab.insert b.arena o)) (some (Slab.vacantKey b.arena)) := by
  intro id loc hloc
  obtain ⟨-, x, hx, hid⟩ := hb id loc hloc
  have hne : loc.slot ≠ Slab.vacantKey b.arena := by
    intro e
    rw [e, coreOf_vacantKey] at hx
    cases hx
  refine ⟨fun e => hne (Option.some.inj e).symm, x, ?_, hid⟩
  rw [OrderBook.arena_setArena, coreOf_insert, Function.update_of_ne hne]
  exact hx

theorem remove (hb : Indexed b (some s)) (h : b.removeOrder s = .ok b') : Indexed b' none := by
  have hcore := removeOrder_core h
  obtain ⟨o, -, rfl⟩ := removeOrder_inv h
  intro id loc hloc
  obtain ⟨hne, x, hx, hid⟩ := hb id loc hloc
  refine ⟨nofun, x, ?_, hid⟩
  rw [hcore, Function.update_of_ne fun e => hne (congrArg some e.symm)]
  exact hx

/-- Indexing the order in slot `s`. -/
theorem insert {taker : Option Nat} (hb : Indexed b taker) (ho : coreOf b.arena s = some o)
    (p : Price) (side : Side) :
    Indexed (b.setIndex (b.idIndex.insert o.id ⟨p, side, s⟩)) none := by
  intro id loc hloc
  have hloc := (OrderedMap.getElem?_insert b.idIndex o.id id _).symm.trans hloc
  split at hloc
  · next he =>
    cases hloc
    exact ⟨nofun, o, ho, he.symm⟩
  · exact hb.weaken id loc hloc

/-! ## Matching -/

section Matching

variable {t : Aggressor} {qty total total' : Qty}

/-- A filled maker leaves the index with the arena, a reduced one stays in both. -/
theorem tradeWith {makerSlot : Nat} {p : Price} (hne : makerSlot ≠ t.slot)
    (h : tradeWith b t makerSlot p seq ts = .ok (b', qty, events)) (hb : Indexed b (some t.slot)) :
    Indexed b' (some t.slot) ∧ ∃ taker left, coreOf b.arena t.slot = some taker ∧
      coreOf b'.arena t.slot = some { taker with remaining := left } := by
  obtain ⟨taker, maker, htaker, hmaker, -, hcore, hindex, -⟩ := tradeWith_inv hne h
  refine ⟨fun id loc hloc => ?_, taker, taker.remaining - qty, htaker, ?_⟩
  · rw [hindex] at hloc
    have hold : b.idIndex[id]? = some loc ∧ (maker.remaining - qty = 0 → id ≠ maker.id) := by
      split at hloc
      · rw [OrderedMap.getElem?_erase] at hloc
        split at hloc
        · cases hloc
        · next hid => exact ⟨hloc, fun _ => hid⟩
      · next hleft => exact ⟨hloc, fun hz => absurd hz hleft⟩
    obtain ⟨hloc, hid⟩ := hold
    obtain ⟨hslot, x, hx, hxid⟩ := hb id loc hloc
    refine ⟨hslot, ?_⟩
    rw [hcore]
    by_cases hm : loc.slot = makerSlot
    · rw [hm, hmaker] at hx
      cases hx
      rw [hm, Function.update_self, if_neg fun hz => hid hz hxid.symm]
      exact ⟨_, rfl, hxid⟩
    · rw [Function.update_of_ne hm,
        Function.update_of_ne fun e => hslot (congrArg some e.symm)]
      exact ⟨x, hx, hxid⟩
  · rw [hcore, Function.update_of_ne hne.symm, Function.update_self]

theorem matchLoop {fuel : Nat} (h : matchLoop t seq ts fuel b total = .ok (b', total', events))
    (hb : Indexed b (some t.slot)) (ho : coreOf b.arena t.slot = some o) :
    Indexed b' (some t.slot) ∧ ∃ o', coreOf b'.arena t.slot = some o' ∧ o'.id = o.id := by
  induction fuel generalizing b total o events with
  | zero => cases h
  | succ fuel ih =>
    cases matchLoop_cases h with
    | done => exact ⟨hb, o, ho, rfl⟩
    | traded hstep hloop =>
      rcases matchStep_cases hstep with hs | ⟨b₀, makerSlot, p, hrewired, hne, htrade⟩
      · exact absurd hloop (hs.matchLoop_ne_ok fuel _)
      obtain ⟨hb₁, taker, left, htaker, ho₁⟩ := (hb.rewired hrewired).tradeWith hne htrade
      rw [hrewired.core] at htaker
      cases ho.symm.trans htaker
      obtain ⟨hb', o', ho', hid⟩ := ih hloop hb₁ ho₁
      exact ⟨hb', o', ho', hid⟩

theorem restOrder {slot : Nat} (h : restOrder b no slot = .ok b') (hb : Indexed b (some slot))
    (ho : coreOf b.arena slot = some o) (hid : o.id = no.id) : Indexed b' none := by
  have hb₁ := hb.insert ho no.price no.side
  rw [hid] at hb₁
  exact hb₁.rewired (Rewired.insertResting h)

theorem settle {slot : Nat} {filled : Qty} (h : settle b no slot filled seq = .ok (b', events))
    (hb : Indexed b (some slot)) (ho : coreOf b.arena slot = some o) (hid : o.id = no.id) :
    Indexed b' none := by
  cases settle_cases h with
  | closed _ _ _ hremoved => exact (hb.remove hremoved).erase no.id
  | rested _ _ _ hrested => exact hb.restOrder hrested ho hid
  | dropped _ _ _ hremoved => exact hb.remove hremoved
  | left _ _ => exact hb.weaken

theorem execute {fuel : Nat} (hb : Indexed b none)
    (h : execute fuel b no seq ts = .ok (b', events)) : Indexed b' none := by
  obtain ⟨o, b₁, filled, fills, closing, hloop, hsettle, rfl⟩ := execute_calls h
  have ho : coreOf (Slab.insert b.arena (no.toOrder seq ts)) (Slab.vacantKey b.arena) =
      some (no.toOrder seq ts) := by
    rw [coreOf_insert, Function.update_self]
    rfl
  obtain ⟨hb₁, o', ho', hid⟩ := (hb.enter (no.toOrder seq ts)).matchLoop hloop ho
  exact hb₁.settle hsettle ho' hid

end Matching

/-- The index locates orders whatever is done to the book. -/
theorem maintained : Maintained (A := A) fun b => Indexed b none where
  new _ _ _ _ hloc := by simp [OrderBook.new] at hloc
  execute hb _ _ h := hb.execute h
  holdStop {b no seq ts} hb _ _ := by
    have ho : coreOf (Slab.insert b.arena (no.toOrder seq ts)) (Slab.vacantKey b.arena) =
        some (no.toOrder seq ts) := by
      rw [coreOf_insert, Function.update_self]
      rfl
    exact (hb.enter (no.toOrder seq ts)).insert ho no.stopPrice no.side
  release hb ho h := (hb.release (coreOf_of_slot? ho)).remove h
  retain _ _ hb := hb
  takeOut {b id loc side p qty b₁ b'} hb hloc h₁ h₂ := by
    obtain ⟨-, o, ho, rfl⟩ := hb id loc hloc
    exact ((hb.release ho).rewired (Rewired.removeSlot h₁)).remove h₂

end Indexed

end Exchange
