import Mathlib.Logic.Relator
import Exchange.Lib.Lockstep
import Exchange.Verify.Step

/-!
# The book does not depend on its slot numbers

Two books are alike up to a one-to-one relation of slots when they hold the same
orders in the same queues, under the same index and the same stop maps, and will
hand out related slots. Every operation takes alike books to alike books in
lockstep and pushes the same events, so alike books have the same runs.
-/

namespace Exchange

open Lockstep

section Definitions

variable (R : Nat → Nat → Prop)

/-- Orders that the matcher does not tell apart. -/
structure Order.Alike (o o' : Order) : Prop where
  id : o'.id = o.id
  side : o'.side = o.side
  kind : o'.kind = o.kind
  tif : o'.tif = o.tif
  price : o'.price = o.price
  stopPrice : o'.stopPrice = o.stopPrice
  remaining : o'.remaining = o.remaining
  next : Option.Rel R o.next o'.next
  prev : Option.Rel R o.prev o'.prev

/-- Levels with related ends; the count is read by nothing. -/
structure PriceLevel.Alike (l l' : PriceLevel) : Prop where
  head : Option.Rel R l.head l'.head
  tail : Option.Rel R l.tail l'.tail
  totalQty : l'.totalQty = l.totalQty

structure Location.Alike (loc loc' : Location) : Prop where
  price : loc'.price = loc.price
  side : loc'.side = loc.side
  slot : R loc.slot loc'.slot

variable {A : Type} [Slab A Order] [StackSlab A Order]

/-- Related slots hold orders that are alike, and the slots to come are related. -/
structure ArenaAlike (a a' : A) : Prop where
  slot : ∀ s s', R s s' → Option.Rel (Order.Alike R) (Slab.get? a s) (Slab.get? a' s')
  vacant : ∀ i, R (StackSlab.vacant a i) (StackSlab.vacant a' i)

structure OrderBook.Alike (b b' : OrderBook A) : Prop where
  arena : ArenaAlike R b.arena b'.arena
  level : ∀ side p, Option.Rel (PriceLevel.Alike R) (b.level? side p) (b'.level? side p)
  index : ∀ id : OrderId, Option.Rel (Location.Alike R) b.idIndex[id]? b'.idIndex[id]?
  stops : ∀ side (t : Price), Option.Rel (List.Forall₂ R) (b.stops side)[t]? (b'.stops side)[t]?
  lastTrade : b'.lastTrade = b.lastTrade

/-- Alike books, returned with the same data. -/
def AlikeWith {γ : Type} (r r' : OrderBook A × γ) : Prop := r.1.Alike R r'.1 ∧ r'.2 = r.2

end Definitions

variable {A : Type} [Slab A Order] [StackSlab A Order] {R : Nat → Nat → Prop}
  {b b' : OrderBook A} {s s' : Nat} {o o' : Order}

theorem rel_isSome {α β : Type} {P : α → β → Prop} {x : Option α} {y : Option β}
    (h : Option.Rel P x y) : y.isSome = x.isSome := by
  cases h with
  | none => rfl
  | some _ => rfl

theorem rel_isNone {α β : Type} {P : α → β → Prop} {x : Option α} {y : Option β}
    (h : Option.Rel P x y) : y.isNone = x.isNone := by
  cases h with
  | none => rfl
  | some _ => rfl

/-- A slot of a pair is the slot of another pair on both sides or on neither. -/
theorem BiUnique.eq_iff (hR : Relator.BiUnique R) {t t' : Nat} (hs : R s s') (ht : R t t') :
    t' = s' ↔ t = s :=
  ⟨fun e => hR.1 (e ▸ ht) hs, fun e => hR.2 (e ▸ ht) hs⟩

theorem BiUnique.rel_eq_iff (hR : Relator.BiUnique R) {t t' : Option Nat}
    (ht : Option.Rel R t t') (hs : R s s') : t' = some s' ↔ t = some s := by
  cases ht with
  | none => simp
  | some ht => simpa using BiUnique.eq_iff hR hs ht

/-! ## The arena -/

namespace ArenaAlike

variable {a a' : A}

theorem vacantKey (h : ArenaAlike R a a') : R (Slab.vacantKey a) (Slab.vacantKey a') := by
  have h := h.vacant 0
  rwa [StackSlab.vacant_zero, StackSlab.vacant_zero] at h

theorem occupied (h : ArenaAlike R a a') (hs : R s s') (ho : (Slab.get? a s).isSome) :
    (Slab.get? a' s').isSome :=
  (rel_isSome (h.slot s s' hs)).trans ho

variable (hR : Relator.BiUnique R)
include hR

theorem insert (h : ArenaAlike R a a') (ho : Order.Alike R o o') :
    ArenaAlike R (Slab.insert a o) (Slab.insert a' o') := by
  refine ⟨fun t t' ht => ?_, fun i => ?_⟩
  · rw [Slab.get?_insert, Slab.get?_insert]
    have hiff := BiUnique.eq_iff hR h.vacantKey ht
    by_cases he : t = Slab.vacantKey a
    · rw [if_pos he, if_pos (hiff.2 he)]
      exact .some ho
    · rw [if_neg he, if_neg fun e => he (hiff.1 e)]
      exact h.slot t t' ht
  · rw [StackSlab.vacant_insert, StackSlab.vacant_insert]
    exact h.vacant (i + 1)

theorem set (h : ArenaAlike R a a') (hs : R s s') (hocc : (Slab.get? a s).isSome)
    (ho : Order.Alike R o o') : ArenaAlike R (Slab.set a s o) (Slab.set a' s' o') := by
  have hocc' := h.occupied hs hocc
  refine ⟨fun t t' ht => ?_, fun i => ?_⟩
  · rw [Slab.get?_set a s o t hocc, Slab.get?_set a' s' o' t' hocc']
    have hiff := BiUnique.eq_iff hR hs ht
    by_cases he : t = s
    · rw [if_pos he, if_pos (hiff.2 he)]
      exact .some ho
    · rw [if_neg he, if_neg fun e => he (hiff.1 e)]
      exact h.slot t t' ht
  · rw [StackSlab.vacant_set a s o i hocc, StackSlab.vacant_set a' s' o' i hocc']
    exact h.vacant i

theorem remove (h : ArenaAlike R a a') (hs : R s s') (hocc : (Slab.get? a s).isSome) :
    ArenaAlike R (Slab.remove a s) (Slab.remove a' s') := by
  have hocc' := h.occupied hs hocc
  refine ⟨fun t t' ht => ?_, fun i => ?_⟩
  · rw [Slab.get?_remove a s t hocc, Slab.get?_remove a' s' t' hocc']
    have hiff := BiUnique.eq_iff hR hs ht
    by_cases he : t = s
    · rw [if_pos he, if_pos (hiff.2 he)]
      exact .none
    · rw [if_neg he, if_neg fun e => he (hiff.1 e)]
      exact h.slot t t' ht
  · cases i with
    | zero =>
      rw [StackSlab.vacant_remove_zero a s hocc, StackSlab.vacant_remove_zero a' s' hocc']
      exact hs
    | succ i =>
      rw [StackSlab.vacant_remove_succ a s i hocc, StackSlab.vacant_remove_succ a' s' i hocc']
      exact h.vacant i

end ArenaAlike

/-! ## Updates of the book -/

namespace OrderBook.Alike

variable {side : Side} {p : Price}

section Updates

variable (h : b.Alike R b')
include h

theorem setArena {a a' : A} (ha : ArenaAlike R a a') :
    (b.setArena a).Alike R (b'.setArena a') := by
  refine ⟨ha, fun side p => ?_, h.index, fun side t => ?_, h.lastTrade⟩
  · rw [level?_setArena, level?_setArena]
    exact h.level side p
  · rw [stops_setArena, stops_setArena]
    exact h.stops side t

theorem setIndex_insert {loc loc' : Location} (id : OrderId) (hloc : Location.Alike R loc loc') :
    (b.setIndex (b.idIndex.insert id loc)).Alike R (b'.setIndex (b'.idIndex.insert id loc')) := by
  refine ⟨h.arena, fun side p => ?_, fun id' => ?_, fun side t => ?_, h.lastTrade⟩
  · rw [level?_setIndex, level?_setIndex]
    exact h.level side p
  · change Option.Rel _ (b.idIndex.insert id loc)[id']? (b'.idIndex.insert id loc')[id']?
    rw [OrderedMap.getElem?_insert, OrderedMap.getElem?_insert]
    split
    · exact .some hloc
    · exact h.index id'
  · rw [stops_setIndex, stops_setIndex]
    exact h.stops side t

theorem setIndex_erase (id : OrderId) :
    (b.setIndex (b.idIndex.erase id)).Alike R (b'.setIndex (b'.idIndex.erase id)) := by
  refine ⟨h.arena, fun side p => ?_, fun id' => ?_, fun side t => ?_, h.lastTrade⟩
  · rw [level?_setIndex, level?_setIndex]
    exact h.level side p
  · change Option.Rel _ (b.idIndex.erase id)[id']? (b'.idIndex.erase id)[id']?
    rw [OrderedMap.getElem?_erase, OrderedMap.getElem?_erase]
    split
    · exact .none
    · exact h.index id'
  · rw [stops_setIndex, stops_setIndex]
    exact h.stops side t

theorem setLastTrade (p : Price) : (b.setLastTrade p).Alike R (b'.setLastTrade p) := by
  refine ⟨h.arena, fun side p => ?_, h.index, fun side t => ?_, rfl⟩
  · rw [level?_setLastTrade, level?_setLastTrade]
    exact h.level side p
  · rw [stops_setLastTrade, stops_setLastTrade]
    exact h.stops side t

theorem putLevel (side : Side) (p : Price) {l l' : PriceLevel} (hl : PriceLevel.Alike R l l') :
    (b.putLevel side p l).Alike R (b'.putLevel side p l') := by
  refine ⟨h.arena, fun side' p' => ?_, h.index, fun side' t => ?_, h.lastTrade⟩
  · rw [level?_putLevel, level?_putLevel]
    split
    · exact .some hl
    · exact h.level side' p'
  · rw [stops_putLevel, stops_putLevel]
    exact h.stops side' t

theorem eraseLevel (side : Side) (p : Price) :
    (b.eraseLevel side p).Alike R (b'.eraseLevel side p) := by
  refine ⟨h.arena, fun side' p' => ?_, h.index, fun side' t => ?_, h.lastTrade⟩
  · rw [level?_eraseLevel, level?_eraseLevel]
    split
    · exact .none
    · exact h.level side' p'
  · rw [stops_eraseLevel, stops_eraseLevel]
    exact h.stops side' t

theorem setStops (side : Side) {m m' : StopMap side}
    (hm : ∀ t : Price, Option.Rel (List.Forall₂ R) m[t]? m'[t]?) :
    (b.setStops side m).Alike R (b'.setStops side m') := by
  refine ⟨h.arena, fun side' p' => ?_, h.index, fun side' t => ?_, h.lastTrade⟩
  · cases side'
    · exact h.level .buy p'
    · exact h.level .sell p'
  · cases side
    · cases side'
      · exact hm t
      · exact h.stops .sell t
    · cases side'
      · exact h.stops .buy t
      · exact hm t

/-! ## Reads -/

/-- Related slots are both vacant, or hold orders that are alike. -/
theorem slot_cases (hs : R s s') :
    (Slab.get? b.arena s = none ∧ Slab.get? b'.arena s' = none) ∨
      ∃ o o', Slab.get? b.arena s = some o ∧ Slab.get? b'.arena s' = some o' ∧
        Order.Alike R o o' := by
  have hslot := h.arena.slot s s' hs
  generalize Slab.get? b.arena s = x, Slab.get? b'.arena s' = y at hslot ⊢
  cases hslot with
  | none => exact .inl ⟨rfl, rfl⟩
  | some hoo => exact .inr ⟨_, _, rfl, rfl, hoo⟩

theorem order (hs : R s s') : Lockstep (Order.Alike R) (b.order s) (b'.order s') := by
  unfold OrderBook.order OrderBook.slot?
  rcases h.slot_cases hs with ⟨hnone, hnone'⟩ | ⟨o, o', ho, ho', hoo⟩
  · rw [hnone, hnone']
    exact .error _ _
  · rw [ho, ho']
    exact .ok hoo

theorem level_getD (side : Side) (p : Price) :
    PriceLevel.Alike R ((b.level? side p).getD .new) ((b'.level? side p).getD .new) := by
  have hl := h.level side p
  generalize b.level? side p = x at hl ⊢
  generalize b'.level? side p = y at hl ⊢
  cases hl with
  | none => exact ⟨.none, .none, rfl⟩
  | some hl => exact hl

theorem levels_toList (side : Side) :
    List.Forall₂ (fun e e' => e.1 = e'.1 ∧ PriceLevel.Alike R e.2 e'.2)
      (b.levels side).toList (b'.levels side).toList :=
  OrderedMap.forall₂_toList (h.level side)

/-- The best levels are at the same price. -/
theorem best? (side : Side) :
    Option.Rel (fun e e' => e.1 = e'.1 ∧ PriceLevel.Alike R e.2 e'.2)
      (b.best? side) (b'.best? side) := by
  have hl := h.levels_toList side
  unfold OrderBook.best? OrderedMap.first?
  generalize (b.levels side).toList = l at hl ⊢
  generalize (b'.levels side).toList = l' at hl ⊢
  cases hl with
  | nil => exact .none
  | cons he _ => exact .some he

end Updates

/-! ## Writes through the arena -/

section Surgery

variable (hR : Relator.BiUnique R) (h : b.Alike R b')
include hR h

theorem modifyOrder (hs : R s s') {f f' : Order → Order}
    (hf : ∀ o o', Order.Alike R o o' → Order.Alike R (f o) (f' o')) :
    Lockstep (OrderBook.Alike R) (b.modifyOrder s f) (b'.modifyOrder s' f') := by
  unfold OrderBook.modifyOrder OrderBook.order OrderBook.slot?
  rcases h.slot_cases hs with ⟨hnone, hnone'⟩ | ⟨o, o', ho, ho', hoo⟩
  · rw [hnone, hnone']
    exact .error _ _
  · have hocc : (Slab.get? b.arena s).isSome := by rw [ho]; rfl
    rw [ho, ho']
    exact .ok (h.setArena (h.arena.set hR hs hocc (hf _ _ hoo)))

theorem modifyLinked {t t' : Option Nat} (ht : Option.Rel R t t') {f f' : Order → Order}
    (hf : ∀ o o', Order.Alike R o o' → Order.Alike R (f o) (f' o')) :
    Lockstep (OrderBook.Alike R) (b.modifyLinked t f) (b'.modifyLinked t' f') := by
  cases ht with
  | none => exact .ok h
  | some hs => exact h.modifyOrder hR hs hf

theorem removeOrder (hs : R s s') :
    Lockstep (OrderBook.Alike R) (b.removeOrder s) (b'.removeOrder s') := by
  unfold OrderBook.removeOrder OrderBook.order OrderBook.slot?
  rcases h.slot_cases hs with ⟨hnone, hnone'⟩ | ⟨o, o', ho, ho', -⟩
  · rw [hnone, hnone']
    exact .error _ _
  · have hocc : (Slab.get? b.arena s).isSome := by rw [ho]; rfl
    rw [ho, ho']
    exact .ok (h.setArena (h.arena.remove hR hs hocc))

/-! ## Surgeries on the levels -/

theorem insertResting (hs : R s s') :
    Lockstep (OrderBook.Alike R) (b.insertResting s) (b'.insertResting s') := by
  unfold OrderBook.insertResting
  refine (h.order hs).bind fun o o' ho => ?_
  dsimp only
  rw [ho.side, ho.price, ho.remaining]
  have hl := h.level_getD o.side o.price
  generalize (b.level? o.side o.price).getD .new = l at hl ⊢
  generalize (b'.level? o.side o.price).getD .new = l' at hl ⊢
  have hpush : PriceLevel.Alike R (l.pushBack s o.remaining) (l'.pushBack s' o.remaining) := by
    refine ⟨?_, .some hs, ?_⟩
    · unfold PriceLevel.pushBack
      rw [rel_isNone hl.tail]
      split
      · exact .some hs
      · exact hl.head
    · unfold PriceLevel.pushBack
      rw [hl.totalQty]
  refine ((h.putLevel o.side o.price hpush).modifyOrder hR hs fun x x' hx => ?_).bind
    fun b₁ b₁' h₁ => ?_
  · exact { hx with prev := hl.tail, next := .none }
  · exact h₁.modifyLinked hR hl.tail fun x x' hx => { hx with next := .some hs }

theorem popHead (side : Side) (p : Price) :
    Lockstep (fun r r' => Option.Rel R r.1 r'.1 ∧ r.2.Alike R r'.2)
      (b.popHead side p) (b'.popHead side p) := by
  have hl := h.level side p
  unfold OrderBook.popHead
  generalize b.level? side p = x at hl ⊢
  generalize b'.level? side p = y at hl ⊢
  cases hl with
  | none => exact .ok ⟨.none, h⟩
  | @some l l' hl =>
    have hhead := hl.head
    have htail := hl.tail
    dsimp only
    cases hx : l.head with
    | none =>
      rw [hx] at hhead
      generalize l'.head = y at hhead ⊢
      cases hhead
      exact .ok ⟨.none, h⟩
    | some s =>
      rw [hx] at hhead
      cases hy : l'.head with
      | none =>
        rw [hy] at hhead
        cases hhead
      | some s' =>
        rw [hy] at hhead
        cases hhead with
        | some hs =>
          refine (h.order hs).bind fun o o' ho => ?_
          rw [ho.remaining, rel_isNone ho.next]
          have hpop : PriceLevel.Alike R
              { l.popFront o.remaining with
                head := o.next
                tail := if o.next.isNone then none else (l.popFront o.remaining).tail }
              { l'.popFront o.remaining with
                head := o'.next
                tail := if o.next.isNone then none else (l'.popFront o.remaining).tail } := by
            unfold PriceLevel.popFront
            rw [hx, hy]
            refine ⟨ho.next, ?_, ?_⟩
            · dsimp only [Option.isNone_some]
              split
              · exact .none
              · exact htail
            · simp [hl.totalQty]
          refine ((h.putLevel side p hpop).modifyLinked hR ho.next fun x x' hx => ?_).bind
            fun b₁ b₁' h₁ => ?_
          · exact { hx with prev := .none }
          · exact .ok ⟨.some hs, h₁⟩

omit hR in
theorem removeEmpty (side : Side) (p : Price) :
    (b.removeEmpty side p).Alike R (b'.removeEmpty side p) := by
  have hl := h.level side p
  have hany : (b'.level? side p).any (·.isEmpty) = (b.level? side p).any (·.isEmpty) := by
    generalize b.level? side p = x at hl ⊢
    generalize b'.level? side p = y at hl ⊢
    cases hl with
    | none => rfl
    | some hl => exact rel_isNone hl.head
  unfold OrderBook.removeEmpty
  rw [hany]
  split
  · exact h.eraseLevel side p
  · exact h

theorem removeSlot (hs : R s s') (side : Side) (p : Price) (qty : Qty) :
    Lockstep (OrderBook.Alike R) (b.removeSlot s side p qty) (b'.removeSlot s' side p qty) := by
  unfold OrderBook.removeSlot
  refine (h.order hs).bind fun o o' ho => ?_
  dsimp only
  refine (h.modifyLinked hR ho.prev fun x x' hx => ?_).bind fun b₁ b₁' h₁ => ?_
  · exact { hx with next := ho.next }
  refine (h₁.modifyLinked hR ho.next fun x x' hx => ?_).bind fun b₂ b₂' h₂ => ?_
  · exact { hx with prev := ho.prev }
  have hl := h₂.level side p
  generalize b₂.level? side p = x at hl ⊢
  generalize b₂'.level? side p = y at hl ⊢
  cases hl with
  | none => exact .ok h₂
  | @some l l' hl =>
    dsimp only
    have hrem : PriceLevel.Alike R ((l.bypass s o.prev o.next).remove qty)
        ((l'.bypass s' o'.prev o'.next).remove qty) := by
      rw [PriceLevel.bypass_eq, PriceLevel.bypass_eq]
      have hhead := BiUnique.rel_eq_iff hR hl.head hs
      have htail := BiUnique.rel_eq_iff hR hl.tail hs
      refine ⟨?_, ?_, ?_⟩
      · dsimp only [PriceLevel.remove]
        by_cases he : l.head = some s
        · rw [if_pos he, if_pos (hhead.2 he)]
          exact ho.next
        · rw [if_neg he, if_neg fun e => he (hhead.1 e)]
          exact hl.head
      · dsimp only [PriceLevel.remove]
        by_cases he : l.tail = some s
        · rw [if_pos he, if_pos (htail.2 he)]
          exact ho.prev
        · rw [if_neg he, if_neg fun e => he (htail.1 e)]
          exact hl.tail
      · dsimp only [PriceLevel.remove]
        rw [hl.totalQty]
    have hempty : ((l'.bypass s' o'.prev o'.next).remove qty).isEmpty =
        ((l.bypass s o.prev o.next).remove qty).isEmpty := rel_isNone hrem.head
    refine .ok ?_
    rw [hempty]
    split
    · exact h₂.eraseLevel side p
    · exact h₂.putLevel side p hrem

theorem reinsertAtHead (hs : R s s') (p : Price) (side : Side) :
    Lockstep (OrderBook.Alike R) (Exchange.reinsertAtHead b s p side)
      (Exchange.reinsertAtHead b' s' p side) := by
  unfold Exchange.reinsertAtHead
  refine (h.modifyOrder hR hs fun x x' hx => ?_).bind fun b₁ b₁' h₁ => ?_
  · exact { hx with prev := .none }
  refine (h₁.order hs).bind fun o o' ho => ?_
  dsimp only
  have hl := h₁.level_getD side p
  generalize (b₁.level? side p).getD .new = l at hl ⊢
  generalize (b₁'.level? side p).getD .new = l' at hl ⊢
  rw [ho.remaining, rel_isNone hl.tail]
  have hlevel : PriceLevel.Alike R
      ⟨some s, if l.tail.isNone then some s else l.tail, l.totalQty + o.remaining, l.count + 1⟩
      ⟨some s', if l.tail.isNone then some s' else l'.tail, l'.totalQty + o.remaining,
        l'.count + 1⟩ := by
    refine ⟨.some hs, ?_, ?_⟩
    · dsimp only
      split
      · exact .some hs
      · exact hl.tail
    · rw [hl.totalQty]
  refine ((h₁.putLevel side p hlevel).modifyOrder hR hs fun x x' hx => ?_).bind
    fun b₂ b₂' h₂ => ?_
  · exact { hx with next := hl.head }
  · exact h₂.modifyLinked hR hl.head fun x x' hx => { hx with prev := .some hs }

end Surgery

end OrderBook.Alike

end Exchange
