import Exchange.Verify.Renaming

/-!
# Alike books have the same runs

The matcher over the surgeries of alike books: matching, settling, stop triggers,
cancel and replace proceed in lockstep and push the same events. An order may
differ in its symbol, which the matcher only copies.
-/

namespace Exchange

open Lockstep

variable {A : Type} [Slab A Order] [StackSlab A Order] {R : Nat → Nat → Prop}
  {b b' : OrderBook A} {s s' : Nat} {o o' : Order} {seq : Seq} {ts : Ts}

theorem NewOrder.toOrder_alike (no : NewOrder) (symbol : SymbolId) :
    Order.Alike R (no.toOrder seq ts) ((NewOrder.toOrder { no with symbol := symbol }) seq ts) :=
  ⟨rfl, rfl, rfl, rfl, rfl, rfl, rfl, .none, .none⟩

theorem Order.Alike.activated_eq (h : Order.Alike R o o') :
    o'.activated = { o.activated with symbol := o'.symbol } := by
  simp only [Order.activated, h.id, h.side, h.kind, h.tif, h.price, h.remaining]

theorem Order.Alike.replacement_eq (h : Order.Alike R o o') (id : OrderId) (newPrice : Price)
    (newQty : Qty) : o'.replacement id newPrice newQty =
      { o.replacement id newPrice newQty with symbol := o'.symbol } := by
  simp only [Order.replacement, h.side, h.kind, h.tif]

namespace OrderBook.Alike

/-! ## Matching -/

section Matching

variable {t : Aggressor} {p : Price}

theorem tradeWith (hR : Relator.BiUnique R) (h : b.Alike R b') (ht : R t.slot s')
    {m m' : Nat} (hm : R m m') :
    Lockstep (AlikeWith R) (tradeWith b t m p seq ts)
      (tradeWith b' { t with slot := s' } m' p seq ts) := by
  unfold Exchange.tradeWith
  refine (h.order ht).bind fun taker taker' htaker => ?_
  refine (h.order hm).bind fun maker maker' hmaker => ?_
  dsimp only
  rw [htaker.remaining, hmaker.remaining]
  have hreduce : ∀ qty : Qty, ∀ x x', Order.Alike R x x' →
      Order.Alike R { x with remaining := x.remaining - qty }
        { x' with remaining := x'.remaining - qty } := fun qty x x' hx =>
    { hx with remaining := by dsimp only; rw [hx.remaining] }
  refine (h.modifyOrder hR ht (hreduce _)).bind fun b₁ b₁' h₁ => ?_
  refine (h₁.modifyOrder hR hm (hreduce _)).bind fun b₂ b₂' h₂ => ?_
  have h₃ := h₂.setLastTrade p
  refine (h₃.order ht).bind fun taker₁ taker₁' htaker₁ => ?_
  refine (h₃.order hm).bind fun maker₁ maker₁' hmaker₁ => ?_
  rw [htaker₁.id, hmaker₁.id, hmaker₁.remaining]
  refine Lockstep.ite Iff.rfl (fun _ => ?_) fun _ => ?_
  · refine ((h₃.setIndex_erase maker₁.id).removeOrder hR hm).bind fun b₄ b₄' h₄ => ?_
    exact .ok ⟨h₄.removeEmpty _ _, rfl⟩
  · exact (h₃.reinsertAtHead hR hm p _).bind fun b₄ b₄' h₄ => .ok ⟨h₄, rfl⟩

theorem matchStep (hR : Relator.BiUnique R) (h : b.Alike R b') (ht : R t.slot s') :
    Lockstep (Option.Rel (AlikeWith R)) (matchStep b t seq ts)
      (matchStep b' { t with slot := s' } seq ts) := by
  unfold Exchange.matchStep
  refine (h.order ht).bind fun o o' ho => ?_
  rw [ho.remaining]
  refine Lockstep.ite Iff.rfl (fun _ => .ok .none) fun _ => ?_
  have hbest := h.best? t.side.opposite
  generalize b.best? t.side.opposite = x at hbest ⊢
  dsimp only
  generalize b'.best? t.side.opposite = y at hbest ⊢
  cases hbest with
  | none => exact .ok .none
  | @some e e' he =>
    obtain ⟨p, l⟩ := e
    obtain ⟨p', l'⟩ := e'
    obtain ⟨rfl, -⟩ : p = p' ∧ _ := he
    refine Lockstep.ite Iff.rfl (fun _ => ?_) fun _ => .ok .none
    refine (h.popHead hR t.side.opposite p).bind fun r r' hr => ?_
    obtain ⟨popped, b₁⟩ := r
    obtain ⟨popped', b₁'⟩ := r'
    obtain ⟨hpop, h₁⟩ : Option.Rel R popped popped' ∧ b₁.Alike R b₁' := hr
    cases hpop with
    | none => exact .ok .none
    | some hm => exact (h₁.tradeWith hR ht hm).bind fun r r' hr => .ok (.some hr)

theorem matchLoop (hR : Relator.BiUnique R) (h : b.Alike R b') (ht : R t.slot s') (fuel : Nat)
    (total : Qty) :
    Lockstep (AlikeWith R) (matchLoop t seq ts fuel b total)
      (matchLoop { t with slot := s' } seq ts fuel b' total) := by
  induction fuel generalizing b b' total with
  | zero => exact .error _ _
  | succ fuel ih =>
    unfold Exchange.matchLoop
    refine (h.matchStep hR ht).bind fun r r' hr => ?_
    cases hr with
    | none => exact .ok ⟨h, rfl⟩
    | @some r r' hr =>
      obtain ⟨b₁, qty, events⟩ := r
      obtain ⟨b₁', qty', events'⟩ := r'
      obtain ⟨h₁, ⟨⟩⟩ := hr
      refine (ih h₁ (total + qty)).bind fun r r' hr => ?_
      obtain ⟨b₂, total₂, rest⟩ := r
      obtain ⟨b₂', total₂', rest'⟩ := r'
      obtain ⟨h₂, ⟨⟩⟩ := hr
      exact .ok ⟨h₂, rfl⟩

theorem matchOrder (hR : Relator.BiUnique R) (h : b.Alike R b') (hs : R s s') (fuel : Nat) :
    Lockstep (AlikeWith R) (matchOrder fuel b s seq ts) (matchOrder fuel b' s' seq ts) := by
  unfold Exchange.matchOrder
  refine (h.order hs).bind fun o o' ho => ?_
  rw [ho.side, ho.kind, ho.price]
  exact h.matchLoop (t := ⟨s, o.side, o.kind, o.price⟩) hR hs fuel 0

theorem availableQty_eq (h : b.Alike R b') (aggressor : Side) (limit : Price) :
    availableQty b' aggressor limit = availableQty b aggressor limit := by
  have hlevels := h.levels_toList aggressor.opposite
  unfold availableQty
  generalize (b.levels aggressor.opposite).toList = l at hlevels ⊢
  generalize (b'.levels aggressor.opposite).toList = l' at hlevels ⊢
  generalize (0 : Qty) = total
  induction hlevels generalizing total with
  | nil => rfl
  | @cons e e' l l' he _ ih =>
    rw [List.takeWhile_cons, List.takeWhile_cons, ← he.1]
    split
    · rw [List.foldl_cons, List.foldl_cons, he.2.totalQty]
      exact ih _
    · rfl

end Matching

/-! ## New orders -/

section NewOrders

variable (hR : Relator.BiUnique R) (h : b.Alike R b') (no : NewOrder) (symbol : SymbolId)

include h in
theorem validate_eq : validate b' { no with symbol := symbol } = validate b no := by
  have hcontains : b'.idIndex.contains no.id = b.idIndex.contains no.id := by
    rw [Bool.eq_iff_iff, Std.ExtTreeMap.contains_iff_mem, Std.ExtTreeMap.contains_iff_mem,
      Std.ExtTreeMap.mem_iff_isSome_getElem?, Std.ExtTreeMap.mem_iff_isSome_getElem?,
      rel_isSome (h.index no.id)]
  unfold validate
  rw [hcontains]

include hR h

theorem holdStop : (holdStop b no seq ts).Alike R
    (holdStop b' { no with symbol := symbol } seq ts) := by
  have hkey := h.arena.vacantKey
  have hentered : (no.toOrder seq ts).Alike R ({ no with symbol := symbol }.toOrder seq ts) :=
    no.toOrder_alike symbol
  have h₁ := h.setArena (h.arena.insert hR hentered)
  have hloc : Location.Alike R ⟨no.stopPrice, no.side, Slab.vacantKey b.arena⟩
      ⟨no.stopPrice, no.side, Slab.vacantKey b'.arena⟩ := ⟨rfl, rfl, hkey⟩
  have h₂ := h₁.setIndex_insert no.id hloc
  refine h₂.setStops no.side fun t => ?_
  rw [OrderedMap.getElem?_insert, OrderedMap.getElem?_insert]
  split
  · refine .some (List.rel_append ?_ (.cons hkey .nil))
    have hfiled := h₂.stops no.side no.stopPrice
    revert hfiled
    generalize (OrderBook.stops _ no.side)[no.stopPrice]? = x
    generalize (OrderBook.stops _ no.side)[no.stopPrice]? = y
    intro hfiled
    cases hfiled with
    | none => exact .nil
    | some hfiled => exact hfiled
  · exact h₂.stops no.side t

theorem restOrder (hs : R s s') : Lockstep (OrderBook.Alike R) (restOrder b no s)
    (restOrder b' { no with symbol := symbol } s') := by
  have hloc : Location.Alike R ⟨no.price, no.side, s⟩ ⟨no.price, no.side, s'⟩ := ⟨rfl, rfl, hs⟩
  exact (h.setIndex_insert no.id hloc).insertResting hR hs

theorem settle (hs : R s s') (filled : Qty) :
    Lockstep (AlikeWith R) (settle b no s filled seq)
      (settle b' { no with symbol := symbol } s' filled seq) := by
  unfold Exchange.settle
  refine (h.order hs).bind fun o o' ho => ?_
  dsimp only
  rw [ho.remaining]
  have hremove := h.removeOrder hR hs
  have hrest := h.restOrder hR no symbol hs
  have hcancelled : ∀ events : List OutputEvent, Lockstep (AlikeWith R)
      (do let b ← b.removeOrder s; return (b, events))
      (do let b ← b'.removeOrder s'; return (b, events)) := fun events =>
    hremove.bind fun b₁ b₁' h₁ => .ok ⟨h₁, rfl⟩
  have hrested : ∀ events : List OutputEvent, Lockstep (AlikeWith R)
      (do let b ← Exchange.restOrder b no s; return (b, events))
      (do let b ← Exchange.restOrder b' { no with symbol := symbol } s'; return (b, events)) :=
    fun events => hrest.bind fun b₁ b₁' h₁ => .ok ⟨h₁, rfl⟩
  refine Lockstep.ite Iff.rfl (fun _ => ?_) fun _ => Lockstep.ite Iff.rfl (fun _ => ?_) fun _ => ?_
  · exact hremove.bind fun b₁ b₁' h₁ => .ok ⟨h₁.setIndex_erase no.id, rfl⟩
  · exact Lockstep.ite Iff.rfl (fun _ => hrested _) fun _ => hcancelled _
  · cases no.kind with
    | limit => exact hrested _
    | market => exact hcancelled _
    | ioc => exact hcancelled _
    | fok => exact hcancelled _
    | stopMarket => exact .ok ⟨h, rfl⟩
    | stopLimit => exact .ok ⟨h, rfl⟩

theorem execute (fuel : Nat) :
    Lockstep (AlikeWith R) (execute fuel b no seq ts)
      (execute fuel b' { no with symbol := symbol } seq ts) := by
  unfold Exchange.execute
  have hkey := h.arena.vacantKey
  have hentered : (no.toOrder seq ts).Alike R ({ no with symbol := symbol }.toOrder seq ts) :=
    no.toOrder_alike symbol
  have h₁ := h.setArena (h.arena.insert hR hentered)
  refine (h₁.matchOrder hR hkey fuel).bind fun r r' hr => ?_
  obtain ⟨b₂, filled, fills⟩ := r
  obtain ⟨b₂', filled', fills'⟩ := r'
  obtain ⟨h₂, ⟨⟩⟩ := hr
  refine (h₂.settle hR no symbol hkey filled).bind fun r r' hr => ?_
  obtain ⟨b₃, closing⟩ := r
  obtain ⟨b₃', closing'⟩ := r'
  obtain ⟨h₃, ⟨⟩⟩ := hr
  exact .ok ⟨h₃, rfl⟩

end NewOrders

/-! ## Stop triggers -/

section Triggers

variable {resubmit : OrderBook A → NewOrder → Outcome (OrderBook A × List OutputEvent)}
  (hresubmit : ∀ (b b' : OrderBook A) no symbol, b.Alike R b' →
    Lockstep (AlikeWith R) (resubmit b no) (resubmit b' { no with symbol := symbol }))

theorem triggered (h : b.Alike R b') (side : Side) (last : Price) :
    List.Forall₂ R (b.triggered side last) (b'.triggered side last) := by
  have hstops := OrderedMap.forall₂_toList (h.stops side)
  unfold OrderBook.triggered
  generalize (b.stops side).toList = l at hstops ⊢
  generalize (b'.stops side).toList = l' at hstops ⊢
  induction hstops with
  | nil => exact .nil
  | @cons e e' l l' he _ ih =>
    rw [List.filter_cons, List.filter_cons, ← he.1]
    split
    · rw [List.flatMap_cons, List.flatMap_cons]
      exact List.rel_append he.2 ih
    · exact ih

theorem retainStops (h : b.Alike R b') (side : Side) (last : Price) :
    (b.retainStops side last).Alike R (b'.retainStops side last) := by
  refine h.setStops side fun t => ?_
  rw [OrderedMap.getElem?_filter, OrderedMap.getElem?_filter]
  split
  · exact h.stops side t
  · exact .none

include hresubmit

theorem activate (hR : Relator.BiUnique R) (h : b.Alike R b') (hs : R s s') :
    Lockstep (AlikeWith R) (activate resubmit b s) (activate resubmit b' s') := by
  unfold Exchange.activate OrderBook.slot?
  rcases h.slot_cases hs with ⟨hnone, hnone'⟩ | ⟨o, o', ho, ho', hoo⟩
  · rw [hnone, hnone']
    exact .ok ⟨h, rfl⟩
  · rw [ho, ho']
    dsimp only
    rw [hoo.id, hoo.activated_eq]
    refine ((h.setIndex_erase o.id).removeOrder hR hs).bind fun b₁ b₁' h₁ => ?_
    exact hresubmit _ _ _ _ h₁

theorem activateAll (hR : Relator.BiUnique R) {slots slots' : List Nat}
    (hslots : List.Forall₂ R slots slots') (h : b.Alike R b') :
    Lockstep (AlikeWith R) (activateAll resubmit slots b) (activateAll resubmit slots' b') := by
  induction hslots generalizing b b' with
  | nil => exact .ok ⟨h, rfl⟩
  | cons hs _ ih =>
    refine (h.activate hresubmit hR hs).bind fun r r' hr => ?_
    obtain ⟨b₁, events⟩ := r
    obtain ⟨b₁', events'⟩ := r'
    obtain ⟨h₁, ⟨⟩⟩ := hr
    refine (ih h₁).bind fun r r' hr => ?_
    obtain ⟨b₂, later⟩ := r
    obtain ⟨b₂', later'⟩ := r'
    obtain ⟨h₂, ⟨⟩⟩ := hr
    exact .ok ⟨h₂, rfl⟩

theorem triggerSide (hR : Relator.BiUnique R) (h : b.Alike R b') (side : Side) (last : Price) :
    Lockstep (AlikeWith R) (triggerSide resubmit b side last)
      (triggerSide resubmit b' side last) := by
  refine (activateAll hresubmit hR (h.triggered side last) h).bind fun r r' hr => ?_
  obtain ⟨b₁, events⟩ := r
  obtain ⟨b₁', events'⟩ := r'
  obtain ⟨h₁, ⟨⟩⟩ := hr
  exact .ok ⟨h₁.retainStops side last, rfl⟩

theorem triggerStops (hR : Relator.BiUnique R) (h : b.Alike R b') (last : Price) :
    Lockstep (AlikeWith R) (triggerStops resubmit b last) (triggerStops resubmit b' last) := by
  refine (h.triggerSide hresubmit hR .buy last).bind fun r r' hr => ?_
  obtain ⟨b₁, buys⟩ := r
  obtain ⟨b₁', buys'⟩ := r'
  obtain ⟨h₁, ⟨⟩⟩ := hr
  refine (h₁.triggerSide hresubmit hR .sell last).bind fun r r' hr => ?_
  obtain ⟨b₂, sells⟩ := r
  obtain ⟨b₂', sells'⟩ := r'
  obtain ⟨h₂, ⟨⟩⟩ := hr
  exact .ok ⟨h₂, rfl⟩

end Triggers

/-! ## Commands -/

section Commands

variable (hR : Relator.BiUnique R)
include hR

theorem applyNew (fuel : Nat) (h : b.Alike R b') (no : NewOrder) (symbol : SymbolId) :
    Lockstep (AlikeWith R) (applyNew seq ts fuel b no)
      (applyNew seq ts fuel b' { no with symbol := symbol }) := by
  induction fuel generalizing b b' no symbol with
  | zero => exact .error _ _
  | succ fuel ih =>
    unfold Exchange.applyNew
    rw [h.validate_eq]
    cases validate b no with
    | some reason => exact .ok ⟨h, rfl⟩
    | none =>
      dsimp only
      rw [h.availableQty_eq]
      refine Lockstep.ite Iff.rfl (fun _ => .ok ⟨h.holdStop hR no symbol, rfl⟩) fun _ =>
        Lockstep.ite Iff.rfl (fun _ => .ok ⟨h, rfl⟩) fun _ => ?_
      refine (h.execute hR no symbol fuel).bind fun r r' hr => ?_
      obtain ⟨b₁, events⟩ := r
      obtain ⟨b₁', events'⟩ := r'
      obtain ⟨h₁, ⟨⟩⟩ := hr
      dsimp only
      rw [h₁.lastTrade]
      cases b₁.lastTrade with
      | none => exact .ok ⟨h₁, rfl⟩
      | some last =>
        refine (h₁.triggerStops (fun _ _ no symbol h => ih h no symbol) hR last).bind
          fun r r' hr => ?_
        obtain ⟨b₂, triggered⟩ := r
        obtain ⟨b₂', triggered'⟩ := r'
        obtain ⟨h₂, ⟨⟩⟩ := hr
        exact .ok ⟨h₂, rfl⟩

theorem applyCancel (h : b.Alike R b') (id : OrderId) :
    Lockstep (AlikeWith R) (applyCancel b id seq) (applyCancel b' id seq) := by
  have hindex := h.index id
  unfold Exchange.applyCancel
  generalize b.idIndex[id]? = x at hindex ⊢
  generalize b'.idIndex[id]? = y at hindex ⊢
  cases hindex with
  | none => exact .ok ⟨h, rfl⟩
  | @some loc loc' hloc =>
    have h₁ := h.setIndex_erase id
    refine (h₁.order hloc.slot).bind fun o o' ho => ?_
    rw [hloc.side, hloc.price, ho.remaining]
    refine (h₁.removeSlot hR hloc.slot _ _ _).bind fun b₂ b₂' h₂ => ?_
    exact (h₂.removeOrder hR hloc.slot).bind fun b₃ b₃' h₃ => .ok ⟨h₃, rfl⟩

theorem applyReplace (fuel : Nat) (h : b.Alike R b') (id : OrderId) (newPrice : Price)
    (newQty : Qty) :
    Lockstep (AlikeWith R) (applyReplace fuel b id newPrice newQty seq ts)
      (applyReplace fuel b' id newPrice newQty seq ts) := by
  have hindex := h.index id
  unfold Exchange.applyReplace
  refine Lockstep.ite Iff.rfl (fun _ => .ok ⟨h, rfl⟩) fun _ => ?_
  generalize b.idIndex[id]? = x at hindex ⊢
  dsimp only
  generalize b'.idIndex[id]? = y at hindex ⊢
  cases hindex with
  | none => exact .ok ⟨h, rfl⟩
  | @some loc loc' hloc =>
    have h₁ := h.setIndex_erase id
    refine (h₁.order hloc.slot).bind fun o o' ho => ?_
    rw [hloc.price, ho.side, ho.remaining, ho.replacement_eq]
    refine (h₁.removeSlot hR hloc.slot _ _ _).bind fun b₂ b₂' h₂ => ?_
    refine (h₂.removeOrder hR hloc.slot).bind fun b₃ b₃' h₃ => ?_
    refine (h₃.applyNew hR fuel _ _).bind fun r r' hr => ?_
    obtain ⟨b₄, events⟩ := r
    obtain ⟨b₄', events'⟩ := r'
    obtain ⟨h₄, ⟨⟩⟩ := hr
    exact .ok ⟨h₄, rfl⟩

theorem applyWithin (fuel : Nat) (h : b.Alike R b') (cmd : Sequenced) :
    Lockstep (AlikeWith R) (applyWithin fuel b cmd) (applyWithin fuel b' cmd) := by
  obtain ⟨seq, ts, cmd⟩ := cmd
  cases cmd with
  | new no => exact h.applyNew hR fuel no no.symbol
  | cancel id symbol => exact h.applyCancel hR id
  | replace id newPrice newQty symbol => exact h.applyReplace hR fuel id newPrice newQty

end Commands

end OrderBook.Alike

/-! ## Runs -/

section Runs

variable (hR : Relator.BiUnique R) {log : List Entry} {b₁ b₁' : OrderBook A}
include hR

/-- **The same runs.** Every run of a book is a run, with the same events, of a book
that is alike. -/
theorem OrderBook.Alike.run (h : b.Alike R b') (hrun : Transition.Run ApplyStep b log b₁) :
    ∃ b₁', Transition.Run ApplyStep b' log b₁' ∧ b₁.Alike R b₁' := by
  refine Transition.Run.simulate h ?_ hrun
  rintro c c' e c₁ hc ⟨fuel, hstep⟩
  obtain ⟨⟨c₁', events⟩, happ, h₁, hevents⟩ := (hc.applyWithin hR fuel e.1).answer hstep
  cases hevents
  exact ⟨c₁', ⟨fuel, happ⟩, h₁⟩

theorem OrderBook.Alike.run_right (h : b.Alike R b')
    (hrun : Transition.Run ApplyStep b' log b₁') :
    ∃ b₁, Transition.Run ApplyStep b log b₁ ∧ b₁.Alike R b₁' := by
  refine Transition.Run.simulate (R := fun c' c => OrderBook.Alike R c c') h ?_ hrun
  rintro c' c e c₁' hc ⟨fuel, hstep⟩
  obtain ⟨⟨c₁, events⟩, happ, h₁, hevents⟩ := (hc.applyWithin hR fuel e.1).answer_right hstep
  cases hevents
  exact ⟨c₁, ⟨fuel, happ⟩, h₁⟩

end Runs

end Exchange
