import Exchange.Verify.Sound
import Exchange.Verify.Step

/-!
# Invariants of the book

What every elementary change of a book keeps holds of every reachable book, stop
orders included: a new order is executed or held, a triggered stop is released and
its entry dropped, and Cancel and Replace take an order out.
-/

namespace Exchange

open Fuel

variable {A : Type} [Slab A Order] {b b' : OrderBook A} {no : NewOrder} {seq : Seq} {ts : Ts}
  {events : List OutputEvent} {s : Nat} {I : OrderBook A → Prop}

/-! ## Stop triggers -/

section Triggers

variable {resubmit : OrderBook A → NewOrder → Outcome (OrderBook A × List OutputEvent)}
  {P : OutputEvent → Prop}
  (hactivate : ∀ {b s b' events}, I b → activate resubmit b s = .ok (b', events) →
    I b' ∧ ∀ e ∈ events, P e)
include hactivate

theorem activateAll_induct {slots : List Nat} (hb : I b)
    (h : activateAll resubmit slots b = .ok (b', events)) : I b' ∧ ∀ e ∈ events, P e := by
  induction slots generalizing b events with
  | nil =>
    cases h
    exact ⟨hb, nofun⟩
  | cons slot rest ih =>
    obtain ⟨⟨b₁, events₁⟩, hfirst, h⟩ := bind_eq_ok.1 h
    obtain ⟨⟨b₂, events₂⟩, hrest, h⟩ := bind_eq_ok.1 h
    cases h
    obtain ⟨hb₁, hP₁⟩ := hactivate hb hfirst
    obtain ⟨hb₂, hP₂⟩ := ih hb₁ hrest
    exact ⟨hb₂, List.forall_mem_append.2 ⟨hP₁, hP₂⟩⟩

variable (hretain : ∀ {b} side last, I b → I (b.retainStops side last))
include hretain

theorem triggerSide_induct {side : Side} {last : Price} (hb : I b)
    (h : triggerSide resubmit b side last = .ok (b', events)) : I b' ∧ ∀ e ∈ events, P e := by
  obtain ⟨⟨b₁, events₁⟩, hall, h⟩ := bind_eq_ok.1 h
  cases h
  obtain ⟨hb₁, hP₁⟩ := activateAll_induct hactivate hb hall
  exact ⟨hretain side last hb₁, hP₁⟩

/-- What activating and retaining keep, triggering keeps. -/
theorem triggerStops_induct {last : Price} (hb : I b)
    (h : triggerStops resubmit b last = .ok (b', events)) : I b' ∧ ∀ e ∈ events, P e := by
  obtain ⟨⟨b₁, buys⟩, hbuys, h⟩ := bind_eq_ok.1 h
  obtain ⟨⟨b₂, sells⟩, hsells, h⟩ := bind_eq_ok.1 h
  cases h
  obtain ⟨hb₁, hP₁⟩ := triggerSide_induct hactivate hretain hb hbuys
  obtain ⟨hb₂, hP₂⟩ := triggerSide_induct hactivate hretain hb₁ hsells
  exact ⟨hb₂, List.forall_mem_append.2 ⟨hP₁, hP₂⟩⟩

end Triggers

/-! ## Commands -/

/-- What each way to change the book keeps. -/
structure Maintained (I : OrderBook A → Prop) : Prop where
  new : ∀ symbol tick, I (OrderBook.new symbol tick)
  execute : ∀ {fuel : Nat} {b no seq ts b' events}, I b → validate b no = none →
    no.kind.isStop = false → execute fuel b no seq ts = .ok (b', events) → I b'
  holdStop : ∀ {b no seq ts}, I b → validate b no = none → no.kind.isStop = true →
    I (holdStop b no seq ts)
  release : ∀ {b s o b'}, I b → b.slot? s = some o →
    (b.setIndex (b.idIndex.erase o.id)).removeOrder s = .ok b' → I b'
  retain : ∀ {b} side last, I b → I (b.retainStops side last)
  takeOut : ∀ {b id loc side p qty b₁ b'}, I b → b.idIndex[id]? = some loc →
    (b.setIndex (b.idIndex.erase id)).removeSlot loc.slot side p qty = .ok b₁ →
    b₁.removeOrder loc.slot = .ok b' → I b'

namespace Maintained

variable (hI : Maintained I)
include hI

theorem activate {resubmit : OrderBook A → NewOrder → Outcome (OrderBook A × List OutputEvent)}
    (hresubmit : ∀ b no b' events, I b → resubmit b no = .ok (b', events) → I b') (hb : I b)
    (h : activate resubmit b s = .ok (b', events)) : I b' := by
  cases activate_cases h with
  | vacant _ => exact hb
  | resubmitted ho hremove hnew => exact hresubmit _ _ _ _ (hI.release hb ho hremove) hnew

theorem applyNew {fuel : Nat} (hb : I b) (h : applyNew seq ts fuel b no = .ok (b', events)) :
    I b' := by
  induction fuel generalizing b no b' events with
  | zero => cases h
  | succ fuel ih =>
    cases applyNew_cases h with
    | refused _ => exact hb
    | held hvalid hstop => exact hI.holdStop hb hvalid hstop
    | killed _ _ _ => exact hb
    | untraded hvalid hstop _ hexec _ => exact hI.execute hb hvalid hstop hexec
    | traded hvalid hstop _ hexec _ htrigger =>
      have hb₁ := hI.execute hb hvalid hstop hexec
      have hactivate : ∀ {b s b' events}, I b →
          Exchange.activate (Exchange.applyNew seq ts fuel) b s = .ok (b', events) →
          I b' ∧ ∀ e ∈ events, True := fun hb h =>
        ⟨hI.activate (fun _ _ _ _ hb h => ih hb h) hb h, fun _ _ => trivial⟩
      exact (triggerStops_induct hactivate hI.retain hb₁ htrigger).1

theorem applyCancel {id : OrderId} (hb : I b) (h : applyCancel b id seq = .ok (b', events)) :
    I b' := by
  cases applyCancel_cases h with
  | unknown _ => exact hb
  | cancelled hloc _ h₁ h₂ => exact hI.takeOut hb hloc h₁ h₂

theorem applyReplace {fuel : Nat} {id : OrderId} {newPrice : Price} {newQty : Qty} (hb : I b)
    (h : applyReplace fuel b id newPrice newQty seq ts = .ok (b', events)) : I b' := by
  cases applyReplace_cases h with
  | zeroQty _ => exact hb
  | unknown _ _ => exact hb
  | replaced _ hloc _ h₁ h₂ hnew => exact hI.applyNew (hI.takeOut hb hloc h₁ h₂) hnew

/-- A maintained property holds of every book that is reached. -/
theorem reaches {symbol : SymbolId} {tick : Price} {log : List Entry}
    (h : Reaches symbol tick log b) : I b := by
  refine Transition.Run.invariant (I := fun _ b => I b) (hI.new symbol tick) ?_ h
  rintro - b ⟨⟨seq, ts, cmd⟩, events⟩ b' - hb ⟨fuel, h⟩
  cases cmd with
  | new no => exact hI.applyNew hb h
  | cancel id symbol => exact hI.applyCancel hb h
  | replace id newPrice newQty symbol => exact hI.applyReplace hb h

end Maintained

end Exchange
