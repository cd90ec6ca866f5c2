import Exchange.Core.Matcher

/-!
# The step budget does not matter

Raising the budget turns exhaustion into an answer and changes no answer, so
`apply` is a partial function: `Applies` relates a book and a command to at most
one result.
-/

namespace Exchange

open Fuel

variable {A : Type} [Slab A Order]

theorem matchLoop_stable (t : Aggressor) (seq : Seq) (ts : Ts) (b : OrderBook A) (total : Qty) :
    Stable Fault.outOfFuel fun fuel => matchLoop t seq ts fuel b total := by
  intro fuel
  induction fuel generalizing b total with
  | zero => exact .exhausted _
  | succ fuel ih =>
    refine Extends.bind (.refl _) fun r => ?_
    cases r with
    | none => exact .refl _
    | some r => exact Extends.bind (ih r.1 (total + r.2.1)) fun _ => .refl _

theorem matchOrder_stable (b : OrderBook A) (slot : Nat) (seq : Seq) (ts : Ts) :
    Stable Fault.outOfFuel fun fuel => matchOrder fuel b slot seq ts :=
  fun fuel => Extends.bind (.refl _) fun _ => matchLoop_stable _ seq ts b 0 fuel

theorem execute_stable (b : OrderBook A) (no : NewOrder) (seq : Seq) (ts : Ts) :
    Stable Fault.outOfFuel fun fuel => execute fuel b no seq ts :=
  fun fuel => Extends.bind (matchOrder_stable _ _ seq ts fuel) fun _ => .refl _

section Triggers

variable {f g : OrderBook A → NewOrder → Outcome (OrderBook A × List OutputEvent)}
  (hfg : ∀ b no, Extends Fault.outOfFuel (f b no) (g b no))
include hfg

theorem activate_extends (b : OrderBook A) (slot : Nat) :
    Extends Fault.outOfFuel (activate f b slot) (activate g b slot) := by
  unfold activate
  cases b.slot? slot with
  | none => exact .refl _
  | some o => exact Extends.bind (.refl _) fun b => hfg b o.activated

theorem activateAll_extends (slots : List Nat) (b : OrderBook A) :
    Extends Fault.outOfFuel (activateAll f slots b) (activateAll g slots b) := by
  induction slots generalizing b with
  | nil => exact .refl _
  | cons slot rest ih =>
    exact Extends.bind (activate_extends hfg b slot) fun r =>
      Extends.bind (ih r.1) fun _ => .refl _

theorem triggerSide_extends (b : OrderBook A) (side : Side) (last : Price) :
    Extends Fault.outOfFuel (triggerSide f b side last) (triggerSide g b side last) :=
  Extends.bind (activateAll_extends hfg _ b) fun _ => .refl _

theorem triggerStops_extends (b : OrderBook A) (last : Price) :
    Extends Fault.outOfFuel (triggerStops f b last) (triggerStops g b last) :=
  Extends.bind (triggerSide_extends hfg b .buy last) fun r =>
    Extends.bind (triggerSide_extends hfg r.1 .sell last) fun _ => .refl _

end Triggers

theorem applyNew_stable (seq : Seq) (ts : Ts) (b : OrderBook A) (no : NewOrder) :
    Stable Fault.outOfFuel fun fuel => applyNew seq ts fuel b no := by
  intro fuel
  induction fuel generalizing b no with
  | zero => exact .exhausted _
  | succ fuel ih =>
    dsimp only [applyNew]
    split
    · exact .refl _
    · split_ifs
      · exact .refl _
      · exact .refl _
      · refine Extends.bind (execute_stable b no seq ts fuel) fun r => ?_
        split
        · exact .refl _
        · exact Extends.bind (triggerStops_extends ih r.1 _) fun _ => .refl _

theorem applyWithin_stable (b : OrderBook A) (cmd : Sequenced) :
    Stable Fault.outOfFuel fun fuel => applyWithin fuel b cmd := by
  intro fuel
  unfold applyWithin
  dsimp only
  split
  · exact applyNew_stable _ _ b _ fuel
  · exact .refl _
  · unfold applyReplace
    split_ifs
    · exact .refl _
    · split
      · exact .refl _
      · refine Extends.bind (.refl _) fun o => Extends.bind (.refl _) fun b₁ =>
          Extends.bind (.refl _) fun b₂ => Extends.bind (applyNew_stable _ _ b₂ _ fuel) fun _ =>
            .refl _

namespace Applies

variable {b b' b'' : OrderBook A} {cmd : Sequenced} {events events' : List OutputEvent}

/-- **Determinism of `apply`.** -/
theorem unique (h : Applies b cmd b' events) (h' : Applies b cmd b'' events') :
    b' = b'' ∧ events = events' :=
  Prod.mk.inj (Converges.unique (applyWithin_stable b cmd) h h')

/-- A call that returns never indexes a vacant slot. -/
theorem ne_vacantSlot (h : Applies b cmd b' events) (fuel slot : Nat) :
    applyWithin fuel b cmd ≠ .error (.vacantSlot slot) :=
  Converges.ne_error (applyWithin_stable b cmd) h
    (show Fault.vacantSlot slot ≠ Fault.outOfFuel from nofun) fuel

end Applies

end Exchange
