import Exchange.Verify.Cascade
import Exchange.Verify.Rejection

/-!
# The trigger recursion

`apply_new` and `trigger_stops` call each other, and the stop maps are pruned
only when the inner calls have returned. The recursion ends as long as every
slot that can be triggered is vacant or holds a stop market order: activating
one vacates a slot for good.
-/

namespace Exchange

open PriorityBook

variable {A : Type} [Slab A Order] {b b' : OrderBook A} {q q' : PriorityBook} {no : NewOrder}
  {side : Side} {t p : Price} {s n : Nat}

/-! ## Safe books -/

/-- A stop of `side` with trigger price `t` is triggered by a trade at one of the
prices `R`. -/
def Reached (R : Price → Prop) (side : Side) (t : Price) : Prop :=
  ∃ p, R p ∧ side.triggers t p = true

section Recursion

variable {R : Price → Prop} {L : Finset Nat} {M : Nat}
  {f : OrderBook A → NewOrder → Outcome (OrderBook A × List OutputEvent)} {T T' : List Nat}

/-- Activating the slot is harmless: it is vacant, or holds a stop market order that
trades at prices of `R` only. -/
def Ready (R : Price → Prop) (b : OrderBook A) (q : PriorityBook) (s : Nat) : Prop :=
  coreOf b.arena s = none ∨ ∃ o, q.held s = some o ∧ o.kind = .stopMarket ∧
    ∀ m ∈ q.makers o.side.opposite, R m.price

/-- Trades are at prices of `R`, and the slots these trigger are ready. The filed
slots are among `L`, and `M` bounds the length of a sweep. -/
structure Safe (R : Price → Prop) (L : Finset Nat) (M : Nat) (b : OrderBook A)
    (q : PriorityBook) : Prop where
  models : Models b q
  last : ∀ p, b.lastTrade = some p → R p
  ready : ∀ side t s, b.Lists side t s → Reached R side t → Ready R b q s
  listed : ∀ side t s, b.Lists side t s → s ∈ L
  size : ∀ side, (q.makers side).length ≤ M

theorem Ready.cascade (h : Ready R b q s) (hc : Cascade T b q b' q') : Ready R b' q' s := by
  rcases h with hvac | ⟨o, ho, hkind, hR⟩
  · exact .inl (hc.vacant s hvac)
  · rcases hc.held s o ho with ho' | hvac
    · refine .inr ⟨o, ho', hkind, fun m' hm' => ?_⟩
      obtain ⟨m, hm, hp⟩ := hc.prices _ m' hm'
      exact hp ▸ hR m hm
    · exact .inl hvac

theorem Safe.cascade (h : Safe R L M b q) (hc : Cascade T b q b' q') (hm : Models b' q')
    (hlast : ∀ p, b'.lastTrade = some p → R p) : Safe R L M b' q' where
  models := hm
  last := hlast
  ready side t s hl ht := (h.ready side t s (hc.lists hl) ht).cascade hc
  listed side t s hl := h.listed side t s (hc.lists hl)
  size side := (hc.size side).trans (h.size side)

/-- The call returns, having completed activations, those of `T` among them. -/
def Returns (R : Price → Prop) (T : List Nat) (b : OrderBook A) (q : PriorityBook)
    (r : Outcome (OrderBook A × List OutputEvent)) : Prop :=
  ∃ b' q' events, r = .ok (b', events) ∧ Models b' q' ∧ Cascade T b q b' q' ∧
    ∀ p, b'.lastTrade = some p → R p

theorem Safe.returns (h : Safe R L M b q) (events : List OutputEvent) :
    Returns R [] b q (.ok (b, events)) :=
  ⟨b, q, events, rfl, h.models, .of_frame rfl (fun _ => rfl) (fun _ h => h)
    (fun _ => Nat.le_refl _) fun _ m hm => ⟨m, hm, rfl⟩, h.last⟩

/-- One call after another. -/
theorem Returns.bind {x : Outcome (OrderBook A × List OutputEvent)}
    {g : OrderBook A × List OutputEvent → Outcome (OrderBook A × List OutputEvent)}
    (h : Safe R L M b q) (hx : Returns R T b q x)
    (hg : ∀ b' q' events, Safe R L M b' q' → Cascade T b q b' q' →
      Returns R T' b' q' (g (b', events))) : Returns R (T ++ T') b q (x >>= g) := by
  obtain ⟨b', q', events, rfl, hm, hc, hlast⟩ := hx
  obtain ⟨b'', q'', events', hg', hm', hc', hlast'⟩ := hg b' q' events (h.cascade hc hm hlast) hc
  exact ⟨b'', q'', events', hg', hm', hc.trans hc', hlast'⟩

/-! ## The trigger loop -/

/-- Re-submitted market orders return, as long as fewer than `n` slots of `L` are
occupied. -/
def Resubmits (R : Price → Prop) (L : Finset Nat) (M : Nat)
    (f : OrderBook A → NewOrder → Outcome (OrderBook A × List OutputEvent)) (n : Nat) : Prop :=
  ∀ b q no, Safe R L M b q → no.kind = .market → b.idIndex[no.id]? = none →
    (∀ m ∈ q.makers no.side.opposite, R m.price) → b.occupied L < n → Returns R [] b q (f b no)

/-- A held stop order is pulled out of its slot and re-submitted. -/
theorem activate_held (hm : Models b q) {o : Order} (ho : q.held s = some o) :
    ∃ b₁, activate f b s = f b₁ o.activated ∧ Models b₁ (q.release s) ∧
      Cascade [s] b q b₁ (q.release s) ∧ coreOf b₁.arena s = none ∧
      b₁.lastTrade = b.lastTrade ∧ b₁.idIndex[o.id]? = none := by
  obtain ⟨σ, hr⟩ := hm
  obtain ⟨x, hx, hu, -⟩ := order_of_core (hr.filed.held_core s o ho).1
  have hid : x.id = o.id := by rw [← hu]; rfl
  have hactivated : x.activated = o.activated := by rw [← hu]; rfl
  obtain ⟨b₁, hremove, hr₁, hcore₁, hid₁⟩ := hr.pullOut ho
  have hstops : ∀ side, b₁.stops side = b.stops side :=
    Models.stops_eq ⟨σ, hr⟩ ⟨σ, hr₁⟩ rfl rfl
  refine ⟨b₁, ?_, ⟨σ, hr₁⟩, .release hcore₁ hstops, ?_, hr₁.lastTrade.trans hr.lastTrade.symm,
    hid₁⟩
  · unfold activate
    rw [slot?_of_order hx]
    dsimp only
    rw [hid, hremove, Fuel.ok_bind, hactivated]
  · rw [hcore₁, Function.update_self]

/-- A slot that is ready is vacated. -/
theorem activate_returns (hf : Resubmits R L M f n) (h : Safe R L M b q)
    (hn : b.occupied L ≤ n) (hs : s ∈ L) (hready : Ready R b q s) :
    Returns R [s] b q (activate f b s) := by
  rcases hready with hvac | ⟨o, ho, hkind, hR⟩
  · have hslot : b.slot? s = none := by
      rwa [coreOf, Option.map_eq_none_iff] at hvac
    refine ⟨b, q, [], ?_, h.models, .skip h.models hvac, h.last⟩
    rw [activate, hslot]
    rfl
  · obtain ⟨b₁, hcall, hm₁, hc₁, hvac, hlast₁, hid₁⟩ := activate_held (f := f) h.models ho
    have hcore := h.models.held_core ho
    have hocc : b₁.occupied L < b.occupied L :=
      hc₁.occupied_lt hs (by simp [hcore]) hvac
    have hsafe : Safe R L M b₁ (q.release s) := h.cascade hc₁ hm₁ (hlast₁ ▸ h.last)
    obtain ⟨b', q', events, he, hm, hc, hlast⟩ :=
      hf b₁ (q.release s) o.activated hsafe (if_pos hkind) hid₁ hR (by omega)
    exact ⟨b', q', events, hcall.trans he, hm, hc₁.trans hc, hlast⟩

theorem activateAll_returns (hf : Resubmits R L M f n) (slots : List Nat) (h : Safe R L M b q)
    (hn : b.occupied L ≤ n) (hslots : ∀ s ∈ slots, s ∈ L ∧ Ready R b q s) :
    Returns R slots b q (activateAll f slots b) := by
  induction slots generalizing b q with
  | nil => exact h.returns []
  | cons s slots ih =>
    obtain ⟨hs, hready⟩ := hslots s List.mem_cons_self
    refine Returns.bind (T := [s]) h (activate_returns hf h hn hs hready)
      fun b₁ q₁ events h₁ hc₁ => ?_
    obtain ⟨b', q', later, he, hm, hc, hlast⟩ := ih h₁ ((hc₁.occupied_le L).trans hn)
      fun r hr => ⟨(hslots r (List.mem_cons_of_mem s hr)).1,
        (hslots r (List.mem_cons_of_mem s hr)).2.cascade hc₁⟩
    refine ⟨b', q', events ++ later, ?_, hm, hc, hlast⟩
    dsimp only
    rw [he]
    rfl

theorem triggerSide_returns (hf : Resubmits R L M f n) (h : Safe R L M b q)
    (hn : b.occupied L ≤ n) (hp : R p) (side : Side) :
    Returns R [] b q (triggerSide f b side p) := by
  have hslots : ∀ s ∈ b.triggered side p, s ∈ L ∧ Ready R b q s := by
    intro s hs
    obtain ⟨t, hl, ht⟩ := OrderBook.mem_triggered.1 hs
    exact ⟨h.listed side t s hl, h.ready side t s hl ⟨p, hp, ht⟩⟩
  obtain ⟨b', q', events, he, hm, hc, hlast⟩ :=
    activateAll_returns hf (b.triggered side p) h hn hslots
  refine ⟨b'.retainStops side p, q'.prune side p, events, ?_, hm.retainStops side p, hc.prune,
    hlast⟩
  unfold triggerSide
  rw [he]
  rfl

theorem triggerStops_returns (hf : Resubmits R L M f n) (h : Safe R L M b q)
    (hn : b.occupied L ≤ n) (hp : R p) : Returns R [] b q (triggerStops f b p) := by
  refine Returns.bind (T := []) h (triggerSide_returns hf h hn hp .buy) fun b₁ q₁ buys h₁ hc₁ => ?_
  obtain ⟨b', q', sells, he, hm, hc, hlast⟩ :=
    triggerSide_returns hf h₁ ((hc₁.occupied_le L).trans hn) hp .sell
  refine ⟨b', q', buys ++ sells, ?_, hm, hc, hlast⟩
  dsimp only
  rw [he]
  rfl

/-! ## The recursion -/

/-- Executing a market order is a part of a cascade. -/
theorem execute_market (h : Safe R L M b q) (hkind : no.kind = .market) (hqty : no.qty ≠ 0)
    (hid : b.idIndex[no.id]? = none) (hR : ∀ m ∈ q.makers no.side.opposite, R m.price)
    {fuel : Nat} (hfuel : M + 2 ≤ fuel) (seq : Seq) (ts : Ts) :
    Returns R [] b q (execute fuel b no seq ts) := by
  obtain ⟨σ, hr⟩ := h.models
  have hsize := h.size no.side.opposite
  obtain ⟨b', σ', hexec, hr', hvac⟩ := execute_refines hr hqty (by rw [hkind]; rfl) hid
    (show (q.makers no.side.opposite).length + 2 ≤ fuel by omega) seq ts
  obtain ⟨hheld, hbuys, hsells, -, -⟩ := execute_frame q no seq ts
  obtain ⟨hprices, hlast⟩ := execute_prices q no seq ts
  have hnot : no.kind ≠ .limit := by rw [hkind]; exact nofun
  refine ⟨b', _, _, hexec, ⟨σ', hr'⟩, .of_frame hheld
    (Models.stops_eq ⟨σ, hr⟩ ⟨σ', hr'⟩ hbuys hsells)
    (fun s hs => hvac s hs fun hk => absurd hk hnot)
    (fun side => (hprices side).1 hnot) fun side m' hm' => ?_, fun p hp => ?_⟩
  · exact ((hprices side).2 m' hm').resolve_right fun hk => hnot hk.1
  · rw [hr'.lastTrade] at hp
    rcases hlast p hp with hp' | ⟨m, hm, -, rfl⟩
    · exact h.last p (hr.lastTrade.trans hp')
    · exact hR m hm

/-- **Termination of the recursion.** A budget beyond the occupied slots of `L` and
the length of a sweep suffices for a re-submitted market order. -/
theorem applyNew_resubmits (seq : Seq) (ts : Ts) {fuel : Nat} (hfuel : n + M + 2 ≤ fuel) :
    Resubmits R L M (applyNew (A := A) seq ts fuel) n := by
  induction n generalizing fuel with
  | zero => exact fun b q no _ _ _ _ hn => absurd hn (Nat.not_lt_zero _)
  | succ n ih =>
    intro b q no h hkind hid hR hn
    obtain ⟨fuel, rfl⟩ : ∃ f, fuel = f + 1 := ⟨fuel - 1, by omega⟩
    unfold applyNew
    cases hvalid : validate b no with
    | some reason => exact h.returns _
    | none =>
      have hqty : no.qty ≠ 0 := (validate_eq_none.1 hvalid).1
      dsimp only
      rw [if_neg (by rw [hkind]; decide), if_neg (by simp [hkind])]
      refine Returns.bind (T := []) h
        (execute_market h hkind hqty hid hR (by omega) seq ts) fun b₁ q₁ events h₁ hc₁ => ?_
      dsimp only
      cases hlast : b₁.lastTrade with
      | none => exact h₁.returns _
      | some last =>
        have hocc := hc₁.occupied_le L
        have hagain : Resubmits R L M (applyNew (A := A) seq ts fuel) n := ih (by omega)
        obtain ⟨b', q', triggered, he, hm, hc, hlast'⟩ :=
          triggerStops_returns hagain h₁ (by omega) (h₁.last last hlast)
        refine ⟨b', q', .accepted no.id seq :: events ++ triggered, ?_, hm, hc, hlast'⟩
        dsimp only
        rw [he]
        rfl

end Recursion

end Exchange
