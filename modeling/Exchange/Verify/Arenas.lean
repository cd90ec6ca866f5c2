import Exchange.Verify.Cascade
import Exchange.Verify.MarketView

/-!
# The slots of the arena

Without stop orders the choice of slots cannot be told. Whatever slab the arena is, one
that reuses vacated slots or one that never does, the same commands get the same events
and leave the same prices, quantities and orders.
-/

namespace Exchange

open Transition

/-! ## A slab without reuse -/

/-- Slots are handed out in order, and never twice. -/
structure FreshSlab (α : Type) where
  entries : List (Option α)

namespace FreshSlab

variable {α : Type}

def get? (s : FreshSlab α) (k : Nat) : Option α := s.entries[k]?.join

theorem lt_length_of_get? {s : FreshSlab α} {k : Nat} (h : (s.get? k).isSome) :
    k < s.entries.length := by
  by_contra hk
  simp [get?, List.getElem?_eq_none (Nat.le_of_not_lt hk)] at h

theorem get?_write {s : FreshSlab α} {k : Nat} (h : (s.get? k).isSome) (a : Option α) (j : Nat) :
    get? ⟨s.entries.set k a⟩ j = if j = k then a else s.get? j := by
  have hk := lt_length_of_get? h
  by_cases hj : j = k
  · subst hj
    simp [get?, hk]
  · simp [get?, List.getElem?_set_ne (Ne.symm hj), hj]

theorem get?_new (k : Nat) : (⟨[]⟩ : FreshSlab α).get? k = none := by
  simp [get?]

theorem get?_vacantKey (s : FreshSlab α) : s.get? s.entries.length = none := by
  simp [get?]

theorem get?_insert (s : FreshSlab α) (a : α) (k : Nat) :
    get? ⟨s.entries ++ [some a]⟩ k = if k = s.entries.length then some a else s.get? k := by
  by_cases hk : k = s.entries.length
  · simp [get?, hk]
  · simp only [get?, if_neg hk]
    rcases Nat.lt_or_gt_of_ne hk with hlt | hgt
    · rw [List.getElem?_append_left hlt]
    · rw [List.getElem?_eq_none (by simp; omega), List.getElem?_eq_none (by omega)]

theorem get?_remove (s : FreshSlab α) (k j : Nat) (h : (s.get? k).isSome) :
    get? ⟨s.entries.set k none⟩ j = if j = k then none else s.get? j :=
  get?_write h none j

theorem get?_set (s : FreshSlab α) (k : Nat) (a : α) (j : Nat) (h : (s.get? k).isSome) :
    get? ⟨s.entries.set k (some a)⟩ j = if j = k then some a else s.get? j :=
  get?_write h (some a) j

instance : Slab (FreshSlab α) α where
  new := ⟨[]⟩
  get? := get?
  vacantKey s := s.entries.length
  insert s a := ⟨s.entries ++ [some a]⟩
  remove s k := ⟨s.entries.set k none⟩
  set s k a := ⟨s.entries.set k (some a)⟩
  get?_new := get?_new
  get?_vacantKey := get?_vacantKey
  get?_insert := get?_insert
  get?_remove := get?_remove
  get?_set := get?_set

end FreshSlab

/-! ## Two arenas -/

variable {A A' : Type} [Slab A Order] [Slab A' Order] {b : OrderBook A} {b' : OrderBook A'}
  {q : PriorityBook} {symbol : SymbolId} {tick : Price} {log log' : List Entry}

/-- The order that the index knows under an id. -/
def OrderBook.orderOf? (b : OrderBook A) (id : OrderId) : Option Order :=
  (b.idIndex[id]?).bind fun loc => coreOf b.arena loc.slot

/-- The books differ in their slots at most. -/
structure LooksLike (b : OrderBook A) (b' : OrderBook A') : Prop where
  depth : ∀ n, b'.depth n = b.depth n
  orders : ∀ id, b'.orderOf? id = b.orderOf? id

theorem Refines.orderOf?_eq {σ : Queues Nat} (hr : Refines b σ none q) (hfree : q.StopFree)
    (id : OrderId) : b.orderOf? id = q.live? id := by
  unfold OrderBook.orderOf?
  cases hlive : q.live? id with
  | none =>
    have hnone : b.idIndex[id]? = none := (hr.index_none_iff hfree.held).2 hlive
    rw [hnone]
    rfl
  | some o =>
    obtain ⟨s, hidx, hcore, -⟩ := hr.locate hlive
    have hidx : b.idIndex[id]? = _ := hidx
    rw [hidx]
    exact hcore

/-- Books that model the same priority book look alike. -/
theorem Models.looksLike (h : Models b q) (h' : Models b' q) (hfree : q.StopFree) :
    LooksLike b b' := by
  obtain ⟨σ, hr⟩ := h
  obtain ⟨σ', hr'⟩ := h'
  refine ⟨fun n => ?_, fun id => ?_⟩
  · have hbids := (hr'.depth_eq n).1.trans (hr.depth_eq n).1.symm
    have hasks := (hr'.depth_eq n).2.trans (hr.depth_eq n).2.symm
    have hlast : (b'.depth n).lastTrade = (b.depth n).lastTrade :=
      hr'.lastTrade.trans hr.lastTrade.symm
    calc b'.depth n = ⟨(b'.depth n).bids, (b'.depth n).asks, (b'.depth n).lastTrade⟩ := rfl
      _ = b.depth n := by rw [hbids, hasks, hlast]
  · rw [hr'.orderOf?_eq hfree, hr.orderOf?_eq hfree]

/-- A run is followed by the other arena, event by event. -/
theorem reachesStopFree_followed (h : ReachesStopFree symbol tick log b) :
    ∃ b' : OrderBook A', ReachesStopFree symbol tick log b' ∧ LooksLike b b' := by
  have hstep : ∀ (b : OrderBook A) (b' : OrderBook A') (e : Entry) (b₁ : OrderBook A),
      (∃ q, Models b q ∧ Models b' q ∧ q.StopFree) →
      restrict (fun _ e => e.1.cmd.StopFree) ApplyStep b e b₁ →
      ∃ b₁', restrict (fun _ e => e.1.cmd.StopFree) ApplyStep b' e b₁' ∧
        ∃ q, Models b₁ q ∧ Models b₁' q ∧ q.StopFree := by
    rintro b b' ⟨cmd, events⟩ b₁ ⟨q, ⟨σ, hr⟩, ⟨σ', hr'⟩, hfree⟩ ⟨hcmd, happ⟩
    obtain ⟨b₂, σ₂, happ₂, hr₂, hfree₂⟩ := apply_refines hr hfree hcmd
    obtain ⟨b₂', σ₂', happ₂', hr₂', -⟩ := apply_refines hr' hfree hcmd
    -- the events are those of the priority book, which both follow
    obtain ⟨rfl, hevents⟩ := Applies.unique happ happ₂
    rw [← hevents] at happ₂'
    exact ⟨b₂', ⟨hcmd, happ₂'⟩, _, ⟨σ₂, hr₂⟩, ⟨σ₂', hr₂'⟩, hfree₂⟩
  have hnew : ∃ q, Models (OrderBook.new symbol tick : OrderBook A) q ∧
      Models (OrderBook.new symbol tick : OrderBook A') q ∧ q.StopFree :=
    ⟨.new symbol tick, ⟨_, Refines.new symbol tick⟩, ⟨_, Refines.new symbol tick⟩,
      fun _ => rfl, rfl, rfl⟩
  obtain ⟨b', hrun, q, hm, hm', hfree⟩ := h.simulate hnew hstep
  exact ⟨b', hrun, hm.looksLike hm' hfree⟩

/-- **Slots cannot be told.** Two books on arenas of their own that are given the same
commands, none of them for a stop order, give the same events and look alike. -/
theorem reachesStopFree_looksLike (h : ReachesStopFree symbol tick log b)
    (h' : ReachesStopFree symbol tick log' b') (hcmds : log.map Prod.fst = log'.map Prod.fst) :
    log = log' ∧ LooksLike b b' := by
  obtain ⟨b₁, hrun, hlooks⟩ : ∃ b₁ : OrderBook A', ReachesStopFree symbol tick log b₁ ∧
      LooksLike b b₁ := reachesStopFree_followed h
  obtain ⟨rfl, rfl⟩ := applyStep_unique (hrun.mono fun _ _ _ h => h.2)
    (h'.mono fun _ _ _ h => h.2) hcmds
  exact ⟨rfl, hlooks⟩

/-- The replaced order is in a vacated slot here and in a new one there. -/
theorem reachesStopFree_looksLike_sample :
    ∃ (b : OrderBook (VecSlab Order)) (b' : OrderBook (FreshSlab Order)) (log : List Entry),
      log.map Prod.fst = sampleCommands ∧ LooksLike b b' ∧
      (b.idIndex[(2 : OrderId)]?).map (·.slot) = some 1 ∧
      (b'.idIndex[(2 : OrderId)]?).map (·.slot) = some 3 := by
  have hok : ∃ r, applyAll 9 (OrderBook.new 0 1 : OrderBook (VecSlab Order)) sampleCommands =
      .ok r ∧ r.2.map Prod.fst = sampleCommands ∧
        (r.1.idIndex[(2 : OrderId)]?).map (·.slot) = some 1 := by
    refine ⟨_, rfl, ?_⟩
    decide +kernel
  have hok' : ∃ r, applyAll 9 (OrderBook.new 0 1 : OrderBook (FreshSlab Order)) sampleCommands =
      .ok r ∧ r.2.map Prod.fst = sampleCommands ∧
        (r.1.idIndex[(2 : OrderId)]?).map (·.slot) = some 3 := by
    refine ⟨_, rfl, ?_⟩
    decide +kernel
  obtain ⟨⟨b, log⟩, hrun, hlog, hslot⟩ := hok
  obtain ⟨⟨b', log'⟩, hrun', hlog', hslot'⟩ := hok'
  have hfree : ∀ cmd ∈ sampleCommands, cmd.cmd.StopFree := by
    simp [sampleCommands, Command.StopFree, OrderType.isStop]
  obtain ⟨-, hlooks⟩ := reachesStopFree_looksLike (reachesStopFree_applyAll hrun hfree)
    (reachesStopFree_applyAll hrun' hfree) (hlog.trans hlog'.symm)
  exact ⟨b, b', log, hlog, hlooks, hslot, hslot'⟩

end Exchange
