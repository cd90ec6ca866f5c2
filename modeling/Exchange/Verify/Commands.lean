import Exchange.Verify.MatchLoop

/-!
# Each command refines its abstract counterpart

`execute` (enter the arena, match, settle), the removal shared by cancel and
replace, and the held stops. The results here hold whether or not stops are held.
-/

namespace Exchange

open Links PriorityBook

variable {A : Type} [Slab A Order] {b : OrderBook A} {σ : Queues Nat} {q : PriorityBook}
  {o : Order} {s : Nat}

namespace Refines

/-- The maker lists hold no id that is not indexed. -/
theorem fresh {hidden : Option Nat} (hr : Refines b σ hidden q) {id : OrderId}
    (hid : b.idIndex[id]? = none) : ∀ side, ∀ x ∈ q.makers side, x.id ≠ id := by
  intro side x hx
  obtain ⟨s, hs, hcore⟩ := hr.filed.slot_of_mem (mem_queue.2 ⟨hx, rfl⟩)
  exact hr.filed.id_ne hid hcore (hr.filed.not_hidden hs)

/-- The remainder of a limit order comes to rest. -/
theorem restOrder (hr : Refines b σ (some s) q) (ho : coreOf b.arena s = some o)
    (hkind : o.kind = .limit) (hrem : o.remaining ≠ 0) (hid : b.idIndex[o.id]? = none)
    (hcross : ∀ y ∈ q.makers o.side.opposite, o.side.withinLimit o.price y.price = false)
    {no : NewOrder} (hno : no.id = o.id ∧ no.price = o.price ∧ no.side = o.side) :
    ∃ b' σ', Exchange.restOrder b no s = .ok b' ∧ Refines b' σ' none (q.rest o) ∧
      coreOf b'.arena = coreOf b.arena := by
  obtain ⟨hnoid, hnoprice, hnoside⟩ := hno
  have hstop : o.kind.isStop = false := by rw [hkind]; rfl
  have hloose := (hr.filed.loose s rfl).1
  have hloc : (⟨no.price, no.side, s⟩ : Location) = o.location s := by
    simp [Order.location, hstop, hnoprice, hnoside]
  generalize hb₁ : b.setIndex (b.idIndex.insert no.id ⟨no.price, no.side, s⟩) = b₁
  have hw₁ : Wired b₁ σ := by
    rw [← hb₁]
    exact hr.wired.congr (fun _ _ => OrderBook.level?_setIndex ..) (fun _ _ _ _ => rfl)
      fun _ _ _ _ => rfl
  have harena : b₁.arena = b.arena := by rw [← hb₁]; rfl
  have hlevel₁ : ∀ side p, b₁.level? side p = b.level? side p := fun side p => by
    rw [← hb₁, OrderBook.level?_setIndex]
  obtain ⟨a, h₁, hcore, hframe, hw⟩ := hw₁.insertResting (by rw [harena]; exact ho) hloose
  rw [harena] at hcore hframe
  have hwf : (q.rest o).WF := hr.wf.rest hkind hrem hcross (hr.fresh hid)
  have hfilter : ((Priority.enqueue (fun x => o.side.rank x.price) o (q.makers o.side)).filter
      fun x => x.price = o.price) = q.queue o.side o.price ++ [o] := by
    refine Priority.filter_enqueue (hr.wf.ordered o.side) (fun y _ hy => ?_) (by simp)
    have hy : y.price = o.price := by simpa using hy
    rw [hy]
  refine ⟨_, _, ?_, hr.put_of_lastTrade (L := some
    (((b₁.level? o.side o.price).getD .new).pushBack s o.remaining)) hw ?_ (fun r o' h => ?_)
    (fun side' p' => ?_) (fun p' hp' => ?_) (by simp) (fun l h => ?_) hwf ?_, hcore⟩
  · unfold Exchange.restOrder
    rw [hb₁]
    exact h₁
  · change Filed (coreOf a) (fun id => b₁.idIndex[id]?) _ _ _ _
    rw [hfilter, hcore, ← hb₁]
    change Filed _ (fun id => (b.idIndex.insert no.id ⟨no.price, no.side, s⟩)[id]?) _ _ _ _
    rw [OrderedMap.lookup_insert, hloc, hnoid]
    exact hr.filed.rest ho hstop hid
  · refine hframe r (fun hrσ => ?_) fun e => ?_
    · rw [hr.filed.not_held hrσ] at h
      cases h
    · rw [e, (hr.filed.loose s rfl).2] at h
      cases h
  · rw [OrderBook.level?_setArena, OrderBook.level?_putLevel, hlevel₁, hlevel₁]
  · exact Priority.filter_enqueue_of_not (by simpa using Ne.symm hp')
  · cases h
    refine ⟨by rw [hfilter]; simp, ?_⟩
    rw [hlevel₁]
    cases hl : b.level? o.side o.price with
    | none =>
      have hq : q.queue o.side o.price = [] := by
        by_contra hne
        have := (hr.present o.side o.price).2 hne
        rw [hl] at this
        cases this
      rw [hr.wf.bare _ _ hq]
      rfl
    | some l =>
      rw [hr.tally _ _ _ hl]
      rfl
  · rw [← hb₁]
    exact ⟨rfl, rfl, rfl, rfl, rfl⟩

/-- The taker is taken out, by the source's removal of it from the arena and, where
the source does that too, from the index. -/
theorem discard (hr : Refines b σ (some s) q) (ho : coreOf b.arena s = some o)
    {id : OrderId} (hid : b.idIndex[id]? = none) :
    ∃ b', b.removeOrder s = .ok b' ∧ Refines b' σ none q ∧
      Refines (b'.setIndex (b'.idIndex.erase id)) σ none q ∧
      coreOf b'.arena = Function.update (coreOf b.arena) s none := by
  obtain ⟨o', ho', -⟩ := get?_of_core ho
  have hs : (Slab.get? b.arena s).isSome := by rw [ho']; rfl
  have hr' := hr.leave hs
  refine ⟨_, removeOrder_eq ho', hr', ⟨hr'.wired.congr (fun _ _ => OrderBook.level?_setIndex ..)
    (fun _ _ _ _ => rfl) fun _ _ _ _ => rfl, ?_, hr'.loose_links, fun side p => ?_,
    fun side p l h => ?_, hr'.wf, hr'.symbol, hr'.tick, hr'.stopBuys, hr'.stopSells,
    hr'.lastTrade⟩, coreOf_remove hs⟩
  · have herase : (fun id' => (b.idIndex.erase id)[id']?) =
        fun id' : OrderId => b.idIndex[id']? := by
      rw [OrderedMap.lookup_erase]
      exact Function.update_eq_self_iff.2 hid.symm
    change Filed _ (fun id' => (b.idIndex.erase id)[id']?) _ _ _ _
    rw [herase]
    exact hr'.filed
  · rw [OrderBook.level?_setIndex]
    exact hr'.present side p
  · rw [OrderBook.level?_setIndex] at h
    exact hr'.tally side p l h

end Refines

/-- Settling the matched taker. Only its own slot may stay occupied. -/
theorem settle_refines {no : NewOrder} {filled : Qty} {seq : Seq} {ts : Ts}
    (hr : Refines b σ (some s) q)
    (ho : coreOf b.arena s =
      some { no.toOrder seq ts with remaining := no.qty - filled })
    (hid : b.idIndex[no.id]? = none) (hqty : no.qty ≠ 0) (hkind : no.kind.isStop = false)
    (hcross : no.qty - filled ≠ 0 → no.kind = .limit →
      ∀ y ∈ q.makers no.side.opposite, no.side.withinLimit no.price y.price = false) :
    ∃ b' σ', settle b no s filled seq = .ok (b', (q.settle no filled seq ts).2) ∧
      Refines b' σ' none (q.settle no filled seq ts).1 ∧
      ∀ r, coreOf b.arena r = none ∨ (no.kind ≠ .limit ∧ r = s) → coreOf b'.arena r = none := by
  obtain ⟨o, ho', hu, -⟩ := order_of_core ho
  have hrem : o.remaining = no.qty - filled := congrArg Order.remaining hu
  obtain ⟨b', hremove, hr', hr'', hcore⟩ := hr.discard ho hid
  have hvac : ∀ r, coreOf b.arena r = none ∨ (no.kind ≠ .limit ∧ r = s) →
      coreOf b'.arena r = none := by
    intro r h
    rw [hcore]
    by_cases hrs : r = s
    · rw [hrs, Function.update_self]
    · rw [Function.update_of_ne hrs]
      exact h.resolve_right fun h => hrs h.2
  have hpos : filled > 0 ↔ filled ≠ 0 := by
    rw [gt_iff_lt, UInt64.lt_iff_toNat_lt, UInt64.toNat_zero, Nat.pos_iff_ne_zero, toNat_ne_zero]
  unfold settle PriorityBook.settle
  rw [ho', Fuel.ok_bind, hrem]
  dsimp only
  by_cases hleft : no.qty - filled = 0
  · have hfilled : filled ≠ 0 := by
      rintro rfl
      exact hqty (by simpa using hleft)
    rw [if_pos ⟨hpos.2 hfilled, hleft⟩, if_pos hleft, hremove]
    exact ⟨_, σ, rfl, hr'', hvac⟩
  · rw [if_neg fun h => hleft h.2, if_neg hleft]
    by_cases hk : no.kind = .limit
    · obtain ⟨b'', σ', hrest, hr''', hcore'⟩ :=
        hr.restOrder ho hk hleft hid (hcross hleft hk) (show no.id = no.id ∧
          no.price = no.price ∧ no.side = no.side from ⟨rfl, rfl, rfl⟩)
      have hvac' : ∀ r, coreOf b.arena r = none ∨ (no.kind ≠ .limit ∧ r = s) →
          coreOf b''.arena r = none := by
        intro r h
        rw [hcore']
        exact h.resolve_right fun h => h.1 hk
      by_cases hfilled : filled = 0
      · rw [if_neg (fun h => hpos.1 h hfilled), if_pos hfilled]
        refine ⟨b'', σ', ?_, by rw [if_pos hk]; exact hr''', hvac'⟩
        simp [hk, hrest]
      · rw [if_pos (hpos.2 hfilled), if_neg hfilled, if_pos hk, if_pos hk, hrest]
        exact ⟨b'', σ', rfl, hr''', hvac'⟩
    · by_cases hfilled : filled = 0
      · rw [if_neg (fun h => hpos.1 h hfilled), if_pos hfilled, if_neg hk, hremove]
        refine ⟨b', σ, ?_, hr', hvac⟩
        cases hkk : no.kind with
        | limit => exact absurd hkk hk
        | market => rfl
        | ioc => rfl
        | fok => rfl
        | stopMarket =>
          rw [hkk] at hkind
          cases hkind
        | stopLimit =>
          rw [hkk] at hkind
          cases hkind
      · rw [if_pos (hpos.2 hfilled), if_neg hfilled, if_neg hk, if_neg hk, hremove]
        exact ⟨b', σ, rfl, hr', hvac⟩

/-- Beyond an unacceptable best maker no maker is acceptable. -/
theorem PriorityBook.WF.withinLimit_of_head (hq : q.WF) {side : Side} {p : Price}
    (h : ∀ m ∈ (q.makers side.opposite).head?, side.withinLimit p m.price = false) :
    ∀ y ∈ q.makers side.opposite, side.withinLimit p y.price = false := by
  intro y hy
  have hord := hq.ordered side.opposite
  cases hm : q.makers side.opposite with
  | nil =>
    rw [hm] at hy
    cases hy
  | cons m ms =>
    rw [hm] at hy hord h
    have hhead := h m rfl
    rw [Bool.eq_false_iff, Ne, Side.withinLimit_iff] at hhead ⊢
    rcases List.mem_cons.1 hy with rfl | hy
    · exact hhead
    · have hle : side.opposite.rank m.price ≤ side.opposite.rank y.price :=
        (List.pairwise_cons.1 hord).1 y hy
      omega

/-- **Execution.** An order that has passed the checks is matched and settled as in
the priority book. Only its own slot can become occupied, and only if it may rest. -/
theorem execute_refines (hr : Refines b σ none q) {no : NewOrder} (hqty : no.qty ≠ 0)
    (hkind : no.kind.isStop = false) (hid : b.idIndex[no.id]? = none) {fuel : Nat}
    (hfuel : (q.makers no.side.opposite).length + 2 ≤ fuel) (seq : Seq) (ts : Ts) :
    ∃ b' σ', execute fuel b no seq ts = .ok (b', (q.execute no seq ts).2) ∧
      Refines b' σ' none (q.execute no seq ts).1 ∧
      ∀ r, coreOf b.arena r = none → (no.kind = .limit → r ≠ Slab.vacantKey b.arena) →
        coreOf b'.arena r = none := by
  have hr₀ := hr.enter (no.toOrder seq ts)
  generalize hslot : Slab.vacantKey b.arena = slot at hr₀
  have hcore₀ : coreOf (Slab.insert b.arena (no.toOrder seq ts)) =
      Function.update (coreOf b.arena) slot (some (no.toOrder seq ts)) := by
    rw [coreOf_insert, hslot]
    rfl
  have ho₀ : coreOf (b.setArena (Slab.insert b.arena (no.toOrder seq ts))).arena slot =
      some (no.toOrder seq ts) := by
    rw [OrderBook.arena_setArena, hcore₀, Function.update_self]
  obtain ⟨o', ho', hu', -⟩ := order_of_core ho₀
  have hside : o'.side = no.side := congrArg Order.side hu'
  have hkind' : o'.kind = no.kind := congrArg Order.kind hu'
  have hprice : o'.price = no.price := congrArg Order.price hu'
  generalize hfs : fills no.accepts no.qty (q.makers no.side.opposite) = fs
  obtain ⟨b₁, σ₁, hloop, hr₁, ho₁, hvac₁, hindex₁⟩ :=
    matchLoop_sweeps (t := ⟨slot, no.side, no.kind, no.price⟩) hr₀ ho₀ hfuel seq ts 0 hfs
  dsimp only at hr₁ ho₁
  rw [UInt64.zero_add] at hloop
  have hid₁ : b₁.idIndex[no.id]? = none := hindex₁ no.id hid
  have hmatch : matchOrder fuel (b.setArena (Slab.insert b.arena (no.toOrder seq ts))) slot seq ts =
      .ok (b₁, taken fs, fs.flatMap (fillEvents seq ts no.id no.side)) := by
    unfold matchOrder
    rw [ho', Fuel.ok_bind, hside, hkind', hprice]
    exact hloop
  have hvac : ∀ r, r ≠ slot → coreOf b.arena r = none → coreOf b₁.arena r = none := by
    intro r hne h
    refine hvac₁ r ?_
    rw [OrderBook.arena_setArena, hcore₀, Function.update_of_ne hne, h]
  obtain ⟨hwf₁, hstop⟩ := hr.wf.tradeAll no.side.opposite no.accepts no.qty
  rw [hfs] at hwf₁ hstop
  have hrest : no.qty - taken fs ≠ 0 → no.kind = .limit →
      ∀ y ∈ (q.tradeAll no.side.opposite fs).makers no.side.opposite,
        no.side.withinLimit no.price y.price = false := by
    intro hleft hk
    refine hwf₁.withinLimit_of_head fun m hm => ?_
    have haccepts := hstop.resolve_left hleft m hm
    simpa [NewOrder.accepts, hk, OrderType.sweepsAll] using haccepts
  obtain ⟨b', σ', hsettle, hr', hvac'⟩ := settle_refines hr₁ ho₁ hid₁ hqty hkind hrest
  refine ⟨b', σ', ?_, ?_, fun r h hlimit => hvac' r ?_⟩
  · unfold execute
    simp only [hslot, hmatch, Fuel.ok_bind]
    rw [hsettle]
    simp [PriorityBook.execute, hfs]
  · simpa [PriorityBook.execute, hfs] using hr'
  · by_cases hk : no.kind = .limit
    · exact .inl (hvac r (hlimit hk) h)
    · by_cases hrs : r = slot
      · exact .inr ⟨hk, hrs⟩
      · exact .inl (hvac r hrs h)

/-! ## Taking a filed order out

The removal that cancel and replace share. -/

namespace Refines

variable {id : OrderId} {loc : Location}

/-- Striking an id off the index touches nothing but the index. -/
theorem Wired_setIndex (hr : Refines b σ none q) (m : Std.ExtTreeMap OrderId Location) :
    Wired (b.setIndex m) σ :=
  hr.wired.congr (fun _ _ => OrderBook.level?_setIndex ..) (fun _ _ _ _ => rfl) fun _ _ _ _ => rfl

end Refines

section Unlinked

variable {s : Nat} {q₁ q₂ : List Nat} {m₁ m₂ : List Order} {l l' : PriceLevel} {a : A}

/-- What unlinking a maker leaves to be finished. -/
structure Unlinked (b : OrderBook A) (σ : Queues Nat) (q : PriorityBook) (o : Order) (s : Nat)
    (q₁ q₂ : List Nat) (m₁ m₂ : List Order) (l l' : PriceLevel) (a : A) : Prop where
  refines : Refines b σ none q
  core : coreOf b.arena s = some o
  slots : σ o.side o.price = q₁ ++ s :: q₂
  makers : q.queue o.side o.price = m₁ ++ o :: m₂
  length : q₁.length = m₁.length
  level : b.level? o.side o.price = some l
  totalQty : l'.totalQty = l.totalQty.satSub o.remaining
  count : l'.count = l.count - 1
  core_eq : coreOf a = coreOf b.arena
  frame : ∀ r, r ∉ σ o.side o.price → linksOf a r = linksOf b.arena r
  wired : Wired ((if q₁ ++ q₂ = [] then
      (b.setIndex (b.idIndex.erase o.id)).eraseLevel o.side o.price
    else (b.setIndex (b.idIndex.erase o.id)).putLevel o.side o.price l').setArena a)
      (σ.set o.side o.price (q₁ ++ q₂))

namespace Unlinked

variable (h : Unlinked b σ q o s q₁ q₂ m₁ m₂ l l' a)
include h

theorem mem : s ∈ σ o.side o.price := by
  rw [h.slots]
  simp

theorem maker : o ∈ q.makers o.side := by
  have hmem : o ∈ q.queue o.side o.price := by
    rw [h.makers]
    simp
  exact (mem_queue.1 hmem).1

/-- The slot is in no queue any more. -/
theorem queued_ne : ∀ side p, ∀ r ∈ (σ.set o.side o.price (q₁ ++ q₂)) side p, r ≠ s := by
  intro side p r hr
  have hnd := h.refines.filed.nodup o.side o.price
  rw [h.slots, List.nodup_middle, List.nodup_cons] at hnd
  by_cases hsp : side = o.side ∧ p = o.price
  · obtain ⟨rfl, rfl⟩ := hsp
    rw [Queues.set_self] at hr
    exact ne_of_mem_of_not_mem hr hnd.1
  · rw [Queues.set_of_ne hsp] at hr
    rintro rfl
    exact hsp (h.refines.wired.disjoint h.mem hr)

/-- The level goes when the maker was alone in it. -/
theorem nil_iff : q₁ ++ q₂ = [] ↔ m₁ ++ m₂ = [] := by
  have hlen := (h.refines.filed.queued o.side o.price).length_eq
  have hfront := h.length
  rw [h.slots, h.makers] at hlen
  simp only [List.length_append, List.length_cons] at hlen
  rw [← List.length_eq_zero_iff, ← List.length_eq_zero_iff]
  simp only [List.length_append]
  omega

theorem occupied : (Slab.get? a s).isSome := by
  obtain ⟨x, hx, -⟩ := get?_of_core (a := a) (s := s) (o := o) (by rw [h.core_eq, h.core])
  rw [hx]
  rfl

/-- Without the maker in the arena, the book is that of the other makers. -/
theorem removed :
    Refines ((if q₁ ++ q₂ = [] then
        (b.setIndex (b.idIndex.erase o.id)).eraseLevel o.side o.price
      else (b.setIndex (b.idIndex.erase o.id)).putLevel o.side o.price l').setArena
        (Slab.remove a s)) (σ.set o.side o.price (q₁ ++ q₂)) none (q.drop o) := by
  have hr := h.refines
  refine hr.put_of_lastTrade (L := if q₁ ++ q₂ = [] then none else some l') ?_ ?_
    (fun r o' hheld => ?_) (fun side p => ?_) (fun p hp => filter_drop_of_ne hr.wf h.maker hp)
    (fun hnone => ?_) (fun l'' hsome => ?_) (hr.wf.drop h.maker) ?_
  · refine h.wired.congr (fun side p => ?_) (fun side p r hr' => ?_) fun side p r hr' => ?_
    · rw [OrderBook.level?_setArena, OrderBook.level?_setArena]
    · rw [OrderBook.arena_setArena, linksOf_remove h.occupied,
        Function.update_of_ne (h.queued_ne side p r hr')]
      rfl
    · rw [OrderBook.arena_setArena, coreOf_remove h.occupied,
        Function.update_of_ne (h.queued_ne side p r hr')]
      rfl
  · have hindex : ((if q₁ ++ q₂ = [] then
        (b.setIndex (b.idIndex.erase o.id)).eraseLevel o.side o.price
      else (b.setIndex (b.idIndex.erase o.id)).putLevel o.side o.price l').setArena
        (Slab.remove a s)).idIndex = b.idIndex.erase o.id := by
      split <;> rfl
    rw [hindex, OrderBook.arena_setArena, coreOf_remove h.occupied, h.core_eq,
      filter_drop_self hr.wf h.makers, OrderedMap.lookup_erase]
    exact hr.filed.remove h.slots h.makers h.length
  · have hrs : r ≠ s := fun e => by
      rw [e, hr.filed.not_held h.mem] at hheld
      cases hheld
    have hrσ : r ∉ σ o.side o.price := fun h' => by
      rw [hr.filed.not_held h'] at hheld
      cases hheld
    rw [OrderBook.arena_setArena, linksOf_remove h.occupied, Function.update_of_ne hrs,
      h.frame r hrσ]
  · rw [OrderBook.level?_setArena]
    split <;> simp [OrderBook.level?_eraseLevel, OrderBook.level?_putLevel]
  · rw [filter_drop_self hr.wf h.makers, ← h.nil_iff]
    by_contra hne
    simp [hne] at hnone
  · by_cases he : q₁ ++ q₂ = []
    · simp [he] at hsome
    · rw [if_neg he] at hsome
      cases hsome
      refine ⟨fun hnil => he (h.nil_iff.2 (by rwa [filter_drop_self hr.wf h.makers] at hnil)), ?_⟩
      rw [hr.tally _ _ _ h.level, Tally.leave, PriceLevel.tally, PriceLevel.tally, h.totalQty,
        h.count]
  · split <;> exact ⟨rfl, rfl, rfl, rfl, rfl⟩

end Unlinked

end Unlinked

namespace Refines

variable {id : OrderId} {loc : Location}

/-- A resting order is taken out of its level and of the arena. -/
theorem takeOut_maker (hr : Refines b σ none q) (hidx : b.idIndex[id]? = some loc)
    (ho : coreOf b.arena loc.slot = some o) (hmem : loc.slot ∈ σ o.side o.price) :
    ∃ b₁ b₂ σ', (b.setIndex (b.idIndex.erase id)).removeSlot loc.slot o.side o.price o.remaining =
        .ok b₁ ∧ b₁.removeOrder loc.slot = .ok b₂ ∧ Refines b₂ σ' none (q.drop o) ∧
      coreOf b₂.arena = Function.update (coreOf b.arena) loc.slot none ∧
      b₂.idIndex[id]? = none := by
  obtain ⟨o', ho', rfl, -, -⟩ := hr.filed.of_index hidx
  rw [ho] at ho'
  cases ho'
  generalize loc.slot = s at ho hmem ⊢
  obtain ⟨q₁, q₂, hσ⟩ := List.append_of_mem hmem
  have hrel := hr.filed.queued o.side o.price
  rw [hσ] at hrel
  obtain ⟨m₁, x, m₂, hqueue, hlen, hx⟩ := forall₂_split hrel
  rw [ho] at hx
  cases hx
  obtain ⟨l, hl⟩ := Option.isSome_iff_exists.1 ((hr.present o.side o.price).2 (by
    rw [hqueue]
    simp))
  obtain ⟨a, l', h₁, htot, hcount, hcore, hframe, hw⟩ :=
    (hr.Wired_setIndex (b.idIndex.erase o.id)).removeSlot
      ((OrderBook.level?_setIndex ..).trans hl) hσ o.remaining
  have hunlinked : Unlinked b σ q o s q₁ q₂ m₁ m₂ l l' a :=
    ⟨hr, ho, hσ, hqueue, hlen, hl, htot, hcount, hcore, hframe, hw⟩
  obtain ⟨x, hx⟩ := Option.isSome_iff_exists.1 hunlinked.occupied
  refine ⟨_, _, σ.set o.side o.price (q₁ ++ q₂), h₁, removeOrder_eq hx, hunlinked.removed, ?_, ?_⟩
  · change coreOf (Slab.remove a s) = _
    rw [coreOf_remove hunlinked.occupied, hcore]
    rfl
  · have herased : (b.idIndex.erase o.id)[o.id]? = none := by
      rw [OrderedMap.getElem?_erase, if_pos rfl]
    split <;> exact herased

end Refines

/-! ### Held stop orders -/

/-- The book in which a level, if there is one, is discounted. -/
def OrderBook.discounted (b : OrderBook A) (side : Side) (p : Price) (qty : Qty) : OrderBook A :=
  match b.level? side p with
  | none => b
  | some l => b.putLevel side p (l.remove qty)

section Discounted

variable {side : Side} {p : Price} {qty : Qty}

omit [Slab A Order] in
@[simp] theorem OrderBook.arena_discounted : (b.discounted side p qty).arena = b.arena := by
  unfold discounted
  split <;> rfl

omit [Slab A Order] in
@[simp] theorem OrderBook.idIndex_discounted : (b.discounted side p qty).idIndex = b.idIndex := by
  unfold discounted
  split <;> rfl

omit [Slab A Order] in
theorem OrderBook.discounted_frame (b : OrderBook A) (side : Side) (p : Price) (qty : Qty) :
    (b.discounted side p qty).symbol = b.symbol ∧ (b.discounted side p qty).tick = b.tick ∧
      (b.discounted side p qty).stopBuys = b.stopBuys ∧
      (b.discounted side p qty).stopSells = b.stopSells ∧
      (b.discounted side p qty).lastTrade = b.lastTrade := by
  unfold discounted
  split <;> exact ⟨rfl, rfl, rfl, rfl, rfl⟩

omit [Slab A Order] in
theorem OrderBook.level?_discounted {side' : Side} {p' : Price} :
    (b.discounted side p qty).level? side' p' = (b.level? side' p').map fun l =>
      if side' = side ∧ p' = p then l.remove qty else l := by
  unfold discounted
  by_cases h : side' = side ∧ p' = p
  · obtain ⟨rfl, rfl⟩ := h
    cases hl : b.level? side' p' with
    | none => simp [hl]
    | some l => simp [OrderBook.level?_putLevel]
  · split <;> simp [OrderBook.level?_putLevel, h]

omit [Slab A Order] in
theorem OrderBook.discounted_setIndex (index : Std.ExtTreeMap OrderId Location) :
    (b.setIndex index).discounted side p qty = (b.discounted side p qty).setIndex index := by
  unfold discounted
  rw [OrderBook.level?_setIndex]
  split <;> rfl

theorem Wired.discounted (hw : Wired b σ) (side : Side) (p : Price) (qty : Qty) :
    Wired (b.discounted side p qty) σ := by
  unfold OrderBook.discounted
  split
  · exact hw
  · next l hl => exact hw.retotal hl rfl rfl

end Discounted

/-- Unlinking a slot that is in no queue only discounts the level it is looked for
in. -/
theorem Wired.removeSlot_loose (hw : Wired b σ) (ho : coreOf b.arena s = some o)
    (hlinks : linksOf b.arena s = some (none, none)) (hloose : ∀ side p, s ∉ σ side p)
    (side : Side) (p : Price) (hne : b.level? side p ≠ none → σ side p ≠ []) (qty : Qty) :
    b.removeSlot s side p qty = .ok (b.discounted side p qty) := by
  obtain ⟨o', ho', -, hl'⟩ := order_of_core ho
  rw [hlinks] at hl'
  have hprev : o'.prev = none := (congrArg Prod.fst (Option.some.inj hl')).symm
  have hnext : o'.next = none := (congrArg Prod.snd (Option.some.inj hl')).symm
  unfold OrderBook.removeSlot OrderBook.discounted
  simp only [ho', Fuel.ok_bind, hprev, hnext, OrderBook.modifyLinked, Fuel.pure_eq_ok]
  cases hl : b.level? side p with
  | none => rfl
  | some l =>
    have hc := hw.chain _ _ _ hl
    have hhead : l.head ≠ some s := fun e =>
      hloose side p (List.mem_of_head? (hc.head_eq ▸ e))
    have htail : l.tail ≠ some s := fun e =>
      hloose side p (List.mem_of_getLast? (hc.tail_eq ▸ e))
    have hbypass : l.bypass s none none = l := by
      rw [PriceLevel.bypass_eq, if_neg hhead, if_neg htail]
    have hempty : l.isEmpty ≠ true := fun h =>
      hne (by simp [hl]) ((hw.isEmpty_iff hl).1 h)
    dsimp only
    rw [hbypass, if_neg (show (l.remove qty).isEmpty ≠ true from hempty)]

namespace Refines

variable {id : OrderId} {loc : Location}

/-- A triggered stop order is pulled out of its slot, wherever the level maps are. -/
theorem pullOut (hr : Refines b σ none q) (hheld : q.held s = some o) :
    ∃ b', (b.setIndex (b.idIndex.erase o.id)).removeOrder s = .ok b' ∧
      Refines b' σ none (q.release s) ∧
      coreOf b'.arena = Function.update (coreOf b.arena) s none ∧
      b'.idIndex[o.id]? = none := by
  obtain ⟨ho, hstop⟩ := hr.filed.held_core _ _ hheld
  obtain ⟨x, hx, -⟩ := get?_of_core ho
  have hocc : (Slab.get? b.arena s).isSome := by rw [hx]; rfl
  have hne : ∀ side p, ∀ r ∈ σ side p, r ≠ s := by
    rintro side p r hr' rfl
    rw [hr.filed.not_held hr'] at hheld
    cases hheld
  have hremove : (b.setIndex (b.idIndex.erase o.id)).removeOrder s =
      .ok ((b.setIndex (b.idIndex.erase o.id)).setArena (Slab.remove b.arena s)) :=
    removeOrder_eq hx
  refine ⟨_, hremove, ⟨hr.wired.congr (fun side p => by simp) (fun side p r hr' => ?_)
    (fun side p r hr' => ?_), ?_, fun r x h => ?_, fun side p => ?_, fun side p l h => ?_,
    hr.wf.release _, hr.symbol, hr.tick, hr.stopBuys, hr.stopSells, hr.lastTrade⟩,
    coreOf_remove hocc, ?_⟩
  · rw [OrderBook.arena_setArena, linksOf_remove hocc, Function.update_of_ne (hne side p r hr')]
  · rw [OrderBook.arena_setArena, coreOf_remove hocc, Function.update_of_ne (hne side p r hr')]
  · change Filed (coreOf (Slab.remove b.arena s)) (fun id => (b.idIndex.erase o.id)[id]?) _ _ _ _
    rw [coreOf_remove hocc, OrderedMap.lookup_erase]
    exact hr.filed.release hheld
  · have hrs : r ≠ s := fun e => by
      rw [e] at h
      simp [PriorityBook.release] at h
    have h' : q.held r = some x := by
      change Function.update q.held s none r = some x at h
      rwa [Function.update_of_ne hrs] at h
    rw [OrderBook.arena_setArena, linksOf_remove hocc, Function.update_of_ne hrs]
    exact hr.loose_links r x h'
  · rw [OrderBook.level?_setArena, OrderBook.level?_setIndex]
    exact hr.present side p
  · rw [OrderBook.level?_setArena, OrderBook.level?_setIndex] at h
    exact hr.tally side p l h
  · change (b.idIndex.erase o.id)[o.id]? = none
    rw [OrderedMap.getElem?_erase, if_pos rfl]

/-- Discounting a level of the book discounts it in the priority book. -/
theorem discounted (hr : Refines b σ none q) (side : Side) (p : Price) (qty : Qty) :
    Refines (b.discounted side p qty) σ none (q.discount side p qty) := by
  obtain ⟨hsymbol, htick, hbuys, hsells, hlast⟩ := b.discounted_frame side p qty
  refine ⟨hr.wired.discounted side p qty, ?_, fun r x hheld => ?_, fun side' p' => ?_,
    fun side' p' l hl => ?_, hr.wf.discount side p qty, hsymbol.trans hr.symbol,
    htick.trans hr.tick, hbuys.trans hr.stopBuys, hsells.trans hr.stopSells,
    hlast.trans hr.lastTrade⟩
  · rw [OrderBook.arena_discounted, OrderBook.idIndex_discounted]
    exact hr.filed
  · rw [OrderBook.arena_discounted]
    exact hr.loose_links r x hheld
  · rw [OrderBook.level?_discounted, Option.isSome_map]
    exact hr.present side' p'
  · rw [OrderBook.level?_discounted] at hl
    obtain ⟨l₀, hl₀, rfl⟩ := Option.map_eq_some_iff.1 hl
    have hq : q.queue side' p' ≠ [] := (hr.present side' p').1 (by rw [hl₀]; rfl)
    unfold PriorityBook.discount
    dsimp only
    by_cases h : side' = side ∧ p' = p
    · rw [if_pos ⟨h.1, h.2, hq⟩, if_pos h, hr.tally _ _ _ hl₀]
      rfl
    · rw [if_neg fun h' => h ⟨h'.1, h'.2.1⟩, if_neg h, hr.tally _ _ _ hl₀]

/-- A held stop order is taken out: the level at its trigger price is discounted. -/
theorem takeOut_held (hr : Refines b σ none q) (hidx : b.idIndex[id]? = some loc)
    (hheld : q.held loc.slot = some o) :
    ∃ b₁ b₂, (b.setIndex (b.idIndex.erase id)).removeSlot loc.slot o.side o.stopPrice
        o.remaining = .ok b₁ ∧ b₁.removeOrder loc.slot = .ok b₂ ∧
      Refines b₂ σ none ((q.discount o.side o.stopPrice o.remaining).release loc.slot) ∧
      coreOf b₂.arena = Function.update (coreOf b.arena) loc.slot none ∧
      b₂.idIndex[id]? = none := by
  obtain ⟨ho, -⟩ := hr.filed.held_core _ _ hheld
  obtain ⟨o', ho', rfl, -⟩ := hr.filed.of_index hidx
  cases ho.symm.trans ho'
  have hloose : ∀ side p, loc.slot ∉ σ side p := by
    intro side p h
    rw [hr.filed.not_held h] at hheld
    cases hheld
  have hqueue : ∀ side p, σ side p = [] ↔ q.queue side p = [] := by
    intro side p
    rw [← List.length_eq_zero_iff, (hr.filed.queued side p).length_eq, List.length_eq_zero_iff]
  have hw : Wired (b.setIndex (b.idIndex.erase o.id)) σ := hr.Wired_setIndex _
  have hunlinked := hw.removeSlot_loose ho (hr.loose_links _ o hheld) hloose o.side
    o.stopPrice (fun h => by
      rw [Ne, hqueue]
      refine (hr.present _ _).1 ?_
      rwa [OrderBook.level?_setIndex, ← Option.isSome_iff_ne_none] at h) o.remaining
  obtain ⟨b₂, hremoved, hr₂, hcore, hindex⟩ :=
    (hr.discounted o.side o.stopPrice o.remaining).pullOut hheld
  rw [OrderBook.idIndex_discounted, ← OrderBook.discounted_setIndex] at hremoved
  rw [OrderBook.arena_discounted] at hcore
  exact ⟨_, b₂, hunlinked, hremoved, hr₂, hcore, hindex⟩

/-- The stop maps after a stop order is filed. -/
theorem holdStop_stops (b : OrderBook A) (no : NewOrder) (seq : Seq) (ts : Ts) :
    ((Exchange.holdStop b no seq ts).stopBuys = match no.side with
      | .buy => b.stopBuys.insert no.stopPrice
          (b.stopBuys[no.stopPrice]?.getD [] ++ [Slab.vacantKey b.arena])
      | .sell => b.stopBuys) ∧
    (Exchange.holdStop b no seq ts).stopSells = match no.side with
      | .buy => b.stopSells
      | .sell => b.stopSells.insert no.stopPrice
          (b.stopSells[no.stopPrice]?.getD [] ++ [Slab.vacantKey b.arena]) := by
  obtain ⟨id, symbol, side, kind, tif, price, stopPrice, qty⟩ := no
  cases side with
  | buy => exact ⟨rfl, rfl⟩
  | sell => exact ⟨rfl, rfl⟩

/-- A stop order is held. -/
theorem holdStop (hr : Refines b σ none q) {no : NewOrder} (hkind : no.kind.isStop = true)
    (hid : b.idIndex[no.id]? = none) (seq : Seq) (ts : Ts) :
    Refines (Exchange.holdStop b no seq ts) σ none
        (q.hold (Slab.vacantKey b.arena) (no.toOrder seq ts)) ∧
      coreOf (Exchange.holdStop b no seq ts).arena = Function.update (coreOf b.arena)
        (Slab.vacantKey b.arena) (some (no.toOrder seq ts)) := by
  have hvac : coreOf b.arena (Slab.vacantKey b.arena) = none := coreOf_vacantKey
  have hcore : coreOf (Slab.insert b.arena (no.toOrder seq ts)) = Function.update (coreOf b.arena)
      (Slab.vacantKey b.arena) (some (no.toOrder seq ts)) := by
    rw [coreOf_insert]
    rfl
  have hne : ∀ side p, ∀ r ∈ σ side p, r ≠ Slab.vacantKey b.arena := by
    rintro side p r hr' rfl
    obtain ⟨x, -, hx⟩ := hr.filed.core_of_mem hr'
    rw [hvac] at hx
    cases hx
  have harena : (Exchange.holdStop b no seq ts).arena = Slab.insert b.arena (no.toOrder seq ts) :=
    rfl
  have hlevel : ∀ side p, (Exchange.holdStop b no seq ts).level? side p = b.level? side p := by
    intro side p
    cases side <;> rfl
  have hloc : (⟨no.stopPrice, no.side, Slab.vacantKey b.arena⟩ : Location) =
      (no.toOrder seq ts).location (Slab.vacantKey b.arena) := by
    have hk : (no.toOrder seq ts).kind.isStop = true := hkind
    simp only [Order.location, hk, if_true]
    rfl
  refine ⟨⟨hr.wired.congr hlevel (fun side p r hr' => ?_) (fun side p r hr' => ?_), ?_,
    fun r x h => ?_, fun side p => ?_, fun side p l h => ?_, hr.wf.hold _ _, hr.symbol, hr.tick,
    ?_, ?_, hr.lastTrade⟩, hcore⟩
  · rw [harena, linksOf_insert, Function.update_of_ne (hne side p r hr')]
  · rw [harena, coreOf_insert, Function.update_of_ne (hne side p r hr')]
  · change Filed (coreOf (Slab.insert b.arena (no.toOrder seq ts)))
      (fun id => (b.idIndex.insert no.id ⟨no.stopPrice, no.side, Slab.vacantKey b.arena⟩)[id]?)
      _ _ _ _
    rw [hcore, OrderedMap.lookup_insert, hloc]
    exact hr.filed.hold hvac hkind hid
  · rw [harena, linksOf_insert]
    change Function.update q.held _ _ r = some x at h
    by_cases hrs : r = Slab.vacantKey b.arena
    · rw [hrs, Function.update_self]
      rfl
    · rw [Function.update_of_ne hrs] at h ⊢
      exact hr.loose_links r x h
  · rw [hlevel]
    exact hr.present side p
  · rw [hlevel] at h
    exact hr.tally side p l h
  · rw [(holdStop_stops b no seq ts).1, hr.stopBuys]
    rfl
  · rw [(holdStop_stops b no seq ts).2, hr.stopSells]
    rfl

end Refines

end Exchange
