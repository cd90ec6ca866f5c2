import Exchange.Verify.Step

/-!
# Live orders

Which orders are live after each update of the priority book, and that every
command keeps the book well-formed.
-/

namespace Exchange

namespace PriorityBook

variable {q : PriorityBook} {side : Side} {p : Price} {ms : List Order} {tally : Tally}
  {m o : Order} {id : OrderId}

/-! ## Updates -/

theorem mem_makers_put {x : Order} :
    (∃ side', x ∈ (q.put side p ms tally).makers side') ↔
      x ∈ ms ∨ x ∈ q.makers side.opposite := by
  constructor
  · rintro ⟨side', hx⟩
    rcases side.eq_or_eq_opposite side' with rfl | rfl
    · exact .inl (by simpa using hx)
    · rw [makers_put_of_ne (Side.opposite_ne side)] at hx
      exact .inr hx
  · rintro (hx | hx)
    · exact ⟨side, by simpa using hx⟩
    · exact ⟨side.opposite, by rwa [makers_put_of_ne (Side.opposite_ne side)]⟩

theorem mem_makers_iff (side : Side) {x : Order} :
    (∃ side', x ∈ q.makers side') ↔ x ∈ q.makers side ∨ x ∈ q.makers side.opposite := by
  constructor
  · rintro ⟨side', hx⟩
    rcases side.eq_or_eq_opposite side' with rfl | rfl
    · exact .inl hx
    · exact .inr hx
  · rintro (hx | hx)
    · exact ⟨_, hx⟩
    · exact ⟨_, hx⟩

theorem live?_put (hq : (q.put side p ms tally).WF) :
    (q.put side p ms tally).live? id = some o ↔
      (o ∈ ms ∨ o ∈ q.makers side.opposite) ∧ o.id = id := by
  rw [hq.live?_eq_some, mem_makers_put]

/-- An update leaves an id alone when it moves no order of that id. -/
theorem live?_put_of_ne (hq : q.WF) (hq' : (q.put side p ms tally).WF)
    (hms : ∀ x, x.id = id → (x ∈ ms ↔ x ∈ q.makers side)) :
    (q.put side p ms tally).live? id = q.live? id := by
  refine Option.ext fun o => ?_
  rw [live?_put hq', hq.live?_eq_some, mem_makers_iff side]
  refine and_congr_left fun hid => ?_
  rw [hms o hid]

section Trade

variable (hq : q.WF) (hm : q.makers side = m :: ms)
include hq hm

theorem live?_head : q.live? m.id = some m :=
  hq.live?_eq_some.2 ⟨⟨side, hm ▸ List.mem_cons_self⟩, rfl⟩

theorem live?_trade_of_ne (hne : id ≠ m.id) (qty : Qty) :
    (q.trade side m qty).live? id = q.live? id := by
  have hwf := hq.trade hm qty
  by_cases hleft : m.remaining - qty = 0
  · rw [trade_of_eq hm hleft] at hwf ⊢
    refine live?_put_of_ne hq (hwf.withLastTrade q.lastTrade) fun x hx => ?_
    rw [hm, List.mem_cons, or_iff_right fun e => hne (by rw [← hx, e])]
  · rw [trade_of_ne hm hleft] at hwf ⊢
    refine live?_put_of_ne hq (hwf.withLastTrade q.lastTrade) fun x hx => ?_
    rw [hm, List.mem_cons, List.mem_cons, or_iff_right fun e => hne (by rw [← hx, e]),
      or_iff_right fun e => hne (by rw [← hx, e])]

theorem live?_trade_filled {qty : Qty} (hleft : m.remaining - qty = 0) :
    (q.trade side m qty).live? m.id = none := by
  have hwf := hq.trade hm qty
  have hids := hq.ids side
  rw [hm, List.map_cons, List.nodup_cons] at hids
  rw [trade_of_eq hm hleft] at hwf ⊢
  refine (hwf.withLastTrade q.lastTrade).live?_eq_none.2 fun side' x hx hid => ?_
  rcases mem_makers_put.1 ⟨side', hx⟩ with hx | hx
  · exact hids.1 (hid ▸ List.mem_map_of_mem hx)
  · exact hq.apart side m (hm ▸ List.mem_cons_self) x hx hid.symm

theorem live?_trade_reduced {qty : Qty} (hleft : m.remaining - qty ≠ 0) :
    (q.trade side m qty).live? m.id = some { m with remaining := m.remaining - qty } := by
  have hwf := hq.trade hm qty
  rw [trade_of_ne hm hleft] at hwf ⊢
  exact (live?_put (hwf.withLastTrade q.lastTrade)).2 ⟨.inl List.mem_cons_self, rfl⟩

end Trade

theorem live?_rest_self (hq : (q.rest o).WF) : (q.rest o).live? o.id = some o :=
  (live?_put hq).2 ⟨.inl (Priority.mem_enqueue.2 (.inl rfl)), rfl⟩

theorem live?_rest_of_ne (hq : q.WF) (hq' : (q.rest o).WF) (hne : id ≠ o.id) :
    (q.rest o).live? id = q.live? id :=
  live?_put_of_ne hq hq' fun x hx => by
    rw [Priority.mem_enqueue, or_iff_right fun e => hne (by rw [← hx, e])]

theorem live?_drop_self (hq : q.WF) (ho : o ∈ q.makers side) : (q.drop o).live? o.id = none := by
  obtain ⟨-, rfl, -⟩ := hq.maker side o ho
  refine (hq.drop ho).live?_eq_none.2 fun side' x hx hid => ?_
  rcases mem_makers_put.1 ⟨side', hx⟩ with hx | hx
  · simp [hid] at hx
  · exact hq.apart _ o ho x hx hid.symm

theorem live?_drop_of_ne (hq : q.WF) (ho : o ∈ q.makers side) (hne : id ≠ o.id) :
    (q.drop o).live? id = q.live? id := by
  have hq' := hq.drop ho
  obtain ⟨-, rfl, -⟩ := hq.maker side o ho
  exact live?_put_of_ne hq hq' fun x hx => by simp [hx, hne]

/-- A sweep leaves an id alone that is not one of the makers'. -/
theorem live?_tradeAll_of_none (hq : q.WF) (hlive : q.live? id = none) (side : Side)
    (ok : Price → Bool) (need : Qty) :
    (q.tradeAll side (fills ok need (q.makers side))).live? id = none := by
  have hstep : ∀ (q : PriorityBook) (need : Qty) (_ : List (Order × Qty)) (m : Order)
      (ms : List Order), q.WF ∧ q.live? id = none → q.makers side = m :: ms → need ≠ 0 →
      ok m.price = true → (q.trade side m (min need m.remaining)).WF ∧
        (q.trade side m (min need m.remaining)).live? id = none := by
    intro q need _ m ms h hm _ _
    refine ⟨h.1.trade hm _, (live?_trade_of_ne h.1 hm (fun e => ?_) _).trans h.2⟩
    rw [e, live?_head h.1 hm] at h
    cases h.2
  exact (sweep_rule (P := fun q _ _ => q.WF ∧ q.live? id = none) hstep [] ⟨hq, hlive⟩).1.2

/-! ## Commands keep a book well-formed -/

section Commands

variable {no : NewOrder}

theorem live?_of_reject?_none (h : q.reject? no = none) : q.live? no.id = none := by
  cases hlive : q.live? no.id with
  | none => rfl
  | some o =>
    unfold reject? at h
    rw [hlive] at h
    split at h <;> simp at h

theorem qty_of_reject?_none (h : q.reject? no = none) : no.qty ≠ 0 := by
  intro hz
  simp [reject?, hz] at h

theorem price_of_reject?_none (h : q.reject? no = none) (hneeds : no.kind.needsPrice = true) :
    ¬no.price ≤ 0 := by
  intro hle
  simp only [reject?, hneeds, hle, decide_true, Bool.and_true, if_true] at h
  split at h
  · cases h
  · split at h <;> cases h

/-- Nothing crosses the remainder of a limit order. -/
theorem WF.spent (hq : q.WF) (no : NewOrder)
    (hleft : no.qty - taken (fills no.accepts no.qty (q.makers no.side.opposite)) ≠ 0)
    (hkind : no.kind = .limit) :
    ∀ y ∈ (q.tradeAll no.side.opposite
        (fills no.accepts no.qty (q.makers no.side.opposite))).makers no.side.opposite,
      no.side.withinLimit no.price y.price = false := by
  obtain ⟨hwf, hstop⟩ := hq.tradeAll no.side.opposite no.accepts no.qty
  refine hwf.withinLimit_of_head fun m hm => ?_
  simpa [NewOrder.accepts, hkind, OrderType.sweepsAll] using hstop.resolve_left hleft m hm

theorem WF.settle (hq : q.WF) (hlive : q.live? no.id = none) {filled : Qty} {seq : Seq} {ts : Ts}
    (hcross : no.qty - filled ≠ 0 → no.kind = .limit →
      ∀ y ∈ q.makers no.side.opposite, no.side.withinLimit no.price y.price = false) :
    (q.settle no filled seq ts).1.WF := by
  unfold PriorityBook.settle
  dsimp only
  split
  · exact hq
  · next hleft =>
    split
    · next hkind => exact hq.rest hkind hleft (hcross hleft hkind) (hq.live?_eq_none.1 hlive)
    · exact hq

theorem WF.execute (hq : q.WF) (hlive : q.live? no.id = none) (seq : Seq) (ts : Ts) :
    (q.execute no seq ts).1.WF :=
  WF.settle (hq.tradeAll no.side.opposite no.accepts no.qty).1
    (live?_tradeAll_of_none hq hlive _ _ _) (hq.spent no)

theorem WF.enter (hq : q.WF) (no : NewOrder) (seq : Seq) (ts : Ts) : (q.enter no seq ts).1.WF := by
  unfold PriorityBook.enter
  split
  · exact hq
  · next hreject =>
    split
    · exact hq
    · exact hq.execute (live?_of_reject?_none hreject) seq ts

theorem WF.drop_live (hq : q.WF) (hlive : q.live? id = some o) : (q.drop o).WF := by
  obtain ⟨⟨side, ho⟩, -⟩ := hq.live?_eq_some.1 hlive
  exact hq.drop ho

/-- What a command does: enter a new order, be refused, take an order out, or take it
out and enter its replacement. -/
theorem apply_cases (q : PriorityBook) (cmd : Sequenced) :
    (∃ no, cmd.cmd = .new no ∧ q.apply cmd = q.enter no cmd.seq cmd.ts) ∨
      (∃ id reason, reason ≠ .fokUnfillable ∧ q.apply cmd = (q, [.rejected id reason cmd.seq])) ∨
      (∃ id symbol o, cmd.cmd = .cancel id symbol ∧ q.live? id = some o ∧
        q.apply cmd = (q.drop o, [.cancelled id cmd.seq])) ∨
      ∃ id newPrice newQty symbol o, cmd.cmd = .replace id newPrice newQty symbol ∧ newQty ≠ 0 ∧
        q.live? id = some o ∧
        q.apply cmd =
          (((q.drop o).enter (o.replacement id newPrice newQty) cmd.seq cmd.ts).1,
            .replaced id cmd.seq ::
              ((q.drop o).enter (o.replacement id newPrice newQty) cmd.seq cmd.ts).2) := by
  obtain ⟨seq, ts, cmd⟩ := cmd
  unfold PriorityBook.apply
  cases cmd with
  | new no => exact .inl ⟨no, rfl, rfl⟩
  | cancel id symbol =>
    dsimp only
    cases hlive : q.live? id with
    | none => exact .inr (.inl ⟨id, .unknownId, nofun, rfl⟩)
    | some o => exact .inr (.inr (.inl ⟨id, symbol, o, rfl, hlive, rfl⟩))
  | replace id newPrice newQty symbol =>
    dsimp only
    by_cases hzero : newQty = 0
    · rw [if_pos hzero]
      exact .inr (.inl ⟨id, .zeroQty, nofun, rfl⟩)
    · rw [if_neg hzero]
      cases hlive : q.live? id with
      | none => exact .inr (.inl ⟨id, .unknownId, nofun, rfl⟩)
      | some o =>
        exact .inr (.inr (.inr ⟨id, newPrice, newQty, symbol, o, rfl, hzero, hlive, rfl⟩))

/-- Every command keeps a book well-formed. -/
theorem WF.apply (hq : q.WF) (cmd : Sequenced) : (q.apply cmd).1.WF := by
  rcases q.apply_cases cmd with ⟨no, -, h⟩ | ⟨id, reason, -, h⟩ | ⟨id, symbol, o, -, hlive, h⟩ |
    ⟨id, newPrice, newQty, symbol, o, -, -, hlive, h⟩
  · rw [h]
    exact hq.enter no _ _
  · rw [h]
    exact hq
  · rw [h]
    exact hq.drop_live hlive
  · rw [h]
    exact (hq.drop_live hlive).enter _ _ _

end Commands

end PriorityBook

end Exchange
