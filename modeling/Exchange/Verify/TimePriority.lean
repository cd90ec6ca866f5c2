import Exchange.Verify.Live

/-!
# Price-time priority

The makers of the priority book stand in the order of their price and, at one
price, of the command that entered them. `Ranked` says so for an assignment of
positions to ids; every command keeps it for the positions in the log.
-/

namespace Exchange

open PriorityBook

/-! ## Positions in the log -/

def OutputEvent.accepts (id : OrderId) : OutputEvent → Bool
  | .accepted i _ => i = id
  | _ => false

/-- The position of the last command that entered the order `id`, counted from one. -/
def arrival (log : List Entry) (id : OrderId) : Nat :=
  log.length - log.reverse.findIdx fun e => e.2.any (·.accepts id)

theorem arrival_snoc (log : List Entry) (e : Entry) (id : OrderId) :
    arrival (log ++ [e]) id =
      if e.2.any (·.accepts id) then log.length + 1 else arrival log id := by
  unfold arrival
  rw [List.reverse_append, List.reverse_singleton, List.singleton_append, List.findIdx_cons,
    List.length_append, List.length_singleton]
  cases e.2.any (·.accepts id) with
  | true => rfl
  | false =>
    dsimp only [cond_false]
    rw [if_neg Bool.false_ne_true]
    omega

namespace PriorityBook

variable {q : PriorityBook} {side : Side} {m o : Order} {ms : List Order} {pos pos' : OrderId → Nat}
  {n n' : Nat} {no : NewOrder}

/-! ## Ranked makers -/

/-- `x` trades before `y`: at a better price, or at the same price entered earlier. -/
def Precedes (pos : OrderId → Nat) (side : Side) (x y : Order) : Prop :=
  side.rank x.price < side.rank y.price ∨ x.price = y.price ∧ pos x.id < pos y.id

/-- The makers are in price-time priority and were entered before `n`. -/
structure Ranked (pos : OrderId → Nat) (n : Nat) (q : PriorityBook) : Prop where
  order : ∀ side, (q.makers side).Pairwise (Precedes pos side)
  earlier : ∀ side, ∀ x ∈ q.makers side, pos x.id < n

namespace Ranked

theorem congr (hr : Ranked pos n q) (h : ∀ side, ∀ x ∈ q.makers side, pos' x.id = pos x.id) :
    Ranked pos' n q := by
  refine ⟨fun side => (hr.order side).imp_of_mem fun {x y} hx hy hxy => ?_, fun side x hx => ?_⟩
  · unfold Precedes
    rw [h side x hx, h side y hy]
    exact hxy
  · rw [h side x hx]
    exact hr.earlier side x hx

theorem mono (hr : Ranked pos n q) (h : n ≤ n') : Ranked pos n' q :=
  ⟨hr.order, fun side x hx => Nat.lt_of_lt_of_le (hr.earlier side x hx) h⟩

/-- Ranks survive an update of one side that keeps the ranks of that side. -/
theorem put {p : Price} {tally : Tally} (hr : Ranked pos n q)
    (horder : ms.Pairwise (Precedes pos side)) (hearlier : ∀ x ∈ ms, pos x.id < n) :
    Ranked pos n (q.put side p ms tally) := by
  refine ⟨fun side' => ?_, fun side' x hx => ?_⟩
  · by_cases hs : side' = side
    · subst hs
      rwa [makers_put_self]
    · rw [makers_put_of_ne hs]
      exact hr.order side'
  · by_cases hs : side' = side
    · subst hs
      rw [makers_put_self] at hx
      exact hearlier x hx
    · rw [makers_put_of_ne hs] at hx
      exact hr.earlier side' x hx

/-- A partial fill does not change the rank of its maker. -/
theorem trade (hr : Ranked pos n q) (hm : q.makers side = m :: ms) (qty : Qty) :
    Ranked pos n (q.trade side m qty) := by
  have horder := hr.order side
  have hearlier := hr.earlier side
  rw [hm] at horder hearlier
  obtain ⟨hfirst, htail⟩ := List.pairwise_cons.1 horder
  by_cases hleft : m.remaining - qty = 0
  · rw [trade_of_eq hm hleft]
    have hput : Ranked pos n (q.put side m.price ms ((q.tally side m.price).pop m.remaining)) :=
      hr.put htail fun x hx => hearlier x (List.mem_cons_of_mem m hx)
    exact ⟨hput.order, hput.earlier⟩
  · rw [trade_of_ne hm hleft]
    have hput : Ranked pos n (q.put side m.price ({ m with remaining := m.remaining - qty } :: ms)
        (((q.tally side m.price).pop m.remaining).join (m.remaining - qty))) := by
      refine hr.put (List.pairwise_cons.2 ⟨hfirst, htail⟩) fun x hx => ?_
      rcases List.mem_cons.1 hx with rfl | hx
      · exact hearlier m List.mem_cons_self
      · exact hearlier x (List.mem_cons_of_mem m hx)
    exact ⟨hput.order, hput.earlier⟩

theorem tradeAll (hr : Ranked pos n q) (side : Side) (ok : Price → Bool) (need : Qty) :
    Ranked pos n (q.tradeAll side (fills ok need (q.makers side))) :=
  (sweep_rule (P := fun q _ _ => Ranked pos n q) (fun _ _ _ _ _ hr hm _ _ => hr.trade hm _) []
    hr).1

/-- An order entered last goes behind every order of its price. -/
theorem rest (hr : Ranked pos n q) (hq : q.WF) (ho : pos o.id = n) :
    Ranked pos (n + 1) (q.rest o) := by
  refine (hr.mono (Nat.le_succ n)).put ?_ fun x hx => ?_
  · refine Priority.pairwise_enqueue (hr.order o.side) (hq.ordered o.side) (fun y hy hle => ?_)
      fun y _ hlt => .inl hlt
    rcases Int.lt_or_eq_of_le hle with hlt | heq
    · exact .inl hlt
    · exact .inr ⟨Side.rank_inj heq, ho ▸ hr.earlier _ y hy⟩
  · rcases Priority.mem_enqueue.1 hx with rfl | hx
    · exact ho ▸ Nat.lt_succ_self _
    · exact Nat.lt_succ_of_lt (hr.earlier _ x hx)

theorem drop (hr : Ranked pos n q) (o : Order) : Ranked pos n (q.drop o) :=
  hr.put ((hr.order o.side).filter _) fun x hx => hr.earlier _ x (List.mem_filter.1 hx).1

theorem execute (hr : Ranked pos n q) (hq : q.WF) (hno : pos no.id = n) (seq : Seq) (ts : Ts) :
    Ranked pos (n + 1) (q.execute no seq ts).1 := by
  have hr' := hr.tradeAll no.side.opposite no.accepts no.qty
  have hq' := (hq.tradeAll no.side.opposite no.accepts no.qty).1
  unfold PriorityBook.execute PriorityBook.settle
  dsimp only
  split
  · exact hr'.mono (Nat.le_succ n)
  · split
    · exact hr'.rest hq' hno
    · exact hr'.mono (Nat.le_succ n)

end Ranked

/-! ## What a command enters -/

theorem any_accepts_settle (q : PriorityBook) (no : NewOrder) (filled : Qty) (seq : Seq) (ts : Ts)
    (id : OrderId) : (q.settle no filled seq ts).2.any (·.accepts id) = false := by
  have hreport : (if filled = 0 then [] else
      [OutputEvent.partiallyFilled no.id filled (no.qty - filled) seq]).any (·.accepts id) =
        false := by
    split <;> rfl
  unfold settle
  dsimp only
  split
  · rfl
  · split
    · exact hreport
    · rw [List.any_append, hreport]
      rfl

theorem any_accepts_fills (fs : List (Order × Qty)) (seq : Seq) (ts : Ts) (taker : OrderId)
    (side : Side) (id : OrderId) :
    (fs.flatMap (fillEvents seq ts taker side)).any (·.accepts id) = false := by
  rw [List.any_flatMap, List.any_eq_false]
  intro f _
  unfold fillEvents
  split <;> simp [OutputEvent.accepts]

theorem any_accepts_enter (q : PriorityBook) (no : NewOrder) (seq : Seq) (ts : Ts) (id : OrderId) :
    (q.enter no seq ts).2.any (·.accepts id) = ((q.reject? no).isNone && decide (no.id = id)) := by
  unfold enter
  cases q.reject? no with
  | some reason => rfl
  | none =>
    dsimp only
    split
    · simp [OutputEvent.accepts]
    · rw [List.any_cons, execute, List.any_append, any_accepts_fills, any_accepts_settle]
      simp [OutputEvent.accepts]

/-- A new order is entered at the end of the log. -/
theorem Ranked.enter (hr : Ranked pos n q) (hq : q.WF) (no : NewOrder) (seq : Seq) (ts : Ts)
    (hpos : ∀ id, pos' id =
      if (q.enter no seq ts).2.any (·.accepts id) then n else pos id) :
    Ranked pos' (n + 1) (q.enter no seq ts).1 := by
  simp only [any_accepts_enter] at hpos
  unfold PriorityBook.enter
  cases hreject : q.reject? no with
  | some reason =>
    refine (hr.congr fun side x _ => ?_).mono (Nat.le_succ n)
    simp [hpos, hreject]
  | none =>
    have hlive := live?_of_reject?_none hreject
    have hr' : Ranked pos' n q := by
      refine hr.congr fun side x hx => ?_
      have hne := hq.live?_eq_none.1 hlive side x hx
      simp [hpos, Ne.symm hne]
    dsimp only
    split
    · exact hr'.mono (Nat.le_succ n)
    · exact hr'.execute hq (by simp [hpos, hreject]) seq ts

/-- **The ranking step.** Every command keeps the makers in the order of their
positions in the log. -/
theorem Ranked.apply {log : List Entry} (hr : Ranked (arrival log) (log.length + 1) q) (hq : q.WF)
    (cmd : Sequenced) :
    Ranked (arrival (log ++ [(cmd, (q.apply cmd).2)])) (log.length + 2) (q.apply cmd).1 := by
  have hpos := fun id => arrival_snoc log (cmd, (q.apply cmd).2) id
  generalize arrival (log ++ [(cmd, (q.apply cmd).2)]) = pos' at hpos
  have hquiet : ∀ q', Ranked (arrival log) (log.length + 1) q' →
      (∀ id, pos' id = arrival log id) → Ranked pos' (log.length + 2) q' :=
    fun q' hr' h => (hr'.congr fun _ x _ => h x.id).mono (Nat.le_succ _)
  rcases q.apply_cases cmd with ⟨no, -, h⟩ | ⟨i, reason, -, h⟩ | ⟨i, symbol, o, -, hlive, h⟩ |
    ⟨i, newPrice, newQty, symbol, o, -, -, hlive, h⟩
  · rw [h] at hpos ⊢
    exact hr.enter hq no cmd.seq cmd.ts hpos
  · rw [h] at hpos ⊢
    exact hquiet q hr hpos
  · rw [h] at hpos ⊢
    exact hquiet _ (hr.drop o) hpos
  · rw [h] at hpos ⊢
    exact (hr.drop o).enter (hq.drop_live hlive) _ cmd.seq cmd.ts hpos

end PriorityBook

end Exchange
