import Exchange.Verify.LimitProtection
import Exchange.Verify.LifeCycle
import Exchange.Verify.Rejection

/-!
# Fill or kill

The check adds up the cached totals inside the limit, and the match loop then walks
the queues without looking at the limit. Cached totals may have wrapped but never
exceed what is there (`WF.backed`), so a sum that suffices is a supply that
suffices.
-/

namespace Exchange

open PriorityBook

/-- Refused as unfillable: nothing is traded and the book stays. -/
def Killed (b : OrderBook A) (no : NewOrder) (seq : Seq) (b' : OrderBook A)
    (events : List OutputEvent) : Prop :=
  events = [.accepted no.id seq, .rejected no.id .fokUnfillable seq] ∧ b' = b

/-- Filled for its whole quantity, inside its limit. -/
structure FilledWhole (no : NewOrder) (seq : Seq) (events : List OutputEvent) : Prop where
  accepted : events.head? = some (.accepted no.id seq)
  whole : (events.map (·.trades no.id)).sum = no.qty.toNat
  ends : events.getLast? = some (.filled no.id seq)
  not_partial : ∀ filled remaining seq, .partiallyFilled no.id filled remaining seq ∉ events
  not_cancelled : ∀ seq, .cancelled no.id seq ∉ events
  respects : ∀ seq maker price qty side ts,
    .trade seq no.id maker price qty side ts ∈ events → no.Respects price

namespace PriorityBook

variable {q : PriorityBook} {no : NewOrder} {seq : Seq} {ts : Ts}

/-- What fills trade of their taker. -/
theorem trades_fills (fs : List (Order × Qty)) (taker : OrderId) (side : Side) :
    ((fs.flatMap (fillEvents seq ts taker side)).map (·.trades taker)).sum =
      Greedy.total (fs.map fun f => (f.1, f.2.toNat)) := by
  induction fs with
  | nil => rfl
  | cons f fs ih =>
    have hfirst : ((fillEvents seq ts taker side f).map (·.trades taker)).sum = f.2.toNat := by
      unfold fillEvents
      split <;> simp [OutputEvent.trades]
    rw [List.flatMap_cons, List.map_append, List.sum_append, ih, hfirst, List.map_cons,
      Greedy.total_cons]

/-- The events of fills are trades and reports on the makers. -/
theorem mem_fillEvents {fs : List (Order × Qty)} {taker : OrderId} {side : Side} {e : OutputEvent}
    (h : e ∈ fs.flatMap (fillEvents seq ts taker side)) :
    ∃ f ∈ fs, e = .trade seq taker f.1.id f.1.price f.2 side ts ∨ e = .filled f.1.id seq ∨
      e = .partiallyFilled f.1.id f.2 (f.1.remaining - f.2) seq := by
  obtain ⟨f, hf, he⟩ := List.mem_flatMap.1 h
  refine ⟨f, hf, ?_⟩
  unfold fillEvents at he
  rcases List.mem_cons.1 he with he | he
  · exact .inl he
  · split at he
    · exact .inr (.inl (List.mem_singleton.1 he))
    · exact .inr (.inr (List.mem_singleton.1 he))

/-- The fills of a fill-or-kill order that passes the check add up to its quantity. -/
theorem taken_of_fok (hq : q.WF) (hm : Matchable q no) (hkind : no.kind = .fok) :
    taken (fills no.accepts no.qty (q.makers no.side.opposite)) = no.qty := by
  obtain ⟨htaken, -⟩ := @toNat_taken no.accepts no.qty (q.makers no.side.opposite)
  have hall : ((q.makers no.side.opposite).takeWhile fun o => no.accepts o.price) =
      q.makers no.side.opposite := by
    refine List.takeWhile_eq_self_iff.2 fun o _ => ?_
    simp [NewOrder.accepts, hkind, OrderType.sweepsAll]
  have henough : no.qty.toNat ≤
      Greedy.supply (fun o : Order => o.remaining.toNat) (q.makers no.side.opposite) := by
    refine le_trans (fok_enough hq hm hkind) ?_
    exact List.Sublist.sum_le_sum ((List.takeWhile_sublist _).map _) (by simp)
  refine UInt64.toNat_inj.1 ?_
  rw [htaken, fills_toNat, Greedy.total_fills, hall]
  exact Nat.min_eq_left henough

/-- The execution of a fill-or-kill order that passes the check. -/
theorem execute_fok (hq : q.WF) (hm : Matchable q no) (hkind : no.kind = .fok) :
    FilledWhole no seq (.accepted no.id seq :: (q.execute no seq ts).2) := by
  have htaken := taken_of_fok hq hm hkind
  have hevents : (q.execute no seq ts).2 =
      (fills no.accepts no.qty (q.makers no.side.opposite)).flatMap
        (fillEvents seq ts no.id no.side) ++ [.filled no.id seq] := by
    unfold PriorityBook.execute PriorityBook.settle
    dsimp only
    rw [htaken, if_pos (UInt64.sub_self _)]
  have hmaker : ∀ f ∈ fills no.accepts no.qty (q.makers no.side.opposite), f.1.id ≠ no.id :=
    fun f hf => hq.live?_eq_none.1 hm.fresh _ f.1 (fills_mem hf)
  have hrespects := (fills_respect hq (.inr (.inr hkind)) hm.fresh hm.fillable).2 (by simp [hkind])
  rw [hevents]
  refine ⟨rfl, ?_, ?_, fun filled remaining s h => ?_, fun s h => ?_, ?_⟩
  · have hsum := @trades_fills seq ts (fills no.accepts no.qty (q.makers no.side.opposite)) no.id
      no.side
    rw [List.map_cons, List.map_append, List.sum_cons, List.sum_append, hsum,
      ← (@toNat_taken no.accepts no.qty (q.makers no.side.opposite)).1, htaken]
    simp [OutputEvent.trades]
  · rw [← List.cons_append, List.getLast?_append]
    rfl
  · have h := (List.mem_append.1 ((List.mem_cons.1 h).resolve_left (by simp))).resolve_right
      (by simp)
    obtain ⟨f, hf, he | he | he⟩ := mem_fillEvents h
    · cases he
    · cases he
    · exact hmaker f hf (OutputEvent.partiallyFilled.inj he).1.symm
  · have h := (List.mem_append.1 ((List.mem_cons.1 h).resolve_left (by simp))).resolve_right
      (by simp)
    obtain ⟨f, hf, he | he | he⟩ := mem_fillEvents h
    · cases he
    · cases he
    · cases he
  · intro s maker price qty side ts' h
    have h := (List.mem_append.1 ((List.mem_cons.1 h).resolve_left (by simp))).resolve_right
      (by simp)
    obtain ⟨f, hf, he | he | he⟩ := mem_fillEvents h
    · cases he
      exact hrespects f hf
    · cases he
    · cases he

end PriorityBook

variable {A : Type} [Slab A Order] {b b' : OrderBook A} {symbol : SymbolId} {tick : Price}
  {log : List Entry} {no : NewOrder}

/-- **Fill or kill.** A fill-or-kill order with a fresh id, a positive price and a
positive quantity is refused without a trace or filled whole inside its limit. -/
theorem stopFree_fillOrKill (h : ReachesStopFree symbol tick log b) (hkind : no.kind = .fok)
    (hid : b.idIndex.contains no.id = false) (hprice : 0 < no.price) (hqty : no.qty ≠ 0)
    (seq : Seq) (ts : Ts) :
    ∃ b' events, Applies b ⟨seq, ts, .new no⟩ b' events ∧
      (Killed b no seq b' events ∨ FilledWhole no seq events) := by
  obtain ⟨q, -, ⟨σ, hr⟩, hfree⟩ := reaches_refines h
  have hstop : no.kind.isStop = false := by rw [hkind]; rfl
  have hvalid : validate b no = none := validate_eq_none.2 ⟨hqty, hid, fun _ => hprice⟩
  by_cases hfok : availableQty b no.side no.price < no.qty
  · refine ⟨b, _, ⟨1, ?_⟩, .inl ⟨rfl, rfl⟩⟩
    simp only [applyWithin, applyNew, hvalid, hkind, hfok, and_self, if_true]
    rfl
  · have hreject : q.reject? no = none := by rw [← hr.validate_eq hfree.held, hvalid]
    have hm : Matchable q no := ⟨.inr (.inr hkind), live?_of_reject?_none hreject, fun _ => by
      rwa [← hr.availableQty_eq]⟩
    have hcmd : (⟨seq, ts, .new no⟩ : Sequenced).cmd.StopFree := hstop
    obtain ⟨b', σ', happ, -, -⟩ := apply_refines hr hfree hcmd
    refine ⟨b', _, happ, .inr ?_⟩
    have hnot : ¬(no.kind = .fok ∧ q.available no.side no.price < no.qty) := fun hf =>
      hm.fillable hf.1 hf.2
    have henter : (q.apply ⟨seq, ts, .new no⟩).2 =
        .accepted no.id seq :: (q.execute no seq ts).2 := by
      simp only [PriorityBook.apply, PriorityBook.enter, hreject, if_neg hnot]
    rw [henter]
    exact execute_fok hr.wf hm hkind

theorem stopFree_fillOrKill_sample : ∃ (b : OrderBook (VecSlab Order)) (log : List Entry),
    ReachesStopFree 0 1 log b ∧ ∃ b' events,
      Applies b ⟨3, 0, .new ⟨3, 0, .buy, .fok, .gtc, 105, 0, 7⟩⟩ b' events ∧
      FilledWhole ⟨3, 0, .buy, .fok, .gtc, 105, 0, 7⟩ 3 events := by
  have hok : ∃ r r', applyAll 9 (OrderBook.new 0 1 : OrderBook (VecSlab Order)) twoAsks = .ok r ∧
      applyWithin 9 r.1 ⟨3, 0, .new ⟨3, 0, .buy, .fok, .gtc, 105, 0, 7⟩⟩ = .ok r' ∧
      r.1.idIndex.contains 3 = false ∧ .filled 3 3 ∈ r'.2 := by
    refine ⟨_, _, rfl, rfl, ?_⟩
    decide +kernel
  obtain ⟨⟨b, log⟩, ⟨b₁, events₁⟩, hrun, happ₁, hid, hfilled⟩ := hok
  have hreach := reachesStopFree_applyAll hrun (by decide)
  have hkind : (⟨3, 0, .buy, .fok, .gtc, 105, 0, 7⟩ : NewOrder).kind = .fok := rfl
  obtain ⟨b', events, happ, hkilled | hwhole⟩ :=
    stopFree_fillOrKill hreach hkind hid (by decide) (by decide) 3 0
  · obtain ⟨-, rfl⟩ := Applies.unique ⟨9, happ₁⟩ happ
    rw [hkilled.1] at hfilled
    simp at hfilled
  · exact ⟨b, log, hreach, b', events, happ, hwhole⟩

end Exchange
