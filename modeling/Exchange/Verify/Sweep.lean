import Exchange.Verify.PriorityBook

/-!
# Sweeping the opposite side

The fills of a taker are taken off the book one by one. `sweep_rule` is the
induction over them: what every single trade keeps holds of the swept book, and
the sweep ends because the taker is done or the next maker is not acceptable.
-/

namespace Exchange

namespace PriorityBook

variable {q : PriorityBook} {side : Side} {ok : Price → Bool} {need : Qty} {m o : Order}
  {ms : List Order}

/-! ## Fills -/

@[simp] theorem taken_nil : taken [] = 0 := rfl

@[simp] theorem taken_cons (f : Order × Qty) (fs : List (Order × Qty)) :
    taken (f :: fs) = f.2 + taken fs := rfl

@[simp] theorem fills_zero (ms : List Order) : fills ok 0 ms = [] := by
  cases ms <;> simp [fills]

theorem fills_of_stop (h : need = 0 ∨ ok m.price = false) : fills ok need (m :: ms) = [] := by
  rw [fills, if_pos h]

theorem fills_of_go (hn : need ≠ 0) (hok : ok m.price = true) :
    fills ok need (m :: ms) =
      (m, min need m.remaining) :: fills ok (need - min need m.remaining) ms := by
  rw [fills, if_neg (by simp [hn, hok])]

theorem min_le_left (need : Qty) (m : Order) : min need m.remaining ≤ need := by
  rw [UInt64.le_iff_toNat_le, toNat_min]
  exact Nat.min_le_left _ _

/-- In machine words the fills are those of greedy consumption. -/
theorem fills_toNat (need : Qty) (ms : List Order) :
    (fills ok need ms).map (fun f => (f.1, f.2.toNat)) =
      Greedy.fills (fun o : Order => o.remaining.toNat) (fun o => ok o.price) need.toNat ms := by
  induction ms generalizing need with
  | nil => rfl
  | cons m ms ih =>
    have hz : need.toNat = 0 ↔ need = 0 := UInt64.toNat_inj (b := 0)
    by_cases h : need = 0 ∨ ok m.price = false
    · rw [fills_of_stop h, Greedy.fills, if_pos (h.imp_left hz.2)]
      rfl
    · obtain ⟨hn, hok⟩ := not_or.1 h
      have hok : ok m.price = true := by simpa using hok
      rw [fills_of_go hn hok, Greedy.fills, if_neg fun h' => h (h'.imp_left hz.1),
        List.map_cons, ih, UInt64.toNat_sub_of_le _ _ (min_le_left need m), toNat_min]

/-- The quantities of a sweep add up without wrapping. -/
theorem toNat_taken (need : Qty) (ms : List Order) :
    (taken (fills ok need ms)).toNat =
        Greedy.total ((fills ok need ms).map fun f => (f.1, f.2.toNat)) ∧
      taken (fills ok need ms) ≤ need := by
  induction ms generalizing need with
  | nil => exact ⟨rfl, UInt64.zero_le⟩
  | cons m ms ih =>
    by_cases h : need = 0 ∨ ok m.price = false
    · rw [fills_of_stop h]
      exact ⟨rfl, UInt64.zero_le⟩
    · obtain ⟨hn, hok⟩ := not_or.1 h
      have hok : ok m.price = true := by simpa using hok
      obtain ⟨heq, hle⟩ := ih (need - min need m.remaining)
      have hmin := min_le_left need m
      rw [UInt64.le_iff_toNat_le, UInt64.toNat_sub_of_le _ _ hmin] at hle
      rw [UInt64.le_iff_toNat_le] at hmin
      have hlt := need.toNat_lt
      rw [fills_of_go hn hok]
      simp only [taken_cons, List.map_cons, Greedy.total_cons]
      have hsum : (min need m.remaining + taken (fills ok (need - min need m.remaining) ms)).toNat =
          (min need m.remaining).toNat +
            (taken (fills ok (need - min need m.remaining) ms)).toNat := by
        rw [UInt64.toNat_add]
        exact Nat.mod_eq_of_lt (by omega)
      refine ⟨by rw [hsum, heq], ?_⟩
      rw [UInt64.le_iff_toNat_le, hsum]
      omega

/-! ## The swept book -/

@[simp] theorem tradeAll_nil (q : PriorityBook) (side : Side) : q.tradeAll side [] = q := rfl

@[simp] theorem tradeAll_cons (q : PriorityBook) (side : Side) (f : Order × Qty)
    (fs : List (Order × Qty)) :
    q.tradeAll side (f :: fs) = (q.trade side f.1 f.2).tradeAll side fs := rfl

theorem makers_trade_of_eq (hm : q.makers side = m :: ms) {qty : Qty}
    (h : m.remaining - qty = 0) : (q.trade side m qty).makers side = ms := by
  rw [trade_of_eq hm h]
  simp [put]

theorem makers_trade_of_ne (hm : q.makers side = m :: ms) {qty : Qty}
    (h : m.remaining - qty ≠ 0) :
    (q.trade side m qty).makers side = { m with remaining := m.remaining - qty } :: ms := by
  rw [trade_of_ne hm h]
  simp [put]

/-- **Sweep rule.** A property of the book, the remaining need and the fills so far
that each trade keeps holds at the end of the sweep, which is reached at a filled
taker or an unacceptable maker. -/
theorem sweep_rule {P : PriorityBook → Qty → List (Order × Qty) → Prop}
    (hstep : ∀ q need fs m ms, P q need fs → q.makers side = m :: ms → need ≠ 0 →
      ok m.price = true → P (q.trade side m (min need m.remaining))
        (need - min need m.remaining) (fs ++ [(m, min need m.remaining)]))
    (before : List (Order × Qty)) (h : P q need before) :
    P (q.tradeAll side (fills ok need (q.makers side)))
        (need - taken (fills ok need (q.makers side)))
        (before ++ fills ok need (q.makers side)) ∧
      (need - taken (fills ok need (q.makers side)) = 0 ∨
        ∀ m ∈ ((q.tradeAll side (fills ok need (q.makers side))).makers side).head?,
          ok m.price = false) := by
  generalize hms : q.makers side = ms
  induction ms generalizing q need before with
  | nil =>
    refine ⟨by simpa [fills] using h, .inr ?_⟩
    simp [fills, hms]
  | cons m ms ih =>
    by_cases hstop : need = 0 ∨ ok m.price = false
    · rw [fills_of_stop hstop]
      refine ⟨by simpa using h, ?_⟩
      simpa [hms] using hstop
    · obtain ⟨hn, hok⟩ := not_or.1 hstop
      have hok : ok m.price = true := by simpa using hok
      have hnext := hstep q need before m ms h hms hn hok
      have hsub : ∀ x, need - min need m.remaining - x = need - (min need m.remaining + x) := by
        intro x
        grind
      rw [fills_of_go hn hok, tradeAll_cons, taken_cons, ← hsub, List.append_cons]
      rcases min_cases need m with ⟨-, -, hleft⟩ | ⟨heq, -, -⟩
      · exact ih _ hnext (makers_trade_of_eq hms hleft)
      · have hzero : need - min need m.remaining = 0 := by rw [heq, UInt64.sub_self]
        rw [hzero] at hnext ⊢
        simpa using hnext

/-- The swept book is well-formed, and the sweep has come to its end. -/
theorem WF.tradeAll (hq : q.WF) (side : Side) (ok : Price → Bool) (need : Qty) :
    (q.tradeAll side (fills ok need (q.makers side))).WF ∧
      (need - taken (fills ok need (q.makers side)) = 0 ∨
        ∀ m ∈ ((q.tradeAll side (fills ok need (q.makers side))).makers side).head?,
          ok m.price = false) :=
  sweep_rule (P := fun q _ _ => q.WF) (fun _ _ _ _ _ hq hm _ _ => hq.trade hm _) [] hq

/-- A trade moves only the makers and tallies of its side, and the last price. -/
theorem trade_frame (side : Side) (q : PriorityBook) (m : Order) (qty : Qty) :
    (q.trade side m qty).makers side.opposite = q.makers side.opposite ∧
      (q.trade side m qty).held = q.held ∧ (q.trade side m qty).stopBuys = q.stopBuys ∧
      (q.trade side m qty).stopSells = q.stopSells ∧ (q.trade side m qty).symbol = q.symbol ∧
      (q.trade side m qty).tick = q.tick := by
  unfold trade
  dsimp only
  split
  · exact ⟨by simp [put], rfl, rfl, rfl, rfl, rfl⟩
  · exact ⟨by simp [put], rfl, rfl, rfl, rfl, rfl⟩

theorem tradeAll_frame (side : Side) (q : PriorityBook) (fs : List (Order × Qty)) :
    (q.tradeAll side fs).makers side.opposite = q.makers side.opposite ∧
      (q.tradeAll side fs).held = q.held ∧ (q.tradeAll side fs).stopBuys = q.stopBuys ∧
      (q.tradeAll side fs).stopSells = q.stopSells ∧ (q.tradeAll side fs).symbol = q.symbol ∧
      (q.tradeAll side fs).tick = q.tick := by
  induction fs generalizing q with
  | nil => exact ⟨rfl, rfl, rfl, rfl, rfl, rfl⟩
  | cons f fs ih =>
    obtain ⟨h₁, h₂, h₃, h₄, h₅, h₆⟩ := trade_frame side q f.1 f.2
    rw [tradeAll_cons, ← h₁, ← h₂, ← h₃, ← h₄, ← h₅, ← h₆]
    exact ih _

/-- The makers left by a sweep are those left by greedy consumption. -/
theorem makers_tradeAll (hq : q.WF) :
    (q.tradeAll side (fills ok need (q.makers side))).makers side =
      Greedy.rest (fun o : Order => o.remaining.toNat) (fun o => ok o.price)
        (fun o n => { o with remaining := o.remaining - UInt64.ofNat n }) need.toNat
        (q.makers side) := by
  generalize hms : q.makers side = ms
  induction ms generalizing q need with
  | nil => simp [fills, hms, Greedy.rest]
  | cons m ms ih =>
    have hz : need.toNat = 0 ↔ need = 0 := UInt64.toNat_inj (b := 0)
    by_cases hstop : need = 0 ∨ ok m.price = false
    · rw [fills_of_stop hstop, Greedy.rest, if_pos (hstop.imp_left hz.2)]
      exact hms
    · obtain ⟨hn, hok⟩ := not_or.1 hstop
      have hok : ok m.price = true := by simpa using hok
      have hnext := hq.trade hms (min need m.remaining)
      rw [fills_of_go hn hok, tradeAll_cons, Greedy.rest,
        if_neg fun h' => hstop (h'.imp_left hz.1)]
      rcases min_cases need m with ⟨heq, hle, hleft⟩ | ⟨heq, hlt, hleft⟩
      · rw [if_pos (UInt64.le_iff_toNat_le.1 hle), ih hnext (makers_trade_of_eq hms hleft), heq,
          UInt64.toNat_sub_of_le _ _ hle]
      · have hzero : need - min need m.remaining = 0 := by rw [heq, UInt64.sub_self]
        rw [if_neg (Nat.not_le.2 (UInt64.lt_iff_toNat_lt.1 hlt)), hzero, fills_zero, tradeAll_nil,
          makers_trade_of_ne hms hleft, heq, UInt64.ofNat_toNat]

end PriorityBook

end Exchange
