import Exchange.Lib.Monitor
import Exchange.Verify.Live

/-!
# The ledger of an order

One account per id: opened by `Accepted` with the submitted quantity, debited by
every trade that names the id, closed by its closing event. `ledgerStep` rejects
any event that does not fit the account; on every step of the priority book it
accepts all events and ends with what the book holds.
-/

namespace Exchange

open PriorityBook Monitor

/-! ## Accounts -/

/-- The event is about the order `id`: as its id, as taker or as maker. -/
def OutputEvent.names (id : OrderId) : OutputEvent → Bool
  | .accepted i _ => i = id
  | .rejected i _ _ => i = id
  | .trade _ taker maker _ _ _ _ => taker = id || maker = id
  | .partiallyFilled i _ _ _ => i = id
  | .filled i _ => i = id
  | .cancelled i _ => i = id
  | .replaced i _ => i = id

/-- The quantity a command submits. -/
def Command.submits : Command → Qty
  | .new no => no.qty
  | .cancel _ _ => 0
  | .replace _ _ newQty _ => newQty

/-- An event with the quantity submitted by the command that caused it. -/
abbrev Posting := Qty × OutputEvent

def Entry.postings (e : Entry) : List Posting := e.2.map fun event => (e.1.cmd.submits, event)

def postings (log : List Entry) : List Posting := log.flatMap Entry.postings

/-- No open account, or the submitted quantity and what has traded of it. -/
abbrev Account := Option (Nat × Nat)

/-- How a posting moves the account of `id`; `none` is a posting that does not fit. -/
def ledgerStep (id : OrderId) (a : Account) (e : Posting) : Option Account :=
  if e.2.names id then
    match e.2, a with
    | .accepted _ _, none => if e.1 ≠ 0 then some (some (e.1.toNat, 0)) else none
    | .trade _ _ _ _ qty _ _, some (w, f) =>
      if qty ≠ 0 ∧ f + qty.toNat ≤ w then some (some (w, f + qty.toNat)) else none
    | .partiallyFilled _ _ left _, some (w, f) =>
      if f + left.toNat = w then some (some (w, f)) else none
    | .filled _ _, some (w, f) => if f = w then some none else none
    | .cancelled _ _, some (w, f) => if f < w then some none else none
    | .replaced _ _, some (w, f) => if f < w then some none else none
    | .rejected _ .fokUnfillable _, some (_, f) => if f = 0 then some none else none
    | .rejected _ .fokUnfillable _, none => none
    | .rejected _ _ _, a => some a
    | _, _ => none
  else some a

theorem ledgerStep_other {id : OrderId} {a : Account} {e : Posting} (h : e.2.names id = false) :
    ledgerStep id a e = some a := by
  unfold ledgerStep
  rw [h]
  rfl

section LedgerStep

variable {id : OrderId} {w : Qty} {w' f : Nat} {seq : Seq}

theorem ledgerStep_accepted (h : w ≠ 0) :
    ledgerStep id none (w, .accepted id seq) = some (some (w.toNat, 0)) := by
  have hnames : OutputEvent.names id (.accepted id seq) = true := decide_eq_true rfl
  exact (if_pos hnames).trans (if_pos h)

theorem ledgerStep_trade {taker maker : OrderId} {price : Price} {qty : Qty} {side : Side} {ts : Ts}
    (hid : taker = id ∨ maker = id) (hqty : qty ≠ 0) (hfits : f + qty.toNat ≤ w') :
    ledgerStep id (some (w', f)) (w, .trade seq taker maker price qty side ts) =
      some (some (w', f + qty.toNat)) := by
  have hnames : OutputEvent.names id (.trade seq taker maker price qty side ts) = true := by
    simpa [OutputEvent.names] using hid
  exact (if_pos hnames).trans (if_pos ⟨hqty, hfits⟩)

theorem ledgerStep_partiallyFilled {filled left : Qty} (h : f + left.toNat = w') :
    ledgerStep id (some (w', f)) (w, .partiallyFilled id filled left seq) =
      some (some (w', f)) := by
  have hnames : OutputEvent.names id (.partiallyFilled id filled left seq) = true :=
    decide_eq_true rfl
  exact (if_pos hnames).trans (if_pos h)

theorem ledgerStep_filled (h : f = w') :
    ledgerStep id (some (w', f)) (w, .filled id seq) = some none := by
  have hnames : OutputEvent.names id (.filled id seq) = true := decide_eq_true rfl
  exact (if_pos hnames).trans (if_pos h)

theorem ledgerStep_cancelled (h : f < w') :
    ledgerStep id (some (w', f)) (w, .cancelled id seq) = some none := by
  have hnames : OutputEvent.names id (.cancelled id seq) = true := decide_eq_true rfl
  exact (if_pos hnames).trans (if_pos h)

theorem ledgerStep_replaced (h : f < w') :
    ledgerStep id (some (w', f)) (w, .replaced id seq) = some none := by
  have hnames : OutputEvent.names id (.replaced id seq) = true := decide_eq_true rfl
  exact (if_pos hnames).trans (if_pos h)

theorem ledgerStep_killed :
    ledgerStep id (some (w', 0)) (w, .rejected id .fokUnfillable seq) = some none := by
  have hnames : OutputEvent.names id (.rejected id .fokUnfillable seq) = true :=
    decide_eq_true rfl
  exact (if_pos hnames).trans (if_pos rfl)

theorem ledgerStep_rejected {a : Account} {i : OrderId} {reason : RejectReason}
    (h : reason ≠ .fokUnfillable) : ledgerStep id a (w, .rejected i reason seq) = some a := by
  unfold ledgerStep
  split
  · cases reason <;> first | rfl | exact absurd rfl h
  · rfl

end LedgerStep

namespace PriorityBook

variable {q : PriorityBook} {side : Side} {p : Price} {ms : List Order} {tally : Tally}
  {m o : Order} {id : OrderId}

/-- The account says what the book holds. -/
def Holds (q : PriorityBook) (id : OrderId) : Account → Prop
  | none => q.live? id = none
  | some (w, f) => ∃ o, q.live? id = some o ∧ f + o.remaining.toNat = w

theorem holds_congr {q' : PriorityBook} (h : q'.live? id = q.live? id) {a : Account}
    (ha : q.Holds id a) : q'.Holds id a := by
  cases a with
  | none => exact h.trans ha
  | some a =>
    obtain ⟨o, ho, hsum⟩ := ha
    exact ⟨o, h.trans ho, hsum⟩

theorem holds_of_none (h : q.live? id = none) {a : Account} (ha : q.Holds id a) : a = none := by
  cases a with
  | none => rfl
  | some a =>
    obtain ⟨o, ho, -⟩ := ha
    rw [h] at ho
    cases ho

/-! ## One trade on the accounts -/

/-- The postings of a list of events of one command. -/
abbrev post (w : Qty) (events : List OutputEvent) : List Posting := events.map (w, ·)

section Trade

variable (hq : q.WF) (hm : q.makers side = m :: ms) {need : Qty} (hn : need ≠ 0) (w : Qty)
  (seq : Seq) (ts : Ts) (taker : OrderId) (tside : Side)
include hq hm hn

/-- The quantity of a fill, and what it leaves of its maker. -/
theorem fill_toNat :
    0 < (min need m.remaining).toNat ∧ (min need m.remaining).toNat ≤ need.toNat ∧
      (min need m.remaining).toNat ≤ m.remaining.toNat ∧
      (m.remaining - min need m.remaining).toNat =
        m.remaining.toNat - (min need m.remaining).toNat := by
  have hm' := toNat_ne_zero.2 (hq.maker side m (hm ▸ List.mem_cons_self)).2.2
  have hn' := toNat_ne_zero.2 hn
  have hmin := toNat_min need m.remaining
  refine ⟨by omega, by omega, by omega, UInt64.toNat_sub_of_le _ _ ?_⟩
  rw [UInt64.le_iff_toNat_le]
  omega

/-- A fill on the account of its maker. -/
theorem ledger_fill_maker {a : Account} (ha : q.Holds m.id a) :
    ∃ a', run (ledgerStep m.id) a
        (post w (fillEvents seq ts taker tside (m, min need m.remaining))) = some a' ∧
      (q.trade side m (min need m.remaining)).Holds m.id a' := by
  obtain ⟨hpos, -, hle, hsub⟩ := fill_toNat hq hm hn
  generalize min need m.remaining = n at hpos hle hsub
  have hqty : n ≠ 0 := toNat_ne_zero.1 (Nat.ne_of_gt hpos)
  cases a with
  | none =>
    have h := live?_head hq hm
    rw [ha] at h
    cases h
  | some a =>
    obtain ⟨w', f⟩ := a
    obtain ⟨o, ho, hsum⟩ := ha
    rw [live?_head hq hm] at ho
    cases ho
    have hfits : f + n.toNat ≤ w' := by omega
    have htrade : ledgerStep m.id (some (w', f)) (w, .trade seq taker m.id m.price n tside ts) =
        some (some (w', f + n.toNat)) := ledgerStep_trade (.inr rfl) hqty hfits
    by_cases hleft : m.remaining - n = 0
    · have hfilled : f + n.toNat = w' := by
        have hz : (m.remaining - n).toNat = 0 := by rw [hleft]; rfl
        omega
      refine ⟨none, ?_, live?_trade_filled hq hm hleft⟩
      rw [fillEvents, if_pos hleft]
      exact (run_cons_of_eq htrade).trans (run_cons_of_eq (ledgerStep_filled hfilled))
    · have hreport : f + n.toNat + (m.remaining - n).toNat = w' := by omega
      refine ⟨some (w', f + n.toNat), ?_, _, live?_trade_reduced hq hm hleft, hreport⟩
      rw [fillEvents, if_neg hleft]
      exact (run_cons_of_eq htrade).trans (run_cons_of_eq (ledgerStep_partiallyFilled hreport))

/-- A fill on the account of the taker. -/
theorem ledger_fill_taker (htaker : m.id ≠ taker) {w' f : Nat} (hw : f + need.toNat = w') :
    run (ledgerStep taker) (some (w', f))
        (post w (fillEvents seq ts taker tside (m, min need m.remaining))) =
      some (some (w', f + (min need m.remaining).toNat)) := by
  obtain ⟨hpos, hle, -, -⟩ := fill_toNat hq hm hn
  generalize min need m.remaining = n at hpos hle
  have hqty : n ≠ 0 := toNat_ne_zero.1 (Nat.ne_of_gt hpos)
  have hfits : f + n.toNat ≤ w' := by omega
  have htrade : ledgerStep taker (some (w', f)) (w, .trade seq taker m.id m.price n tside ts) =
      some (some (w', f + n.toNat)) := ledgerStep_trade (.inl rfl) hqty hfits
  unfold fillEvents
  refine (run_cons_of_eq htrade).trans (run_cons_of_eq (ledgerStep_other ?_))
  dsimp only
  split <;> simp [OutputEvent.names, htaker]

omit hn in
/-- A fill on any other account than its two orders'. -/
theorem ledger_fill_other {a : Account} (hid : m.id ≠ id) (htaker : taker ≠ id)
    (ha : q.Holds id a) (qty : Qty) :
    run (ledgerStep id) a (post w (fillEvents seq ts taker tside (m, qty))) = some a ∧
      (q.trade side m qty).Holds id a := by
  constructor
  · refine run_of_ignored fun e he => ledgerStep_other ?_
    obtain ⟨event, hevent, rfl⟩ := List.mem_map.1 he
    dsimp only
    unfold fillEvents at hevent
    dsimp only at hevent
    rcases List.mem_pair.1 hevent with rfl | rfl
    · simp [OutputEvent.names, htaker, hid]
    · split <;> simp [OutputEvent.names, hid]
  · exact holds_congr (live?_trade_of_ne hq hm hid.symm qty) ha

end Trade

/-! ## A command on the accounts -/

theorem post_append (w : Qty) (l₁ l₂ : List OutputEvent) :
    post w (l₁ ++ l₂) = post w l₁ ++ post w l₂ :=
  List.map_append

section Sweep

variable {ok : Price → Bool} (w : Qty) (seq : Seq) (ts : Ts) {taker : OrderId} (tside : Side)

theorem run_post_append {id : OrderId} {a a' : Account} {l₁ l₂ : List OutputEvent}
    (h : run (ledgerStep id) a (post w l₁) = some a') :
    run (ledgerStep id) a (post w (l₁ ++ l₂)) = run (ledgerStep id) a' (post w l₂) := by
  rw [post_append, run_append_of_eq h]

/-- A sweep on the account of any id but the taker's. -/
theorem ledger_sweep_other (hq : q.WF) (htaker : taker ≠ id) {a : Account} (ha : q.Holds id a)
    (side : Side) (ok : Price → Bool) (need : Qty) :
    ∃ a', run (ledgerStep id) a (post w
        ((fills ok need (q.makers side)).flatMap (fillEvents seq ts taker tside))) = some a' ∧
      (q.tradeAll side (fills ok need (q.makers side))).Holds id a' := by
  refine (sweep_rule (P := fun q _ fs => q.WF ∧ ∃ a',
    run (ledgerStep id) a (post w (fs.flatMap (fillEvents seq ts taker tside))) = some a' ∧
      q.Holds id a') ?_ [] ⟨hq, a, rfl, ha⟩).1.2
  intro q need fs m ms h hm hn _
  obtain ⟨hq, a₁, hrun, ha₁⟩ := h
  refine ⟨hq.trade hm _, ?_⟩
  rw [List.flatMap_append, run_post_append w hrun, List.flatMap_singleton]
  by_cases hid : m.id = id
  · subst hid
    exact ledger_fill_maker hq hm hn w seq ts taker tside ha₁
  · exact ⟨a₁, ledger_fill_other hq hm w seq ts taker tside hid htaker ha₁ _⟩

/-- A sweep on the account of the taker. -/
theorem ledger_sweep_taker (hq : q.WF) (hlive : q.live? taker = none) (side : Side)
    (ok : Price → Bool) (need : Qty) :
    ∃ f, run (ledgerStep taker) (some (need.toNat, 0)) (post w
        ((fills ok need (q.makers side)).flatMap (fillEvents seq ts taker tside))) =
          some (some (need.toNat, f)) ∧
      f + (need - taken (fills ok need (q.makers side))).toNat = need.toNat := by
  refine (sweep_rule (P := fun q left fs => q.WF ∧ q.live? taker = none ∧ ∃ f,
    run (ledgerStep taker) (some (need.toNat, 0))
        (post w (fs.flatMap (fillEvents seq ts taker tside))) = some (some (need.toNat, f)) ∧
      f + left.toNat = need.toNat) ?_ [] ⟨hq, hlive, 0, rfl, Nat.zero_add _⟩).1.2.2
  intro q left fs m ms h hm hn _
  obtain ⟨hq, hlive, f, hrun, hsum⟩ := h
  have hne : m.id ≠ taker := fun e => by
    rw [← e, live?_head hq hm] at hlive
    cases hlive
  refine ⟨hq.trade hm _, (live?_trade_of_ne hq hm hne.symm _).trans hlive,
    f + (min left m.remaining).toNat, ?_, ?_⟩
  · rw [List.flatMap_append, run_post_append w hrun, List.flatMap_singleton]
    exact ledger_fill_taker hq hm hn w seq ts taker tside hne hsum
  · rw [UInt64.toNat_sub_of_le _ _ (min_le_left left m)]
    have hle := UInt64.le_iff_toNat_le.1 (min_le_left left m)
    omega

end Sweep

section Commands

variable {no : NewOrder} (seq : Seq) (ts : Ts)

/-- Settling on the account of the order. -/
theorem ledger_settle_self {filled : Qty} (hwf : (q.settle no filled seq ts).1.WF)
    (hlive : q.live? no.id = none) (w : Qty) {w' f : Nat}
    (hsum : f + (no.qty - filled).toNat = w') :
    ∃ a', run (ledgerStep no.id) (some (w', f)) (post w (q.settle no filled seq ts).2) =
        some a' ∧ (q.settle no filled seq ts).1.Holds no.id a' := by
  have hreport : run (ledgerStep no.id) (some (w', f)) (post w (if filled = 0 then [] else
      [.partiallyFilled no.id filled (no.qty - filled) seq])) = some (some (w', f)) := by
    split
    · rfl
    · exact run_cons_of_eq (ledgerStep_partiallyFilled hsum)
  unfold PriorityBook.settle at hwf ⊢
  dsimp only at hwf ⊢
  by_cases hleft : no.qty - filled = 0
  · rw [if_pos hleft]
    have hf : f = w' := by
      rw [hleft, UInt64.toNat_zero] at hsum
      exact hsum
    exact ⟨none, run_cons_of_eq (ledgerStep_filled hf), hlive⟩
  · rw [if_neg hleft] at hwf ⊢
    by_cases hkind : no.kind = .limit
    · rw [if_pos hkind] at hwf ⊢
      exact ⟨some (w', f), hreport, _, live?_rest_self hwf, hsum⟩
    · rw [if_neg hkind]
      have hf : f < w' := by
        have := toNat_ne_zero.2 hleft
        omega
      exact ⟨none, (run_post_append w hreport).trans (run_cons_of_eq (ledgerStep_cancelled hf)),
        hlive⟩

/-- Settling on any other account. -/
theorem ledger_settle_other {filled : Qty} (hq : q.WF) (hwf : (q.settle no filled seq ts).1.WF)
    (hid : no.id ≠ id) (w : Qty) {a : Account} (ha : q.Holds id a) :
    run (ledgerStep id) a (post w (q.settle no filled seq ts).2) = some a ∧
      (q.settle no filled seq ts).1.Holds id a := by
  constructor
  · refine run_of_ignored fun e he => ledgerStep_other ?_
    obtain ⟨event, hevent, rfl⟩ := List.mem_map.1 he
    unfold PriorityBook.settle at hevent
    dsimp only at hevent ⊢
    split at hevent
    · rw [List.mem_singleton.1 hevent]
      simpa [OutputEvent.names] using hid
    · have hreport : ∀ event ∈ (if filled = 0 then [] else
          [OutputEvent.partiallyFilled no.id filled (no.qty - filled) seq]),
          event.names id = false := by
        intro event h
        split at h
        · cases h
        · rw [List.mem_singleton.1 h]
          simpa [OutputEvent.names] using hid
      split at hevent
      · exact hreport event hevent
      · rcases List.mem_append.1 hevent with h | h
        · exact hreport event h
        · rw [List.mem_singleton.1 h]
          simpa [OutputEvent.names] using hid
  · have hlive : (q.settle no filled seq ts).1.live? id = q.live? id := by
      unfold PriorityBook.settle at hwf ⊢
      dsimp only at hwf ⊢
      split at hwf
      · next hleft => rw [if_pos hleft]
      · next hleft =>
        rw [if_neg hleft]
        split at hwf
        · next hkind =>
          rw [if_pos hkind]
          exact live?_rest_of_ne hq hwf hid.symm
        · next hkind => rw [if_neg hkind]
    exact holds_congr hlive ha

/-- Executing an order on the account of any id, once the order is accepted. -/
theorem ledger_execute (hq : q.WF) (hqty : no.qty ≠ 0) (hlive : q.live? no.id = none)
    {a : Account} (ha : q.Holds id a) :
    ∃ a', run (ledgerStep id) a (post no.qty (.accepted no.id seq :: (q.execute no seq ts).2)) =
        some a' ∧ (q.execute no seq ts).1.Holds id a' := by
  have hsweep := hq.tradeAll no.side.opposite no.accepts no.qty
  have hwf := hq.execute hlive seq ts
  by_cases hid : no.id = id
  · subst hid
    cases holds_of_none hlive ha
    obtain ⟨f, hrun, hsum⟩ :=
      ledger_sweep_taker no.qty seq ts no.side hq hlive no.side.opposite no.accepts no.qty
    obtain ⟨a', hsettle, ha'⟩ := ledger_settle_self seq ts hwf
      (live?_tradeAll_of_none hq hlive _ _ _) no.qty hsum
    refine ⟨a', ?_, ha'⟩
    exact (run_cons_of_eq (ledgerStep_accepted hqty)).trans
      ((run_post_append no.qty hrun).trans hsettle)
  · obtain ⟨a₁, hrun, ha₁⟩ :=
      ledger_sweep_other no.qty seq ts no.side hq hid ha no.side.opposite no.accepts no.qty
    obtain ⟨hsettle, ha'⟩ := ledger_settle_other seq ts hsweep.1 hwf hid no.qty ha₁
    have haccepted : ledgerStep id a (no.qty, .accepted no.id seq) = some a :=
      ledgerStep_other (by simpa [OutputEvent.names] using hid)
    exact ⟨a₁, (run_cons_of_eq haccepted).trans ((run_post_append no.qty hrun).trans hsettle), ha'⟩

theorem reject?_ne_fokUnfillable {reason : RejectReason} (h : q.reject? no = some reason) :
    reason ≠ .fokUnfillable := by
  unfold reject? at h
  split at h
  · cases h
    nofun
  · split at h
    · cases h
      nofun
    · split at h
      · cases h
        nofun
      · cases h

/-- A new order on the account of any id. -/
theorem ledger_enter (hq : q.WF) (no : NewOrder) {a : Account} (ha : q.Holds id a) :
    ∃ a', run (ledgerStep id) a (post no.qty (q.enter no seq ts).2) = some a' ∧
      (q.enter no seq ts).1.Holds id a' := by
  unfold PriorityBook.enter
  cases hreject : q.reject? no with
  | some reason =>
    exact ⟨a, run_cons_of_eq (ledgerStep_rejected (reject?_ne_fokUnfillable hreject)), ha⟩
  | none =>
    have hlive := live?_of_reject?_none hreject
    dsimp only
    split
    · by_cases hid : no.id = id
      · subst hid
        cases holds_of_none hlive ha
        exact ⟨none, (run_cons_of_eq (ledgerStep_accepted (qty_of_reject?_none hreject))).trans
          (run_cons_of_eq ledgerStep_killed), ha⟩
      · refine ⟨a, run_of_ignored fun e he => ledgerStep_other ?_, ha⟩
        obtain ⟨event, hevent, rfl⟩ := List.mem_map.1 he
        rcases List.mem_pair.1 hevent with rfl | rfl
        · simpa [OutputEvent.names] using hid
        · simpa [OutputEvent.names] using hid
    · exact ledger_execute seq ts hq (qty_of_reject?_none hreject) hlive ha

/-- Taking a resting order out, by cancel or replace, on the account of any id. -/
theorem ledger_drop (hq : q.WF) {i : OrderId} (hlive : q.live? i = some o) {a : Account}
    (ha : q.Holds id a) (w : Qty) {event : OutputEvent}
    (hevent : event = .cancelled i seq ∨ event = .replaced i seq) :
    ∃ a', ledgerStep id a (w, event) = some a' ∧ (q.drop o).Holds id a' := by
  obtain ⟨⟨side, ho⟩, rfl⟩ := hq.live?_eq_some.1 hlive
  by_cases hid : o.id = id
  · subst hid
    have hpos := toNat_ne_zero.2 (hq.maker side o ho).2.2
    cases a with
    | none =>
      rw [Holds, hlive] at ha
      cases ha
    | some a =>
      obtain ⟨w', f⟩ := a
      obtain ⟨o', ho', hsum⟩ := ha
      rw [hlive] at ho'
      cases ho'
      have hf : f < w' := by omega
      refine ⟨none, ?_, live?_drop_self hq ho⟩
      rcases hevent with rfl | rfl
      · exact ledgerStep_cancelled hf
      · exact ledgerStep_replaced hf
  · refine ⟨a, ledgerStep_other ?_, holds_congr (live?_drop_of_ne hq ho (Ne.symm hid)) ha⟩
    rcases hevent with rfl | rfl
    · simpa [OutputEvent.names] using hid
    · simpa [OutputEvent.names] using hid

/-- **The ledger step.** Every command keeps every account balanced. -/
theorem ledger_apply (hq : q.WF) (cmd : Sequenced) {a : Account} (ha : q.Holds id a) :
    ∃ a', run (ledgerStep id) a (post cmd.cmd.submits (q.apply cmd).2) = some a' ∧
      (q.apply cmd).1.Holds id a' := by
  rcases q.apply_cases cmd with ⟨no, hcmd, h⟩ | ⟨i, reason, hreason, h⟩ |
    ⟨i, symbol, o, hcmd, hlive, h⟩ | ⟨i, newPrice, newQty, symbol, o, hcmd, -, hlive, h⟩
  · rw [h, hcmd]
    exact ledger_enter cmd.seq cmd.ts hq no ha
  · rw [h]
    exact ⟨a, run_cons_of_eq (ledgerStep_rejected hreason), ha⟩
  · rw [h]
    obtain ⟨a', hstep, ha'⟩ := ledger_drop cmd.seq hq hlive ha cmd.cmd.submits (.inl rfl)
    exact ⟨a', run_cons_of_eq hstep, ha'⟩
  · rw [h, hcmd]
    obtain ⟨a₁, hstep, ha₁⟩ := ledger_drop cmd.seq hq hlive ha newQty (.inr rfl)
    obtain ⟨a', hrun, ha'⟩ := ledger_enter cmd.seq cmd.ts (hq.drop_live hlive)
      (o.replacement i newPrice newQty) ha₁
    exact ⟨a', (run_cons_of_eq hstep).trans hrun, ha'⟩

end Commands

end PriorityBook

/-! ## Runs -/

@[simp] theorem postings_nil : postings [] = [] := rfl

theorem postings_snoc (log : List Entry) (e : Entry) :
    postings (log ++ [e]) = postings log ++ e.postings := by
  simp [postings]

/-- **The ledger of a run.** All accounts balance, and end with what the book holds. -/
theorem ledger_run {symbol : SymbolId} {tick : Price} {log : List Entry} {q : PriorityBook}
    (h : Transition.Run PriorityStep (PriorityBook.new symbol tick) log q) :
    q.WF ∧ ∀ id, ∃ a, run (ledgerStep id) none (postings log) = some a ∧ q.Holds id a := by
  refine Transition.Run.invariant (I := fun log q => q.WF ∧ ∀ id, ∃ a,
    run (ledgerStep id) none (postings log) = some a ∧ q.Holds id a) ?_ ?_ h
  · exact ⟨WF.new symbol tick, fun id => ⟨none, rfl, rfl⟩⟩
  · rintro log q e q' - ⟨hq, hledger⟩ ⟨-, happly⟩
    have hq' := hq.apply e.1
    have hstep := fun id a => @ledger_apply q id hq e.1 a
    rw [happly] at hq' hstep
    refine ⟨hq', fun id => ?_⟩
    obtain ⟨a, hrun, ha⟩ := hledger id
    obtain ⟨a', hrun', ha'⟩ := hstep id a ha
    exact ⟨a', by rw [postings_snoc, run_append_of_eq hrun]; exact hrun', ha'⟩

end Exchange
