import Exchange.Verify.CascadeRefines
import Exchange.Verify.LifeCycle
import Exchange.Verify.LimitProtection
import Exchange.Verify.TimePriority

/-!
# The ledger of a run with stop orders

A stop order is accepted when it is held and once more when it fires, so its account is
opened by the first acceptance and waits, undebited, for the second. With that one more
entry every account of a clear run balances, cascades included, and ends with what the
book holds.
-/

namespace Exchange

open PriorityBook Monitor

namespace PriorityBook

variable {q q₁ q₂ : PriorityBook} {seq : Seq} {ts : Ts} {es : List OutputEvent} {side : Side}
  {p : Price} {s : Nat} {o : Order} {no : NewOrder} {id : OrderId}

/-- An order waits to fire. -/
def Waits (q : PriorityBook) (id : OrderId) : Prop := ∃ s o, q.held s = some o ∧ o.id = id

/-- Makers and held orders are told apart by their ids. -/
structure StopWF (q : PriorityBook) : Prop where
  wf : q.WF
  wants : HeldLive q
  fresh : ∀ s o, q.held s = some o → q.live? o.id = none
  once : ∀ s o s' o', q.held s = some o → q.held s' = some o' → o.id = o'.id → s = s'

theorem WF.not_lives (hq : q.WF) : ¬q.Lives id ↔ q.live? id = none ∧ ¬q.Waits id := by
  unfold Lives Waits
  rw [not_or, hq.live?_eq_none]
  simp only [not_exists, not_and]

/-- The events of an execution. -/
inductive ExecuteEvent (q : PriorityBook) (no : NewOrder) (seq : Seq) (ts : Ts) :
    OutputEvent → Prop
  | fill {f : Order × Qty} {e : OutputEvent}
      (hf : f ∈ fills no.accepts no.qty (q.makers no.side.opposite))
      (he : e ∈ fillEvents seq ts no.id no.side f) : ExecuteEvent q no seq ts e
  | filled : ExecuteEvent q no seq ts (.filled no.id seq)
  | partiallyFilled {n left : Qty} : ExecuteEvent q no seq ts (.partiallyFilled no.id n left seq)
  | cancelled : ExecuteEvent q no seq ts (.cancelled no.id seq)

theorem mem_execute {e : OutputEvent} (he : e ∈ (q.execute no seq ts).2) :
    ExecuteEvent q no seq ts e := by
  rcases List.mem_append.1 he with he | he
  · obtain ⟨f, hf, he⟩ := List.mem_flatMap.1 he
    exact .fill hf he
  · unfold PriorityBook.settle at he
    dsimp only at he
    split_ifs at he <;> simp at he
    · rw [he]
      exact .filled
    · rw [he]
      exact .partiallyFilled
    · rw [he]
      exact .cancelled
    · rcases he with rfl | rfl
      · exact .partiallyFilled
      · exact .cancelled

/-- An event of an execution names the order that comes in, or a maker. -/
theorem names_of_mem_execute (hq : q.WF) {e : OutputEvent} (he : e ∈ (q.execute no seq ts).2)
    (hid : no.id ≠ id) (hlive : q.live? id = none) : e.names id = false := by
  cases mem_execute he with
  | @fill f _ hf he =>
    have hmaker : f.1.id ≠ id := hq.live?_eq_none.1 hlive _ _ (fills_mem hf)
    rcases List.mem_pair.1 he with rfl | rfl
    · simp [OutputEvent.names, hid, hmaker]
    · split <;> simpa [OutputEvent.names] using hmaker
  | _ => simpa [OutputEvent.names] using hid

theorem rejects_of_mem_execute {e : OutputEvent} (he : e ∈ (q.execute no seq ts).2) :
    e.rejects = false := by
  cases mem_execute he with
  | fill hf he =>
    rcases List.mem_pair.1 he with rfl | rfl
    · rfl
    · split <;> rfl
  | _ => rfl

theorem accepts_of_mem_execute {e : OutputEvent} (he : e ∈ (q.execute no seq ts).2) :
    e.accepts id = false := by
  cases mem_execute he with
  | fill hf he =>
    rcases List.mem_pair.1 he with rfl | rfl
    · rfl
    · split <;> rfl
  | _ => rfl

/-- An execution leaves an id without an order, unless it is its own. -/
theorem WF.live?_execute (hq : q.WF) (hno : q.live? no.id = none) (hid : no.id ≠ id)
    (hlive : q.live? id = none) : (q.execute no seq ts).1.live? id = none := by
  obtain ⟨hwf, -⟩ := hq.tradeAll no.side.opposite no.accepts no.qty
  have hswept := live?_tradeAll_of_none hq hlive no.side.opposite no.accepts no.qty
  have hwf' := hq.execute hno seq ts
  exact (ledger_settle_other seq ts hwf hwf' hid no.qty (a := none) hswept).2

namespace StopWF

theorem new (symbol : SymbolId) (tick : Price) : (PriorityBook.new symbol tick).StopWF :=
  ⟨.new symbol tick, nofun, nofun, fun _ _ _ _ h => by cases h⟩

theorem release (hq : q.StopWF) (s : Nat) : (q.release s).StopWF := by
  have hheld : ∀ r o, (q.release s).held r = some o → q.held r = some o := by
    intro r o ho
    change Function.update q.held s none r = some o at ho
    by_cases hr : r = s
    · rw [hr, Function.update_self] at ho
      cases ho
    · rwa [Function.update_of_ne hr] at ho
  exact ⟨hq.wf.release s, fun r o ho => hq.wants r o (hheld r o ho),
    fun r o ho => hq.fresh r o (hheld r o ho),
    fun r o r' o' ho ho' => hq.once r o r' o' (hheld r o ho) (hheld r' o' ho')⟩

theorem not_waits_release (hq : q.StopWF) (hheld : q.held s = some o) :
    ¬(q.release s).Waits o.id := by
  rintro ⟨r, o', ho', hid⟩
  change Function.update q.held s none r = some o' at ho'
  by_cases hr : r = s
  · rw [hr, Function.update_self] at ho'
    cases ho'
  · rw [Function.update_of_ne hr] at ho'
    exact hr (hq.once r o' s o ho' hheld hid)

theorem execute (hq : q.StopWF) (hno : q.live? no.id = none) (hw : ¬q.Waits no.id)
    (seq : Seq) (ts : Ts) : (q.execute no seq ts).1.StopWF := by
  obtain ⟨hheld, -⟩ := execute_frame q no seq ts
  refine ⟨hq.wf.execute hno seq ts, hq.wants.execute no seq ts, fun s o ho => ?_, ?_⟩
  · rw [hheld] at ho
    exact hq.wf.live?_execute hno (fun hid => hw ⟨s, o, ho, hid.symm⟩) (hq.fresh s o ho)
  · rw [hheld]
    exact hq.once

theorem hold (hq : q.StopWF) (hno : ¬q.Lives no.id) (hqty : no.qty ≠ 0) (s : Nat) :
    (q.hold s (no.toOrder seq ts)).StopWF := by
  obtain ⟨hlive, hw⟩ := hq.wf.not_lives.1 hno
  have hheld : ∀ r o, (q.hold s (no.toOrder seq ts)).held r = some o →
      (r = s ∧ o = no.toOrder seq ts) ∨ (r ≠ s ∧ q.held r = some o) := by
    intro r o ho
    change Function.update q.held s _ r = some o at ho
    by_cases hr : r = s
    · rw [hr, Function.update_self] at ho
      exact .inl ⟨hr, (Option.some.inj ho).symm⟩
    · rw [Function.update_of_ne hr] at ho
      exact .inr ⟨hr, ho⟩
  refine ⟨hq.wf.hold s _, fun r o ho => ?_, fun r o ho => ?_, fun r o r' o' ho ho' hid => ?_⟩
  · rcases hheld r o ho with ⟨-, rfl⟩ | ⟨-, ho⟩
    · exact hqty
    · exact hq.wants r o ho
  · rcases hheld r o ho with ⟨-, rfl⟩ | ⟨-, ho⟩
    · exact hlive
    · exact hq.fresh r o ho
  · rcases hheld r o ho with ⟨rfl, rfl⟩ | ⟨-, h⟩
    · rcases hheld r' o' ho' with ⟨rfl, -⟩ | ⟨-, h'⟩
      · rfl
      · exact absurd ⟨r', o', h', hid.symm⟩ hw
    · rcases hheld r' o' ho' with ⟨rfl, rfl⟩ | ⟨-, h'⟩
      · exact absurd ⟨r, o, h, hid⟩ hw
      · exact hq.once r o r' o' h h' hid

theorem drop (hq : q.StopWF) (ho : o ∈ q.makers side) : (q.drop o).StopWF := by
  refine ⟨hq.wf.drop ho, hq.wants, fun s o' ho' => ?_, hq.once⟩
  have hne : o'.id ≠ o.id := fun hid =>
    hq.wf.live?_eq_none.1 (hq.fresh s o' ho') side o ho hid.symm
  exact (live?_drop_of_ne hq.wf ho hne).trans (hq.fresh s o' ho')

theorem discount (hq : q.StopWF) (side : Side) (p : Price) (qty : Qty) :
    (q.discount side p qty).StopWF :=
  ⟨hq.wf.discount side p qty, hq.wants, hq.fresh, hq.once⟩

theorem prune (hq : q.StopWF) (side : Side) (p : Price) : (q.prune side p).StopWF :=
  ⟨hq.wf.prune side p, hq.wants, hq.fresh, hq.once⟩

end StopWF

/-- An order that is not refused is of an id that has no order. -/
theorem qty_and_not_lives_of_not_refuses (h : ∀ reason, ¬q.Refuses no reason) :
    no.qty ≠ 0 ∧ ¬q.Lives no.id := by
  have hqty : no.qty ≠ 0 := fun hz => h _ (.zeroQty hz)
  exact ⟨hqty, fun hid => h _ (.duplicateId hqty hid)⟩

/-! ## Steps keep the ids apart -/

theorem Fires.stopWF (h : q.Fires seq ts es q₁) (hq : q.StopWF) : q₁.StopWF := by
  induction h with
  | refl => exact hq
  | prune _ _ _ ih => exact ih.prune _ _
  | @fire es q₁ side t p s o _ hheld _ _ _ _ ih =>
    have hlive : (q₁.release s).live? o.activated.id = none := ih.fresh s o hheld
    exact (ih.release s).execute hlive (ih.not_waits_release hheld) seq ts

theorem Enters.stopWF (h : q.Enters seq ts no q₁ es) (hq : q.StopWF) : q₁.StopWF := by
  cases h with
  | rejected => exact hq
  | @held s hno =>
    obtain ⟨hqty, hlives⟩ := qty_and_not_lives_of_not_refuses hno
    exact hq.hold hlives hqty s
  | killed => exact hq
  | executed hno _ _ hfires =>
    obtain ⟨hlive, hw⟩ := hq.wf.not_lives.1 (qty_and_not_lives_of_not_refuses hno).2
    exact hfires.stopWF (hq.execute hlive hw seq ts)

theorem TakesOut.stopWF (h : q.TakesOut id o q₁) (hq : q.StopWF) : q₁.StopWF := by
  cases h with
  | maker ho => exact hq.drop ho
  | held => exact (hq.discount _ _ _).release _

end PriorityBook

theorem StopStep.stopWF {q q₁ : PriorityBook} {e : Entry} (h : StopStep q e q₁)
    (hq : q.StopWF) : q₁.StopWF := by
  cases h with
  | new h => exact h.stopWF hq
  | cancelUnknown => exact hq
  | cancel h => exact h.stopWF hq
  | replaceZero => exact hq
  | replaceUnknown => exact hq
  | replace _ h henters => exact henters.stopWF (h.stopWF hq)

/-! ## Accounts -/

/-- An account, and whether its order has been accepted a second time. -/
abbrev StopAccount := Account × Bool

/-- How a posting moves the account of `id` when stop orders fire. -/
def stopLedgerStep (id : OrderId) (a : StopAccount) (e : Posting) : Option StopAccount :=
  if e.2.accepts id && a.1.isSome then
    match a with
    | (some (w, 0), false) => some (some (w, 0), true)
    | _ => none
  else (ledgerStep id a.1 e).map fun a' => (a', a.2 && a'.isSome)

section StopLedgerStep

variable {id : OrderId} {a a' : Account} (again : Bool) {e : Posting} {es : List OutputEvent}
  {v w : Qty} {seq : Seq}

theorem and_isSome (hopen : a = none → again = false) : (again && a.isSome) = again := by
  cases a with
  | none =>
    rw [hopen rfl]
    rfl
  | some a => exact Bool.and_true again

theorem stopLedgerStep_of_ledgerStep (h : ledgerStep id a e = some a') :
    stopLedgerStep id (a, again) e = some (a', again && a'.isSome) := by
  unfold stopLedgerStep
  split
  · next hopen =>
    -- the plain ledger takes no acceptance on an open account
    obtain ⟨haccepts, hsome⟩ := Bool.and_eq_true_iff.1 hopen
    obtain ⟨x, rfl⟩ := Option.isSome_iff_exists.1 hsome
    obtain ⟨n, e⟩ := e
    cases e with
    | accepted i seq =>
      have hnames : (OutputEvent.accepted i seq).names id = true := haccepts
      unfold ledgerStep at h
      rw [if_pos hnames] at h
      cases h
    | _ => cases haccepts
  · simp [h]

theorem run_stopLedgerStep {ps : List Posting} (h : run (ledgerStep id) a ps = some a')
    (hopen : a = none → again = false) :
    ∃ again', run (stopLedgerStep id) (a, again) ps = some (a', again') ∧
      (a' = none → again' = false) := by
  induction ps generalizing a again with
  | nil =>
    cases h
    exact ⟨again, rfl, hopen⟩
  | cons e ps ih =>
    obtain ⟨a₁, hstep, h⟩ := run_cons_eq_some h
    rw [run_cons_of_eq (stopLedgerStep_of_ledgerStep again hstep)]
    refine ih _ h ?_
    rintro rfl
    exact Bool.and_false _

/-- The submitted quantity counts at an acceptance only. -/
theorem run_ledgerStep_congr (h : ∀ e ∈ es, e.accepts id = false) :
    run (ledgerStep id) a (post v es) = run (ledgerStep id) a (post w es) := by
  induction es generalizing a with
  | nil => rfl
  | cons e es ih =>
    have hstep : ledgerStep id a (v, e) = ledgerStep id a (w, e) := by
      cases e with
      | accepted i seq =>
        have hi : (OutputEvent.accepted i seq).names id = false := h _ List.mem_cons_self
        rw [ledgerStep_other hi, ledgerStep_other hi]
      | rejected i reason seq => cases reason <;> cases a <;> rfl
      | _ => cases a <;> rfl
    change run (ledgerStep id) a ((v, e) :: post v es) =
      run (ledgerStep id) a ((w, e) :: post w es)
    rw [run_cons, run_cons, hstep]
    exact congrArg _ (funext fun a => ih fun e he => h e (List.mem_cons_of_mem _ he))

theorem stopLedgerStep_other (h : e.2.names id = false) (hopen : a = none → again = false) :
    stopLedgerStep id (a, again) e = some (a, again) := by
  rw [stopLedgerStep_of_ledgerStep again (ledgerStep_other h)]
  exact congrArg (fun x => some (a, x)) (and_isSome again hopen)

theorem stopLedgerStep_rejected {i : OrderId} {reason : RejectReason} (a : StopAccount)
    (h : reason ≠ .fokUnfillable) (hopen : a.1 = none → a.2 = false) :
    stopLedgerStep id a (w, .rejected i reason seq) = some a := by
  obtain ⟨a, again⟩ := a
  rw [stopLedgerStep_of_ledgerStep again (ledgerStep_rejected h)]
  exact congrArg (fun x => some (a, x)) (and_isSome again hopen)

theorem stopLedgerStep_again {n : Nat} :
    stopLedgerStep id (some (n, 0), false) (v, .accepted id seq) = some (some (n, 0), true) := by
  simp [stopLedgerStep, OutputEvent.accepts]

end StopLedgerStep

namespace PriorityBook

variable {q q₁ q₂ : PriorityBook} {seq : Seq} {ts : Ts} {es : List OutputEvent} {side : Side}
  {p : Price} {s : Nat} {o : Order} {no : NewOrder} {id : OrderId} {a a' : StopAccount}

/-- The account says what the book holds: nothing is debited to an order that waits. -/
structure StopHolds (q : PriorityBook) (id : OrderId) (a : StopAccount) : Prop where
  waits : ∀ s o, q.held s = some o → o.id = id → a = (some (o.remaining.toNat, 0), false)
  holds : ¬q.Waits id → q.Holds id a.1
  closed : a.1 = none → a.2 = false

theorem StopHolds.of_not_lives (h : StopHolds q id a) (hlive : q.live? id = none)
    (hw : ¬q.Waits id) : a = (none, false) := by
  have hnone := holds_of_none hlive (h.holds hw)
  exact Prod.ext hnone (h.closed hnone)

theorem StopHolds.congr (h : StopHolds q id a) (hlive : q₁.live? id = q.live? id)
    (hheld : ∀ s o, o.id = id → (q₁.held s = some o ↔ q.held s = some o)) :
    StopHolds q₁ id a := by
  refine ⟨fun s o ho hid => h.waits s o ((hheld s o hid).1 ho) hid, fun hw => ?_, h.closed⟩
  refine holds_congr hlive (h.holds fun ⟨s, o, ho, hid⟩ => hw ⟨s, o, ?_, hid⟩)
  exact (hheld s o hid).2 ho

/-- What an account is after the plain ledger has moved it, with no order waiting. -/
theorem StopHolds.of_holds {b : Account} {again : Bool} (h : q.Holds id b) (hw : ¬q.Waits id)
    (hclosed : b = none → again = false) : StopHolds q id (b, again) :=
  ⟨fun s o ho hid => absurd ⟨s, o, ho, hid⟩ hw, fun _ => h, hclosed⟩

/-- Executing an accepted order on the account of any id. -/
theorem stopLedger_execute (hq : q.StopWF) (hlive : q.live? no.id = none)
    (hw : ¬q.Waits no.id) (hqty : no.qty ≠ 0) (ha : StopHolds q id a) {v : Qty}
    (hv : no.id = id → v = no.qty) (seq : Seq) (ts : Ts) :
    ∃ a', run (stopLedgerStep id) a (post v (.accepted no.id seq :: (q.execute no seq ts).2)) =
      some a' ∧ StopHolds (q.execute no seq ts).1 id a' := by
  obtain ⟨hheld, -⟩ := execute_frame q no seq ts
  by_cases hwaits : q.Waits id
  · -- nothing happens to an order that waits
    obtain ⟨s, o, ho, hid⟩ := hwaits
    have hne : no.id ≠ o.id := fun h => hw ⟨s, o, ho, h.symm⟩
    have hfresh := hq.fresh s o ho
    rw [hid] at hne hfresh
    obtain ⟨b, again⟩ := a
    refine ⟨(b, again), run_of_ignored fun e he => ?_, ?_⟩
    · obtain ⟨event, hevent, rfl⟩ := List.mem_map.1 he
      refine stopLedgerStep_other again ?_ ha.closed
      rcases List.mem_cons.1 hevent with rfl | hevent
      · simpa [OutputEvent.names] using hne
      · exact names_of_mem_execute hq.wf hevent hne hfresh
    · refine ha.congr ?_ fun s o _ => by rw [hheld]
      rw [hq.wf.live?_execute hlive hne hfresh, hfresh]
  · obtain ⟨b, hrun, hb⟩ := ledger_execute seq ts hq.wf hqty hlive (ha.holds hwaits)
    have hsame : run (ledgerStep id) a.1
        (post v (.accepted no.id seq :: (q.execute no seq ts).2)) = some b := by
      by_cases hid : no.id = id
      · rw [hv hid]
        exact hrun
      · rw [run_ledgerStep_congr (w := no.qty)]
        · exact hrun
        · intro e he
          rcases List.mem_cons.1 he with rfl | he
          · simpa [OutputEvent.accepts] using hid
          · exact accepts_of_mem_execute he
    obtain ⟨again, hstop, hclosed⟩ := run_stopLedgerStep a.2 hsame ha.closed
    exact ⟨(b, again), hstop, .of_holds hb (by unfold Waits; rw [hheld]; exact hwaits) hclosed⟩

/-- A held order fires, on the account of any id. -/
theorem stopLedger_fire (hq : q.StopWF) (hheld : q.held s = some o) (ha : StopHolds q id a)
    (v : Qty) (seq : Seq) (ts : Ts) :
    ∃ a', run (stopLedgerStep id) a (post v
        (.accepted o.id seq :: ((q.release s).execute o.activated seq ts).2)) = some a' ∧
      StopHolds ((q.release s).execute o.activated seq ts).1 id a' := by
  have hlive : (q.release s).live? o.activated.id = none := hq.fresh s o hheld
  have hw := hq.not_waits_release hheld
  have hqty : o.activated.qty ≠ 0 := hq.wants s o hheld
  by_cases hid : o.id = id
  · subst hid
    cases ha.waits s o hheld rfl
    have hnone : (q.release s).Holds o.id none := hlive
    obtain ⟨b, hrun, hb⟩ := ledger_execute seq ts (hq.release s).wf hqty hlive hnone
    obtain ⟨-, hrun⟩ := run_accepted hrun
    rw [run_ledgerStep_congr (w := v) fun e he => accepts_of_mem_execute he] at hrun
    obtain ⟨again, hstop, hclosed⟩ := run_stopLedgerStep true hrun nofun
    refine ⟨(b, again), (run_cons_of_eq stopLedgerStep_again).trans hstop, .of_holds hb ?_ hclosed⟩
    unfold Waits
    rw [(execute_frame (q.release s) o.activated seq ts).1]
    exact hw
  · have ha' : StopHolds (q.release s) id a := by
      refine ha.congr rfl fun r o' hid' => ?_
      change Function.update q.held s none r = some o' ↔ _
      by_cases hr : r = s
      · subst hr
        rw [Function.update_self, hheld]
        exact ⟨nofun, fun h => absurd (by rw [Option.some.inj h, hid']) hid⟩
      · rw [Function.update_of_ne hr]
    exact stopLedger_execute (hq.release s) hlive hw hqty ha' (fun h => absurd h hid) seq ts

/-- Orders that fire keep every account balanced. -/
theorem Fires.stopLedger (h : q.Fires seq ts es q₁) (hq : q.StopWF) (ha : StopHolds q id a)
    (v : Qty) : ∃ a', run (stopLedgerStep id) a (post v es) = some a' ∧ StopHolds q₁ id a' := by
  induction h with
  | refl => exact ⟨a, rfl, ha⟩
  | prune _ _ _ ih =>
    obtain ⟨a₁, hrun, ha₁⟩ := ih
    exact ⟨a₁, hrun, ha₁.congr rfl fun _ _ _ => Iff.rfl⟩
  | @fire es q₁ side t p s o h hheld _ _ _ _ ih =>
    obtain ⟨a₁, hrun, ha₁⟩ := ih
    obtain ⟨a₂, hrun₂, ha₂⟩ := stopLedger_fire (h.stopWF hq) hheld ha₁ v seq ts
    refine ⟨a₂, ?_, ha₂⟩
    rw [post_append, run_append_of_eq hrun]
    exact hrun₂

/-! ## Commands on the accounts -/

theorem Refuses.ne_fokUnfillable {reason : RejectReason} (h : q.Refuses no reason) :
    reason ≠ .fokUnfillable := by
  cases h <;> nofun

/-- An order comes in, on the account of any id. -/
theorem Enters.stopLedger (h : q.Enters seq ts no q₁ es) (hq : q.StopWF)
    (ha : StopHolds q id a) :
    ∃ a', run (stopLedgerStep id) a (post no.qty es) = some a' ∧ StopHolds q₁ id a' := by
  cases h with
  | rejected h =>
    exact ⟨a, run_cons_of_eq (stopLedgerStep_rejected a h.ne_fokUnfillable ha.closed), ha⟩
  | @held s hno hstop hs =>
    obtain ⟨hqty, hlives⟩ := qty_and_not_lives_of_not_refuses hno
    obtain ⟨hlive, hw⟩ := hq.wf.not_lives.1 hlives
    by_cases hid : no.id = id
    · subst hid
      cases ha.of_not_lives hlive hw
      refine ⟨(some (no.qty.toNat, 0), false), run_cons_of_eq (stopLedgerStep_of_ledgerStep false
        (ledgerStep_accepted hqty)), fun r o ho _ => ?_, fun hw' => ?_, nofun⟩
      · change Function.update q.held s _ r = some o at ho
        by_cases hr : r = s
        · rw [hr, Function.update_self] at ho
          cases ho
          rfl
        · rw [Function.update_of_ne hr] at ho
          exact absurd ⟨r, o, ho, ‹_›⟩ hw
      · exact absurd ⟨s, _, Function.update_self .., rfl⟩ hw'
    · refine ⟨a, run_cons_of_eq (stopLedgerStep_other a.2 ?_ ha.closed),
        ha.congr rfl fun r o hid' => ?_⟩
      · simpa [OutputEvent.names] using hid
      · change Function.update q.held s _ r = some o ↔ _
        by_cases hr : r = s
        · subst hr
          rw [Function.update_self, hs]
          constructor
          · intro h
            exact absurd (by rw [← hid', ← Option.some.inj h]; rfl) hid
          · intro h
            cases h
        · rw [Function.update_of_ne hr]
  | killed hno hfok hshort =>
    obtain ⟨hqty, hlives⟩ := qty_and_not_lives_of_not_refuses hno
    obtain ⟨hlive, hw⟩ := hq.wf.not_lives.1 hlives
    by_cases hid : no.id = id
    · subst hid
      cases ha.of_not_lives hlive hw
      exact ⟨(none, false), (run_cons_of_eq (stopLedgerStep_of_ledgerStep false
        (ledgerStep_accepted hqty))).trans (run_cons_of_eq (stopLedgerStep_of_ledgerStep _
          ledgerStep_killed)), ha⟩
    · refine ⟨a, run_of_ignored fun e he => stopLedgerStep_other a.2 ?_ ha.closed, ha⟩
      obtain ⟨event, hevent, rfl⟩ := List.mem_map.1 he
      rcases List.mem_pair.1 hevent with rfl | rfl
      · simpa [OutputEvent.names] using hid
      · simpa [OutputEvent.names] using hid
  | executed hno hstop hfok hfires =>
    obtain ⟨hqty, hlives⟩ := qty_and_not_lives_of_not_refuses hno
    obtain ⟨hlive, hw⟩ := hq.wf.not_lives.1 hlives
    obtain ⟨a₁, hrun, ha₁⟩ := stopLedger_execute hq hlive hw hqty ha (fun _ => rfl) seq ts
    obtain ⟨a₂, hrun₂, ha₂⟩ := hfires.stopLedger (hq.execute hlive hw seq ts) ha₁ no.qty
    refine ⟨a₂, ?_, ha₂⟩
    rw [post_append, run_append_of_eq hrun]
    exact hrun₂

/-- An order is taken out, on the account of any id. -/
theorem TakesOut.stopLedger {i : OrderId} (h : q.TakesOut i o q₁) (hq : q.StopWF)
    (ha : StopHolds q id a) (w : Qty) {event : OutputEvent}
    (hevent : event = .cancelled i seq ∨ event = .replaced i seq) :
    ∃ a', stopLedgerStep id a (w, event) = some a' ∧ StopHolds q₁ id a' := by
  have hnames : i ≠ id → event.names id = false := by
    intro hid
    rcases hevent with rfl | rfl
    · simpa [OutputEvent.names] using hid
    · simpa [OutputEvent.names] using hid
  cases h with
  | @maker side _ ho hid =>
    have hlive : q.live? i = some o := hq.wf.live?_eq_some.2 ⟨⟨side, ho⟩, hid⟩
    have hidle : ¬q.Waits i := by
      rintro ⟨s, o', ho', rfl⟩
      rw [hq.fresh s o' ho'] at hlive
      cases hlive
    by_cases hi : i = id
    · subst hi
      obtain ⟨b, hstep, hb⟩ := ledger_drop seq hq.wf hlive (ha.holds hidle) w hevent
      refine ⟨_, stopLedgerStep_of_ledgerStep a.2 hstep, .of_holds hb hidle ?_⟩
      rintro rfl
      exact Bool.and_false _
    · refine ⟨a, stopLedgerStep_other a.2 (hnames hi) ha.closed,
        ha.congr (live?_drop_of_ne hq.wf ho ?_) fun _ _ _ => Iff.rfl⟩
      rw [hid]
      exact Ne.symm hi
  | @held s _ ho hid =>
    have hq₁ : (q.discount o.side o.stopPrice o.remaining).StopWF := hq.discount _ _ _
    by_cases hi : i = id
    · subst hi
      cases ha.waits s o ho hid
      have hpos : 0 < o.remaining.toNat := Nat.pos_of_ne_zero (toNat_ne_zero.2 (hq.wants s o ho))
      have hstep : ledgerStep i (some (o.remaining.toNat, 0)) (w, event) = some none := by
        rcases hevent with rfl | rfl
        · exact ledgerStep_cancelled hpos
        · exact ledgerStep_replaced hpos
      refine ⟨_, stopLedgerStep_of_ledgerStep false hstep, .of_holds ?_ ?_ fun _ => rfl⟩
      · exact hid ▸ hq.fresh s o ho
      · exact hid ▸ hq₁.not_waits_release ho
    · refine ⟨a, stopLedgerStep_other a.2 (hnames hi) ha.closed, ha.congr rfl fun r o' hid' => ?_⟩
      change Function.update q.held s none r = some o' ↔ _
      by_cases hr : r = s
      · subst hr
        rw [Function.update_self, ho]
        constructor
        · intro h
          cases h
        · intro h
          exact absurd (by rw [← hid, ← hid', Option.some.inj h]) hi
      · rw [Function.update_of_ne hr]

end PriorityBook

/-- **The ledger step.** -/
theorem StopStep.stopLedger {q q₁ : PriorityBook} {e : Entry} {id : OrderId} {a : StopAccount}
    (h : StopStep q e q₁) (hq : q.StopWF) (ha : StopHolds q id a) :
    ∃ a', run (stopLedgerStep id) a e.postings = some a' ∧ StopHolds q₁ id a' := by
  have hrefused : ∀ {w : Qty} {i reason seq}, reason ≠ RejectReason.fokUnfillable →
      ∃ a', run (stopLedgerStep id) a (post w [.rejected i reason seq]) = some a' ∧
        StopHolds q id a' := by
    intro w i reason seq hreason
    refine ⟨a, run_cons_of_eq ?_, ha⟩
    exact stopLedgerStep_rejected a hreason ha.closed
  cases h with
  | new h => exact h.stopLedger hq ha
  | cancelUnknown => exact hrefused nofun
  | cancel h =>
    obtain ⟨a₁, hstep, ha₁⟩ := h.stopLedger hq ha 0 (.inl rfl)
    exact ⟨a₁, run_cons_of_eq hstep, ha₁⟩
  | replaceZero => exact hrefused nofun
  | replaceUnknown => exact hrefused nofun
  | @replace seq ts i newPrice newQty symbol o q₂ q₁ es hqty h henters =>
    obtain ⟨a₂, hstep, ha₂⟩ := h.stopLedger hq ha newQty (.inr rfl)
    obtain ⟨a₁, hrun, ha₁⟩ := henters.stopLedger (h.stopWF hq) ha₂
    exact ⟨a₁, (run_cons_of_eq hstep).trans hrun, ha₁⟩

/-- The ledger of a run of the priority book. -/
theorem stopLedger_run {symbol : SymbolId} {tick : Price} {log : List Entry} {q : PriorityBook}
    (h : Transition.Run StopStep (PriorityBook.new symbol tick) log q) :
    q.StopWF ∧ ∀ id, ∃ a, run (stopLedgerStep id) (none, false) (postings log) = some a ∧
      StopHolds q id a := by
  refine Transition.Run.invariant (I := fun log q => q.StopWF ∧ ∀ id, ∃ a,
    run (stopLedgerStep id) (none, false) (postings log) = some a ∧ StopHolds q id a) ?_ ?_ h
  · exact ⟨.new symbol tick, fun id => ⟨_, rfl, nofun, fun _ => rfl, fun _ => rfl⟩⟩
  · rintro log q e q' - ⟨hq, hledger⟩ hstep
    refine ⟨hstep.stopWF hq, fun id => ?_⟩
    obtain ⟨a, hrun, ha⟩ := hledger id
    obtain ⟨a', hrun', ha'⟩ := hstep.stopLedger hq ha
    exact ⟨a', by rw [postings_snoc, run_append_of_eq hrun]; exact hrun', ha'⟩

variable {A : Type} [Slab A Order] {b : OrderBook A}

/-- A closed account is of an id without an order; an open one is of an order with what
has not traded remaining, all of it as long as the order waits to fire. -/
def OrderBook.Backs (b : OrderBook A) (id : OrderId) : StopAccount → Prop
  | (none, _) => b.idIndex[id]? = none
  | (some (w, f), again) => ∃ loc o, b.idIndex[id]? = some loc ∧ b.slot? loc.slot = some o ∧
      o.id = id ∧ o.remaining ≠ 0 ∧ f + o.remaining.toNat = w ∧
      (o.kind.isStop = true → f = 0 ∧ again = false)

theorem PriorityBook.StopHolds.backs {q : PriorityBook} {id : OrderId} {a : StopAccount}
    (ha : StopHolds q id a) (hq : q.StopWF) (hm : Models b q) : b.Backs id a := by
  have hmodels := hm
  obtain ⟨σ, hr⟩ := hmodels
  by_cases hw : q.Waits id
  · obtain ⟨s, o, ho, rfl⟩ := hw
    cases ha.waits s o ho rfl
    have hcore := hm.held_core ho
    obtain ⟨x, hx, rfl⟩ := get?_of_core hcore
    exact ⟨_, x, hr.filed.index_eq hcore nofun, hx, rfl, hq.wants s x.unlinked ho, Nat.zero_add _,
      fun _ => ⟨rfl, rfl⟩⟩
  · have hholds := ha.holds hw
    obtain ⟨a, again⟩ := a
    cases a with
    | none => exact hm.index_none_iff.2 (hq.wf.not_lives.2 ⟨hholds, hw⟩)
    | some wf =>
      obtain ⟨w, f⟩ := wf
      obtain ⟨o, hlive, hsum⟩ := hholds
      obtain ⟨s, hidx, hcore, -⟩ := hr.locate hlive
      obtain ⟨⟨side, ho⟩, hid⟩ := hq.wf.live?_eq_some.1 hlive
      obtain ⟨hkind, -, hrem⟩ := hq.wf.maker side o ho
      obtain ⟨x, hx, rfl⟩ := get?_of_core hcore
      refine ⟨_, x, hidx, hx, hid, hrem, hsum, fun hstop => ?_⟩
      rw [show x.kind = .limit from hkind] at hstop
      cases hstop

/-- **Conservation through cascades.** In a run of clear commands every account balances,
whatever the commands trigger, and ends with what the book holds. -/
theorem reachesClear_balanced [LifoSlab A Order] {symbol : SymbolId} {tick : Price}
    {log : List Entry} (h : ReachesClear symbol tick log b) (id : OrderId) :
    ∃ a, run (stopLedgerStep id) (none, false) (postings log) = some a ∧ b.Backs id a := by
  obtain ⟨q, hrun, hm, -⟩ := reachesClear_stopRun h
  obtain ⟨hq, hledger⟩ := stopLedger_run hrun
  obtain ⟨a, ha, hholds⟩ := hledger id
  exact ⟨a, ha, hholds.backs hq hm⟩

/-- The account of the stop order that fired is closed by the cascade; the one that waits
and the maker have open ones. -/
theorem reachesClear_balanced_sample : ∃ (b : OrderBook (VecSlab Order)) (log : List Entry),
    log.map Prod.fst = cascadeCommands ∧ b.idIndex.contains 2 = true ∧
      (∃ a, run (stopLedgerStep 1) (none, false) (postings log) = some a ∧ b.Backs 1 a) ∧
      (∃ a, run (stopLedgerStep 2) (none, false) (postings log) = some a ∧ b.Backs 2 a) ∧
      ∃ a, run (stopLedgerStep 3) (none, false) (postings log) = some a ∧ b.Backs 3 a := by
  obtain ⟨b, log, hrun, hlog, -, -, -, hid⟩ := cascadeRun
  exact ⟨b, log, hlog, hid, reachesClear_balanced hrun 1, reachesClear_balanced hrun 2,
    reachesClear_balanced hrun 3⟩

end Exchange
