import Exchange.Engine.Shard
import Exchange.Verify.Ledger
import Exchange.Verify.Rejection

/-!
# Every command gets an answer

Whatever its kind and its values, `apply` answers a command under its own sequence
number, and first of all for its own order. The shard calls it only if it has a book
for the command's symbol; otherwise nothing is sent, although there is a reason to
reject an unknown symbol with.
-/

namespace Exchange

open Fuel

/-- The sequence number that an event carries. -/
def OutputEvent.seq : OutputEvent → Seq
  | .accepted _ seq => seq
  | .rejected _ _ seq => seq
  | .trade seq _ _ _ _ _ _ => seq
  | .partiallyFilled _ _ _ seq => seq
  | .filled _ seq => seq
  | .cancelled _ seq => seq
  | .replaced _ seq => seq

variable {A : Type} [Slab A Order] {b b' : OrderBook A} {no : NewOrder} {seq : Seq} {ts : Ts}
  {events : List OutputEvent} {id : OrderId} {fuel : Nat}

/-- There is an event, the first one is about the order `id`, and all carry `seq`. -/
def Answers (id : OrderId) (seq : Seq) (events : List OutputEvent) : Prop :=
  (∃ e rest, events = e :: rest ∧ e.names id = true) ∧ ∀ e ∈ events, e.seq = seq

/-! ## Matching -/

theorem tradeWith_seq {t : Aggressor} {makerSlot : Nat} {p : Price} {qty : Qty}
    (h : tradeWith b t makerSlot p seq ts = .ok (b', qty, events)) :
    ∀ e ∈ events, e.seq = seq := by
  obtain ⟨taker, -, h⟩ := bind_eq_ok.1 h
  obtain ⟨maker, -, h⟩ := bind_eq_ok.1 h
  obtain ⟨b₁, -, h⟩ := bind_eq_ok.1 h
  obtain ⟨b₂, -, h⟩ := bind_eq_ok.1 h
  obtain ⟨taker', -, h⟩ := bind_eq_ok.1 h
  obtain ⟨maker', -, h⟩ := bind_eq_ok.1 h
  dsimp only at h
  split at h
  · obtain ⟨b₃, -, h⟩ := bind_eq_ok.1 h
    cases h
    simp [OutputEvent.seq]
  · obtain ⟨b₃, -, h⟩ := bind_eq_ok.1 h
    cases h
    simp [OutputEvent.seq]

theorem matchLoop_seq {t : Aggressor} {total total' : Qty}
    (h : matchLoop t seq ts fuel b total = .ok (b', total', events)) :
    ∀ e ∈ events, e.seq = seq := by
  induction fuel generalizing b total events with
  | zero => cases h
  | succ fuel ih =>
    cases matchLoop_cases h with
    | done => simp
    | traded hstep hloop =>
      obtain ⟨o, p, l, b₀, makerSlot, -, -, -, -, -, htrade⟩ := matchStep_inv hstep
      exact List.forall_mem_append.2 ⟨tradeWith_seq htrade, ih hloop⟩

theorem settle_seq {slot : Nat} {filled : Qty}
    (h : settle b no slot filled seq = .ok (b', events)) : ∀ e ∈ events, e.seq = seq := by
  cases settle_cases h with
  | closed _ _ _ _ => simp [OutputEvent.seq]
  | rested _ _ _ _ => split <;> simp [OutputEvent.seq]
  | dropped _ _ _ _ => split <;> simp [OutputEvent.seq]
  | left _ _ => simp

theorem execute_seq (h : execute fuel b no seq ts = .ok (b', events)) :
    ∀ e ∈ events, e.seq = seq := by
  obtain ⟨o, b₁, filled, fills, closing, hloop, hsettle, rfl⟩ := execute_calls h
  exact List.forall_mem_append.2 ⟨matchLoop_seq hloop, settle_seq hsettle⟩

/-! ## Commands -/

/-- The orders that a cascade re-submits are answered under the same number. -/
theorem applyNew_seq (h : applyNew seq ts fuel b no = .ok (b', events)) :
    ∀ e ∈ events, e.seq = seq := by
  induction fuel generalizing b no b' events with
  | zero => cases h
  | succ fuel ih =>
    cases applyNew_cases h with
    | refused _ => simp [OutputEvent.seq]
    | held _ _ => simp [OutputEvent.seq]
    | killed _ _ _ => simp [OutputEvent.seq]
    | untraded _ _ _ hexec _ => exact List.forall_mem_cons.2 ⟨rfl, execute_seq hexec⟩
    | traded _ _ _ hexec _ htrigger =>
      have hactivate : ∀ {b : OrderBook A} {s b' events}, True →
          activate (applyNew seq ts fuel) b s = .ok (b', events) →
          True ∧ ∀ e ∈ events, e.seq = seq := by
        intro b s b' events _ h
        cases activate_cases h with
        | vacant _ => simp
        | resubmitted _ _ hnew => exact ⟨trivial, ih hnew⟩
      have htriggered := (triggerStops_induct (I := fun _ => True)
        (P := fun e => e.seq = seq) hactivate (fun _ _ h => h) trivial htrigger).2
      exact List.forall_mem_cons.2
        ⟨rfl, List.forall_mem_append.2 ⟨execute_seq hexec, htriggered⟩⟩

/-- A new order is first of all accepted or rejected. -/
theorem applyNew_head (h : applyNew seq ts fuel b no = .ok (b', events)) :
    ∃ e rest, events = e :: rest ∧ e.names no.id = true := by
  cases fuel with
  | zero => cases h
  | succ fuel =>
    cases applyNew_cases h <;> exact ⟨_, _, rfl, decide_eq_true rfl⟩

theorem Answers.cons {e : OutputEvent} (hid : e.names id = true) (hseq : e.seq = seq)
    (h : ∀ e ∈ events, e.seq = seq) : Answers id seq (e :: events) :=
  ⟨⟨e, events, rfl, hid⟩, List.forall_mem_cons.2 ⟨hseq, h⟩⟩

/-- **The book answers.** -/
theorem Applies.answers {cmd : Sequenced} (h : Applies b cmd b' events) :
    Answers cmd.cmd.id cmd.seq events := by
  obtain ⟨seq, ts, cmd⟩ := cmd
  obtain ⟨fuel, h⟩ := h
  cases cmd with
  | new no => exact ⟨applyNew_head h, applyNew_seq h⟩
  | cancel id symbol =>
    cases applyCancel_cases h with
    | unknown _ => exact .cons (decide_eq_true rfl) rfl (by simp)
    | cancelled _ _ _ _ => exact .cons (decide_eq_true rfl) rfl (by simp)
  | replace id newPrice newQty symbol =>
    cases applyReplace_cases h with
    | zeroQty _ => exact .cons (decide_eq_true rfl) rfl (by simp)
    | unknown _ _ => exact .cons (decide_eq_true rfl) rfl (by simp)
    | replaced _ _ _ _ _ hnew => exact .cons (decide_eq_true rfl) rfl (applyNew_seq hnew)

/-- **The shard answers** exactly the commands for which it has a book. -/
theorem handles_answers_iff {books books' : Books A} {cmd : Sequenced}
    (h : Handles books cmd books' events) :
    Answers cmd.cmd.id cmd.seq events ↔ (books[cmd.cmd.symbol]?).isSome = true := by
  rcases handles_iff.1 h with ⟨hnone, -, rfl⟩ | ⟨book, book', hbook, happ, -⟩
  · refine iff_of_false ?_ (by simp [hnone])
    rintro ⟨⟨e, rest, hcons, -⟩, -⟩
    cases hcons
  · exact iff_of_true happ.answers (by simp [hbook])

/-- A shard with one symbol, and a buy of it. -/
theorem handles_answers_iff_sample : ∃ (books' : Books (VecSlab Order)) (events : List OutputEvent),
    Handles (startBooks [(7, 1)]) ⟨1, 0, .new ⟨1, 7, .buy, .market, .gtc, 0, 0, 5⟩⟩ books' events ∧
      Answers 1 1 events := by
  have hok : ∃ r, handleWithin 9 (startBooks [(7, 1)] : Books (VecSlab Order))
        ⟨1, 0, .new ⟨1, 7, .buy, .market, .gtc, 0, 0, 5⟩⟩ = .ok r ∧
      ((startBooks [(7, 1)] : Books (VecSlab Order))[(7 : SymbolId)]?).isSome = true := by
    exact ⟨_, rfl, by decide +kernel⟩
  obtain ⟨⟨books', events⟩, hhandles, hbook⟩ := hok
  exact ⟨books', events, ⟨9, hhandles⟩, (handles_answers_iff ⟨9, hhandles⟩).2 hbook⟩

/-- The same shard sends nothing for a buy of another symbol. -/
theorem unknown_symbol_silent : ∃ (books : Books (VecSlab Order)),
    books = startBooks [(7, 1)] ∧
      Handles books ⟨1, 0, .new ⟨1, 8, .buy, .market, .gtc, 0, 0, 5⟩⟩ books [] ∧
      ¬Answers 1 1 [] := by
  refine ⟨_, rfl, ⟨0, rfl⟩, ?_⟩
  rintro ⟨⟨e, rest, hcons, -⟩, -⟩
  cases hcons

end Exchange
