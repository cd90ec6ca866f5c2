import Exchange.Lib.Transition
import Exchange.Engine.Shard
import Exchange.Verify.Inversion

/-!
# The books of a shard and its log

`run_shard` drops the result of the append and applies the command all the same.
So the books are those of the logged commands, and nothing unlogged reaches the
egress bus, exactly when the commands that could not be logged name no book of the
shard.
-/

namespace Exchange

open Transition

variable {A : Type} [Slab A Order]

/-! ## Every command is answered -/

theorem applyNew_events_ne_nil {seq : Seq} {ts : Ts} {fuel : Nat} {b b' : OrderBook A}
    {no : NewOrder} {events : List OutputEvent}
    (h : applyNew seq ts fuel b no = .ok (b', events)) : events ≠ [] := by
  cases fuel with
  | zero => cases h
  | succ fuel =>
    cases applyNew_cases h <;> exact List.cons_ne_nil _ _

/-- `apply` pushes at least one event. -/
theorem Applies.events_ne_nil {b b' : OrderBook A} {cmd : Sequenced} {events : List OutputEvent}
    (h : Applies b cmd b' events) : events ≠ [] := by
  obtain ⟨fuel, h⟩ := h
  obtain ⟨seq, ts, cmd⟩ := cmd
  cases cmd with
  | new no => exact applyNew_events_ne_nil h
  | cancel id symbol =>
    have h : applyCancel b id seq = .ok (b', events) := h
    cases applyCancel_cases h <;> exact List.cons_ne_nil _ _
  | replace id newPrice newQty symbol =>
    have h : applyReplace fuel b id newPrice newQty seq ts = .ok (b', events) := h
    cases applyReplace_cases h <;> exact List.cons_ne_nil _ _

/-! ## Replaying a log -/

/-- The books got by applying logged commands, in order, to the books of their
symbols. -/
def Replays (books : Books A) (cmds : List Sequenced) (books' : Books A) : Prop :=
  Run (fun books cmd books' => ∃ events, Handles books cmd books' events) books cmds books'

theorem Replays.nil (books : Books A) : Replays books [] books := Run.nil

/-- No command takes effect unless its record was written first: the books are the
replayed ones, and only logged commands have sent events. -/
structure LoggedFirst (symbols : List (SymbolId × Price)) (ps : List ShardTurn) (s : Shard A) :
    Prop where
  books : Replays (startBooks symbols) s.logged s.books
  silent : ∀ p ∈ ps, p.appended = false → p.events = []

section Run

variable {symbols : List (SymbolId × Price)} {ps : List ShardTurn} {s s' : Shard A} {p : ShardTurn}

/-- A shard keeps the symbols it was started with. -/
theorem run_symbols (h : Run ShardStep (Shard.start symbols) ps s) (symbol : SymbolId) :
    (s.books[symbol]?).isSome = true ↔ symbol ∈ symbols.map Prod.fst := by
  refine Run.invariant
    (I := fun _ s => (s.books[symbol]?).isSome = true ↔ symbol ∈ symbols.map Prod.fst)
    isSome_startBooks ?_ h
  intro ps s p s' _ ih hstep
  rw [hstep.2.symbols symbol, ih]

/-- A command for a symbol of the shard sends events, any other sends none and leaves
the books alone. -/
theorem ShardStep.effect (hstep : ShardStep s p s') :
    ((s.books[p.cmd.cmd.symbol]?).isSome = true ∧ p.events ≠ []) ∨
      ((s.books[p.cmd.cmd.symbol]?).isSome = false ∧ p.events = [] ∧ s'.books = s.books) := by
  rcases handles_iff.1 hstep.2 with ⟨hnone, hbooks, hevents⟩ | ⟨book, book', hbook, happ, -⟩
  · exact .inr ⟨by rw [hnone]; rfl, hevents, hbooks⟩
  · exact .inl ⟨by rw [hbook]; rfl, happ.events_ne_nil⟩

/-- **Every applied command is in the log** exactly when the commands whose append
failed are for symbols that the shard has no book of. -/
theorem run_loggedFirst (h : Run ShardStep (Shard.start symbols) ps s) :
    LoggedFirst symbols ps s ↔
      ∀ p ∈ ps, p.appended = false → p.cmd.cmd.symbol ∉ symbols.map Prod.fst := by
  constructor
  · intro hlogged
    have hsilent := hlogged.silent
    clear hlogged
    refine Run.invariant (I := fun ps _ => (∀ p ∈ ps, p.appended = false → p.events = []) →
      ∀ p ∈ ps, p.appended = false → p.cmd.cmd.symbol ∉ symbols.map Prod.fst)
      (fun _ p hp => by cases hp) ?_ h hsilent
    intro ps s p s' hrun ih hstep hsilent p' hp' hfail
    rcases List.mem_append.1 hp' with hp | hp
    · exact ih (fun x hx => hsilent x (List.mem_append_left _ hx)) p' hp hfail
    · obtain rfl := List.mem_singleton.1 hp
      rw [← run_symbols hrun]
      rcases hstep.effect with ⟨-, hevents⟩ | ⟨hnone, -⟩
      · exact absurd (hsilent p' hp' hfail) hevents
      · rw [hnone]
        exact Bool.false_ne_true
  · intro hforeign
    refine Run.invariant (I := fun ps s =>
      (∀ p ∈ ps, p.appended = false → p.cmd.cmd.symbol ∉ symbols.map Prod.fst) →
        LoggedFirst symbols ps s) (fun _ => ⟨.nil _, fun p hp => by cases hp⟩) ?_ h hforeign
    intro ps s p s' hrun ih hstep hforeign
    have hlogged := ih fun x hx => hforeign x (List.mem_append_left _ hx)
    obtain ⟨hlog, hhandles⟩ := hstep
    cases happended : p.appended with
    | true =>
      rw [happended, if_pos rfl] at hlog
      refine ⟨?_, fun x hx hfail => ?_⟩
      · rw [hlog]
        exact hlogged.books.snoc ⟨p.events, hhandles⟩
      · rcases List.mem_append.1 hx with hx | hx
        · exact hlogged.silent x hx hfail
        · obtain rfl := List.mem_singleton.1 hx
          rw [happended] at hfail
          cases hfail
    | false =>
      have hsymbol := hforeign p (List.mem_append_right _ List.mem_cons_self) happended
      rw [← run_symbols hrun] at hsymbol
      rw [happended, if_neg Bool.false_ne_true] at hlog
      have hstep : ShardStep s p s' := ⟨by rw [happended]; exact hlog, hhandles⟩
      rcases hstep.effect with ⟨hsome, -⟩ | ⟨-, hevents, hbooks⟩
      · exact absurd hsome hsymbol
      · refine ⟨?_, fun x hx hfail => ?_⟩
        · rw [hlog, hbooks]
          exact hlogged.books
        · rcases List.mem_append.1 hx with hx | hx
          · exact hlogged.silent x hx hfail
          · obtain rfl := List.mem_singleton.1 hx
            exact hevents

end Run

/-! ## Runs on a full disk -/

/-- A limit order of five lots at 100. -/
def fiveLots (symbol : SymbolId) (id : OrderId) (side : Side) : Sequenced :=
  ⟨id, 0, .new ⟨id, symbol, side, .limit, .gtc, 100, 0, 5⟩⟩

/-- A shard of symbol 7 logs an ask and the bid that takes it. A bid for symbol 8 that comes
in between cannot be logged, and nothing is done with it. -/
def fullForEight : List ShardTurn :=
  [⟨fiveLots 7 1 .sell, true, [.accepted 1 1]⟩, ⟨fiveLots 8 2 .buy, false, []⟩,
   ⟨fiveLots 7 3 .buy, true, [.accepted 3 3, .trade 3 3 1 100 5 .buy 0, .filled 1 3, .filled 3 3]⟩]

theorem run_loggedFirst_sample : ∃ s : Shard (VecSlab Order),
    Run ShardStep (Shard.start [(7, 1)]) fullForEight s ∧
      s.logged = [fiveLots 7 1 .sell, fiveLots 7 3 .buy] ∧
      (s.books[(7 : SymbolId)]?).map (·.lastTrade) = some (some 100) ∧
      LoggedFirst [(7, 1)] fullForEight s := by
  have hcomputed : ((fullForEight.foldlM (Shard.step? 9)
      (Shard.start [(7, 1)] : Shard (VecSlab Order))).any fun s =>
        s.logged = [fiveLots 7 1 .sell, fiveLots 7 3 .buy] ∧
          (s.books[(7 : SymbolId)]?).map (·.lastTrade) = some (some 100)) = true := by
    decide +kernel
  obtain ⟨s, hfold, htest⟩ := (Option.any_eq_true _ _).1 hcomputed
  obtain ⟨hlogged, hprice⟩ := of_decide_eq_true htest
  have hrun : Run ShardStep (Shard.start [(7, 1)]) fullForEight s :=
    (Run.of_foldlM hfold).mono fun _ _ _ => Shard.step?_sound
  refine ⟨s, hrun, hlogged, hprice, (run_loggedFirst hrun).2 fun p hp hfailed => ?_⟩
  simp only [fullForEight, List.mem_cons, List.not_mem_nil, or_false] at hp
  rcases hp with rfl | rfl | rfl
  · cases hfailed
  · simp [fiveLots, Command.symbol]
  · cases hfailed

/-- The append of a bid fails, and the bid is accepted and rests. -/
theorem unlogged_bid_rests : ∃ s : Shard (VecSlab Order),
    Run ShardStep (Shard.start [(7, 1)]) [⟨fiveLots 7 1 .buy, false, [.accepted 1 1]⟩] s ∧
      s.logged = [] ∧ (s.books[(7 : SymbolId)]?).map (·.depth 1) = some ⟨[(100, 5)], [], none⟩ ∧
      ¬Replays (startBooks [(7, 1)]) s.logged s.books ∧
      ¬LoggedFirst [(7, 1)] [⟨fiveLots 7 1 .buy, false, [.accepted 1 1]⟩] s := by
  have hok : ∃ r, handleWithin 9 (startBooks [(7, 1)] : Books (VecSlab Order)) (fiveLots 7 1 .buy) =
      .ok r ∧ r.2 = [.accepted 1 1] ∧
      (r.1[(7 : SymbolId)]?).map (·.depth 1) = some ⟨[(100, 5)], [], none⟩ := by
    refine ⟨_, rfl, ?_⟩
    decide +kernel
  have hstart : ((startBooks [(7, 1)] : Books (VecSlab Order))[(7 : SymbolId)]?).map (·.depth 1) =
      some ⟨[], [], none⟩ := by decide +kernel
  obtain ⟨⟨books, events⟩, hhandle, hevents, hdepth⟩ := hok
  obtain rfl : events = _ := hevents
  have hdiffer : ¬Replays (startBooks [(7, 1)]) [] books := by
    intro h
    rw [Run.eq_of_nil h, hstart] at hdepth
    cases hdepth
  exact ⟨⟨books, []⟩, Run.nil.snoc ⟨rfl, 9, hhandle⟩, rfl, hdepth, hdiffer,
    fun h => hdiffer h.books⟩

end Exchange
