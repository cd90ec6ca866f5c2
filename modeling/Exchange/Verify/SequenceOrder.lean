import Exchange.Verify.Delivery

/-!
# Sequence order

A shard pops its commands in the order of their numbers as long as no push overtakes
a lower number on its way to the same shard. Taking a number and pushing are two
steps, so nothing prevents that when clients submit at once.
-/

namespace Exchange

open Transition TicketQueue

variable {C : Type} [DecidableEq C] {numShards capacity : Nat} {s s' : Engine C} {a : Action C}
  {as : List (Action C)}

/-- The conditions under which the engine's numbers are tickets in order: the counter
has not come round, and no push overtakes a lower number for the same shard. -/
def InTurn (numShards : Nat) (s : Engine C) : Action C → Prop
  | .stamp _ _ _ => s.count + 1 < 2 ^ 64
  | .push c true => ∀ x, s.submitting c = some x → ∀ c' x', s.submitting c' = some x' →
      shardFor x'.cmd.symbol numShards = shardFor x.cmd.symbol numShards →
      x.sequenced.seq ≤ x'.sequenced.seq
  | _ => True

omit [DecidableEq C] in
/-- A client is in turn when nobody is about to push a lower number. -/
theorem inTurn_first {c : C} {x : Submitting} (hc : s.submitting c = some x)
    (h : ∀ c' x', s.submitting c' = some x' → x.sequenced.seq ≤ x'.sequenced.seq) :
    InTurn numShards s (.push c true) := by
  intro y hy c' x' hx' _
  rw [hc] at hy
  cases hy
  exact h c' x' hx'

/-- A client that submits alone is in turn. -/
theorem inTurn_alone {c : C} (h : ∀ c', c' ≠ c → s.submitting c' = none) :
    InTurn numShards s (.push c true) := by
  intro x hx c' x' hx' _
  by_cases hc : c' = c
  · rw [hc, hx] at hx'
    cases hx'
    exact UInt64.le_refl _
  · rw [h c' hc] at hx'
    cases hx'

omit [DecidableEq C] in
theorem notOvertaking_of_inTurn (h : Delivers numShards s) (hcount : s.count < 2 ^ 64)
    (hturn : InTurn numShards s a) {op : Op C Nat Command} (hop : a.op = some op) :
    NotOvertaking (route numShards) s.tickets op := by
  cases a with
  | stamp c cmd ts =>
    cases hop
    trivial
  | pop shard =>
    cases hop
    trivial
  | shutdown => cases hop
  | push c accepted =>
    cases hop
    cases accepted with
    | false => trivial
    | true =>
      intro i hi c' i' hi' hroute
      obtain ⟨x, hx, rfl⟩ := Option.map_eq_some_iff.1 hi
      obtain ⟨x', hx', rfl⟩ := Option.map_eq_some_iff.1 hi'
      have hle := hturn x hx c' x' hx' hroute
      have hlt : x.count < s.count := h.sound.tickets.held_lt c _ hi
      have hlt' : x'.count < s.count := h.sound.tickets.held_lt c' _ hi'
      have hbound : x.count + 1 < 2 ^ 64 ∧ x'.count + 1 < 2 ^ 64 := by omega
      rw [(h.stamped.submitting c x hx).2, (h.stamped.submitting c' x' hx').2,
        UInt64.le_iff_toNat_le, toNat_seqOf hbound.1, toNat_seqOf hbound.2] at hle
      exact Nat.le_of_succ_le_succ hle

/-- What holds of every run whose steps are in turn. -/
structure InOrder (numShards : Nat) (s : Engine C) : Prop where
  delivers : Delivers numShards s
  count : s.count < 2 ^ 64
  ordered : Ordered (route numShards) s.tickets

theorem InOrder.step (h : InOrder numShards s) (hturn : InTurn numShards s a)
    (hstep : EngineStep numShards capacity s a s') : InOrder numShards s' := by
  refine ⟨h.delivers.step hstep, ?_, ?_⟩
  · cases hstep with
    | stamp => exact hturn
    | _ => exact h.count
  · have htickets := hstep.tickets h.delivers.stamped
    cases hop : a.op with
    | none =>
      rw [hop] at htickets
      dsimp only at htickets
      rw [htickets]
      exact h.ordered
    | some op =>
      rw [hop] at htickets
      exact h.ordered.step h.delivers.sound
        (notOvertaking_of_inTurn h.delivers h.count hturn hop) htickets

omit [DecidableEq C] in
theorem InOrder.start : InOrder numShards (Engine.start C) := ⟨.start, Nat.two_pow_pos 64, .start⟩

omit [DecidableEq C] in
theorem InOrder.popped (h : InOrder numShards s) (shard : Nat) :
    (s.popped shard).Pairwise fun e e' => e.sequenced.seq < e'.sequenced.seq := by
  have hpair := h.ordered.queue shard
  rw [← h.delivers.sound.conserved] at hpair
  have htaken : ((s.popped shard).map Enqueued.item).Pairwise (·.ticket < ·.ticket) :=
    (List.pairwise_append.1 hpair).1
  rw [List.pairwise_map] at htaken
  refine htaken.imp_of_mem fun {e e'} he he' hlt => ?_
  have hlt : e.count < e'.count := hlt
  have hbound := h.delivers.count_lt he
  have hbound' := h.delivers.count_lt he'
  have hcount := h.count
  rw [h.delivers.stamped.popped shard e he, h.delivers.stamped.popped shard e' he',
    UInt64.lt_iff_toNat_lt, toNat_seqOf (by omega), toNat_seqOf (by omega)]
  omega

/-- **Sequence order.** In every run whose steps are in turn, every shard pops its
commands in strictly increasing order of their numbers. -/
theorem inTurn_ordered (h : Run (restrict (InTurn numShards) (EngineStep numShards capacity))
    (Engine.start C) as s) (shard : Nat) :
    (s.popped shard).Pairwise fun e e' => e.sequenced.seq < e'.sequenced.seq :=
  (Run.invariant (I := fun _ s => InOrder numShards s) .start
    (fun _ _ _ _ _ ih hstep => ih.step hstep.1 hstep.2) h).popped shard

/-- Two clients submit at once and push in the order of their numbers. -/
theorem inTurn_ordered_sample : ∃ s : Engine Bool,
    (s.popped 0).map (·.sequenced.seq) = [1, 2] ∧
      (s.popped 0).Pairwise fun e e' => e.sequenced.seq < e'.sequenced.seq := by
  have hok : ∃ s₁ s₂ s₃ s₄ s₅ s₆,
      (Engine.start Bool).step? 1 8 (.stamp false (orderFor 1) 0) = some s₁ ∧
      s₁.step? 1 8 (.stamp true (orderFor 2) 0) = some s₂ ∧
      s₂.step? 1 8 (.push false true) = some s₃ ∧ s₃.step? 1 8 (.push true true) = some s₄ ∧
      s₄.step? 1 8 (.pop 0) = some s₅ ∧ s₅.step? 1 8 (.pop 0) = some s₆ ∧
      s₁.count = 1 ∧ s₂.submitting false = some ⟨0, orderFor 1, 1, 0, orderFor 1⟩ ∧
      s₂.submitting true = some ⟨1, orderFor 2, 2, 0, orderFor 2⟩ ∧
      s₃.submitting false = none ∧ (s₆.popped 0).map (·.sequenced.seq) = [1, 2] :=
    ⟨_, _, _, _, _, _, rfl, rfl, rfl, rfl, rfl, rfl, rfl, rfl, rfl, rfl, rfl⟩
  obtain ⟨s₁, s₂, s₃, s₄, s₅, s₆, h₁, h₂, h₃, h₄, h₅, h₆, hcount, hfalse, htrue, hidle, hseqs⟩ :=
    hok
  have hstart : InTurn 1 (Engine.start Bool) (.stamp false (orderFor 1) 0) := by
    change 0 + 1 < 2 ^ 64
    omega
  have hstamp : InTurn 1 s₁ (.stamp true (orderFor 2) 0) := by
    change s₁.count + 1 < 2 ^ 64
    omega
  have hfirst : InTurn 1 s₂ (.push false true) := inTurn_first hfalse fun c' x' hx' => by
    cases c' with
    | false =>
      rw [hfalse] at hx'
      cases hx'
      exact UInt64.le_refl _
    | true =>
      rw [htrue] at hx'
      cases hx'
      simp
  have hsecond : InTurn 1 s₃ (.push true true) := inTurn_alone fun c' hc => by
    obtain rfl : c' = false := by simpa using hc
    exact hidle
  have hpop : ∀ s : Engine Bool, InTurn 1 s (.pop 0) := fun _ => trivial
  have hrun : Run (restrict (InTurn 1) (EngineStep 1 8)) (Engine.start Bool) _ s₆ :=
    (((((Run.nil.snoc ⟨hstart, Engine.step?_sound 1 8 h₁⟩).snoc
      ⟨hstamp, Engine.step?_sound 1 8 h₂⟩).snoc ⟨hfirst, Engine.step?_sound 1 8 h₃⟩).snoc
      ⟨hsecond, Engine.step?_sound 1 8 h₄⟩).snoc
      ⟨hpop s₄, Engine.step?_sound 1 8 h₅⟩).snoc ⟨hpop s₅, Engine.step?_sound 1 8 h₆⟩
  exact ⟨s₆, hseqs, inTurn_ordered hrun 0⟩

/-- Two clients submit at once; the second to take a number pushes first. -/
def overtaking : List (Action Bool) :=
  [.stamp false (orderFor 1) 0, .stamp true (orderFor 2) 0, .push true true, .push false true,
    .pop 0, .pop 0]

/-- The shard pops number 2 before number 1. -/
theorem overtaken_pop : ∃ s : Engine Bool, EngineRun 1 8 overtaking s ∧
    (s.popped 0).map (·.sequenced.seq) = [2, 1] ∧
    ¬(s.popped 0).Pairwise fun e e' => e.sequenced.seq < e'.sequenced.seq := by
  have hok : ∃ s, (Engine.start Bool).run? 1 8 overtaking = some s ∧
      (s.popped 0).map (·.sequenced.seq) = [2, 1] := by
    refine ⟨_, rfl, ?_⟩
    decide +kernel
  obtain ⟨s, hrun, hseqs⟩ := hok
  refine ⟨s, run_run? hrun, hseqs, fun hpair => ?_⟩
  have hpair : ((s.popped 0).map (·.sequenced.seq)).Pairwise (· < ·) := List.pairwise_map.2 hpair
  rw [hseqs] at hpair
  revert hpair
  decide

end Exchange
