import Exchange.Verify.EgressDelivery

/-!
# The order of the lock

The shards work side by side and only their batches queue up for the lock. Taken in the
order in which their events leave, the turns are a run in which one shard moves at a time,
with the same books: it is as if each turn happened at the moment it takes the lock.
-/

namespace Exchange

open Transition

variable {A : Type} [Slab A Order] {symbols : List (SymbolId × Price)} {numShards : Nat}
  {s s' : ShardPlane A} {a : PlaneAction} {as : List PlaneAction}

/-- What an action of the shards does on the bus. -/
def PlaneAction.egress : PlaneAction → List EgressAction
  | .turn _ _ => []
  | .publish _ p => [.acquire p.events]
  | .release _ => [.release]
  | .bus a => [a]

/-- The turn that is over with an action as far as the bus can tell; one without events is
over at once. -/
def PlaneAction.published : PlaneAction → List ShardTurn
  | .turn _ p => if p.events = [] then [p] else []
  | .publish _ p => [p]
  | _ => []

/-- The turn of shard `i` that an action is. -/
def PlaneAction.turnOf (i : Nat) : PlaneAction → List ShardTurn
  | .turn j p => if j = i then [p] else []
  | _ => []

/-- The turns in the order in which their events leave. -/
def publishedTurns (as : List PlaneAction) : List ShardTurn := as.flatMap PlaneAction.published

/-- The turns of a shard, in its own order. -/
def turnsOf (i : Nat) (as : List PlaneAction) : List ShardTurn :=
  as.flatMap (PlaneAction.turnOf i)

/-- The turn whose events have not begun to leave. -/
def ShardPhase.waiting : ShardPhase → List ShardTurn
  | .applied p => [p]
  | _ => []

@[simp] theorem ShardPhase.waiting_popping : ShardPhase.popping.waiting = [] := rfl

@[simp] theorem ShardPhase.waiting_applied (p : ShardTurn) :
    (ShardPhase.applied p).waiting = [p] := rfl

@[simp] theorem ShardPhase.waiting_sending : ShardPhase.sending.waiting = [] := rfl

/-- The shards' own view of the bus. -/
theorem PlaneStep.bus_run (hstep : PlaneStep numShards s a s') :
    Run EgressStep s.bus a.egress s'.bus ∧
      batches a.egress = a.published.flatMap (·.events) := by
  cases hstep with
  | @turn _ p =>
    refine ⟨.nil, ?_⟩
    dsimp only [PlaneAction.egress, PlaneAction.published]
    split
    · next hnil => simp [batches, hnil]
    · rfl
  | publish _ hstep =>
    refine ⟨Run.nil.snoc hstep, ?_⟩
    simp [PlaneAction.egress, PlaneAction.published, batches, EgressAction.batch]
  | release _ hstep => exact ⟨Run.nil.snoc hstep, rfl⟩
  | bus hquiet hstep =>
    refine ⟨Run.nil.snoc hstep, ?_⟩
    simp [PlaneAction.egress, PlaneAction.published, batches,
      EgressAction.batch_of_quiet hquiet]

theorem plane_bus (h : Run (PlaneStep numShards) s as s') :
    Run EgressStep s.bus (as.flatMap PlaneAction.egress) s'.bus ∧
      batches (as.flatMap PlaneAction.egress) = (publishedTurns as).flatMap (·.events) := by
  induction h with
  | nil => exact ⟨.nil, rfl⟩
  | snoc _ hstep ih =>
    obtain ⟨hrun, hbatch⟩ := hstep.bus_run
    rw [List.flatMap_append, List.flatMap_singleton]
    refine ⟨ih.1.append hrun, ?_⟩
    unfold batches publishedTurns at *
    simp [ih.2, hbatch]

/-- Each shard has run through its published turns and the one that waits; these are its
turns in its own order. -/
structure Linear (symbols : List (SymbolId × Price)) (numShards : Nat) (as : List PlaneAction)
    (s : ShardPlane A) : Prop where
  run : ∀ i, Run ShardStep (Shards.start symbols numShards i)
    (routed (ShardTurn.shard numShards) i (publishedTurns as) ++ (s.phase i).waiting) (s.shards i)
  own : ∀ i p, s.phase i = .applied p → p.shard numShards = i
  turns : ∀ i, routed (ShardTurn.shard numShards) i (publishedTurns as) ++ (s.phase i).waiting =
    turnsOf i as

/-- A step that publishes no turn and leaves no turn waiting that did not wait before. -/
theorem Linear.quiet (h : Linear symbols numShards as s) (hshards : s'.shards = s.shards)
    (hwaiting : ∀ i, (s'.phase i).waiting = (s.phase i).waiting)
    (happlied : ∀ i p, s'.phase i = .applied p → s.phase i = .applied p)
    (hpub : a.published = []) (hturn : ∀ i, a.turnOf i = []) :
    Linear symbols numShards (as ++ [a]) s' := by
  have hsame : publishedTurns (as ++ [a]) = publishedTurns as := by
    simp [publishedTurns, hpub]
  refine ⟨fun i => ?_, fun i p hp => h.own i p (happlied i p hp), fun i => ?_⟩
  · rw [hsame, hwaiting, hshards]
    exact h.run i
  · rw [hsame, hwaiting, h.turns i]
    simp [turnsOf, hturn]

theorem Linear.turn {p : ShardTurn} {x : Shard A} (h : Linear symbols numShards as s)
    (hphase : s.phase (p.shard numShards) = .popping)
    (hstep : ShardStep (s.shards (p.shard numShards)) p x) :
    Linear symbols numShards (as ++ [.turn (p.shard numShards) p])
      { s with
        shards := Function.update s.shards (p.shard numShards) x
        phase := Function.update s.phase (p.shard numShards)
          (if p.events = [] then .popping else .applied p) } := by
  have hself : routed (ShardTurn.shard numShards) (p.shard numShards)
        (publishedTurns (as ++ [.turn (p.shard numShards) p])) ++
      ShardPhase.waiting (if p.events = [] then .popping else .applied p) =
        routed (ShardTurn.shard numShards) (p.shard numShards) (publishedTurns as) ++ [p] := by
    by_cases hnil : p.events = []
    · simp [publishedTurns, PlaneAction.published, hnil]
    · simp [publishedTurns, PlaneAction.published, hnil]
  have hother : ∀ i, i ≠ p.shard numShards → routed (ShardTurn.shard numShards) i
        (publishedTurns (as ++ [.turn (p.shard numShards) p])) =
      routed (ShardTurn.shard numShards) i (publishedTurns as) := by
    intro i hi
    by_cases hnil : p.events = []
    · simp [publishedTurns, PlaneAction.published, hnil, routed_singleton_of_ne (Ne.symm hi)]
    · simp [publishedTurns, PlaneAction.published, hnil]
  refine ⟨fun i => ?_, fun i p' hp' => ?_, fun i => ?_⟩ <;> dsimp only at *
  · by_cases hi : i = p.shard numShards
    · subst hi
      have hrun := h.run (p.shard numShards)
      rw [hphase, ShardPhase.waiting_popping, List.append_nil] at hrun
      rw [Function.update_self, Function.update_self, hself]
      exact hrun.snoc hstep
    · rw [Function.update_of_ne hi, Function.update_of_ne hi, hother i hi]
      exact h.run i
  · by_cases hi : i = p.shard numShards
    · subst hi
      rw [Function.update_self] at hp'
      split at hp'
      · cases hp'
      · cases hp'
        rfl
    · rw [Function.update_of_ne hi] at hp'
      exact h.own i p' hp'
  · have hturns := h.turns i
    by_cases hi : i = p.shard numShards
    · subst hi
      rw [hphase, ShardPhase.waiting_popping, List.append_nil] at hturns
      rw [Function.update_self, hself, hturns]
      simp [turnsOf, PlaneAction.turnOf]
    · rw [Function.update_of_ne hi, hother i hi, hturns]
      simp [turnsOf, PlaneAction.turnOf, Ne.symm hi]

theorem Linear.publish {i : Nat} {p : ShardTurn} {bus : EgressBus}
    (h : Linear symbols numShards as s) (hphase : s.phase i = .applied p) :
    Linear symbols numShards (as ++ [.publish i p])
      { s with phase := Function.update s.phase i .sending, bus } := by
  obtain rfl := h.own i p hphase
  have hpub : publishedTurns (as ++ [.publish (p.shard numShards) p]) =
      publishedTurns as ++ [p] := by
    simp [publishedTurns, PlaneAction.published]
  -- the waiting turn moves to the end of the published ones
  have hmoved : ∀ i, routed (ShardTurn.shard numShards) i
        (publishedTurns (as ++ [.publish (p.shard numShards) p])) ++
        ShardPhase.waiting (Function.update s.phase (p.shard numShards) .sending i) =
      routed (ShardTurn.shard numShards) i (publishedTurns as) ++ (s.phase i).waiting := by
    intro i
    rw [hpub, routed_append]
    by_cases hi : i = p.shard numShards
    · subst hi
      rw [routed_singleton_self, Function.update_self, hphase]
      simp
    · rw [routed_singleton_of_ne (Ne.symm hi), Function.update_of_ne hi, List.append_nil]
  refine ⟨fun i => ?_, fun i p' hp' => ?_, fun i => ?_⟩ <;> dsimp only at *
  · rw [hmoved]
    exact h.run i
  · by_cases hi : i = p.shard numShards
    · subst hi
      rw [Function.update_self] at hp'
      cases hp'
    · rw [Function.update_of_ne hi] at hp'
      exact h.own i p' hp'
  · rw [hmoved, h.turns i]
    simp [turnsOf, PlaneAction.turnOf]

theorem Linear.step (h : Linear symbols numShards as s) (hstep : PlaneStep numShards s a s') :
    Linear symbols numShards (as ++ [a]) s' := by
  cases hstep with
  | turn hphase hstep => exact h.turn hphase hstep
  | publish hphase => exact h.publish hphase
  | @release i bus hphase =>
    have hupdate : ∀ j, ShardPhase.waiting (Function.update s.phase i .popping j) =
        (s.phase j).waiting := by
      intro j
      by_cases hj : j = i
      · subst hj
        rw [Function.update_self, hphase]
        rfl
      · rw [Function.update_of_ne hj]
    refine h.quiet rfl hupdate (fun j p hp => ?_) rfl fun _ => rfl
    by_cases hj : j = i
    · subst hj
      dsimp only at hp
      rw [Function.update_self] at hp
      cases hp
    · dsimp only at hp
      rwa [Function.update_of_ne hj] at hp
  | bus => exact h.quiet rfl (fun _ => rfl) (fun _ _ hp => hp) rfl fun _ => rfl

theorem linear_run (h : Run (PlaneStep numShards) (ShardPlane.start numShards symbols) as s) :
    Linear symbols numShards as s := by
  refine h.invariant (I := fun as s => Linear symbols numShards as s) ?_
    fun _ _ _ _ _ ih hstep => ih.step hstep
  exact ⟨fun _ => .nil, nofun, fun _ => rfl⟩

/-- **One turn at a time.** However the shards interleave, the published turns are a run of
the engine that moves one shard at a time and leaves every shard that has nothing waiting
as it is; each shard's turns keep their order. And a subscriber gets the events of the
turns published since it subscribed, turn by turn. -/
theorem plane_linearizes {pre post : List PlaneAction}
    (h : Run (PlaneStep numShards) (ShardPlane.start numShards symbols)
      (pre ++ .bus .subscribe :: post) s) :
    (∃ ss : Shards A, Run (ShardsStep numShards) (Shards.start symbols numShards)
        (publishedTurns pre ++ publishedTurns post) ss ∧
      ∀ i, (s.phase i).waiting = [] → ss i = s.shards i) ∧
    (∀ i, routed (ShardTurn.shard numShards) i (publishedTurns pre ++ publishedTurns post) ++
      (s.phase i).waiting = turnsOf i pre ++ turnsOf i post) ∧
    Gets s.bus (channelsMade (pre.flatMap PlaneAction.egress))
      ((publishedTurns post).flatMap (·.events)) := by
  have hlinear := linear_run h
  have hpub : publishedTurns (pre ++ .bus .subscribe :: post) =
      publishedTurns pre ++ publishedTurns post := by
    simp [publishedTurns, PlaneAction.published]
  have hturns : ∀ i, turnsOf i (pre ++ .bus .subscribe :: post) =
      turnsOf i pre ++ turnsOf i post := by
    simp [turnsOf, PlaneAction.turnOf]
  refine ⟨?_, fun i => ?_, ?_⟩
  · choose ss hss hrest using fun i => (hlinear.run i).split
    rw [hpub] at hss
    refine ⟨ss, run_components_iff.2 hss, fun i hi => ?_⟩
    have hdone := hrest i
    rw [hi] at hdone
    exact hdone.eq_of_nil.symm
  · rw [← hpub, hlinear.turns i, hturns]
  · obtain ⟨s₁, hpre, hrest⟩ := h.split
    obtain ⟨s₂, hsub, hpost⟩ := hrest.of_cons
    obtain ⟨hsubRun, -⟩ := hsub.bus_run
    obtain ⟨hpostRun, hbatches⟩ := plane_bus hpost
    obtain ⟨hsound, hempty⟩ := Gets.subscribed (plane_bus hpre).1 hsubRun.of_singleton
    rw [← hbatches]
    exact (hempty.run hsound hpostRun).2

/-- Shard `i` accepts a bid for its symbol. -/
def bidTurn (i : SymbolId) (id : OrderId) : ShardTurn :=
  ⟨fiveLots i id .buy, true, [.accepted id id]⟩

/-- Shard 0 has applied its command first, and shard 1 is the first to take the lock. -/
def lateLock : List PlaneAction :=
  [.turn 0 (bidTurn 0 1), .turn 1 (bidTurn 1 2), .publish 1 (bidTurn 1 2), .bus .send, .bus .send,
    .release 1, .publish 0 (bidTurn 0 1)]

theorem plane_linearizes_sample : ∃ s : ShardPlane (VecSlab Order),
    Run (PlaneStep 2) (ShardPlane.start 2 [(0, 1), (1, 1)]) ([] ++ .bus .subscribe :: lateLock) s ∧
      Gets s.bus 0 [.accepted 2 2, .accepted 1 1] ∧ ∃ ss : Shards (VecSlab Order),
        Run (ShardsStep 2) (Shards.start [(0, 1), (1, 1)] 2) [bidTurn 1 2, bidTurn 0 1] ss ∧
          ss 0 = s.shards 0 ∧ ss 1 = s.shards 1 := by
  have hcomputed : ((([] ++ PlaneAction.bus .subscribe :: lateLock).foldlM
      (ShardPlane.step? 2 9) (ShardPlane.start 2 [(0, 1), (1, 1)])).any
        fun s : ShardPlane (VecSlab Order) =>
          (s.phase 0).waiting = [] ∧ (s.phase 1).waiting = []) = true := by decide +kernel
  obtain ⟨s, hfold, htest⟩ := (Option.any_eq_true _ _).1 hcomputed
  obtain ⟨hdone₀, hdone₁⟩ := of_decide_eq_true htest
  have hrun := ShardPlane.run_of_foldlM hfold
  obtain ⟨⟨ss, hss, hsame⟩, -, hgets⟩ := plane_linearizes hrun
  exact ⟨s, hrun, hgets, ss, hss, hsame 0 hdone₀, hsame 1 hdone₁⟩

end Exchange
