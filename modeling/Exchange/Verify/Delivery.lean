import Exchange.Lib.TicketQueue
import Exchange.Engine.Submit

/-!
# Delivery of submitted commands

The engine is a ticket queue: a submit draws its ticket from the sequencer and offers
its command to the ring of its shard. Hence no interleaving loses, duplicates or
misroutes a command. Only the numbers come round, after `2 ^ 64` of them.
-/

namespace Exchange

open Transition TicketQueue

variable {C : Type} [DecidableEq C] {numShards capacity : Nat} {s s' : Engine C} {a : Action C}
  {as : List (Action C)}

/-! ## The engine as a ticket queue -/

/-- The number of the submit that `count` others came before. -/
def seqOf (count : Nat) : Seq := UInt64.ofNat (count + 1)

theorem toNat_seqOf {count : Nat} (h : count + 1 < 2 ^ 64) : (seqOf count).toNat = count + 1 :=
  UInt64.toNat_ofNat_of_lt' h

def Submitting.item (x : Submitting) : Item Command := ⟨x.count, x.cmd⟩

def Enqueued.item (e : Enqueued) : Item Command := ⟨e.count, e.sequenced.cmd⟩

def SubmitResult.isOk : SubmitResult → Bool
  | .ok _ => true
  | .err _ => false

def Submitted.offer (v : Submitted C) : Offer C Command := ⟨v.client, ⟨v.count, v.cmd⟩, v.result.isOk⟩

/-- The shard a command is routed to. -/
def route (numShards : Nat) (cmd : Command) : Nat := shardFor cmd.symbol numShards

/-- The engine without its numbers. -/
def Engine.tickets (s : Engine C) : TicketQueue.State C Nat Command where
  next := s.count
  held := fun c => (s.submitting c).map Submitting.item
  waiting := fun i => (s.rings i).map Enqueued.item
  taken := fun i => (s.popped i).map Enqueued.item
  offers := s.returned.map Submitted.offer

/-- Every number is the one of its submit, and what is pushed is what was submitted. -/
structure Stamped (s : Engine C) : Prop where
  next : s.next = seqOf s.count
  submitting : ∀ c x, s.submitting c = some x →
    x.sequenced.cmd = x.cmd ∧ x.sequenced.seq = seqOf x.count
  rings : ∀ i, ∀ e ∈ s.rings i, e.sequenced.seq = seqOf e.count
  popped : ∀ i, ∀ e ∈ s.popped i, e.sequenced.seq = seqOf e.count
  returned : ∀ v ∈ s.returned, v.result = .ok (seqOf v.count) ∨ v.result = .err v.cmd

/-- The ticket queue's view of an action. -/
def Action.op : Action C → Option (Op C Nat Command)
  | .stamp c cmd _ => some (.draw c cmd)
  | .push c accepted => some (.offer c accepted)
  | .pop shard => some (.take shard)
  | .shutdown => none

omit [DecidableEq C] in
theorem Stamped.start : Stamped (Engine.start C) where
  next := rfl
  submitting := fun c x h => by cases h
  rings := fun i e h => by cases h
  popped := fun i e h => by cases h
  returned := fun v h => by cases h

theorem submitting_of_update {c c' : C} {x : Option Submitting} {y : Submitting}
    (h : Function.update s.submitting c x c' = some y) :
    c' = c ∧ x = some y ∨ c' ≠ c ∧ s.submitting c' = some y := by
  by_cases hc : c' = c
  · subst hc
    rw [Function.update_self] at h
    exact .inl ⟨rfl, h⟩
  · rw [Function.update_of_ne hc] at h
    exact .inr ⟨hc, h⟩

omit [DecidableEq C] in
theorem mem_update_ring {f : Nat → List Enqueued} {shard i : Nat} {l : List Enqueued} {e : Enqueued}
    (h : e ∈ Function.update f shard l i) : e ∈ l ∨ e ∈ f i := by
  by_cases hi : i = shard
  · subst hi
    rw [Function.update_self] at h
    exact .inl h
  · rw [Function.update_of_ne hi] at h
    exact .inr h

theorem seqOf_succ (count : Nat) : seqOf count + 1 = seqOf (count + 1) := by
  unfold seqOf
  rw [← UInt64.ofNat_one, ← UInt64.ofNat_add]

theorem Stamped.step (h : Stamped s) (hstep : EngineStep numShards capacity s a s') :
    Stamped s' := by
  cases hstep with
  | stamp hopen hidle =>
    refine ⟨?_, fun c' x hx => ?_, h.rings, h.popped, h.returned⟩
    · exact (congrArg (· + 1) h.next).trans (seqOf_succ _)
    · rcases submitting_of_update hx with ⟨-, hx⟩ | ⟨-, hx⟩
      · cases hx
        exact ⟨rfl, h.next⟩
      · exact h.submitting c' x hx
  | @accept c x hc hroom =>
    refine ⟨h.next, fun c' x' hx' => ?_, fun i e he => ?_, h.popped, fun v hv => ?_⟩
    · rcases submitting_of_update hx' with ⟨-, hx'⟩ | ⟨-, hx'⟩
      · cases hx'
      · exact h.submitting c' x' hx'
    · rcases mem_update_ring he with he | he
      · rcases List.mem_append.1 he with he | he
        · exact h.rings _ e he
        · obtain rfl := List.mem_singleton.1 he
          exact (h.submitting c x hc).2
      · exact h.rings i e he
    · rcases List.mem_append.1 hv with hv | hv
      · exact h.returned v hv
      · obtain rfl := List.mem_singleton.1 hv
        exact .inl (congrArg SubmitResult.ok (h.submitting c x hc).2)
  | @reject c x hc hfull =>
    refine ⟨h.next, fun c' x' hx' => ?_, h.rings, h.popped, fun v hv => ?_⟩
    · rcases submitting_of_update hx' with ⟨-, hx'⟩ | ⟨-, hx'⟩
      · cases hx'
      · exact h.submitting c' x' hx'
    · rcases List.mem_append.1 hv with hv | hv
      · exact h.returned v hv
      · obtain rfl := List.mem_singleton.1 hv
        exact .inr rfl
  | @pop shard e rest hring =>
    have he := h.rings shard e (hring ▸ List.mem_cons_self)
    refine ⟨h.next, h.submitting, fun i e' he' => ?_, fun i e' he' => ?_, h.returned⟩
    · rcases mem_update_ring he' with he' | he'
      · exact h.rings shard e' (hring ▸ List.mem_cons_of_mem _ he')
      · exact h.rings i e' he'
    · rcases mem_update_ring he' with he' | he'
      · rcases List.mem_append.1 he' with he' | he'
        · exact h.popped shard e' he'
        · obtain rfl := List.mem_singleton.1 he'
          exact he
      · exact h.popped i e' he'
  | shutdown hopen hidle => exact ⟨h.next, h.submitting, h.rings, h.popped, h.returned⟩

theorem map_update {α β γ : Type} [DecidableEq α] (f : α → β) (a : α) (b : β) (g : β → γ) :
    (fun i => g (Function.update f a b i)) = Function.update (fun i => g (f i)) a (g b) := by
  funext i
  by_cases hi : i = a
  · subst hi
    simp
  · simp [Function.update_of_ne hi]

/-- **Refinement.** Every step of the engine is a step of the ticket queue; a shutdown
is none. -/
theorem EngineStep.tickets (h : Stamped s) (hstep : EngineStep numShards capacity s a s') :
    match a.op with
    | some op => TicketQueue.Step (route numShards) s.tickets op s'.tickets
    | none => s'.tickets = s.tickets := by
  cases hstep with
  | @stamp c cmd ts hopen hidle =>
    have hstep : TicketQueue.Step (route numShards) s.tickets (.draw c cmd) _ :=
      .draw (by simp [Engine.tickets, hidle])
    simpa [Engine.tickets, Action.op, map_update, Submitting.item] using hstep
  | @accept c x hc hroom =>
    have hstep : TicketQueue.Step (route numShards) s.tickets (.offer c true) _ :=
      .accept (x := x.item) (by simp [Engine.tickets, hc])
    have hcmd := (h.submitting c x hc).1
    simpa [Engine.tickets, Action.op, map_update, Submitting.item, Enqueued.item, Submitted.offer,
      SubmitResult.isOk, route, hcmd] using hstep
  | @reject c x hc hfull =>
    have hstep : TicketQueue.Step (route numShards) s.tickets (.offer c false) _ :=
      .reject (x := x.item) (by simp [Engine.tickets, hc])
    simpa [Engine.tickets, Action.op, map_update, Submitting.item, Submitted.offer,
      SubmitResult.isOk] using hstep
  | @pop shard e rest hring =>
    have hwaiting : s.tickets.waiting shard = e.item :: rest.map Enqueued.item := by
      simp [Engine.tickets, hring]
    have hstep : TicketQueue.Step (route numShards) s.tickets (.take shard) _ := .take hwaiting
    simpa [Engine.tickets, Action.op, map_update] using hstep
  | shutdown hopen hidle => rfl

/-- What holds of every engine run. -/
structure Delivers (numShards : Nat) (s : Engine C) : Prop where
  stamped : Stamped s
  sound : Sound (route numShards) s.tickets

theorem Delivers.step (h : Delivers numShards s)
    (hstep : EngineStep numShards capacity s a s') : Delivers numShards s' := by
  refine ⟨h.stamped.step hstep, ?_⟩
  have htickets := hstep.tickets h.stamped
  cases hop : a.op with
  | none =>
    rw [hop] at htickets
    dsimp only at htickets
    rw [htickets]
    exact h.sound
  | some op =>
    rw [hop] at htickets
    exact h.sound.step htickets

omit [DecidableEq C] in
theorem Delivers.start : Delivers numShards (Engine.start C) := ⟨.start, .start⟩

theorem run_delivers (h : EngineRun numShards capacity as s) : Delivers numShards s :=
  Run.invariant (I := fun _ s => Delivers numShards s) .start
    (fun _ _ _ _ _ ih hstep => ih.step hstep) h

omit [DecidableEq C] in
/-- What a shard has popped was submitted to it. -/
theorem Delivers.count_lt (h : Delivers numShards s) {shard : Nat} {e : Enqueued}
    (he : e ∈ s.popped shard) : e.count < s.count := by
  have hitem : e.item ∈ s.tickets.taken shard := List.mem_map_of_mem he
  have hmem : e.item ∈ acceptedBy (route numShards) s.tickets.offers shard := by
    rw [← h.sound.conserved]
    exact List.mem_append_left _ hitem
  obtain ⟨v, hv, hve⟩ := List.mem_map.1 hmem
  have hlt := h.sound.tickets.offered_lt v (List.mem_of_mem_filter hv)
  rwa [hve] at hlt

/-! ## Computed runs -/

/-- A computed run is a run. -/
theorem run_run? (h : s.run? numShards capacity as = some s') :
    Run (EngineStep numShards capacity) s as s' := by
  induction as generalizing s with
  | nil =>
    cases h
    exact .nil
  | cons a as ih =>
    obtain ⟨s₁, h₁, h⟩ := Option.bind_eq_some_iff.1 h
    have hfirst : Run (EngineStep numShards capacity) s ([] ++ [a]) s₁ :=
      Run.nil.snoc (Engine.step?_sound numShards capacity h₁)
    exact hfirst.append (ih h)

/-- An order for symbol 0. -/
def orderFor (id : OrderId) : Command := .new ⟨id, 0, .buy, .limit, .gtc, 100, 0, 5⟩

/-! ## Finished runs -/

/-- Every command whose submit succeeded has been popped once, with its number, by
its shard; every other was handed back; and commands of one client for one symbol
kept their order. Submits are told apart by their counts. -/
structure DeliveredOnce (numShards : Nat) (s : Engine C) : Prop where
  counts : (s.returned.map (·.count)).Nodup
  ok : ∀ v ∈ s.returned, ∀ seq, v.result = .ok seq →
    (∃ e ∈ s.popped (shardFor v.cmd.symbol numShards),
      e.count = v.count ∧ e.sequenced.seq = seq ∧ e.sequenced.cmd = v.cmd) ∧
    ∀ shard, ((s.popped shard).map (·.count)).count v.count =
      if shard = shardFor v.cmd.symbol numShards then 1 else 0
  err : ∀ v ∈ s.returned, ∀ cmd, v.result = .err cmd →
    cmd = v.cmd ∧ ∀ shard, ∀ e ∈ s.popped shard, e.count ≠ v.count
  submitted : ∀ shard, ∀ e ∈ s.popped shard, ∃ v ∈ s.returned,
    v.count = e.count ∧ v.result = .ok e.sequenced.seq
  order : ∀ v w, [v, w].Sublist s.returned → v.client = w.client → v.cmd.symbol = w.cmd.symbol →
    v.result.isOk = true → w.result.isOk = true →
    [v.count, w.count].Sublist ((s.popped (shardFor v.cmd.symbol numShards)).map (·.count))

/-- The numbers of the popped commands are pairwise distinct. -/
structure DistinctSeqs (s : Engine C) : Prop where
  nodup : ∀ shard, ((s.popped shard).map (·.sequenced.seq)).Nodup
  disjoint : ∀ shard shard', shard ≠ shard' →
    ((s.popped shard).map (·.sequenced.seq)).Disjoint ((s.popped shard').map (·.sequenced.seq))

/-- The submits that a shard's ring accepted. -/
def Engine.acceptedBy (numShards : Nat) (s : Engine C) (shard : Nat) : List (Submitted C) :=
  s.returned.filter fun v => v.result.isOk && shardFor v.cmd.symbol numShards = shard

omit [DecidableEq C] in
/-- Once the rings are empty, a shard has popped what its ring accepted. -/
theorem Delivers.popped_eq (h : Delivers numShards s) (hend : s.Finished) (shard : Nat) :
    (s.popped shard).map Enqueued.item =
      (s.acceptedBy numShards shard).map fun v => ⟨v.count, v.cmd⟩ := by
  have hconserved := h.sound.conserved shard
  have hring : s.tickets.waiting shard = [] := by simp [Engine.tickets, hend.2 shard]
  rw [hring, List.append_nil] at hconserved
  refine hconserved.trans ?_
  unfold TicketQueue.acceptedBy Engine.tickets
  rw [List.filter_map, List.map_map]
  rfl

omit [DecidableEq C] in
theorem Delivers.popped_counts (h : Delivers numShards s) (hend : s.Finished) (shard : Nat) :
    (s.popped shard).map (·.count) = (s.acceptedBy numShards shard).map (·.count) := by
  have heq := congrArg (List.map Item.ticket) (h.popped_eq hend shard)
  rwa [List.map_map, List.map_map] at heq

omit [DecidableEq C] in
theorem Delivers.nodup (h : Delivers numShards s) : (s.returned.map (·.count)).Nodup := by
  have hnodup := h.sound.tickets.nodup
  simpa [Engine.tickets, Submitted.offer, Function.comp_def] using hnodup

omit [DecidableEq C] in
/-- The submit behind a popped command. -/
theorem Delivers.submit_of_popped (h : Delivers numShards s) (hend : s.Finished) {shard : Nat}
    {e : Enqueued} (he : e ∈ s.popped shard) :
    ∃ v ∈ s.acceptedBy numShards shard, v.count = e.count := by
  have hmem : e.count ∈ (s.popped shard).map (·.count) := List.mem_map_of_mem he
  rw [h.popped_counts hend] at hmem
  exact List.mem_map.1 hmem

omit [DecidableEq C] in
theorem mem_acceptedBy {v : Submitted C} {shard : Nat} :
    v ∈ s.acceptedBy numShards shard ↔
      v ∈ s.returned ∧ v.result.isOk = true ∧ shardFor v.cmd.symbol numShards = shard := by
  simp [Engine.acceptedBy]

omit [DecidableEq C] in
theorem Delivers.deliveredOnce (h : Delivers numShards s) (hend : s.Finished) :
    DeliveredOnce numShards s := by
  refine ⟨h.nodup, fun v hv seq hok => ⟨?_, fun shard => ?_⟩, fun v hv cmd herr => ⟨?_, ?_⟩,
    fun shard e he => ?_, fun v w hvw hclient hsymbol hv hw => ?_⟩
  · have hitem : (⟨v.count, v.cmd⟩ : Item Command) ∈
        (s.popped (shardFor v.cmd.symbol numShards)).map Enqueued.item := by
      rw [h.popped_eq hend]
      exact List.mem_map_of_mem (mem_acceptedBy.2 ⟨hv, by rw [hok]; rfl, rfl⟩)
    obtain ⟨e, he, heq⟩ := List.mem_map.1 hitem
    obtain ⟨hcount, hcmd⟩ := Item.mk.inj heq
    refine ⟨e, he, hcount, ?_, hcmd⟩
    rcases h.stamped.returned v hv with hres | hres
    · rw [hok] at hres
      cases hres
      rw [h.stamped.popped _ e he, hcount]
    · rw [hok] at hres
      cases hres
  · rw [h.popped_counts hend]
    have hnodup : ((s.acceptedBy numShards shard).map (·.count)).Nodup :=
      h.nodup.sublist (List.Sublist.map _ List.filter_sublist)
    rw [hnodup.count]
    refine if_congr ?_ rfl rfl
    constructor
    · intro hmem
      obtain ⟨w, hw, heq⟩ := List.mem_map.1 hmem
      obtain ⟨hw, -, hshard⟩ := mem_acceptedBy.1 hw
      rw [← hshard, List.inj_on_of_nodup_map h.nodup hw hv heq]
    · intro hshard
      exact List.mem_map_of_mem (mem_acceptedBy.2 ⟨hv, by rw [hok]; rfl, hshard.symm⟩)
  · rcases h.stamped.returned v hv with hres | hres
    · rw [herr] at hres
      cases hres
    · rw [herr] at hres
      cases hres
      rfl
  · intro shard e he heq
    obtain ⟨w, hw, hcount⟩ := h.submit_of_popped hend he
    obtain ⟨hw, hok, -⟩ := mem_acceptedBy.1 hw
    rw [List.inj_on_of_nodup_map h.nodup hw hv (hcount.trans heq), herr] at hok
    cases hok
  · obtain ⟨v, hv, hcount⟩ := h.submit_of_popped hend he
    obtain ⟨hv, hok, -⟩ := mem_acceptedBy.1 hv
    refine ⟨v, hv, hcount, ?_⟩
    rcases h.stamped.returned v hv with hres | hres
    · rw [hres, h.stamped.popped shard e he, hcount]
    · rw [hres] at hok
      cases hok
  · rw [h.popped_counts hend]
    have hsub := (hvw.filter fun u => u.result.isOk &&
      shardFor u.cmd.symbol numShards = shardFor v.cmd.symbol numShards).map (·.count)
    have hkept : [v, w].filter (fun u => u.result.isOk &&
        shardFor u.cmd.symbol numShards = shardFor v.cmd.symbol numShards) = [v, w] := by
      simp [hv, hw, hsymbol]
    rw [hkept] at hsub
    exact hsub

theorem seqOf_inj {n m : Nat} (hn : n < 2 ^ 64) (hm : m < 2 ^ 64) (h : seqOf n = seqOf m) :
    n = m := by
  have h := congrArg UInt64.toNat h
  unfold seqOf at h
  rw [UInt64.toNat_ofNat', UInt64.toNat_ofNat'] at h
  omega

omit [DecidableEq C] in
theorem Delivers.distinctSeqs (h : Delivers numShards s) (hend : s.Finished)
    (hcount : s.count ≤ 2 ^ 64) : DistinctSeqs s := by
  have hinj : ∀ shard shard' e e', e ∈ s.popped shard → e' ∈ s.popped shard' →
      e.sequenced.seq = e'.sequenced.seq → e.count = e'.count := by
    intro shard shard' e e' he he' heq
    rw [h.stamped.popped shard e he, h.stamped.popped shard' e' he'] at heq
    have hlt := h.count_lt he
    have hlt' := h.count_lt he'
    exact seqOf_inj (by omega) (by omega) heq
  refine ⟨fun shard => ?_, fun shard shard' hne seq hseq hseq' => ?_⟩
  · have hnodup : ((s.popped shard).map (·.count)).Nodup := by
      rw [h.popped_counts hend]
      exact h.nodup.sublist (List.Sublist.map _ List.filter_sublist)
    refine List.Nodup.map_on (fun e he e' he' heq => ?_) hnodup.of_map
    exact List.inj_on_of_nodup_map hnodup he he' (hinj shard shard e e' he he' heq)
  · obtain ⟨e, he, rfl⟩ := List.mem_map.1 hseq
    obtain ⟨e', he', heq⟩ := List.mem_map.1 hseq'
    obtain ⟨v, hv, hve⟩ := h.submit_of_popped hend he
    obtain ⟨w, hw, hwe⟩ := h.submit_of_popped hend he'
    obtain ⟨hv, -, hshard⟩ := mem_acceptedBy.1 hv
    obtain ⟨hw, -, hshard'⟩ := mem_acceptedBy.1 hw
    have hvw : v.count = w.count := by
      rw [hve, hwe]
      exact (hinj shard' shard e' e he' he heq).symm
    rw [List.inj_on_of_nodup_map h.nodup hv hw hvw] at hshard
    exact hne (hshard.symm.trans hshard')

/-- **Delivery.** When an engine has shut down, every command has been delivered once
or handed back, whatever the interleaving; and the numbers are distinct unless more
than `2 ^ 64` were taken. -/
theorem finished_delivered (h : EngineRun numShards capacity as s) (hend : s.Finished) :
    DeliveredOnce numShards s ∧ (s.count ≤ 2 ^ 64 → DistinctSeqs s) :=
  ⟨(run_delivers h).deliveredOnce hend, (run_delivers h).distinctSeqs hend⟩

/-- Two clients submit to a ring of capacity one: the first push fills it. -/
def backPressure : List (Action Bool) :=
  [.stamp false (orderFor 1) 0, .stamp true (orderFor 2) 0, .push true true, .push false false,
    .pop 0]

theorem finished_delivered_sample : ∃ s : Engine Bool,
    EngineRun 1 1 (backPressure ++ [.shutdown]) s ∧
      s.returned.map (fun v => (v.client, v.result.isOk)) = [(true, true), (false, false)] ∧
      (s.popped 0).map (·.sequenced.seq) = [2] ∧ DeliveredOnce 1 s ∧ DistinctSeqs s := by
  have hok : ∃ s, (Engine.start Bool).run? 1 1 backPressure = some s ∧ s.closed = false ∧
      (∀ c, s.submitting c = none) ∧ (∀ shard, s.rings shard = []) ∧ s.count = 2 ∧
      s.returned.map (fun v => (v.client, v.result.isOk)) = [(true, true), (false, false)] ∧
      (s.popped 0).map (·.sequenced.seq) = [2] :=
    ⟨_, rfl, rfl, fun c => by cases c <;> rfl, fun shard => by cases shard <;> rfl, rfl, rfl, rfl⟩
  obtain ⟨s, hrun, hopen, hidle, hrings, hcount, hreturned, hpopped⟩ := hok
  have hclosed : EngineRun 1 1 (backPressure ++ [.shutdown]) { s with closed := true } :=
    (run_run? hrun).snoc (.shutdown hopen hidle)
  obtain ⟨honce, hdistinct⟩ := finished_delivered hclosed ⟨rfl, hrings⟩
  refine ⟨_, hclosed, hreturned, hpopped, honce, hdistinct ?_⟩
  change s.count ≤ 2 ^ 64
  omega

/-! ## The numbers come round -/

/-- A client that submits `n` times, its commands popped one by one. -/
theorem run_rounds (n : Nat) : ∃ (as : List (Action Unit)) (s : Engine Unit),
    EngineRun 1 1 as s ∧ s.closed = false ∧ s.submitting () = none ∧
      (∀ shard, s.rings shard = []) ∧ (s.count = n ∧ (s.popped 0).map (·.count) = List.range n) := by
  induction n with
  | zero => exact ⟨[], _, .nil, rfl, rfl, fun _ => rfl, rfl, rfl⟩
  | succ n ih =>
    obtain ⟨as, s, hrun, hopen, hidle, hrings, hcount, hpopped⟩ := ih
    let x : Submitting := ⟨s.count, orderFor 1, ⟨s.next, 0, orderFor 1⟩⟩
    have hsubmitting : Function.update s.submitting () (some x) () = some x :=
      Function.update_self _ _ _
    have hrun₁ := hrun.snoc (l := .stamp () (orderFor 1) 0) (.stamp hopen hidle)
    have hrun₂ := hrun₁.snoc (l := .push () true)
      (.accept hsubmitting (by simp [hrings]))
    have hring : Function.update s.rings 0 (s.rings 0 ++ [⟨s.count, x.sequenced⟩]) 0 =
        [⟨s.count, x.sequenced⟩] := by simp [hrings]
    have hrun₃ := hrun₂.snoc (l := .pop 0) (.pop hring)
    refine ⟨_, _, hrun₃, hopen, rfl, fun shard => ?_, ?_, ?_⟩
    · change Function.update (Function.update s.rings 0 _) 0 [] shard = []
      rw [Function.update_idem]
      by_cases hshard : shard = 0
      · rw [hshard, Function.update_self]
      · rw [Function.update_of_ne hshard, hrings]
    · exact congrArg (· + 1) hcount
    · change (Function.update s.popped 0 (s.popped 0 ++ [⟨s.count, x.sequenced⟩]) 0).map _ = _
      rw [Function.update_self, List.map_append, hpopped, List.range_succ, hcount]
      rfl

/-- The number taken after `2 ^ 64` others is the first one again. -/
theorem seqs_come_round : ∃ (as : List (Action Unit)) (s : Engine Unit),
    EngineRun 1 1 as s ∧ s.Finished ∧ s.count = 2 ^ 64 + 1 ∧ ¬DistinctSeqs s := by
  obtain ⟨as, s, hrun, hopen, hidle, hrings, hcount, hpopped⟩ := run_rounds (2 ^ 64 + 1)
  have hclosed : EngineRun 1 1 (as ++ [.shutdown]) { s with closed := true } :=
    hrun.snoc (.shutdown hopen fun _ => hidle)
  refine ⟨_, _, hclosed, ⟨rfl, hrings⟩, hcount, fun hdistinct => ?_⟩
  have hseqs : (s.popped 0).map (·.sequenced.seq) = (List.range (2 ^ 64 + 1)).map seqOf := by
    rw [← hpopped, List.map_map]
    exact List.map_congr_left fun e he => (run_delivers hrun).stamped.popped 0 e he
  have hnodup : ((List.range (2 ^ 64 + 1)).map seqOf).Nodup := hseqs ▸ hdistinct.nodup 0
  have hround : seqOf 0 = seqOf (2 ^ 64) := by decide
  have heq := List.inj_on_of_nodup_map hnodup (List.mem_range.2 (by omega))
    (List.mem_range.2 (by omega)) hround
  omega

end Exchange
