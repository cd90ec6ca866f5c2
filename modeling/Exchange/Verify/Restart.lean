import Exchange.Verify.Recovery
import Exchange.Verify.SequenceOrder

/-!
# Numbers across restarts

Every session of the engine numbers its submits from 1 again, while the log of a shard
goes on. The numbers in the log increase just when every session logs its first command
for the shard behind more submits than the sessions before it.
-/

namespace Exchange

open Transition

/-- A session of the engine: submits of one thread, up to the shutdown. -/
structure EngineSession where
  numShards : Nat
  capacity : Nat
  fsync : FsyncPolicy
  actions : List (Action Unit)
  final : Engine Unit
  run : EngineRun numShards capacity actions final
  finished : final.Finished

namespace EngineSession

/-- The session of a run that ends with its rings empty and is then shut down. -/
def shutdown (fsync : FsyncPolicy) {numShards capacity : Nat} {actions : List (Action Unit)}
    {s : Engine Unit} (hrun : EngineRun numShards capacity actions s) (hopen : s.closed = false)
    (hidle : s.submitting () = none) (hrings : ∀ shard, s.rings shard = []) : EngineSession where
  numShards := numShards
  capacity := capacity
  fsync := fsync
  actions := actions ++ [.shutdown]
  final := { s with closed := true }
  run := hrun.snoc (.shutdown hopen fun _ => hidle)
  finished := ⟨rfl, hrings⟩

/-- What the session appends to the log of a shard. -/
def log (json : Sequenced → Bytes) (shard : Nat) (se : EngineSession) :
    FsyncPolicy × List WalRecord :=
  (se.fsync, (se.final.popped shard).map fun e => logRecord json e.sequenced)

/-- The submits of one thread are in turn. -/
theorem inOrder {se : EngineSession} (hcount : se.final.count < 2 ^ 64) :
    InOrder se.numShards se.final := by
  refine Run.invariant (I := fun _ s => s.count < 2 ^ 64 → InOrder se.numShards s) ?_ ?_ se.run
    hcount
  · intro _
    exact .start
  · intro _ s a s' _ ih hstep hcount
    have hle : s.count ≤ s'.count := by
      cases hstep with
      | stamp => exact Nat.le_succ _
      | _ => exact Nat.le_refl _
    refine InOrder.step (ih (by omega)) ?_ hstep
    cases a with
    | stamp c cmd ts =>
      cases hstep
      exact hcount
    | push c accepted =>
      cases accepted with
      | true => exact inTurn_alone fun c' hc => absurd rfl hc
      | false => trivial
    | _ => trivial

theorem toNat_seq {se : EngineSession} (hcount : se.final.count < 2 ^ 64) {shard : Nat}
    {e : Enqueued} (he : e ∈ se.final.popped shard) : e.sequenced.seq.toNat = e.count + 1 := by
  have hin := se.inOrder hcount
  have hlt := hin.delivers.count_lt he
  rw [hin.delivers.stamped.popped shard e he, toNat_seqOf (by omega)]

end EngineSession

/-- The numbers that replay delivers increase, and replay behind any of them delivers what
was logged after it. -/
def SeqsIncrease (crc : Bytes → UInt32) (dir : Dir) : Prop :=
  ∃ last recs, replay crc 0 collect dir [] = .ok (last, recs) ∧
    recs.Pairwise (fun r r' => r.seq < r'.seq) ∧
    ∀ before rec behind, recs = before ++ rec :: behind →
      ∃ last', replay crc rec.seq collect dir [] = .ok (last', behind)

/-- In a log whose numbers increase, what is above a record is what is behind it. -/
theorem above_of_pairwise {before behind : List WalRecord} {rec : WalRecord}
    (h : (before ++ rec :: behind).Pairwise fun r r' => r.seq < r'.seq) :
    above rec.seq (before ++ rec :: behind) = behind := by
  obtain ⟨-, hcons, hcross⟩ := List.pairwise_append.1 h
  have hbefore : above rec.seq before = [] := by
    refine List.filter_eq_nil_iff.2 fun r hr => ?_
    have hlt := hcross r hr rec List.mem_cons_self
    simpa using UInt64.le_of_lt hlt
  have hself : above rec.seq (rec :: behind) = behind := by
    unfold above
    rw [List.filter_cons_of_neg (by simp)]
    refine List.filter_eq_self.2 fun r hr => ?_
    exact decide_eq_true ((List.pairwise_cons.1 hcons).1 r hr)
  rw [above_append, hbefore, hself, List.nil_append]

section Restart

variable {crc : Bytes → UInt32} {json : Sequenced → Bytes} {shard : Nat}
  {sessions : List EngineSession}

/-- The log of a shard over the sessions, in terms of the submits before each command. -/
theorem pairwise_log (json : Sequenced → Bytes)
    (hsubmits : ∀ se ∈ sessions, se.final.count < 2 ^ 64) :
    ((sessions.map (EngineSession.log json shard)).flatMap Prod.snd).Pairwise
        (fun r r' => r.seq < r'.seq) ↔
      sessions.Pairwise fun a b => ∀ e ∈ a.final.popped shard, ∀ e' ∈ b.final.popped shard,
        e.count < e'.count := by
  rw [List.flatMap_map, List.pairwise_flatMap]
  have hwithin : ∀ se ∈ sessions, ((EngineSession.log json shard se).2).Pairwise
      (fun r r' => r.seq < r'.seq) := by
    intro se hse
    exact List.pairwise_map.2 ((se.inOrder (hsubmits se hse)).popped shard)
  have hcross : ∀ a ∈ sessions, ∀ b ∈ sessions,
      (∀ r ∈ (EngineSession.log json shard a).2, ∀ r' ∈ (EngineSession.log json shard b).2,
        r.seq < r'.seq) ↔
      ∀ e ∈ a.final.popped shard, ∀ e' ∈ b.final.popped shard, e.count < e'.count := by
    intro a ha b hb
    have hseq : ∀ e ∈ a.final.popped shard, ∀ e' ∈ b.final.popped shard,
        (e.sequenced.seq < e'.sequenced.seq ↔ e.count < e'.count) := by
      intro e he e' he'
      rw [UInt64.lt_iff_toNat_lt, a.toNat_seq (hsubmits a ha) he, b.toNat_seq (hsubmits b hb) he']
      omega
    constructor
    · intro h e he e' he'
      exact (hseq e he e' he').1 (h _ (List.mem_map_of_mem he) _ (List.mem_map_of_mem he'))
    · intro h r hr r' hr'
      obtain ⟨e, he, rfl⟩ := List.mem_map.1 hr
      obtain ⟨e', he', rfl⟩ := List.mem_map.1 hr'
      exact (hseq e he e' he').2 (h e he e' he')
  constructor
  · rintro ⟨-, h⟩
    exact h.imp_of_mem fun {a b} ha hb => (hcross a ha b hb).1
  · intro h
    exact ⟨hwithin, h.imp_of_mem fun {a b} ha hb => (hcross a ha b hb).2⟩

/-- **Restarts.** While no session numbers as many as `2 ^ 64` submits, the numbers in the log of
a shard increase exactly when each command it logs comes behind more submits of its
session than any command that earlier sessions logged. -/
theorem seqs_increase_iff (hjson : ∀ cmd, (json cmd).length < 2 ^ 32 - 17)
    (hsubmits : ∀ se ∈ sessions, se.final.count < 2 ^ 64) {dir₀ dir : Dir}
    (hdir₀ : listSegments dir₀ = [])
    (hrun : runClosed crc (sessions.map (EngineSession.log json shard)) dir₀ = some dir)
    (hcount : (listSegments dir).length < 10 ^ 10) :
    SeqsIncrease crc dir ↔
      sessions.Pairwise fun a b => ∀ e ∈ a.final.popped shard, ∀ e' ∈ b.final.popped shard,
        e.count < e'.count := by
  have hfits : ∀ se ∈ sessions.map (EngineSession.log json shard), ∀ rec ∈ se.2, rec.Fits := by
    intro se hse rec hrec
    obtain ⟨se', -, rfl⟩ := List.mem_map.1 hse
    obtain ⟨e, -, rfl⟩ := List.mem_map.1 hrec
    exact hjson e.sequenced
  have hreplay : ∀ after, ∃ last, replay crc after collect dir [] = .ok (last,
      above after ((sessions.map (EngineSession.log json shard)).flatMap Prod.snd)) := by
    intro after
    refine ⟨lastSeq after (above after
      ((sessions.map (EngineSession.log json shard)).flatMap Prod.snd)), ?_⟩
    rw [replay_closed hfits hdir₀ hrun hcount, foldlM_collect]
    rfl
  have hpos : above 0 ((sessions.map (EngineSession.log json shard)).flatMap Prod.snd) =
      (sessions.map (EngineSession.log json shard)).flatMap Prod.snd := by
    refine List.filter_eq_self.2 fun rec hrec => ?_
    obtain ⟨log, hlog, hrec⟩ := List.mem_flatMap.1 hrec
    obtain ⟨se, hse, rfl⟩ := List.mem_map.1 hlog
    obtain ⟨e, he, rfl⟩ := List.mem_map.1 hrec
    have hseq := se.toNat_seq (hsubmits se hse) he
    refine decide_eq_true (UInt64.lt_iff_toNat_lt.2 ?_)
    change 0 < e.sequenced.seq.toNat
    omega
  rw [← pairwise_log json hsubmits]
  generalize (sessions.map (EngineSession.log json shard)).flatMap Prod.snd = recs at *
  obtain ⟨last, hall⟩ := hreplay 0
  rw [hpos] at hall
  constructor
  · rintro ⟨last', recs', hok, hpair, -⟩
    rw [hall] at hok
    cases hok
    exact hpair
  · intro hpair
    refine ⟨last, recs, hall, hpair, ?_⟩
    rintro before rec behind rfl
    obtain ⟨last', hbehind⟩ := hreplay rec.seq
    rw [above_of_pairwise hpair] at hbehind
    exact ⟨last', hbehind⟩

/-! ### Two cancels, each the only record of its session -/

def firstCancel : Sequenced := ⟨1, 100, .cancel 7 1⟩

def secondCancel : Sequenced := ⟨2, 200, .cancel 8 1⟩

/-- The JSON of the two commands. -/
def cancelJson (cmd : Sequenced) : Bytes :=
  if cmd = firstCancel then
    ("\x7b\"seq\":1,\"ts\":100,\"cmd\":\x7b\"Cancel\":\x7b\"id\":7," ++
      "\"symbol\":1\x7d\x7d\x7d").toUTF8.data.toList
  else if cmd = secondCancel then
    ("\x7b\"seq\":2,\"ts\":200,\"cmd\":\x7b\"Cancel\":\x7b\"id\":8," ++
      "\"symbol\":1\x7d\x7d\x7d").toUTF8.data.toList
  else []

theorem length_cancelJson (cmd : Sequenced) : (cancelJson cmd).length < 2 ^ 32 - 17 := by
  unfold cancelJson
  split
  · decide +kernel
  · split <;> decide +kernel

/-- One submit, for shard 1. -/
theorem first_run : ∃ s, (Engine.start Unit).run? 2 8
      [.stamp () (.cancel 7 1) 100, .push () true, .pop 1] = some s ∧ s.closed = false ∧
      s.submitting () = none ∧ (∀ shard, s.rings shard = []) ∧ s.count = 1 ∧
      s.popped 1 = [⟨0, firstCancel⟩] := by
  refine ⟨_, rfl, rfl, rfl, ?_, rfl, rfl⟩
  intro shard
  dsimp only
  by_cases h : shard = 1
  · subst h
    rfl
  · simp [Function.update, h, shardFor, Command.symbol, Engine.start]

/-- Two submits, the second one for shard 1. -/
theorem second_run : ∃ s, (Engine.start Unit).run? 2 8
      [.stamp () (.cancel 9 0) 100, .push () true, .stamp () (.cancel 8 1) 200, .push () true,
        .pop 0, .pop 1] = some s ∧ s.closed = false ∧
      s.submitting () = none ∧ (∀ shard, s.rings shard = []) ∧ s.count = 2 ∧
      s.popped 1 = [⟨1, secondCancel⟩] := by
  refine ⟨_, rfl, rfl, rfl, ?_, rfl, rfl⟩
  intro shard
  dsimp only
  by_cases h : shard = 1
  · subst h
    rfl
  · by_cases h0 : shard = 0
    · subst h0
      rfl
    · simp [Function.update, h, h0, shardFor, Command.symbol, Engine.start]

theorem seqs_increase_sample : ∃ (sessions : List EngineSession) (dir : Dir),
    runClosed crc32 (sessions.map (EngineSession.log cancelJson 1)) ∅ = some dir ∧
      sessions.map (EngineSession.log cancelJson 1) =
        [(.off, [logRecord cancelJson firstCancel]), (.off, [logRecord cancelJson secondCancel])] ∧
      SeqsIncrease crc32 dir := by
  obtain ⟨s₁, hrun₁, hopen₁, hidle₁, hrings₁, hcount₁, hpopped₁⟩ := first_run
  obtain ⟨s₂, hrun₂, hopen₂, hidle₂, hrings₂, hcount₂, hpopped₂⟩ := second_run
  let a := EngineSession.shutdown .off (run_run? hrun₁) hopen₁ hidle₁ hrings₁
  let b := EngineSession.shutdown .off (run_run? hrun₂) hopen₂ hidle₂ hrings₂
  have ha : a.final.popped 1 = [⟨0, firstCancel⟩] := hpopped₁
  have hb : b.final.popped 1 = [⟨1, secondCancel⟩] := hpopped₂
  have hlog : [a, b].map (EngineSession.log cancelJson 1) =
      [(.off, [logRecord cancelJson firstCancel]),
        (.off, [logRecord cancelJson secondCancel])] := by
    unfold EngineSession.log
    rw [List.map_cons, List.map_cons, ha, hb]
    rfl
  have hlisted : (runClosed crc32 ([a, b].map (EngineSession.log cancelJson 1)) ∅).map
      (fun dir => (listSegments dir).length) = some 2 := by
    rw [hlog]
    decide +kernel
  obtain ⟨dir, hrun, hlen⟩ := Option.map_eq_some_iff.1 hlisted
  refine ⟨[a, b], dir, hrun, hlog, (seqs_increase_iff length_cancelJson ?_ (by decide +kernel) hrun
    (by omega)).2 ?_⟩
  · intro se hse
    rcases List.mem_cons.1 hse with rfl | hse
    · have hcount : a.final.count = 1 := hcount₁
      omega
    · obtain rfl := List.mem_singleton.1 hse
      have hcount : b.final.count = 2 := hcount₂
      omega
  · refine List.pairwise_pair.2 ?_
    intro e he e' he'
    rw [ha, List.mem_singleton] at he
    rw [hb, List.mem_singleton] at he'
    rw [he, he']
    decide

/-- The engine is started twice, and each time the first submit is number 1. -/
theorem numbers_repeat : ∃ (sessions : List EngineSession) (dir : Dir),
    runClosed crc32 (sessions.map (EngineSession.log cancelJson 1)) ∅ = some dir ∧
      sessions.map (EngineSession.log cancelJson 1) =
        [(.off, [logRecord cancelJson firstCancel]), (.off, [logRecord cancelJson firstCancel])] ∧
      ¬SeqsIncrease crc32 dir := by
  obtain ⟨s, hrun, hopen, hidle, hrings, -, hpopped⟩ := first_run
  let a := EngineSession.shutdown .off (run_run? hrun) hopen hidle hrings
  have ha : a.final.popped 1 = [⟨0, firstCancel⟩] := hpopped
  have hlog : [a, a].map (EngineSession.log cancelJson 1) =
      [(.off, [logRecord cancelJson firstCancel]),
        (.off, [logRecord cancelJson firstCancel])] := by
    unfold EngineSession.log
    rw [List.map_cons, List.map_cons, ha]
    rfl
  have hlisted : (runClosed crc32 ([a, a].map (EngineSession.log cancelJson 1)) ∅).map
      (fun dir => (listSegments dir).length) = some 2 := by
    rw [hlog]
    decide +kernel
  obtain ⟨dir, hrun, hlen⟩ := Option.map_eq_some_iff.1 hlisted
  refine ⟨[a, a], dir, hrun, hlog, ?_⟩
  rintro ⟨last, recs, hok, hpair, -⟩
  rw [hlog] at hrun
  rw [replay_closed (by decide +kernel) (by decide +kernel) hrun (by omega),
    foldlM_collect] at hok
  cases hok
  have hlt : (1 : Seq) < 1 := (List.pairwise_cons.1 hpair).1 _ List.mem_cons_self
  exact absurd hlt (by decide)

end Restart

end Exchange
