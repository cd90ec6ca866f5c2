import Exchange.Lib.Transition
import Exchange.Engine.Shard

/-!
# Submitting commands

`Engine::submit` and `shutdown` of the `engine` crate with the sequencer and the
rings, for any number of clients: a submit takes a number from the sequencer and, in
a step of its own, tries to push the command into the ring of its shard. A ring is
`crossbeam`'s bounded channel: a FIFO that rejects only when it is full. With
capacity zero it holds nothing: a push succeeds only when the shard is waiting, which
is modelled as a command in flight in an otherwise empty ring.

A number may come round again after `2 ^ 64` submits; so each submit also carries the
count of submits before it, which the program does not know.
-/

namespace Exchange

/-- `Result<u64, Command>`, the answer of a submit. -/
inductive SubmitResult
  | ok (seq : Seq)
  | err (cmd : Command)

/-- A submit between `Sequencer::next` and `try_push`: its argument and the command
it is about to push. -/
structure Submitting where
  count : Nat
  cmd : Command
  sequenced : Sequenced

/-- A command in a ring, with the count of its submit. -/
structure Enqueued where
  count : Nat
  sequenced : Sequenced

/-- A submit that has returned. -/
structure Submitted (C : Type) where
  client : C
  count : Nat
  cmd : Command
  result : SubmitResult

structure Engine (C : Type) where
  /-- `Sequencer::next`, the value handed out next. -/
  next : Seq
  /-- Submits so far. -/
  count : Nat
  submitting : C → Option Submitting
  rings : Nat → List Enqueued
  /-- What each shard has popped. -/
  popped : Nat → List Enqueued
  /-- The submits that have returned, in order. -/
  returned : List (Submitted C)
  /-- The senders have been dropped. -/
  closed : Bool

/-- `Engine::start`: the sequencer starts at 1. -/
def Engine.start (C : Type) : Engine C where
  next := 1
  count := 0
  submitting := fun _ => none
  rings := fun _ => []
  popped := fun _ => []
  returned := []
  closed := false

inductive Action (C : Type)
  /-- A client calls `submit` and takes a number, at time `ts`. -/
  | stamp (c : C) (cmd : Command) (ts : Ts)
  /-- Its `try_push` succeeds or fails, and `submit` returns. -/
  | push (c : C) (accepted : Bool)
  /-- A shard pops a command. -/
  | pop (shard : Nat)
  | shutdown

section

variable {C : Type} [DecidableEq C] (numShards capacity : Nat)

inductive EngineStep : Engine C → Action C → Engine C → Prop
  | stamp {s : Engine C} {c : C} {cmd : Command} {ts : Ts} (hopen : s.closed = false)
      (hidle : s.submitting c = none) :
      EngineStep s (.stamp c cmd ts)
        { s with
          next := s.next + 1
          count := s.count + 1
          submitting := Function.update s.submitting c (some ⟨s.count, cmd, ⟨s.next, ts, cmd⟩⟩) }
  | accept {s : Engine C} {c : C} {x : Submitting} (hc : s.submitting c = some x)
      (hroom : (s.rings (shardFor x.cmd.symbol numShards)).length < max capacity 1) :
      EngineStep s (.push c true)
        { s with
          submitting := Function.update s.submitting c none
          rings := Function.update s.rings (shardFor x.cmd.symbol numShards)
            (s.rings (shardFor x.cmd.symbol numShards) ++ [⟨x.count, x.sequenced⟩])
          returned := s.returned ++ [⟨c, x.count, x.cmd, .ok x.sequenced.seq⟩] }
  | reject {s : Engine C} {c : C} {x : Submitting} (hc : s.submitting c = some x)
      (hfull : capacity ≤ (s.rings (shardFor x.cmd.symbol numShards)).length) :
      EngineStep s (.push c false)
        { s with
          submitting := Function.update s.submitting c none
          returned := s.returned ++ [⟨c, x.count, x.cmd, .err x.cmd⟩] }
  | pop {s : Engine C} {shard : Nat} {e : Enqueued} {rest : List Enqueued}
      (hring : s.rings shard = e :: rest) :
      EngineStep s (.pop shard)
        { s with
          rings := Function.update s.rings shard rest
          popped := Function.update s.popped shard (s.popped shard ++ [e]) }
  | shutdown {s : Engine C} (hopen : s.closed = false) (hidle : ∀ c, s.submitting c = none) :
      EngineStep s .shutdown { s with closed := true }

/-- The step an action makes, if it can be made. -/
def Engine.step? (s : Engine C) : Action C → Option (Engine C)
  | .stamp c cmd ts =>
    if s.closed = false ∧ (s.submitting c).isNone then
      some { s with
        next := s.next + 1
        count := s.count + 1
        submitting := Function.update s.submitting c (some ⟨s.count, cmd, ⟨s.next, ts, cmd⟩⟩) }
    else none
  | .push c accepted =>
    match s.submitting c with
    | none => none
    | some x =>
      let shard := shardFor x.cmd.symbol numShards
      if accepted then
        if (s.rings shard).length < max capacity 1 then
          some { s with
            submitting := Function.update s.submitting c none
            rings := Function.update s.rings shard (s.rings shard ++ [⟨x.count, x.sequenced⟩])
            returned := s.returned ++ [⟨c, x.count, x.cmd, .ok x.sequenced.seq⟩] }
        else none
      else if capacity ≤ (s.rings shard).length then
        some { s with
          submitting := Function.update s.submitting c none
          returned := s.returned ++ [⟨c, x.count, x.cmd, .err x.cmd⟩] }
      else none
  | .pop shard =>
    match s.rings shard with
    | [] => none
    | e :: rest =>
      some { s with
        rings := Function.update s.rings shard rest
        popped := Function.update s.popped shard (s.popped shard ++ [e]) }
  | .shutdown => none

theorem Engine.step?_sound {s s' : Engine C} {a : Action C}
    (h : s.step? numShards capacity a = some s') : EngineStep numShards capacity s a s' := by
  cases a with
  | stamp c cmd ts =>
    dsimp only [Engine.step?] at h
    split at h
    · next hc =>
      cases h
      exact .stamp hc.1 (Option.isNone_iff_eq_none.1 hc.2)
    · cases h
  | push c accepted =>
    dsimp only [Engine.step?] at h
    split at h
    · cases h
    · next x hx =>
      cases accepted with
      | true =>
        rw [if_pos rfl] at h
        split at h
        · next hroom =>
          cases h
          exact .accept hx hroom
        · cases h
      | false =>
        rw [if_neg Bool.false_ne_true] at h
        split at h
        · next hfull =>
          cases h
          exact .reject hx hfull
        · cases h
  | pop shard =>
    dsimp only [Engine.step?] at h
    split at h
    · cases h
    · next e rest hring =>
      cases h
      exact .pop hring
  | shutdown => cases h

/-- The parties' steps in this order, if they can be made. -/
def Engine.run? : Engine C → List (Action C) → Option (Engine C)
  | s, [] => some s
  | s, a :: as => (s.step? numShards capacity a).bind fun s => s.run? as

/-- From `start`, the parties' steps in this order lead to `s`. -/
def EngineRun (as : List (Action C)) (s : Engine C) : Prop :=
  Transition.Run (EngineStep numShards capacity) (Engine.start C) as s

/-- Shut down, and the shards have popped what was buffered. -/
def Engine.Finished (s : Engine C) : Prop := s.closed = true ∧ ∀ shard, s.rings shard = []

end

end Exchange
