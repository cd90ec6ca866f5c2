import Exchange.Engine.Shard
import Exchange.Lib.Transition
import Exchange.Wal.Writer

/-!
# A shard and its log

`run_shard` with the `WalWriter` it holds: a command is appended to the log, and then
applied, whether or not the append succeeded. A crash finds the shard between two appends,
or within one when its bytes are written and not yet synced.
-/

namespace Exchange

/-- A crash keeps the files, and of each at least what was synced. -/
def Dir.CrashesTo (dir dir' : Dir) : Prop :=
  ∀ name : FileName, Option.Rel
    (fun file file' => ∃ cut, file.synced ≤ cut ∧ file'.bytes = file.bytes.take cut)
    dir[name]? dir'[name]?

structure LoggingShard (A : Type) where
  shard : Shard A
  wal : WalWriter
  dir : Dir
  /-- The command that is about to be applied, and whether its append returned `Ok`. -/
  pending : Option (Sequenced × Bool)

inductive LoggingAction
  | append (cmd : Sequenced)
  /-- An append that returns an error. -/
  | fail (cmd : Sequenced)
  | apply (p : ShardTurn)

section

variable {A : Type} [Slab A Order]

def LoggingShard.start (symbols : List (SymbolId × Price)) (dir : Dir) (fsync : FsyncPolicy) :
    LoggingShard A :=
  ⟨.start symbols, (WalWriter.open dir fsync).1, (WalWriter.open dir fsync).2, none⟩

variable (crc : Bytes → UInt32) (record : Sequenced → WalRecord)

inductive LoggingStep : LoggingShard A → LoggingAction → LoggingShard A → Prop
  | append {s : LoggingShard A} {cmd : Sequenced} {wal : WalWriter} {dir : Dir}
      (hidle : s.pending = none)
      (happ : s.wal.append crc s.dir (record cmd) = some (wal, dir)) :
      LoggingStep s (.append cmd) { s with wal, dir, pending := some (cmd, true) }
  -- nothing is assumed of what a failed append leaves of the writer and its files
  | fail {s : LoggingShard A} {cmd : Sequenced} {wal : WalWriter} {dir : Dir}
      (hidle : s.pending = none) :
      LoggingStep s (.fail cmd) { s with wal, dir, pending := some (cmd, false) }
  | apply {s : LoggingShard A} {p : ShardTurn} {shard : Shard A}
      (hpending : s.pending = some (p.cmd, p.appended)) (hstep : ShardStep s.shard p shard) :
      LoggingStep s (.apply p) { s with shard, pending := none }

/-- The step an action makes, if it is a successful append, or an apply that `fuel` is
enough for. -/
def LoggingShard.step? (fuel : Nat) (s : LoggingShard A) :
    LoggingAction → Option (LoggingShard A)
  | .append cmd =>
    if s.pending.isNone then
      (s.wal.append crc s.dir (record cmd)).map fun r =>
        { s with wal := r.1, dir := r.2, pending := some (cmd, true) }
    else none
  | .fail _ => none
  | .apply p =>
    if s.pending = some (p.cmd, p.appended) then
      (s.shard.step? fuel p).map fun shard => { s with shard, pending := none }
    else none

variable {crc record}

theorem LoggingShard.step?_sound {fuel : Nat} {s s' : LoggingShard A} {a : LoggingAction}
    (h : s.step? crc record fuel a = some s') : LoggingStep crc record s a s' := by
  cases a with
  | append cmd =>
    dsimp only [step?] at h
    split at h
    · next hidle =>
      obtain ⟨⟨wal, dir⟩, happ, rfl⟩ := Option.map_eq_some_iff.1 h
      exact .append (Option.isNone_iff_eq_none.1 hidle) happ
    · cases h
  | fail cmd => cases h
  | apply p =>
    dsimp only [step?] at h
    split at h
    · next hpending =>
      obtain ⟨shard, hstep, rfl⟩ := Option.map_eq_some_iff.1 h
      exact .apply hpending (Shard.step?_sound hstep)
    · cases h

/-- A computed run is a run. -/
theorem LoggingShard.run_of_foldlM {fuel : Nat} {s s' : LoggingShard A} {as : List LoggingAction}
    (h : as.foldlM (step? crc record fuel) s = some s') :
    Transition.Run (LoggingStep crc record) s as s' :=
  (Transition.Run.of_foldlM h).mono fun _ _ _ => step?_sound

variable (crc record)

/-- What a crash can leave of the directory. -/
inductive LoggingShard.Crashes (s : LoggingShard A) (dir' : Dir) : Prop
  | between (h : s.dir.CrashesTo dir')
  | within (cmd : Sequenced) (hidle : s.pending = none)
      (h : (s.dir.write s.wal.file ((record cmd).encode crc)).CrashesTo dir')

end

end Exchange
