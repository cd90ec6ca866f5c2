import Exchange.Wal.Segment

/-!
# Replaying the log

`reader.rs` of the `wal` crate. The callback is a function on a state of its own,
which may fail.
-/

namespace Exchange

variable {σ : Type} (crc : Bytes → UInt32) (after : Seq) (f : σ → WalRecord → Except WalError σ)

/-- The loop over the records of one segment, from `offset` on, in at most `fuel` steps. The
state is `last_seq` and that of the callback. -/
def replayLoop (data : Bytes) : Nat → Nat → Seq × σ → Except WalError (Seq × σ)
  | 0, _, st => .ok st
  | fuel + 1, offset, (lastSeq, s) =>
    if data.length ≤ offset then .ok (lastSeq, s)
    else
      match WalRecord.decode crc (data.drop offset) with
      | .ok (rec, consumed) =>
        if after < rec.seq then do
          let s ← f s rec
          replayLoop data fuel (offset + consumed) (rec.seq, s)
        else replayLoop data fuel (offset + consumed) (lastSeq, s)
      | .error (.truncated _) => .ok (lastSeq, s)
      | .error e => .error e

/-- The loop over one segment. Every record takes at least one byte, so there are at
most as many steps as bytes. -/
def replaySegment (st : Seq × σ) (data : Bytes) : Except WalError (Seq × σ) :=
  replayLoop crc after f data data.length 0 st

/-- `replay`: the records with a number above `after`, in the order of the segments. -/
def replay (dir : Dir) (s : σ) : Except WalError (Seq × σ) :=
  (listSegments dir).foldlM
    (fun st name => replaySegment crc after f st (dir.getD name File.empty).bytes) (after, s)

end Exchange
