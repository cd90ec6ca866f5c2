import Exchange.Wal.Segment

/-!
# Appending to the log

`writer.rs` of the `wal` crate. The writer's file is the segment `segIdx` of the
directory. Its buffer is not modelled: the bytes count as written when `write_all`
takes them, and a crash may lose them whether or not they have left the buffer.
-/

namespace Exchange

inductive FsyncPolicy
  /-- fsync after every record. -/
  | perRecord
  /-- fsync every `n` records. -/
  | every (n : UInt64)
  | off
  deriving DecidableEq, Repr

/-- Does the append that brings `write_count` to `count` fsync? `none` where the count is
divided by zero, which panics. -/
def FsyncPolicy.due (count : UInt64) : FsyncPolicy → Option Bool
  | perRecord => some true
  | every n => if n = 0 then none else some (count % n = 0)
  | off => some false

structure WalWriter where
  segIdx : UInt64
  segBytes : Nat
  fsync : FsyncPolicy
  writeCount : UInt64
  deriving DecidableEq, Repr

/-- `open`: the segment after the highest existing one. -/
def WalWriter.open (dir : Dir) (fsync : FsyncPolicy) : WalWriter × Dir :=
  let segs := listSegments dir
  let segIdx := (segs.getLast?.bind segmentIndex).getD 0 + 1
  let dir := dir.openFile (segmentPath segIdx)
  let segBytes := (dir.getD (segmentPath segIdx) File.empty).bytes.length
  (⟨segIdx, segBytes, fsync, 0⟩, dir)

namespace WalWriter

/-- The file the writer has open. -/
def file (w : WalWriter) : FileName := segmentPath w.segIdx

def doFsync (w : WalWriter) (dir : Dir) : Dir := dir.sync w.file

/-- `roll_segment`: the next segment, in a file of its own. -/
def rollSegment (w : WalWriter) (dir : Dir) : WalWriter × Dir :=
  let w := { w with segIdx := w.segIdx + 1, segBytes := 0 }
  (w, dir.openFile w.file)

variable (crc : Bytes → UInt32)

/-- `append`. -/
def append (w : WalWriter) (dir : Dir) (rec : WalRecord) : Option (WalWriter × Dir) := do
  let bytes := rec.encode crc
  let dir := dir.write w.file bytes
  let w := { w with segBytes := w.segBytes + bytes.length, writeCount := w.writeCount + 1 }
  let due ← w.fsync.due w.writeCount
  let dir := if due then w.doFsync dir else dir
  if SEGMENT_SIZE ≤ w.segBytes then return w.rollSegment dir else return (w, dir)

/-- Append one record after the other. -/
def appendAll (recs : List WalRecord) (w : WalWriter) (dir : Dir) : Option (WalWriter × Dir) :=
  recs.foldlM (fun wd rec => wd.1.append crc wd.2 rec) (w, dir)

end WalWriter

end Exchange
