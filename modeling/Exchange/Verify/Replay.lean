import Exchange.Wal.Reader
import Exchange.Verify.SegmentFiles

/-!
# What replay delivers

The reader's loop is a scan of the log's frames; the records it passes on are those
with a number above `after`.
-/

namespace Exchange

open FramedLog

variable {crc : Bytes → UInt32} {σ : Type} {after : Seq}
  {f : σ → WalRecord → Except WalError σ}

/-- What the loop does with a record. -/
def deliver (after : Seq) (f : σ → WalRecord → Except WalError σ) (st : Seq × σ)
    (rec : WalRecord) : Except WalError (Seq × σ) :=
  if after < rec.seq then do
    let s ← f st.2 rec
    return (rec.seq, s)
  else return st

/-- The records above `after`. -/
def above (after : Seq) (recs : List WalRecord) : List WalRecord :=
  recs.filter fun rec => after < rec.seq

/-- The number of the last record, or `last` if there is none. -/
def lastSeq (last : Seq) (recs : List WalRecord) : Seq := (recs.getLast?.map WalRecord.seq).getD last

theorem above_append (recs recs' : List WalRecord) :
    above after (recs ++ recs') = above after recs ++ above after recs' :=
  List.filter_append ..

theorem replayLoop_eq_scan (data : Bytes) (fuel offset : Nat) (st : Seq × σ) :
    replayLoop crc after f data fuel offset st =
      (walCodec crc).scan (deliver after f) fuel (data.drop offset) st := by
  induction fuel generalizing offset st with
  | zero => rfl
  | succ fuel ih =>
    obtain ⟨last, s⟩ := st
    rw [replayLoop, Codec.scan]
    by_cases hend : data.length ≤ offset
    · rw [if_pos hend, if_pos]
      rw [List.isEmpty_iff, List.drop_eq_nil_iff]
      exact hend
    · rw [if_neg hend, if_neg]
      · rw [walCodec_decode]
        cases hdecode : WalRecord.decode crc (data.drop offset) with
        | error e => cases e <;> rfl
        | ok r =>
          obtain ⟨rec, consumed⟩ := r
          dsimp only
          unfold deliver
          rw [List.drop_drop]
          split
          · cases hf : f s rec with
            | error e => rfl
            | ok s' => exact ih (offset + consumed) (rec.seq, s')
          · exact ih (offset + consumed) (last, s)
      · rw [List.isEmpty_iff, List.drop_eq_nil_iff]
        exact hend

theorem replaySegment_eq_scan (data : Bytes) (st : Seq × σ) :
    replaySegment crc after f st data =
      (walCodec crc).scan (deliver after f) data.length data st :=
  replayLoop_eq_scan data data.length 0 st

/-- The records above `after` reach the callback in order, and the last of them is remembered. -/
theorem foldlM_deliver (recs : List WalRecord) (last : Seq) (s : σ) :
    recs.foldlM (deliver after f) (last, s) = do
      let s ← (above after recs).foldlM f s
      return (lastSeq last (above after recs), s) := by
  induction recs generalizing last s with
  | nil => rfl
  | cons rec recs ih =>
    rw [List.foldlM_cons]
    unfold above deliver
    by_cases hseq : after < rec.seq
    · rw [List.filter_cons_of_pos (by simpa using hseq), if_pos hseq, List.foldlM_cons]
      cases hf : f s rec with
      | error e => rfl
      | ok s' =>
        have hlast :
            lastSeq last (rec :: above after recs) = lastSeq rec.seq (above after recs) := by
          unfold lastSeq
          rw [List.getLast?_cons]
          cases (above after recs).getLast? <;> rfl
        change recs.foldlM (deliver after f) (rec.seq, s') =
          (above after recs).foldlM f s' >>= fun s =>
            pure (lastSeq last (rec :: above after recs), s)
        rw [ih, hlast]
    · rw [List.filter_cons_of_neg (by simpa using hseq), if_neg hseq]
      exact ih last s

/-! ## Segments -/

/-- The bytes are a log that is cut somewhere, of which `recs` are the whole records. -/
def Holds (crc : Bytes → UInt32) (data : Bytes) (recs : List WalRecord) : Prop :=
  ∃ written cut, (∀ rec ∈ written, rec.Fits) ∧
    data = ((walCodec crc).encodeAll written).take cut ∧ recs = (walCodec crc).within cut written

theorem Holds.replaySegment {data : Bytes} {recs : List WalRecord} (h : Holds crc data recs)
    (st : Seq × σ) :
    replaySegment crc after f st data = recs.foldlM (deliver after f) st := by
  obtain ⟨written, cut, hfits, rfl, rfl⟩ := h
  rw [replaySegment_eq_scan]
  exact walCodec_lawful.scan_take hfits (Nat.le_refl _) st

/-- A log that was not cut. -/
theorem holds_encodeAll {recs : List WalRecord} (hfits : ∀ rec ∈ recs, rec.Fits) :
    Holds crc ((walCodec crc).encodeAll recs) recs := by
  refine ⟨recs, ((walCodec crc).encodeAll recs).length, hfits, ?_, ?_⟩
  · rw [List.take_length]
  · exact (Codec.within_of_le (Nat.le_refl _)).symm

theorem replay_segments {dir : Dir} {files : List File} (h : Segments dir files)
    (hcount : files.length < 10 ^ 10) (s : σ) :
    replay crc after f dir s =
      (files.map File.bytes).foldlM (replaySegment crc after f) (after, s) := by
  have hmap : files = (segmentNames files.length).map fun name => dir.getD name File.empty := by
    refine List.ext_getElem (by simp [segmentNames]) fun i hi hi' => ?_
    have hfile := h.file i _ (List.getElem?_eq_getElem hi)
    simp only [segmentNames, List.getElem_map, List.getElem_range]
    rw [Std.ExtTreeMap.getD_eq_getD_getElem?, hfile]
    rfl
  unfold replay
  rw [h.listSegments hcount]
  conv_rhs => rw [hmap, List.map_map, List.foldlM_map]
  rfl

theorem foldlM_replaySegment {datas : List Bytes} {segs : List (List WalRecord)}
    (h : List.Forall₂ (Holds crc) datas segs) (st : Seq × σ) :
    datas.foldlM (replaySegment crc after f) st = segs.flatten.foldlM (deliver after f) st := by
  induction h generalizing st with
  | nil => rfl
  | cons hdata _ ih =>
    rw [List.foldlM_cons, List.flatten_cons, List.foldlM_append, hdata.replaySegment]
    exact congrArg _ (funext ih)

/-- **Replay of a log**: what the segments hold, in their order. -/
theorem replay_holds {dir : Dir} {files : List File} (h : Segments dir files)
    (hcount : files.length < 10 ^ 10) {segs : List (List WalRecord)}
    (hsegs : List.Forall₂ (Holds crc) (files.map File.bytes) segs) (s : σ) :
    replay crc after f dir s = do
      let s ← (above after segs.flatten).foldlM f s
      return (lastSeq after (above after segs.flatten), s) := by
  rw [replay_segments h hcount, foldlM_replaySegment hsegs, foldlM_deliver]

/-! ## The records delivered -/

/-- The callback that keeps the records. -/
def collect (recs : List WalRecord) (rec : WalRecord) : Except WalError (List WalRecord) :=
  .ok (recs ++ [rec])

theorem foldlM_collect (recs acc : List WalRecord) :
    recs.foldlM collect acc = .ok (acc ++ recs) := by
  induction recs generalizing acc with
  | nil => rw [List.append_nil]; rfl
  | cons rec recs ih =>
    rw [List.foldlM_cons, List.append_cons, ← ih]
    rfl

theorem foldlM_deliver_collect (recs : List WalRecord) (last : Seq) (acc : List WalRecord) :
    recs.foldlM (deliver after collect) (last, acc) =
      .ok (lastSeq last (above after recs), acc ++ above after recs) := by
  rw [foldlM_deliver, foldlM_collect]
  rfl

end Exchange
