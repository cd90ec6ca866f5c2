import Mathlib.Data.List.Nodup
import Mathlib.Data.List.Perm.Subperm
import Exchange.Lib.Transition
import Exchange.Wal.Writer
import Exchange.Verify.Frames

/-!
# The segment files of a log

The directory a writer leaves behind, as the list of its segment files. Opening,
appending and rolling are operations on that list.
-/

namespace Exchange

/-- The segments of `dir` are `files`, numbered from 1. -/
structure Segments (dir : Dir) (files : List File) : Prop where
  file : ∀ i file, files[i]? = some file → dir[segmentName (i + 1)]? = some file
  name : ∀ name, isSegment name = true → name ∈ dir →
    ∃ i, i < files.length ∧ name = segmentName (i + 1)

/-- The names of the first `n` segments. -/
def segmentNames (n : Nat) : List FileName := (List.range n).map fun i => segmentName (i + 1)

theorem nodup_segmentNames (n : Nat) : (segmentNames n).Nodup := by
  unfold segmentNames
  refine List.Nodup.map ?_ List.nodup_range
  intro i j h
  have hij := segmentName_injective h
  omega

theorem getLast?_segmentNames (n : Nat) :
    (segmentNames (n + 1)).getLast? = some (segmentName (n + 1)) := by
  simp [segmentNames, List.range_succ]

section Segments

variable {dir : Dir} {files : List File}

theorem Segments.mem_listSegments (h : Segments dir files) (name : FileName) :
    name ∈ listSegments dir ↔ name ∈ segmentNames files.length := by
  unfold listSegments segmentNames
  rw [List.mem_filter, Std.ExtTreeMap.mem_keys, List.mem_map]
  constructor
  · rintro ⟨hmem, hseg⟩
    obtain ⟨i, hi, rfl⟩ := h.name name hseg hmem
    exact ⟨i, List.mem_range.2 hi, rfl⟩
  · rintro ⟨i, hi, rfl⟩
    have hfile := h.file i _ (List.getElem?_eq_getElem (List.mem_range.1 hi))
    refine ⟨?_, isSegment_segmentName _⟩
    rw [Std.ExtTreeMap.mem_iff_isSome_getElem?, hfile]
    rfl

theorem Segments.listSegments_perm (h : Segments dir files) :
    (listSegments dir).Perm (segmentNames files.length) :=
  (List.perm_ext_iff_of_nodup ((OrderedMap.nodup_keys dir).filter _) (nodup_segmentNames _)).2
    h.mem_listSegments

@[simp] theorem Segments.length_listSegments (h : Segments dir files) :
    (listSegments dir).length = files.length := by
  rw [h.listSegments_perm.length_eq]
  simp [segmentNames]

/-- Fewer than `10 ^ 10` segments are listed in the order of their indices. -/
theorem Segments.listSegments (h : Segments dir files) (hcount : files.length < 10 ^ 10) :
    listSegments dir = segmentNames files.length := by
  have hlisted : (Exchange.listSegments dir).Pairwise fun a b => compare a b = .lt :=
    Std.ExtTreeMap.ordered_keys.filter _
  have hnames : (segmentNames files.length).Pairwise fun a b => compare a b = .lt := by
    unfold segmentNames
    rw [List.pairwise_map]
    refine List.pairwise_lt_range.imp_of_mem fun {i j} _ hj hij => ?_
    have hj' := List.mem_range.1 hj
    exact compare_segmentName (by omega) (by omega)
  refine List.Perm.eq_of_pairwise ?_ hlisted hnames h.listSegments_perm
  intro a b _ _ hab hba
  have hswap : compare b a = (compare a b).swap := Std.OrientedCmp.eq_swap
  rw [hab, hba] at hswap
  cases hswap

/-! ## Operations on files -/

theorem Segments.openFile (h : Segments dir files) {idx : UInt64}
    (hidx : idx.toNat = files.length + 1) :
    Segments (dir.openFile (segmentPath idx)) (files ++ [File.empty]) := by
  have hpath : segmentPath idx = segmentName (files.length + 1) := by
    unfold segmentPath
    rw [hidx]
  unfold Dir.openFile
  rw [hpath]
  have hnew : segmentName (files.length + 1) ∉ dir := by
    intro hmem
    obtain ⟨i, hi, he⟩ := h.name _ (isSegment_segmentName _) hmem
    have hinj := segmentName_injective he
    omega
  rw [if_neg hnew]
  constructor
  · intro i file hi
    rw [OrderedMap.getElem?_insert]
    rw [List.getElem?_append] at hi
    split at hi
    · next hlt =>
      rw [if_neg (by rw [segmentName_inj]; omega)]
      exact h.file i file hi
    · next hge =>
      obtain ⟨h0, hf⟩ := List.getElem?_eq_some_iff.1 hi
      rw [List.length_singleton] at h0
      rw [if_pos (by rw [segmentName_inj]; omega), ← hi, show i - files.length = 0 by omega]
      rfl
  · intro name hseg hmem
    rw [List.length_append, List.length_singleton]
    rcases Std.ExtTreeMap.mem_insert.1 hmem with heq | hmem
    · exact ⟨files.length, by omega, (Std.LawfulEqCmp.eq_of_compare heq).symm⟩
    · obtain ⟨i, hi, he⟩ := h.name name hseg hmem
      exact ⟨i, by omega, he⟩

theorem Segments.modify {file : File} {right : List File}
    (h : Segments dir (files ++ file :: right)) {idx : UInt64} (hidx : idx.toNat = files.length + 1)
    (g : File → File) :
    Segments (dir.modify (segmentPath idx) g) (files ++ g file :: right) := by
  have hpath : segmentPath idx = segmentName (files.length + 1) := by
    unfold segmentPath
    rw [hidx]
  have hlook : dir[segmentName (files.length + 1)]? = some file := by
    refine h.file _ _ ?_
    rw [List.getElem?_append_right (Nat.le_refl _), Nat.sub_self]
    rfl
  rw [hpath]
  constructor
  · intro i f hi
    rw [OrderedMap.getElem?_modify]
    by_cases hat : i = files.length
    · subst hat
      rw [List.getElem?_append_right (Nat.le_refl _), Nat.sub_self] at hi
      cases hi
      rw [if_pos rfl, hlook]
      rfl
    · rw [if_neg (by rw [segmentName_inj]; omega)]
      refine h.file i f ?_
      rw [← hi]
      rcases Nat.lt_or_gt_of_ne hat with hlt | hgt
      · rw [List.getElem?_append_left hlt, List.getElem?_append_left hlt]
      · obtain ⟨j, hj⟩ : ∃ j, i - files.length = j + 1 := ⟨i - files.length - 1, by omega⟩
        rw [List.getElem?_append_right (by omega), List.getElem?_append_right (by omega), hj]
        rfl
  · intro name hseg hmem
    rw [Std.ExtTreeMap.mem_modify] at hmem
    obtain ⟨i, hi, he⟩ := h.name name hseg hmem
    exact ⟨i, by simpa using hi, he⟩

end Segments

/-! ## The writer's log -/

/-- The segment files of a writer, the one it has open apart. -/
structure SegmentLog where
  closed : List File
  current : File

/-- Append to the current file, sync it if that is due, and close it when it is full. -/
def SegmentLog.append (log : SegmentLog) (bytes : Bytes) (due : Bool) : SegmentLog :=
  let bytes := log.current.bytes ++ bytes
  let file : File := ⟨bytes, if due then bytes.length else log.current.synced⟩
  if SEGMENT_SIZE ≤ bytes.length then ⟨log.closed ++ [file], File.empty⟩
  else ⟨log.closed, file⟩

/-- `w` writes `log` in `dir`, behind the segments `files`. -/
structure Writing (files : List File) (w : WalWriter) (dir : Dir) (log : SegmentLog) : Prop where
  segments : Segments dir (files ++ log.closed ++ [log.current])
  segIdx : w.segIdx.toNat = (files ++ log.closed).length + 1
  segBytes : w.segBytes = log.current.bytes.length

section Writing

variable {crc : Bytes → UInt32} {w w' : WalWriter} {dir dir' : Dir} {files : List File}
  {log : SegmentLog}

/-- A new writer starts a segment behind the existing ones. -/
theorem open_writing (h : Segments dir files) (hcount : files.length < 10 ^ 10)
    (fsync : FsyncPolicy) :
    Writing files (WalWriter.open dir fsync).1 (WalWriter.open dir fsync).2 ⟨[], File.empty⟩ := by
  have hidx : (WalWriter.open dir fsync).1.segIdx = UInt64.ofNat (files.length + 1) := by
    change ((listSegments dir).getLast?.bind segmentIndex).getD 0 + 1 = _
    rw [h.listSegments hcount]
    cases hn : files.length with
    | zero => rfl
    | succ n =>
      have hpath : segmentName (n + 1) = segmentPath (UInt64.ofNat (n + 1)) := by
        rw [segmentPath_ofNat (by omega)]
      rw [getLast?_segmentNames, Option.bind_some, hpath, segmentIndex_segmentPath]
      exact (UInt64.ofNat_add (n + 1) 1).symm
  have hsegIdx : (WalWriter.open dir fsync).1.segIdx.toNat = files.length + 1 := by
    have hlt : files.length + 1 < 2 ^ 64 := by omega
    rw [hidx]
    exact UInt64.toNat_ofNat_of_lt' hlt
  have hsegments : Segments (WalWriter.open dir fsync).2 (files ++ [File.empty]) :=
    h.openFile hsegIdx
  have hfile : (WalWriter.open dir fsync).2[segmentPath (WalWriter.open dir fsync).1.segIdx]? =
      some File.empty := by
    unfold segmentPath
    rw [hsegIdx]
    exact hsegments.file _ _ List.getElem?_concat_length
  refine ⟨?_, ?_, ?_⟩
  · rw [List.append_nil]
    exact hsegments
  · rw [List.append_nil]
    exact hsegIdx
  · change ((WalWriter.open dir fsync).2.getD
      (segmentPath (WalWriter.open dir fsync).1.segIdx) File.empty).bytes.length = 0
    rw [Std.ExtTreeMap.getD_eq_getD_getElem?, hfile]
    rfl

/-- An append by the writer is an append to its log. -/
theorem append_writing (h : Writing files w dir log)
    (hcount : (listSegments dir).length + 1 < 2 ^ 64)
    {rec : WalRecord} (happ : w.append crc dir rec = some (w', dir')) :
    ∃ due, w.fsync.due (w.writeCount + 1) = some due ∧
      Writing files w' dir' (log.append (rec.encode crc) due) ∧
      w'.fsync = w.fsync ∧ w'.writeCount = w.writeCount + 1 := by
  obtain ⟨hsegments, hsegIdx, hsegBytes⟩ := h
  rw [hsegments.length_listSegments, List.length_append, List.length_singleton] at hcount
  obtain ⟨closed, current⟩ := log
  dsimp only at hsegments hsegIdx hsegBytes hcount
  unfold WalWriter.append at happ
  dsimp only at happ
  obtain ⟨due, hdue, happ⟩ := Option.bind_eq_some_iff.1 happ
  refine ⟨due, hdue, ?_⟩
  -- the file after the write and the sync
  have hfile : Segments
      (if due then (dir.write w.file (rec.encode crc)).sync w.file
        else dir.write w.file (rec.encode crc))
      (files ++ closed ++ [⟨current.bytes ++ rec.encode crc,
        if due then (current.bytes ++ rec.encode crc).length else current.synced⟩]) := by
    have hwritten := hsegments.modify hsegIdx fun file =>
      { file with bytes := file.bytes ++ rec.encode crc }
    cases due with
    | true => exact hwritten.modify hsegIdx fun file => { file with synced := file.bytes.length }
    | false => exact hwritten
  have hlength : w.segBytes + (rec.encode crc).length =
      (current.bytes ++ rec.encode crc).length := by
    rw [List.length_append, hsegBytes]
  rw [hlength] at happ
  unfold SegmentLog.append
  dsimp only
  split at happ
  · next hfull =>
    cases happ
    rw [if_pos hfull]
    have hnext : ∀ file : File,
        (w.segIdx + 1).toNat = (files ++ (closed ++ [file])).length + 1 := by
      intro file
      have hone : (1 : UInt64).toNat = 1 := rfl
      have hlen : (files ++ (closed ++ [file])).length = (files ++ closed).length + 1 := by
        simp only [List.length_append, List.length_singleton]
        omega
      rw [UInt64.toNat_add, hsegIdx, hone, hlen]
      exact Nat.mod_eq_of_lt hcount
    refine ⟨⟨?_, hnext _, rfl⟩, rfl, rfl⟩
    rw [← List.append_assoc]
    refine hfile.openFile ?_
    rw [List.append_assoc]
    exact hnext _
  · next hroom =>
    cases happ
    rw [if_neg hroom]
    exact ⟨⟨hfile, hsegIdx, rfl⟩, rfl, rfl⟩

end Writing

/-! ## The number of segments -/

/-- No file of `dir` is gone in `dir'`. -/
def Dir.Keeps (dir dir' : Dir) : Prop := ∀ name, name ∈ dir → name ∈ dir'

section Keeps

variable {crc : Bytes → UInt32} {dir dir' dir'' : Dir}

theorem Dir.Keeps.trans (h : dir.Keeps dir') (h' : dir'.Keeps dir'') : dir.Keeps dir'' :=
  fun name hname => h' name (h name hname)

theorem Dir.Keeps.length_le (h : dir.Keeps dir') :
    (listSegments dir).length ≤ (listSegments dir').length := by
  have hnodup : (listSegments dir).Nodup := (OrderedMap.nodup_keys dir).filter _
  refine (List.subperm_of_subset hnodup fun name hname => ?_).length_le
  rw [listSegments, List.mem_filter, Std.ExtTreeMap.mem_keys] at hname
  rw [listSegments, List.mem_filter, Std.ExtTreeMap.mem_keys]
  exact ⟨h name hname.1, hname.2⟩

theorem openFile_keeps (dir : Dir) (name : FileName) : dir.Keeps (dir.openFile name) := by
  intro other hother
  unfold Dir.openFile
  split
  · exact hother
  · exact Std.ExtTreeMap.mem_insert.2 (.inr hother)

theorem modify_keeps (dir : Dir) (name : FileName) (g : File → File) :
    dir.Keeps (dir.modify name g) :=
  fun _ hother => Std.ExtTreeMap.mem_modify.2 hother

theorem append_keeps {w w' : WalWriter} {rec : WalRecord}
    (happ : w.append crc dir rec = some (w', dir')) : dir.Keeps dir' := by
  unfold WalWriter.append at happ
  dsimp only at happ
  obtain ⟨due, -, happ⟩ := Option.bind_eq_some_iff.1 happ
  have hfile : dir.Keeps
      (if due then (dir.write w.file (rec.encode crc)).sync w.file
        else dir.write w.file (rec.encode crc)) := by
    cases due with
    | true => exact (modify_keeps _ _ _).trans (modify_keeps _ _ _)
    | false => exact modify_keeps _ _ _
  split at happ
  · cases happ
    exact hfile.trans (openFile_keeps _ _)
  · cases happ
    exact hfile

end Keeps

/-! ## Runs of a writer -/

section Runs

variable (crc : Bytes → UInt32)

/-- The log of a new writer after the records `recs`. -/
def SegmentLog.written (fsync : FsyncPolicy) (recs : List WalRecord) : SegmentLog :=
  (recs.zipIdx 1).foldl
    (fun log e => log.append (e.1.encode crc) ((fsync.due (UInt64.ofNat e.2)).getD false))
    ⟨[], File.empty⟩

theorem written_snoc (fsync : FsyncPolicy) (recs : List WalRecord) (rec : WalRecord) :
    SegmentLog.written crc fsync (recs ++ [rec]) =
      (SegmentLog.written crc fsync recs).append (rec.encode crc)
        ((fsync.due (UInt64.ofNat (recs.length + 1))).getD false) := by
  unfold SegmentLog.written
  rw [List.zipIdx_append, List.foldl_append, Nat.add_comm]
  rfl

variable {crc} {dir dir' : Dir} {files : List File} {fsync : FsyncPolicy} {recs : List WalRecord}
  {w' : WalWriter}

/-- **Appending record after record** writes the log of the records. -/
theorem appendAll_writing (h : Segments dir files) (hfiles : files.length < 10 ^ 10)
    (happ : (WalWriter.open dir fsync).1.appendAll crc recs (WalWriter.open dir fsync).2 =
      some (w', dir'))
    (hcount : (listSegments dir').length + 1 < 2 ^ 64) :
    Writing files w' dir' (SegmentLog.written crc fsync recs) ∧ w'.fsync = fsync ∧
      w'.writeCount = UInt64.ofNat recs.length := by
  have hrun := Transition.Run.of_foldlM happ
  refine hrun.invariant (I := fun recs wd => (listSegments wd.2).length + 1 < 2 ^ 64 →
    Writing files wd.1 wd.2 (SegmentLog.written crc fsync recs) ∧ wd.1.fsync = fsync ∧
      wd.1.writeCount = UInt64.ofNat recs.length) ?_ ?_ hcount
  · intro _
    exact ⟨open_writing h hfiles fsync, rfl, rfl⟩
  · rintro recs ⟨w, d⟩ rec ⟨w', d'⟩ - ih hstep hcount
    dsimp only at ih hcount
    have hle := (append_keeps hstep).length_le
    dsimp only at hle
    obtain ⟨hw, hfsync, hcnt⟩ := ih (by omega)
    obtain ⟨due, hdue, hw', hfsync', hcnt'⟩ := append_writing hw (by omega) hstep
    have hnext : w'.writeCount = UInt64.ofNat (recs.length + 1) := by
      rw [hcnt', hcnt]
      exact (UInt64.ofNat_add recs.length 1).symm
    refine ⟨?_, hfsync'.trans hfsync, ?_⟩
    · rw [← hcnt', hnext, hfsync] at hdue
      rw [written_snoc, hdue]
      exact hw'
    · rw [List.length_append, List.length_singleton]
      exact hnext

theorem appendAll_keeps {w : WalWriter}
    (happ : w.appendAll crc recs dir = some (w', dir')) : dir.Keeps dir' := by
  refine (Transition.Run.of_foldlM happ).invariant (I := fun _ wd => dir.Keeps wd.2)
    (fun _ h => h) ?_
  intro _ wd rec wd' _ ih hstep
  exact ih.trans (append_keeps hstep)

/-- The records by segment: those of the full segments, and those of the current one. -/
def segmented (crc : Bytes → UInt32) (recs : List WalRecord) :
    List (List WalRecord) × List WalRecord :=
  FramedLog.rolled (fun recs => ((walCodec crc).encodeAll recs).length) SEGMENT_SIZE recs

/-- The segments hold the frames of the records. -/
theorem written_bytes (crc : Bytes → UInt32) (fsync : FsyncPolicy) (recs : List WalRecord) :
    (SegmentLog.written crc fsync recs).closed.map File.bytes =
        (segmented crc recs).1.map (walCodec crc).encodeAll ∧
      (SegmentLog.written crc fsync recs).current.bytes =
        (walCodec crc).encodeAll (segmented crc recs).2 := by
  induction recs using List.reverseRecOn with
  | nil => exact ⟨rfl, rfl⟩
  | append_singleton recs rec ih =>
    obtain ⟨hclosed, hcurrent⟩ := ih
    rw [written_snoc]
    generalize (fsync.due (UInt64.ofNat (recs.length + 1))).getD false = due
    unfold segmented at hclosed hcurrent ⊢
    rw [FramedLog.rolled_snoc]
    generalize FramedLog.rolled (fun recs => ((walCodec crc).encodeAll recs).length)
      SEGMENT_SIZE recs = st at *
    have hbytes : (SegmentLog.written crc fsync recs).current.bytes ++ rec.encode crc =
        (walCodec crc).encodeAll (st.2 ++ [rec]) := by
      rw [hcurrent, FramedLog.Codec.encodeAll_append, FramedLog.Codec.encodeAll_cons,
        FramedLog.Codec.encodeAll_nil, List.append_nil, walCodec_encode]
    unfold SegmentLog.append FramedLog.roll
    dsimp only
    rw [hbytes]
    split
    · simp [hclosed, File.empty]
    · exact ⟨hclosed, rfl⟩

end Runs

end Exchange
