import Exchange.Verify.Recovery

/-!
# Group commit

Under `Every(n)` an append fsyncs the file the writer has open, and only that one; a
segment that fills up is closed as it is. So an fsync covers everything before it exactly
when every segment so far filled up at an append that fsynced.
-/

namespace Exchange

open FramedLog

variable {crc : Bytes → UInt32} {n : UInt64} {recs : List WalRecord} {rec : WalRecord}

/-- Under `Every(n)` the append with this count fsyncs. -/
def Due (n : UInt64) (count : Nat) : Prop := UInt64.ofNat count % n = 0

instance (n : UInt64) (count : Nat) : Decidable (Due n count) :=
  inferInstanceAs (Decidable (UInt64.ofNat count % n = 0))

/-- The last of the records fills up its segment. -/
def Fills (crc : Bytes → UInt32) (recs : List WalRecord) : Prop :=
  recs ≠ [] ∧ (segmented crc recs).2 = []

instance (crc : Bytes → UInt32) (recs : List WalRecord) : Decidable (Fills crc recs) :=
  inferInstanceAs (Decidable (recs ≠ [] ∧ (segmented crc recs).2 = []))

/-- Every segment filled up at an append that fsynced. -/
def Aligned (crc : Bytes → UInt32) (n : UInt64) (recs : List WalRecord) : Prop :=
  ∀ m, m ≤ recs.length → Fills crc (recs.take m) → Due n m

theorem aligned_snoc :
    Aligned crc n (recs ++ [rec]) ↔
      Aligned crc n recs ∧ (Fills crc (recs ++ [rec]) → Due n (recs.length + 1)) := by
  unfold Aligned
  rw [List.length_append, List.length_singleton]
  constructor
  · intro h
    constructor
    · intro m hm hfills
      refine h m (by omega) ?_
      rwa [List.take_append_of_le_length hm]
    · intro hfills
      refine h (recs.length + 1) (Nat.le_refl _) ?_
      rwa [List.take_of_length_le (by simp)]
  · rintro ⟨h, hlast⟩ m hm hfills
    by_cases hlt : m ≤ recs.length
    · rw [List.take_append_of_le_length hlt] at hfills
      exact h m hlt hfills
    · obtain rfl : m = recs.length + 1 := by omega
      rw [List.take_of_length_le (by simp)] at hfills
      exact hlast hfills

/-! ## What is on stable storage -/

namespace SegmentLog

/-- The bytes that a power loss leaves. -/
def durable (log : SegmentLog) : Bytes :=
  (log.closed ++ [log.current]).flatMap fun file => file.bytes.take file.synced

theorem durable_append_due (log : SegmentLog) (bytes : Bytes) :
    (log.append bytes true).durable =
      (log.closed.flatMap fun file => file.bytes.take file.synced) ++ log.current.bytes ++
        bytes := by
  unfold append durable
  dsimp only
  split
  · simp [File.empty]
  · simp

/-- An append that does not fsync leaves stable storage as it is. -/
theorem durable_append_not_due {log : SegmentLog}
    (hsynced : log.current.synced ≤ log.current.bytes.length) (bytes : Bytes) :
    (log.append bytes false).durable = log.durable := by
  have htake : (log.current.bytes ++ bytes).take log.current.synced =
      log.current.bytes.take log.current.synced := List.take_append_of_le_length hsynced
  unfold append durable
  dsimp only
  split
  · simp [File.empty, htake]
  · simp [htake]

end SegmentLog

section Written

variable (hn : n ≠ 0)
include hn

theorem due_every (count : Nat) :
    ((FsyncPolicy.every n).due (UInt64.ofNat count)).getD false = decide (Due n count) := by
  unfold FsyncPolicy.due
  dsimp only
  rw [if_neg hn]
  rfl

/-- One more append under `Every(n)`. -/
theorem written_cases (crc : Bytes → UInt32) (recs : List WalRecord) (rec : WalRecord) :
    let log := SegmentLog.written crc (.every n) recs
    let bytes := log.current.bytes ++ rec.encode crc
    let file : File :=
      ⟨bytes, if Due n (recs.length + 1) then bytes.length else log.current.synced⟩
    (Fills crc (recs ++ [rec]) ∧
        SegmentLog.written crc (.every n) (recs ++ [rec]) = ⟨log.closed ++ [file], File.empty⟩) ∨
      (¬Fills crc (recs ++ [rec]) ∧
        SegmentLog.written crc (.every n) (recs ++ [rec]) = ⟨log.closed, file⟩) := by
  have hcurrent := (written_bytes crc (.every n) recs).2
  have hbytes : (SegmentLog.written crc (.every n) recs).current.bytes ++ rec.encode crc =
      (walCodec crc).encodeAll ((segmented crc recs).2 ++ [rec]) := by
    rw [hcurrent, Codec.encodeAll_append, Codec.encodeAll_cons, Codec.encodeAll_nil,
      List.append_nil, walCodec_encode]
  dsimp only
  rw [written_snoc, due_every hn]
  unfold SegmentLog.append Fills segmented
  rw [rolled_snoc]
  unfold roll
  dsimp only
  rw [hbytes]
  unfold segmented
  by_cases hfull : SEGMENT_SIZE ≤ ((walCodec crc).encodeAll
      ((rolled (fun recs => ((walCodec crc).encodeAll recs).length) SEGMENT_SIZE recs).2 ++
        [rec])).length
  · left
    rw [if_pos hfull, if_pos hfull]
    exact ⟨⟨by simp, rfl⟩, by simp⟩
  · right
    rw [if_neg hfull, if_neg hfull]
    exact ⟨by simp, by simp⟩

theorem synced_le (crc : Bytes → UInt32) (recs : List WalRecord) :
    (SegmentLog.written crc (.every n) recs).current.synced ≤
      (SegmentLog.written crc (.every n) recs).current.bytes.length := by
  induction recs using List.reverseRecOn with
  | nil => exact Nat.le_refl _
  | append_singleton recs rec ih =>
    rcases written_cases hn crc recs rec with ⟨-, hw⟩ | ⟨-, hw⟩
    · rw [hw]
      exact Nat.le_refl _
    · rw [hw]
      dsimp only
      rw [List.length_append]
      split <;> omega

/-- An append that fsyncs leaves the current file synced to its end. -/
theorem current_synced (hne : recs ≠ []) (hdue : Due n recs.length) :
    (SegmentLog.written crc (.every n) recs).current.bytes.length ≤
      (SegmentLog.written crc (.every n) recs).current.synced := by
  obtain rfl | ⟨recs, rec, rfl⟩ := List.eq_nil_or_concat' recs
  · exact absurd rfl hne
  rw [List.length_append, List.length_singleton] at hdue
  rcases written_cases hn crc recs rec with ⟨-, hw⟩ | ⟨-, hw⟩
  · rw [hw]
    exact Nat.le_refl _
  · rw [hw, if_pos hdue]

/-- The closed segments are synced to their ends exactly when they filled up at appends
that fsynced. -/
theorem closed_synced_iff (recs : List WalRecord) :
    (∀ file ∈ (SegmentLog.written crc (.every n) recs).closed, file.bytes.length ≤ file.synced) ↔
      Aligned crc n recs := by
  induction recs using List.reverseRecOn with
  | nil =>
    constructor
    · intro _ m _ hfills
      exact absurd (List.take_nil) hfills.1
    · intro _ file hfile
      cases hfile
  | append_singleton recs rec ih =>
    rw [aligned_snoc, ← ih]
    rcases written_cases hn crc recs rec with ⟨hfills, hw⟩ | ⟨hfills, hw⟩
    · rw [hw]
      dsimp only
      have hsynced := synced_le hn crc recs
      constructor
      · intro h
        refine ⟨fun file hfile => h file (List.mem_append_left _ hfile), fun _ => ?_⟩
        have hlast := h _ (List.mem_append_right _ List.mem_cons_self)
        dsimp only at hlast
        by_contra hdue
        rw [if_neg hdue, List.length_append, WalRecord.length_encode] at hlast
        omega
      · rintro ⟨hclosed, hdue⟩ file hfile
        rcases List.mem_append.1 hfile with hfile | hfile
        · exact hclosed file hfile
        · rw [List.mem_singleton.1 hfile, if_pos (hdue hfills)]
    · rw [hw]
      exact ⟨fun h => ⟨h, fun h' => absurd h' hfills⟩, fun h => h.1⟩

/-- After an fsync, everything so far is on stable storage exactly when the segments filled
up at appends that fsynced. -/
theorem all_synced_iff (hne : recs ≠ []) (hdue : Due n recs.length) :
    (∀ file ∈ (SegmentLog.written crc (.every n) recs).closed ++
        [(SegmentLog.written crc (.every n) recs).current], file.bytes.length ≤ file.synced) ↔
      Aligned crc n recs := by
  rw [← closed_synced_iff hn]
  constructor
  · intro h file hfile
    exact h file (List.mem_append_left _ hfile)
  · intro h file hfile
    rcases List.mem_append.1 hfile with hfile | hfile
    · exact h file hfile
    · rw [List.mem_singleton.1 hfile]
      exact current_synced hn hne hdue

end Written

/-! ## What a power loss leaves -/

/-- A segment that fills up before an fsync fills up at an append that fsyncs too. -/
def SyncedFills (crc : Bytes → UInt32) (n : UInt64) (recs : List WalRecord) : Prop :=
  ∀ m k, m ≤ k → k ≤ recs.length → Fills crc (recs.take m) → Due n k → Due n m

theorem SyncedFills.of_isPrefix {recs' : List WalRecord} (h : SyncedFills crc n recs')
    (hfront : recs <+: recs') : SyncedFills crc n recs := by
  obtain ⟨rest, rfl⟩ := hfront
  intro m k hmk hk hfills hdue
  refine h m k hmk (by rw [List.length_append]; omega) ?_ hdue
  rwa [List.take_append_of_le_length (by omega)]

theorem SyncedFills.aligned (h : SyncedFills crc n recs) (hdue : Due n recs.length) :
    Aligned crc n recs :=
  fun m hm hfills => h m recs.length hm (Nat.le_refl _) hfills hdue

/-- The count since the last fsync. -/
theorem count_mod_succ (hn : n ≠ 0) {count : Nat} (hdue : ¬Due n (count + 1)) :
    (UInt64.ofNat (count + 1) % n).toNat = (UInt64.ofNat count % n).toNat + 1 := by
  have hpos : 0 < n.toNat := by
    rcases Nat.eq_zero_or_pos n.toNat with h | h
    · exact absurd (UInt64.toNat_inj.1 h) hn
    · exact h
  unfold Due at hdue
  have hmod : (UInt64.ofNat (count + 1) % n).toNat ≠ 0 := fun h => hdue (UInt64.toNat_inj.1 h)
  rw [UInt64.toNat_mod, UInt64.toNat_ofNat'] at hmod ⊢
  rw [UInt64.toNat_mod, UInt64.toNat_ofNat']
  have hsucc : (count + 1) % 2 ^ 64 = count % 2 ^ 64 + 1 := by
    have hne : (count + 1) % 2 ^ 64 ≠ 0 := by
      intro h
      rw [h, Nat.zero_mod] at hmod
      exact hmod rfl
    omega
  rw [hsucc] at hmod ⊢
  generalize count % 2 ^ 64 = x at hmod
  generalize n.toNat = n at hpos hmod
  have hlt := Nat.mod_lt x hpos
  have hone : 1 % n = 1 := by
    refine Nat.mod_eq_of_lt ?_
    by_contra h
    obtain rfl : n = 1 := by omega
    exact hmod (Nat.mod_one _)
  rw [Nat.add_mod_eq_ite, hone] at hmod ⊢
  split at hmod
  · omega
  · next hsmall => rw [if_neg hsmall]

/-- After every append some of the last records may be lost, fewer than `n`. -/
theorem durable_written (hn : n ≠ 0) (hsync : SyncedFills crc n recs) :
    ∃ kept rest, recs = kept ++ rest ∧
      rest.length ≤ (UInt64.ofNat recs.length % n).toNat ∧
      (SegmentLog.written crc (.every n) recs).durable = (walCodec crc).encodeAll kept ∧
      (Aligned crc n recs → (SegmentLog.written crc (.every n) recs).current.bytes =
        (SegmentLog.written crc (.every n) recs).current.bytes.take
          (SegmentLog.written crc (.every n) recs).current.synced ++
            (walCodec crc).encodeAll rest) := by
  induction recs using List.reverseRecOn with
  | nil => exact ⟨[], [], rfl, Nat.zero_le _, rfl, fun _ => rfl⟩
  | append_singleton recs rec ih =>
    obtain ⟨kept, rest, hrecs, hrest, hdurable, hcurrent⟩ := ih (hsync.of_isPrefix ⟨[rec], rfl⟩)
    have hwritten := written_snoc crc (.every n) recs rec
    rw [due_every hn] at hwritten
    rw [List.length_append, List.length_singleton]
    by_cases hdue : Due n (recs.length + 1)
    · -- the fsync covers everything: all segments before this one are synced
      have haligned : Aligned crc n (recs ++ [rec]) := by
        refine hsync.aligned ?_
        rwa [List.length_append, List.length_singleton]
      have hbytes := hcurrent (aligned_snoc.1 haligned).1
      have hall : ((SegmentLog.written crc (.every n) recs).closed.flatMap fun file =>
          file.bytes.take file.synced) ++ (SegmentLog.written crc (.every n) recs).current.bytes =
            (walCodec crc).encodeAll recs := by
        unfold SegmentLog.durable at hdurable
        rw [List.flatMap_append, List.flatMap_singleton] at hdurable
        rw [hbytes, ← List.append_assoc, hdurable, ← Codec.encodeAll_append, ← hrecs]
      refine ⟨recs ++ [rec], [], (List.append_nil _).symm, Nat.zero_le _, ?_, ?_⟩
      · rw [hwritten, decide_eq_true hdue, SegmentLog.durable_append_due, hall,
          Codec.encodeAll_append, Codec.encodeAll_cons, Codec.encodeAll_nil, List.append_nil,
          walCodec_encode]
      · intro _
        rcases written_cases hn crc recs rec with ⟨-, hw⟩ | ⟨-, hw⟩
        · rw [hw]
          rfl
        · rw [hw, if_pos hdue]
          simp
    · refine ⟨kept, rest ++ [rec], by rw [hrecs, List.append_assoc], ?_, ?_, ?_⟩
      · rw [count_mod_succ hn hdue, List.length_append, List.length_singleton]
        omega
      · rw [hwritten, decide_eq_false hdue,
          SegmentLog.durable_append_not_due (synced_le hn crc recs), hdurable]
      · intro haligned
        obtain ⟨haligned, hfills⟩ := aligned_snoc.1 haligned
        rcases written_cases hn crc recs rec with ⟨hf, -⟩ | ⟨-, hw⟩
        · exact absurd (hfills hf) hdue
        · rw [hw, if_neg hdue]
          dsimp only
          rw [List.take_append_of_le_length (synced_le hn crc recs), Codec.encodeAll_append,
            Codec.encodeAll_cons, Codec.encodeAll_nil, List.append_nil, walCodec_encode,
            ← List.append_assoc, ← hcurrent haligned]

/-! ## The writer -/

/-- The segments a writer has opened, in order, from `w₀` as it was opened to `w`. -/
def ownSegments (w₀ w : WalWriter) : List FileName :=
  (List.range (w.segIdx.toNat + 1 - w₀.segIdx.toNat)).map fun i =>
    segmentPath (w₀.segIdx + UInt64.ofNat i)

theorem ownSegments_files {files : List File} {w₀ w : WalWriter} {dir : Dir} {log : SegmentLog}
    (h : Writing files w dir log) (hidx : w₀.segIdx.toNat = files.length + 1) :
    (ownSegments w₀ w).map (fun name => dir[name]?) =
      (log.closed ++ [log.current]).map some := by
  have hlast := h.segIdx
  rw [List.length_append] at hlast
  have hmax := w.segIdx.toNat_lt
  unfold ownSegments
  refine List.ext_getElem ?_ fun i hi hi' => ?_
  · simp only [List.length_map, List.length_range, List.length_append, List.length_singleton]
    omega
  · simp only [List.length_map, List.length_append, List.length_singleton] at hi'
    simp only [List.getElem_map, List.getElem_range]
    have hadd : (w₀.segIdx + UInt64.ofNat i).toNat = files.length + i + 1 := by
      have hi64 : i < 2 ^ 64 := by omega
      rw [UInt64.toNat_add, UInt64.toNat_ofNat_of_lt' hi64, hidx, Nat.mod_eq_of_lt (by omega)]
      omega
    unfold segmentPath
    rw [hadd]
    refine h.segments.file _ _ ?_
    rw [List.append_assoc, List.getElem?_append_right (by omega)]
    rw [show files.length + i - files.length = i by omega]
    exact List.getElem?_eq_getElem _

/-- What is promised of appends under `Every(n)`: after one that fsyncs, all segments of the
writer are synced to their ends; and at any time a power loss leaves a prefix of the
records that misses fewer than `n`. -/
def GroupCommit (crc : Bytes → UInt32) (n : UInt64) (dir : Dir) (recs : List WalRecord) : Prop :=
  ∀ (appended : List WalRecord) (w : WalWriter) (dir' : Dir), appended <+: recs →
    (WalWriter.open dir (.every n)).1.appendAll crc appended (WalWriter.open dir (.every n)).2 =
      some (w, dir') →
    (appended ≠ [] → w.writeCount % n = 0 →
      ∀ name ∈ ownSegments (WalWriter.open dir (.every n)).1 w,
        ∃ file, dir'[name]? = some file ∧ file.bytes.length ≤ file.synced) ∧
    ∃ kept, kept <+: appended ∧ appended.length < kept.length + n.toNat ∧
      ((ownSegments (WalWriter.open dir (.every n)).1 w).flatMap fun name =>
        (dir'.powerLoss.getD name File.empty).bytes) = (walCodec crc).encodeAll kept

theorem open_segIdx {files : List File} {dir : Dir} (h : Segments dir files)
    (hfiles : files.length < 10 ^ 10) (fsync : FsyncPolicy) :
    (WalWriter.open dir fsync).1.segIdx.toNat = files.length + 1 := by
  have hidx := (open_writing h hfiles fsync).segIdx
  rwa [List.append_nil] at hidx

/-- What a power loss leaves of some files. -/
theorem flatMap_powerLoss {dir : Dir} {names : List FileName} {files : List File}
    (h : names.map (fun name => dir[name]?) = files.map some) :
    (names.flatMap fun name => (dir.powerLoss.getD name File.empty).bytes) =
      files.flatMap fun file => file.bytes.take file.synced := by
  have hloss : ∀ name, (dir.powerLoss.getD name File.empty).bytes =
      (dir[name]?.map fun file => file.bytes.take file.synced).getD [] := by
    intro name
    unfold Dir.powerLoss
    rw [Std.ExtTreeMap.getD_eq_getD_getElem?, Std.ExtTreeMap.getElem?_map]
    cases dir[name]? <;> rfl
  induction names generalizing files with
  | nil =>
    cases files with
    | nil => rfl
    | cons => cases h
  | cons name names ih =>
    cases files with
    | nil => cases h
    | cons file files =>
      rw [List.map_cons, List.map_cons, List.cons.injEq] at h
      rw [List.flatMap_cons, List.flatMap_cons, hloss, h.1, ih h.2]
      rfl

theorem appendAll_append (w : WalWriter) (dir : Dir) (recs recs' : List WalRecord) :
    w.appendAll crc (recs ++ recs') dir =
      (w.appendAll crc recs dir).bind fun wd => wd.1.appendAll crc recs' wd.2 := by
  unfold WalWriter.appendAll
  rw [List.foldlM_append]
  rfl

section Run

variable {dir dir' : Dir} {files : List File} {w' : WalWriter} (hdir : Segments dir files)
  (hfiles : files.length < 10 ^ 10)
  (happ : (WalWriter.open dir (.every n)).1.appendAll crc recs (WalWriter.open dir (.every n)).2 =
    some (w', dir'))
  (hcount : (listSegments dir').length + 1 < 2 ^ 64)
include hdir hfiles happ hcount

theorem prefix_writing {appended : List WalRecord} {w : WalWriter} {d : Dir}
    (hfront : appended <+: recs)
    (h : (WalWriter.open dir (.every n)).1.appendAll crc appended
      (WalWriter.open dir (.every n)).2 = some (w, d)) :
    Writing files w d (SegmentLog.written crc (.every n) appended) ∧
      w.writeCount = UInt64.ofNat appended.length := by
  obtain ⟨rest, rfl⟩ := hfront
  rw [appendAll_append, h] at happ
  have hle := (appendAll_keeps happ).length_le
  dsimp only at hle
  obtain ⟨hw, -, hcnt⟩ := appendAll_writing hdir hfiles h (by omega)
  exact ⟨hw, hcnt⟩

theorem GroupCommit.syncedFills (hn : n ≠ 0) (h : GroupCommit crc n dir recs) :
    SyncedFills crc n recs := by
  intro m k hmk hk hfills hdue
  have hfront : recs.take k <+: recs := List.take_prefix k recs
  have hlen : (recs.take k).length = k := List.length_take_of_le hk
  obtain ⟨⟨w, d⟩, hrun, -⟩ : ∃ wd, (WalWriter.open dir (.every n)).1.appendAll crc (recs.take k)
      (WalWriter.open dir (.every n)).2 = some wd ∧
        wd.1.appendAll crc (recs.drop k) wd.2 = some (w', dir') := by
    rw [← Option.bind_eq_some_iff, ← appendAll_append, List.take_append_drop]
    exact happ
  obtain ⟨hw, hcnt⟩ := prefix_writing hdir hfiles happ hcount hfront hrun
  rw [hlen] at hcnt
  have htake : (recs.take k).take m = recs.take m := by
    rw [List.take_take, Nat.min_eq_left hmk]
  have hne : recs.take k ≠ [] := by
    intro hnil
    rw [hnil, List.take_nil] at htake
    exact hfills.1 htake.symm
  have hsynced := (h _ w d hfront hrun).1 hne (by rw [hcnt]; exact hdue)
  have hnames := ownSegments_files hw (open_segIdx hdir hfiles (.every n))
  have hall : ∀ file ∈ (SegmentLog.written crc (.every n) (recs.take k)).closed ++
      [(SegmentLog.written crc (.every n) (recs.take k)).current],
        file.bytes.length ≤ file.synced := by
    intro file hfile
    have hmem := List.mem_map_of_mem (f := some) hfile
    rw [← hnames] at hmem
    obtain ⟨name, hname, hlook⟩ := List.mem_map.1 hmem
    obtain ⟨file', hfile', hle⟩ := hsynced name hname
    rw [hlook] at hfile'
    cases hfile'
    exact hle
  have haligned := (all_synced_iff hn hne (by rw [hlen]; exact hdue)).1 hall
  refine haligned m (by omega) ?_
  rwa [htake]

theorem SyncedFills.groupCommit (hn : n ≠ 0) (h : SyncedFills crc n recs) :
    GroupCommit crc n dir recs := by
  intro appended w d hfront hrun
  obtain ⟨hw, hcnt⟩ := prefix_writing hdir hfiles happ hcount hfront hrun
  have hnames := ownSegments_files hw (open_segIdx hdir hfiles (.every n))
  have hsync := h.of_isPrefix hfront
  constructor
  · intro hne hdue name hname
    rw [hcnt] at hdue
    have hmem := List.mem_map_of_mem (f := fun name => d[name]?) hname
    rw [hnames] at hmem
    obtain ⟨file, hfile, hlook⟩ := List.mem_map.1 hmem
    exact ⟨file, hlook.symm, (all_synced_iff hn hne hdue).2 (hsync.aligned hdue) file hfile⟩
  · obtain ⟨kept, rest, rfl, hrest, hdurable, -⟩ := durable_written hn hsync
    refine ⟨kept, ⟨rest, rfl⟩, ?_, ?_⟩
    · have hlt := Nat.mod_lt (UInt64.ofNat (kept ++ rest).length).toNat
        (Nat.pos_of_ne_zero fun h => hn (UInt64.toNat_inj.1 h))
      have hlen : (kept ++ rest).length = kept.length + rest.length := List.length_append
      rw [UInt64.toNat_mod] at hrest
      omega
    · rw [← hdurable]
      unfold SegmentLog.durable
      exact flatMap_powerLoss hnames

end Run

/-- **Group commit.** The promise holds exactly when every segment that fills up before an
fsync fills up at an append that fsyncs itself. -/
theorem groupCommit_iff (hn : n ≠ 0) {sessions : List Session} {dir₀ dir dir' : Dir}
    {w' : WalWriter} (hdir₀ : listSegments dir₀ = [])
    (hrun : runSessions crc sessions dir₀ = some dir)
    (hfiles : (listSegments dir).length < 10 ^ 10)
    (happ : (WalWriter.open dir (.every n)).1.appendAll crc recs
      (WalWriter.open dir (.every n)).2 = some (w', dir'))
    (hcount : (listSegments dir').length + 1 < 2 ^ 64) :
    GroupCommit crc n dir recs ↔ SyncedFills crc n recs := by
  obtain ⟨files, hdir⟩ := sessions_segments hdir₀ hrun hfiles
  rw [hdir.length_listSegments] at hfiles
  exact ⟨GroupCommit.syncedFills hdir hfiles happ hcount hn,
    SyncedFills.groupCommit hdir hfiles happ hcount hn⟩

/-! ## Runs that go through -/

theorem length_listSegments_le {dir dir' : Dir} (name : FileName)
    (h : ∀ other, other ∈ dir' → other = name ∨ other ∈ dir) :
    (listSegments dir').length ≤ (listSegments dir).length + 1 := by
  have hnodup : (listSegments dir').Nodup := (OrderedMap.nodup_keys dir').filter _
  have hsub : listSegments dir' ⊆ name :: listSegments dir := by
    intro other hother
    rw [listSegments, List.mem_filter, Std.ExtTreeMap.mem_keys] at hother
    rw [List.mem_cons, listSegments, List.mem_filter, Std.ExtTreeMap.mem_keys]
    exact (h other hother.1).imp_right fun hmem => ⟨hmem, hother.2⟩
  exact (List.subperm_of_subset hnodup hsub).length_le

/-- An append under `Every(n)` does not panic, and it opens at most one segment. -/
theorem append_every (crc : Bytes → UInt32) (hn : n ≠ 0) {w : WalWriter}
    (hw : w.fsync = .every n) (dir : Dir) (rec : WalRecord) :
    ∃ w' dir', w.append crc dir rec = some (w', dir') ∧ w'.fsync = .every n ∧
      (listSegments dir').length ≤ (listSegments dir).length + 1 := by
  unfold WalWriter.append
  dsimp only
  rw [hw]
  unfold FsyncPolicy.due
  dsimp only
  rw [if_neg hn, Option.bind_eq_bind, Option.bind_some]
  generalize hd : (if decide ((w.writeCount + 1) % n = 0) = true then
    WalWriter.doFsync _ (dir.write w.file (rec.encode crc))
    else dir.write w.file (rec.encode crc)) = d
  have hmem : ∀ other, other ∈ d ↔ other ∈ dir := by
    intro other
    subst hd
    split
    · exact Std.ExtTreeMap.mem_modify.trans Std.ExtTreeMap.mem_modify
    · exact Std.ExtTreeMap.mem_modify
  split
  · refine ⟨_, _, rfl, rfl, length_listSegments_le (segmentPath (w.segIdx + 1)) ?_⟩
    intro other hother
    rw [← hmem]
    unfold WalWriter.rollSegment Dir.openFile at hother
    dsimp only at hother
    split at hother
    · exact .inr hother
    · rcases Std.ExtTreeMap.mem_insert.1 hother with heq | hother
      · exact .inl (Std.LawfulEqCmp.eq_of_compare heq).symm
      · exact .inr hother
  · refine ⟨_, _, rfl, rfl, length_listSegments_le [] fun other hother => ?_⟩
    exact .inr ((hmem other).1 hother)

/-- Appends under `Every(n)` do not panic, and each opens at most one segment. -/
theorem appendAll_every (crc : Bytes → UInt32) (hn : n ≠ 0) (recs : List WalRecord) {w : WalWriter}
    (hw : w.fsync = .every n) (dir : Dir) :
    ∃ w' dir', w.appendAll crc recs dir = some (w', dir') ∧
      (listSegments dir').length ≤ (listSegments dir).length + recs.length := by
  induction recs generalizing w dir with
  | nil => exact ⟨w, dir, rfl, Nat.le_refl _⟩
  | cons rec recs ih =>
    obtain ⟨w₁, dir₁, happ, hfsync, hle⟩ := append_every crc hn hw dir rec
    obtain ⟨w', dir', happs, hle'⟩ := ih hfsync dir₁
    refine ⟨w', dir', ?_, ?_⟩
    · unfold WalWriter.appendAll at happs ⊢
      rw [List.foldlM_cons, happ]
      exact happs
    · rw [List.length_cons]
      omega

/-- A record that would fill a segment by itself fills up any. -/
theorem fills_snoc (recs : List WalRecord) (h : SEGMENT_SIZE ≤ 25 + rec.payload.length) :
    Fills crc (recs ++ [rec]) := by
  refine ⟨by simp, ?_⟩
  unfold segmented
  rw [rolled_snoc]
  unfold roll
  dsimp only
  rw [if_pos]
  rw [Codec.encodeAll_append, Codec.encodeAll_cons, Codec.encodeAll_nil, List.append_nil,
    walCodec_encode, List.length_append, WalRecord.length_encode]
  omega

/-- The next segment fills up as the first one does. -/
theorem fills_append {recs' : List WalRecord} (h : Fills crc recs) (hne : recs' ≠ []) :
    Fills crc (recs ++ recs') ↔ Fills crc recs' := by
  have hnext : (segmented crc (recs ++ recs')).2 = (segmented crc recs').2 := by
    unfold segmented
    rw [rolled_append h.2]
  unfold Fills
  rw [hnext]
  simp [hne]

def smallRecord (seq : Seq) : WalRecord := ⟨seq, 100, .command, []⟩

/-- A record with a payload of 64 MiB. -/
def largeRecord (seq : Seq) : WalRecord := ⟨seq, 100, .command, List.replicate SEGMENT_SIZE 0⟩

theorem largeRecord_fills (crc : Bytes → UInt32) (recs : List WalRecord) (seq : Seq) :
    Fills crc (recs ++ [largeRecord seq]) := by
  refine fills_snoc recs ?_
  have hlen : (largeRecord seq).payload.length = SEGMENT_SIZE := List.length_replicate
  omega

/-- The second record fills the segment and is fsynced. -/
def fsyncedFill : List WalRecord := [smallRecord 1, largeRecord 2, smallRecord 3, smallRecord 4]

theorem groupCommit_sample :
    Fills crc32 (fsyncedFill.take 2) ∧ GroupCommit crc32 2 ∅ fsyncedFill := by
  have hn : (2 : UInt64) ≠ 0 := by decide
  obtain ⟨w', dir', happ, hle⟩ := appendAll_every crc32 hn fsyncedFill
    (w := (WalWriter.open ∅ (.every 2)).1) rfl (WalWriter.open ∅ (.every 2)).2
  have hopen : (listSegments (WalWriter.open ∅ (.every 2)).2).length = 1 := by decide +kernel
  rw [hopen] at hle
  have hcount : (listSegments dir').length + 1 < 2 ^ 64 := by
    have hlen : (listSegments dir').length ≤ 1 + 4 := hle
    omega
  have hfill : Fills crc32 (fsyncedFill.take 2) := largeRecord_fills crc32 [smallRecord 1] 2
  refine ⟨hfill, (@groupCommit_iff crc32 2 _ hn [] ∅ ∅ dir' w' (by decide +kernel) rfl
    (by decide +kernel) happ hcount).2 ?_⟩
  -- the other records are too small to fill a segment
  intro m k hmk hk hfills _
  have hm : m ≤ 4 := Nat.le_trans hmk hk
  have hsmall : ∀ recs, recs ≠ [] → ¬Fills crc32 recs → ¬Fills crc32 (fsyncedFill.take 2 ++ recs) :=
    fun recs hne => mt (fills_append hfill hne).1
  have hthird := hsmall [smallRecord 3] (by simp) (by decide +kernel)
  have hfourth := hsmall [smallRecord 3, smallRecord 4] (by simp) (by decide +kernel)
  obtain rfl | rfl | rfl | rfl | rfl : m = 0 ∨ m = 1 ∨ m = 2 ∨ m = 3 ∨ m = 4 := by omega
  · exact absurd rfl hfills.1
  · exact absurd hfills (by decide +kernel)
  · decide
  · exact absurd hfills hthird
  · exact absurd hfills hfourth

/-- Under `Every(2)`, a large record and one that fsyncs: the first is in a segment that no
fsync has touched. -/
theorem unsynced_segment : ¬GroupCommit crc32 2 ∅ [largeRecord 1, smallRecord 2] := by
  intro h
  have hn : (2 : UInt64) ≠ 0 := by decide
  obtain ⟨w', dir', happ, hle⟩ := appendAll_every crc32 hn [largeRecord 1, smallRecord 2]
    (w := (WalWriter.open ∅ (.every 2)).1) rfl (WalWriter.open ∅ (.every 2)).2
  have hopen : (listSegments (WalWriter.open ∅ (.every 2)).2).length = 1 := by decide +kernel
  rw [hopen] at hle
  have hcount : (listSegments dir').length + 1 < 2 ^ 64 := by
    have hlen : (listSegments dir').length ≤ 1 + 2 := hle
    omega
  have hsync := GroupCommit.syncedFills (segments_nil (by decide +kernel)) (by decide) happ hcount
    hn h
  have hfills : Fills crc32 [largeRecord 1] := largeRecord_fills crc32 [] 1
  exact absurd (hsync 1 2 (by omega) (Nat.le_refl 2) hfills (by decide)) (by decide)

end Exchange
