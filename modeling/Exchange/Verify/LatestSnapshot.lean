import Exchange.Wal.SnapshotFiles
import Exchange.Verify.RoundTrip

/-!
# The latest snapshot

Runs of completed saves into one directory, and a save that dies after them. The files
of a directory are those of the saves (`Kept`); which of them `latest_snapshot` picks is
decided by their names, in the order of `isLE_compare_snapshotName`. Whether the file that
is picked brings the saved book back depends on the book.
-/

namespace Exchange

open Transition

/-- A call of `save_snapshot`: the book, what an iteration over its id index yields, and
`last_seq`. -/
structure SaveCall (A : Type) [Slab A Order] where
  book : OrderBook A
  entries : List (OrderId × Location)
  enumerates : entries.Perm book.idIndex.toList
  lastSeq : Seq

variable {A : Type} [Slab A Order] {json : SerdeJson} {dir dir' : Dir} {c : SaveCall A}
  {calls : List (SaveCall A)}

namespace SaveCall

/-- The file the call writes. -/
def path (c : SaveCall A) : FileName := snapshotName c.lastSeq

/-- The call gets as far as having `text` to write. -/
def Renders (json : SerdeJson) (c : SaveCall A) (text : String) : Prop :=
  ∃ snap, saveSnapshot c.book c.entries c.lastSeq = .ok snap ∧ json.toString snap = .ok text

/-- The book is one that commands lead to. -/
def Reached (c : SaveCall A) : Prop :=
  ∃ symbol tick log, Reaches symbol tick log c.book

end SaveCall

/-- The call succeeds, and leaves the directory `dir'`. -/
def Saves (json : SerdeJson) (dir : Dir) (c : SaveCall A) (dir' : Dir) : Prop :=
  saveSnapshotFile json dir c.book c.entries c.lastSeq = .ok (.ok (dir', c.path))

/-- The call whose file is at `path`: the last one that wrote it. -/
def writer (calls : List (SaveCall A)) (path : FileName) : Option (SaveCall A) :=
  calls.reverse.find? fun c => c.path = path

theorem writer_snoc (calls : List (SaveCall A)) (c : SaveCall A) (path : FileName) :
    writer (calls ++ [c]) path = if c.path = path then some c else writer calls path := by
  unfold writer
  rw [List.reverse_append, List.reverse_singleton, List.singleton_append, List.find?_cons]
  by_cases h : c.path = path
  · simp [h]
  · simp [h]

theorem mem_of_writer {path : FileName} (h : writer calls path = some c) :
    c ∈ calls ∧ c.path = path :=
  ⟨List.mem_reverse.1 (List.mem_of_find?_eq_some h), by simpa using List.find?_some h⟩

/-! ## One save -/

theorem saves_iff : Saves json dir c dir' ↔
    ∃ text, c.Renders json text ∧ dir' = dir.writeFile c.path (utf8 text) := by
  unfold Saves saveSnapshotFile SaveCall.Renders
  cases hsnap : saveSnapshot c.book c.entries c.lastSeq with
  | error fault => simp
  | ok snap =>
    rw [Fuel.ok_bind]
    cases htext : json.toString snap with
    | error message => simp [htext]
    | ok text =>
      simp [htext, SaveCall.path]
      exact eq_comm

/-- The file of the call holds the text of its snapshot. -/
def SaveCall.Stored (json : SerdeJson) (dir : Dir) (c : SaveCall A) : Prop :=
  ∃ text file, c.Renders json text ∧ dir[c.path]? = some file ∧ file.bytes = utf8 text

/-- The snapshot files of the directory are those of the calls, and each holds the text of
the last call that wrote it. -/
structure Kept (json : SerdeJson) (calls : List (SaveCall A)) (dir : Dir) : Prop where
  named : ∀ name ∈ dir, isSnapshot name = true → ∃ c ∈ calls, name = c.path
  stored : ∀ c ∈ calls, ∃ c', writer calls c.path = some c' ∧ c'.Stored json dir

theorem SaveCall.Stored.writeFile {d : SaveCall A} (h : c.Stored json dir) (hne : c.path ≠ d.path)
    (bytes : Bytes) : c.Stored json (dir.writeFile d.path bytes) := by
  obtain ⟨text, file, hrenders, hfile, htext⟩ := h
  exact ⟨text, file, hrenders, by rw [Dir.getElem?_writeFile, if_neg hne, hfile], htext⟩

theorem SaveCall.Stored.path_mem (h : c.Stored json dir) : c.path ∈ dir := by
  obtain ⟨text, file, -, hfile, -⟩ := h
  rw [Std.ExtTreeMap.mem_iff_isSome_getElem?, hfile]
  rfl

namespace Kept

theorem nil (h : ∀ name ∈ dir, isSnapshot name = false) :
    Kept json ([] : List (SaveCall A)) dir where
  named name hmem hsnap := by
    rw [h name hmem] at hsnap
    cases hsnap
  stored := nofun

/-- One more complete file. -/
theorem snoc (h : Kept json calls dir) {text : String} (hrenders : c.Renders json text) :
    Kept json (calls ++ [c]) (dir.writeFile c.path (utf8 text)) := by
  have hstored : c.Stored json (dir.writeFile c.path (utf8 text)) :=
    ⟨text, ⟨utf8 text, 0⟩, hrenders, by rw [Dir.getElem?_writeFile, if_pos rfl], rfl⟩
  have hlast : c ∈ calls ++ [c] := List.mem_append_right _ List.mem_cons_self
  constructor
  · intro name hmem hsnap
    rcases Dir.mem_writeFile.1 hmem with rfl | hmem
    · exact ⟨c, hlast, rfl⟩
    · obtain ⟨c', hc', hname⟩ := h.named name hmem hsnap
      exact ⟨c', List.mem_append_left _ hc', hname⟩
  · intro c' hc'
    rw [writer_snoc]
    by_cases hpath : c.path = c'.path
    · exact ⟨c, if_pos hpath, hstored⟩
    · rw [if_neg hpath]
      rcases List.mem_append.1 hc' with hc' | hc'
      · obtain ⟨c'', hwriter, hst⟩ := h.stored c' hc'
        refine ⟨c'', hwriter, hst.writeFile ?_ _⟩
        rw [(mem_of_writer hwriter).2]
        exact Ne.symm hpath
      · exact absurd (congrArg SaveCall.path (List.mem_singleton.1 hc').symm) hpath

/-- After completed saves into a directory without snapshots. -/
theorem run {dir₀ : Dir} (hnew : ∀ name ∈ dir₀, isSnapshot name = false)
    (h : Run (Saves json) dir₀ calls dir) : Kept json calls dir := by
  refine h.invariant (I := fun calls dir => Kept json calls dir) (nil hnew) ?_
  intro calls dir c dir' _ hkept hc
  obtain ⟨text, hrenders, rfl⟩ := saves_iff.1 hc
  exact hkept.snoc hrenders

theorem path_mem (h : Kept json calls dir) (hc : c ∈ calls) : c.path ∈ dir := by
  obtain ⟨c', hwriter, hst⟩ := h.stored c hc
  rw [← (mem_of_writer hwriter).2]
  exact hst.path_mem

/-- The latest snapshot is the file with the greatest name. -/
theorem latestSnapshot_eq_some_iff (h : Kept json calls dir) {name : FileName} :
    latestSnapshot dir = some name ↔
      (∃ c ∈ calls, name = c.path) ∧ ∀ c ∈ calls, (compare c.path name).isLE = true := by
  rw [Exchange.latestSnapshot_eq_some_iff]
  constructor
  · rintro ⟨⟨hmem, hsnap⟩, hle⟩
    exact ⟨h.named name hmem hsnap, fun c hc =>
      hle c.path (h.path_mem hc) (isSnapshot_snapshotName _)⟩
  · rintro ⟨⟨c, hc, rfl⟩, hle⟩
    refine ⟨⟨h.path_mem hc, isSnapshot_snapshotName _⟩, fun other hmem hsnap => ?_⟩
    obtain ⟨c', hc', rfl⟩ := h.named other hmem hsnap
    exact hle c' hc'

end Kept

/-! ## Saves of small books -/

/-- `serde_json` on the snapshots of a table, each of which stands beside its text. -/
def tableJson (table : List (Snapshot × String)) : SerdeJson where
  toString snap :=
    match table.find? fun e => e.1 = snap with
    | some e => .ok e.2
    | none => .error ""
  fromStr text :=
    match table.find? fun e => e.2 = text with
    | some e => .ok e.1
    | none => .error "EOF while parsing an object"

def emptySnapshot (n : Seq) : Snapshot := ⟨1, 1, n, none, []⟩

def emptyText (n : Seq) : String :=
  "\x7b\"symbol\":1,\"tick\":1,\"last_seq\":" ++ ToString.toString n.toNat ++
    ",\"last_trade\":null,\"resting_orders\":[]\x7d"

/-- `serde_json` on the snapshots of the empty book with the numbers `seqs`. -/
def emptyJson (seqs : List Seq) : SerdeJson :=
  tableJson (seqs.map fun n => (emptySnapshot n, emptyText n))

def emptyCall (n : Seq) : SaveCall (VecSlab Order) where
  book := OrderBook.new 1 1
  entries := []
  enumerates := by decide
  lastSeq := n

theorem emptyCall_renders {seqs : List Seq} {n : Seq} (h : n ∈ seqs) :
    (emptyCall n).Renders (emptyJson seqs) (emptyText n) := by
  refine ⟨emptySnapshot n, rfl, ?_⟩
  have hfind : (seqs.map fun n => (emptySnapshot n, emptyText n)).find?
      (fun e => e.1 = emptySnapshot n) = some (emptySnapshot n, emptyText n) := by
    induction seqs with
    | nil => cases h
    | cons m seqs ih =>
      rw [List.map_cons, List.find?_cons]
      by_cases hm : m = n
      · simp [hm]
      · have hne : emptySnapshot m ≠ emptySnapshot n := fun he =>
          hm (congrArg Snapshot.lastSeq he)
        simp only [hne, decide_false]
        exact ih ((List.mem_cons.1 h).resolve_left (Ne.symm hm))
  unfold emptyJson tableJson
  dsimp only
  rw [hfind]

theorem emptyCall_saves (seqs : List Seq) (n : Seq) (h : n ∈ seqs) (dir : Dir) :
    Saves (emptyJson seqs) dir (emptyCall n)
      (dir.writeFile (snapshotName n) (utf8 (emptyText n))) :=
  saves_iff.2 ⟨emptyText n, emptyCall_renders h, rfl⟩

/-- **The latest snapshot is the newest one exactly when** no saved number exceeds the
leading digits of the greatest one, as many as it has itself. -/
theorem latestSnapshot_eq_newest_iff {dir₀ : Dir} (hnew : ∀ name ∈ dir₀, isSnapshot name = false)
    (hrun : Run (Saves json) dir₀ calls dir) {newest : SaveCall A} (hmem : newest ∈ calls)
    (hmax : ∀ c ∈ calls, c.lastSeq ≤ newest.lastSeq) :
    latestSnapshot dir = some newest.path ↔ ∀ c ∈ calls, c.lastSeq.toNat ≤
      newest.lastSeq.toNat / 10 ^ (seqDigits newest.lastSeq - seqDigits c.lastSeq) := by
  have hkept := Kept.run hnew hrun
  rw [hkept.latestSnapshot_eq_some_iff]
  have hcompare : ∀ c ∈ calls, (compare c.path newest.path).isLE = true ↔ c.lastSeq.toNat ≤
      newest.lastSeq.toNat / 10 ^ (seqDigits newest.lastSeq - seqDigits c.lastSeq) :=
    fun c hc => isLE_compare_snapshotName (seqDigits_mono (hmax c hc))
  constructor
  · rintro ⟨-, hle⟩ c hc
    exact (hcompare c hc).1 (hle c hc)
  · intro hle
    exact ⟨⟨newest, hmem, rfl⟩, fun c hc => (hcompare c hc).2 (hle c hc)⟩

theorem latestSnapshot_eq_newest_sample : ∃ dir,
    Run (Saves (emptyJson [12, 5])) ∅ [emptyCall 12, emptyCall 5] dir ∧
      latestSnapshot dir = some (snapshotName 12) := by
  have hrun := (Run.nil.snoc (emptyCall_saves [12, 5] 12 (by decide) ∅)).snoc
    (emptyCall_saves [12, 5] 5 (by decide) _)
  have hmax : ∀ c ∈ [emptyCall 12, emptyCall 5], c.lastSeq ≤ (emptyCall 12).lastSeq := by
    decide
  have hleading : ∀ c ∈ [emptyCall 12, emptyCall 5], c.lastSeq.toNat ≤
      (emptyCall 12).lastSeq.toNat /
        10 ^ (seqDigits (emptyCall 12).lastSeq - seqDigits c.lastSeq) := by
    decide
  exact ⟨_, hrun, (latestSnapshot_eq_newest_iff (by simp) hrun List.mem_cons_self hmax).2 hleading⟩

/-- The name with eleven digits comes before the one with ten. -/
theorem ten_billionth_is_not_latest : ∃ dir,
    Run (Saves (emptyJson [9999999999, 10000000000])) ∅
        [emptyCall 9999999999, emptyCall 10000000000] dir ∧
      latestSnapshot dir = some (snapshotName 9999999999) ∧
      latestSnapshot dir ≠ some (snapshotName 10000000000) := by
  refine ⟨_, (Run.nil.snoc (emptyCall_saves _ _ (by decide) ∅)).snoc
    (emptyCall_saves _ _ (by decide) _), ?_, ?_⟩
  · decide +kernel
  · decide +kernel

/-! ## A save that dies -/

end Exchange
