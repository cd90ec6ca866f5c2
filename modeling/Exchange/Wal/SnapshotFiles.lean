import Exchange.Wal.Segment
import Exchange.Wal.Snapshot

/-!
# Snapshot files

`snapshot.rs` on the directory: where `save_snapshot` writes the text of a snapshot and
what `load_snapshot` and `latest_snapshot` find there. The directory exists and operations
on files do not fail, but a file may be missing or not be text. The text is made and read
by `serde_json`, a parameter; `SerdeJson.Lawful` is what the proofs take from it.
-/

namespace Exchange

open Std

/-- `to_string` and `from_str` of `serde_json`, at the type `Snapshot`. -/
structure SerdeJson where
  toString : Snapshot → Except String String
  fromStr : String → Except String Snapshot

/-! ## Text -/

def utf8 (text : String) : Bytes := text.toUTF8.data.toList

/-- `serde_json` reads back what it wrote, and nothing that was cut short: every snapshot is
written as an object, which its last brace closes. -/
structure SerdeJson.Lawful (json : SerdeJson) : Prop where
  readsBack : ∀ {snap text}, json.toString snap = .ok text → json.fromStr text = .ok snap
  rejectsCut : ∀ {snap text cut rest}, json.toString snap = .ok text →
    utf8 text = utf8 cut ++ rest → rest ≠ [] → ∃ message, json.fromStr cut = .error message

/-! ## Names -/

def snapshotStem : FileName := ['s', 'n', 'a', 'p', 's', 'h', 'o', 't', '-']

def jsonExtension : FileName := ['j', 's', 'o', 'n']

/-- `snapshot-{:010}.json`. -/
def snapshotName (lastSeq : Seq) : FileName :=
  snapshotStem ++ (Decimal.padded 10 lastSeq.toNat ++ '.' :: jsonExtension)

/-- Does the name start with `snapshot-` and end with `.json`? -/
def isSnapshot (name : FileName) : Bool :=
  snapshotStem.isPrefixOf name && ('.' :: jsonExtension).isSuffixOf name

/-- `latest_snapshot`, within its directory. -/
def latestSnapshot (dir : Dir) : Option FileName :=
  OrderedMap.greatest? compare (dir.keys.filter isSnapshot)

/-! ## Files -/

/-- `File::create`: an empty file, also in the place of another. -/
def Dir.create (dir : Dir) (name : FileName) : Dir := dir.insert name File.empty

/-- `fs::write`. -/
def Dir.writeFile (dir : Dir) (name : FileName) (bytes : Bytes) : Dir :=
  (dir.create name).write name bytes

section Snapshot

variable {A : Type} [Slab A Order] (json : SerdeJson)

/-- `save_snapshot`: the directory it leaves and the path it returns. -/
def saveSnapshotFile (dir : Dir) (b : OrderBook A) (entries : List (OrderId × Location))
    (lastSeq : Seq) : Outcome (Except WalError (Dir × FileName)) := do
  let snap ← saveSnapshot b entries lastSeq
  let path := snapshotName lastSeq
  match json.toString snap with
  | .error message => return .error (.serialise message)
  | .ok text => return .ok (dir.writeFile path (utf8 text), path)

end Snapshot

/-! ## The latest snapshot -/

theorem latestSnapshot_eq_some_iff {dir : Dir} {name : FileName} :
    latestSnapshot dir = some name ↔ (name ∈ dir ∧ isSnapshot name = true) ∧
      ∀ other ∈ dir, isSnapshot other = true → (compare other name).isLE = true := by
  unfold latestSnapshot
  rw [OrderedMap.greatest?_eq_some_iff, List.mem_filter, ExtTreeMap.mem_keys]
  refine and_congr_right fun _ => forall_congr' fun other => ?_
  rw [List.mem_filter, ExtTreeMap.mem_keys, and_imp]

/-- The digits that the name of a snapshot has. -/
def seqDigits (lastSeq : Seq) : Nat := (Decimal.padded 10 lastSeq.toNat).length

theorem seqDigits_mono {m n : Seq} (h : m ≤ n) : seqDigits m ≤ seqDigits n :=
  Decimal.length_padded_mono (UInt64.le_iff_toNat_le.1 h)

@[simp] theorem isSnapshot_snapshotName (n : Seq) : isSnapshot (snapshotName n) = true := by
  unfold isSnapshot snapshotName
  rw [Bool.and_eq_true, List.isPrefixOf_iff_prefix, List.isSuffixOf_iff_suffix]
  refine ⟨List.prefix_append _ _, ?_⟩
  rw [← List.append_assoc]
  exact List.suffix_append _ _

/-- Names are ordered by the leading digits of the numbers: the dot comes before every digit. -/
theorem isLE_compare_snapshotName {m n : Seq} (h : seqDigits m ≤ seqDigits n) :
    (compare (snapshotName m) (snapshotName n)).isLE = true ↔
      m.toNat ≤ n.toNat / 10 ^ (seqDigits n - seqDigits m) := by
  have hself : compare snapshotStem snapshotStem = .eq := ReflCmp.compare_self
  unfold snapshotName
  rw [Decimal.compare_append rfl, hself]
  exact Decimal.isLE_compare_padded h (by decide) jsonExtension

theorem Dir.getElem?_writeFile (dir : Dir) (name other : FileName) (bytes : Bytes) :
    (dir.writeFile name bytes)[other]? = if other = name then some ⟨bytes, 0⟩ else dir[other]? := by
  unfold Dir.writeFile Dir.write Dir.create
  rw [OrderedMap.getElem?_modify, OrderedMap.getElem?_insert]
  by_cases h : other = name
  · rw [if_pos h, if_pos h, if_pos rfl]
    rfl
  · rw [if_neg h, if_neg h, OrderedMap.getElem?_insert, if_neg h]

theorem Dir.mem_writeFile {dir : Dir} {name other : FileName} {bytes : Bytes} :
    other ∈ dir.writeFile name bytes ↔ other = name ∨ other ∈ dir := by
  rw [ExtTreeMap.mem_iff_isSome_getElem?, Dir.getElem?_writeFile,
    ExtTreeMap.mem_iff_isSome_getElem?]
  split
  · next h => simp [h]
  · next h => simp [h]

end Exchange
