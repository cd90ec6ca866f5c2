import Exchange.Lib.Decimal
import Exchange.Lib.OrderedMap
import Exchange.Wal.Record

/-!
# Segment files

`segment.rs` of the `wal` crate, over a model of the directory: files by name, and
of each file its bytes and how many of them are on stable storage. Names are
compared as the source compares paths, and `read_dir` followed by `sort` is the list
of the keys. The operations on files do not fail here.
-/

namespace Exchange

open Std

abbrev FileName := List Char

structure File where
  bytes : Bytes
  /-- The length that the last `sync_data` covered. -/
  synced : Nat
  deriving DecidableEq, Repr

def File.empty : File := ⟨[], 0⟩

abbrev Dir := ExtTreeMap FileName File compare

/-- 64 MiB per segment. -/
def SEGMENT_SIZE : Nat := 64 * 1024 * 1024

/-! ## Names -/

/-- `rsplit_file_at_dot`: what precedes the last dot of a name, and what follows it. A name
whose only dot is its first character has no extension. -/
def splitAtDot (name : FileName) : FileName × Option FileName :=
  let after := (name.reverse.takeWhile (· ≠ '.')).reverse
  let before := (name.reverse.dropWhile (· ≠ '.')).reverse
  if name = ['.', '.'] ∨ before.length ≤ 1 then (name, none) else (before.dropLast, some after)

/-- `Path::file_stem`. -/
def fileStem (name : FileName) : FileName := (splitAtDot name).1

/-- `Path::extension`. -/
def extension (name : FileName) : Option FileName := (splitAtDot name).2

/-- `str::parse::<u64>`. -/
def parseU64 (s : List Char) : Option UInt64 :=
  let digits := match s with
    | '+' :: rest => rest
    | _ => s
  if digits.isEmpty || !digits.all Char.isDigit then none
  else if Decimal.value digits < 2 ^ 64 then some (UInt64.ofNat (Decimal.value digits))
  else none

def walExtension : FileName := ['w', 'a', 'l']

/-- Parse the segment index from a file name. -/
def segmentIndex (name : FileName) : Option UInt64 := parseU64 (fileStem name)

/-- `{:010}.wal`. -/
def segmentName (n : Nat) : FileName := Decimal.padded 10 n ++ '.' :: walExtension

/-- `segment_path`, within its directory. -/
def segmentPath (idx : UInt64) : FileName := segmentName idx.toNat

/-- Is this the name of a segment? -/
def isSegment (name : FileName) : Bool := extension name = some walExtension

/-- All existing segments, in ascending order. -/
def listSegments (dir : Dir) : List FileName := dir.keys.filter isSegment

/-! ## Files -/

/-- Open a file for appending, creating it if it does not exist. -/
def Dir.openFile (dir : Dir) (name : FileName) : Dir :=
  if name ∈ dir then dir else dir.insert name File.empty

/-- `write_all` at the end of a file. -/
def Dir.write (dir : Dir) (name : FileName) (bytes : Bytes) : Dir :=
  dir.modify name fun file => { file with bytes := file.bytes ++ bytes }

/-- `sync_data`. -/
def Dir.sync (dir : Dir) (name : FileName) : Dir :=
  dir.modify name fun file => { file with synced := file.bytes.length }

/-- The directory after a crash that loses the bytes of a file from `len` on. -/
def Dir.truncate (dir : Dir) (name : FileName) (len : Nat) : Dir :=
  dir.modify name fun file => { file with bytes := file.bytes.take len }

/-- The directory after an overwrite of some bytes of a file. -/
def Dir.overwrite (dir : Dir) (name : FileName) (offset : Nat) (bytes : Bytes) : Dir :=
  dir.modify name fun file => { file with
    bytes := file.bytes.take offset ++ bytes ++ file.bytes.drop (offset + bytes.length) }

/-- The directory after a power loss that keeps only what was synced. -/
def Dir.powerLoss (dir : Dir) : Dir :=
  dir.map fun _ file => { file with bytes := file.bytes.take file.synced }

/-! ## Names of segments -/

theorem splitAtDot_segmentName (n : Nat) :
    splitAtDot (segmentName n) = (Decimal.padded 10 n, some walExtension) := by
  have hrev : (segmentName n).reverse =
      'l' :: 'a' :: 'w' :: '.' :: (Decimal.padded 10 n).reverse := by
    simp [segmentName, walExtension]
  have hdots : segmentName n ≠ ['.', '.'] := by
    intro h
    have hlength := congrArg List.length h
    simp [segmentName, walExtension] at hlength
  unfold splitAtDot
  simp [hrev, walExtension, hdots]
  exact Decimal.padded_ne_nil 10 n

@[simp] theorem isSegment_segmentName (n : Nat) : isSegment (segmentName n) = true := by
  unfold isSegment extension
  rw [splitAtDot_segmentName]
  rfl

theorem segmentName_injective {m n : Nat} (h : segmentName m = segmentName n) : m = n :=
  Decimal.padded_injective (List.append_cancel_right h)

@[simp] theorem segmentName_inj {m n : Nat} : segmentName m = segmentName n ↔ m = n :=
  ⟨segmentName_injective, congrArg segmentName⟩

theorem segmentPath_ofNat {n : Nat} (h : n < 2 ^ 64) :
    segmentPath (UInt64.ofNat n) = segmentName n := by
  unfold segmentPath
  rw [UInt64.toNat_ofNat_of_lt' h]

theorem parseU64_padded (idx : UInt64) : parseU64 (Decimal.padded 10 idx.toNat) = some idx := by
  have hdigits : ∀ c ∈ Decimal.padded 10 idx.toNat, c.isDigit = true :=
    fun c => Decimal.isDigit_of_mem_padded
  have hvalue := Decimal.value_padded 10 idx.toNat
  have hne := Decimal.padded_ne_nil 10 idx.toNat
  unfold parseU64
  generalize Decimal.padded 10 idx.toNat = s at hdigits hvalue hne ⊢
  cases s with
  | nil => exact absurd rfl hne
  | cons c s =>
    have hplus : c ≠ '+' := by
      rintro rfl
      exact absurd (hdigits '+' List.mem_cons_self) (by decide)
    have hmatch : (match c :: s with
        | '+' :: rest => rest
        | _ => c :: s) = c :: s := by
      split
      · next h => cases h; exact absurd rfl hplus
      · rfl
    have hall : (c :: s).all Char.isDigit = true := List.all_eq_true.2 hdigits
    dsimp only
    rw [hmatch, hall, hvalue, if_pos idx.toNat_lt, UInt64.ofNat_toNat]
    rfl

/-- The index is read back from the name. -/
theorem segmentIndex_segmentPath (idx : UInt64) :
    segmentIndex (segmentPath idx) = some idx := by
  unfold segmentIndex fileStem segmentPath
  rw [splitAtDot_segmentName]
  exact parseU64_padded idx

/-- The names of fewer than `10 ^ 10` segments come in the order of their indices. -/
theorem compare_segmentName {m n : Nat} (h : m < n) (hn : n < 10 ^ 10) :
    compare (segmentName m) (segmentName n) = .lt := by
  have hlen : (Decimal.padded 10 m).length = (Decimal.padded 10 n).length :=
    (Decimal.length_padded (by omega) (Nat.lt_trans h hn)).trans
      (Decimal.length_padded (by omega) hn).symm
  unfold segmentName
  rw [Decimal.compare_append hlen, Decimal.compare_padded (by omega) h hn]
  rfl

end Exchange
