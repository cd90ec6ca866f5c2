import Exchange.Lib.LittleEndian
import Exchange.Lib.FramedLog
import Exchange.Core.Types

/-!
# Log records

`record.rs` of the `wal` crate. The checksum is that of the `crc32fast` crate; what
the log does does not depend on which function it is, so it is a parameter, and
`crc32` is the crate's.
-/

namespace Exchange

open LittleEndian

abbrev Bytes := List UInt8

inductive RecordType
  | command
  | event
  | snap
  deriving DecidableEq, Repr

namespace RecordType

/-- `rec_type as u8`. -/
def toU8 : RecordType → UInt8
  | command => 1
  | event => 2
  | snap => 3

def fromU8 (b : UInt8) : Option RecordType :=
  if b = 1 then some command
  else if b = 2 then some event
  else if b = 3 then some snap
  else none

@[simp] theorem fromU8_toU8 (t : RecordType) : fromU8 t.toU8 = some t := by
  cases t <;> rfl

end RecordType

structure WalRecord where
  seq : Seq
  ts : Ts
  recType : RecordType
  payload : Bytes
  deriving DecidableEq, Repr

inductive WalError
  | io
  | crc (expected actual : UInt32)
  | truncated (offset : Nat)
  | serialise (message : String)
  deriving DecidableEq, Repr

/-- One step of the bitwise CRC-32: shift out a bit, reflected polynomial. -/
def crc32Bit (h : UInt32) : UInt32 :=
  if h &&& 1 = 1 then (h >>> 1) ^^^ 0xEDB88320 else h >>> 1

/-- The CRC-32 of `crc32fast`. -/
def crc32 (data : Bytes) : UInt32 :=
  (data.foldl (fun h b => Nat.iterate crc32Bit 8 (h ^^^ b.toUInt32)) 0xFFFFFFFF) ^^^ 0xFFFFFFFF

namespace WalRecord

/-- What the checksum covers. -/
def body (r : WalRecord) : Bytes :=
  toBytes 8 r.seq.toNat ++ toBytes 8 r.ts.toNat ++ [r.recType.toU8] ++ r.payload

@[simp] theorem length_body (r : WalRecord) : r.body.length = 17 + r.payload.length := by
  simp [body]
  omega

variable (crc : Bytes → UInt32)

/-- `encode`: length, checksum, body. The length is cast to `u32`. -/
def encode (r : WalRecord) : Bytes :=
  toBytes 4 (UInt32.ofNat r.body.length).toNat ++ toBytes 4 (crc r.body).toNat ++ r.body

@[simp] theorem length_encode (r : WalRecord) : (r.encode crc).length = 25 + r.payload.length := by
  simp [encode]
  omega

/-- `decode`: the record at the start of the buffer and the bytes it takes. -/
def decode (buf : Bytes) : Except WalError (WalRecord × Nat) :=
  if buf.length < 8 then .error (.truncated 0)
  else
    let payloadLen := ofBytes (buf.take 4)
    let storedCrc := UInt32.ofNat (ofBytes ((buf.drop 4).take 4))
    let total := 8 + payloadLen
    if buf.length < total then .error (.truncated 8)
    else
      let body := (buf.take total).drop 8
      let actualCrc := crc body
      if actualCrc ≠ storedCrc then .error (.crc storedCrc actualCrc)
      else if body.length < 17 then .error (.truncated 8)
      else
        let seq := UInt64.ofNat (ofBytes (body.take 8))
        let ts := UInt64.ofNat (ofBytes ((body.drop 8).take 8))
        match RecordType.fromU8 (body.getD 16 0) with
        | none => .error (.serialise s!"unknown rec_type {body.getD 16 0}")
        | some recType => .ok (⟨seq, ts, recType, body.drop 17⟩, total)

/-- `&buf[i..j]`; out of range it panics. -/
def slice? (buf : Bytes) (i j : Nat) : Option Bytes :=
  if i ≤ j ∧ j ≤ buf.length then some ((buf.take j).drop i) else none

/-- `try_into().unwrap()` into an array of `n` bytes. -/
def array? (n : Nat) (buf : Bytes) : Option Bytes := if buf.length = n then some buf else none

/-- `decode` with its slices and indices; `none` is a panic. -/
def decode? (buf : Bytes) : Option (Except WalError (WalRecord × Nat)) :=
  if buf.length < 8 then some (.error (.truncated 0))
  else do
    let payloadLen := ofBytes (← array? 4 (← slice? buf 0 4))
    let storedCrc := UInt32.ofNat (ofBytes (← array? 4 (← slice? buf 4 8)))
    let total := 8 + payloadLen
    if buf.length < total then return .error (.truncated 8)
    else
      let body ← slice? buf 8 total
      let actualCrc := crc body
      if actualCrc ≠ storedCrc then return .error (.crc storedCrc actualCrc)
      else if body.length < 17 then return .error (.truncated 8)
      else
        let seq := UInt64.ofNat (ofBytes (← array? 8 (← slice? body 0 8)))
        let ts := UInt64.ofNat (ofBytes (← array? 8 (← slice? body 8 16)))
        let tag ← body[16]?
        match RecordType.fromU8 tag with
        | none => return .error (.serialise s!"unknown rec_type {tag}")
        | some recType => return .ok (⟨seq, ts, recType, ← slice? body 17 body.length⟩, total)

end WalRecord

/-- `WalError::Truncated(_)`. -/
def WalError.isTruncated : WalError → Bool
  | .truncated _ => true
  | _ => false

/-- The record format as a codec. -/
def walCodec (crc : Bytes → UInt32) : FramedLog.Codec UInt8 WalRecord WalError where
  encode := WalRecord.encode crc
  decode := WalRecord.decode crc
  torn := WalError.isTruncated

/-- The length of the body fits the length field. -/
def WalRecord.Fits (r : WalRecord) : Prop := r.payload.length < 2 ^ 32 - 17

instance (r : WalRecord) : Decidable r.Fits :=
  inferInstanceAs (Decidable (r.payload.length < 2 ^ 32 - 17))

end Exchange
