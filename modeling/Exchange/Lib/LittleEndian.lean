import Mathlib.Algebra.Order.Ring.Nat

/-!
# Little-endian numbers

Numbers as fixed-width byte strings, least significant byte first.
-/

namespace LittleEndian

/-- The low `width` bytes of `n`. -/
def toBytes : Nat → Nat → List UInt8
  | 0, _ => []
  | width + 1, n => UInt8.ofNat n :: toBytes width (n / 256)

def ofBytes : List UInt8 → Nat
  | [] => 0
  | b :: bs => b.toNat + 256 * ofBytes bs

@[simp] theorem length_toBytes (width n : Nat) : (toBytes width n).length = width := by
  induction width generalizing n with
  | zero => rfl
  | succ width ih => simp [toBytes, ih]

theorem ofBytes_toBytes (width n : Nat) : ofBytes (toBytes width n) = n % 256 ^ width := by
  induction width generalizing n with
  | zero => simp [toBytes, ofBytes, Nat.mod_one]
  | succ width ih =>
    have hpow : 256 ^ (width + 1) = 256 * 256 ^ width := pow_succ' 256 width
    rw [toBytes, ofBytes, ih, UInt8.toNat_ofNat', hpow, Nat.mod_mul]

theorem ofBytes_toBytes_of_lt {width n : Nat} (h : n < 256 ^ width) :
    ofBytes (toBytes width n) = n := by
  rw [ofBytes_toBytes, Nat.mod_eq_of_lt h]

theorem toBytes_ofBytes (bs : List UInt8) : toBytes bs.length (ofBytes bs) = bs := by
  induction bs with
  | nil => rfl
  | cons b bs ih =>
    have hb := b.toNat_lt
    have hhead : UInt8.ofNat (b.toNat + 256 * ofBytes bs) = b := by
      refine UInt8.toNat_inj.1 ?_
      rw [UInt8.toNat_ofNat']
      omega
    have htail : (b.toNat + 256 * ofBytes bs) / 256 = ofBytes bs := by omega
    rw [List.length_cons, ofBytes, toBytes, hhead, htail, ih]

theorem toBytes_ofBytes_of_length {width : Nat} {bs : List UInt8} (h : bs.length = width) :
    toBytes width (ofBytes bs) = bs := by
  rw [← h, toBytes_ofBytes]

theorem ofBytes_lt (bs : List UInt8) : ofBytes bs < 256 ^ bs.length := by
  induction bs with
  | nil => exact Nat.one_pos
  | cons b bs ih =>
    have hb := b.toNat_lt
    have hpow : 256 ^ (bs.length + 1) = 256 * 256 ^ bs.length := pow_succ' 256 bs.length
    rw [List.length_cons, hpow, ofBytes]
    omega

end LittleEndian
