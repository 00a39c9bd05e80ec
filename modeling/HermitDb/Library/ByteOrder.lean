import Mathlib.Algebra.Order.Ring.Nat
import Mathlib.Tactic.Common

/-!
# Integers as bytes of a fixed width

A byte order writes a number as any given number of bytes and reads it back.
The laws are all a format needs, so that what is proved of a format holds on a
host of either order.
-/

namespace HermitDb.Library

structure ByteOrder where
  encode : Nat → Nat → List UInt8
  decode : List UInt8 → Nat
  length_encode : ∀ width number, (encode width number).length = width
  decode_lt : ∀ bytes, decode bytes < 256 ^ bytes.length
  decode_encode : ∀ width number, number < 256 ^ width →
    decode (encode width number) = number
  encode_decode : ∀ bytes, encode bytes.length (decode bytes) = bytes

/-- Least significant byte first. -/
def littleBytes : Nat → Nat → List UInt8
  | 0, _ => []
  | width + 1, number => UInt8.ofNat number :: littleBytes width (number / 256)

def littleValue : List UInt8 → Nat
  | [] => 0
  | byte :: bytes => byte.toNat + 256 * littleValue bytes

theorem length_littleBytes (width number : Nat) :
    (littleBytes width number).length = width := by
  induction width generalizing number with
  | zero => rfl
  | succ width induction => rw [littleBytes, List.length_cons, induction]

theorem littleValue_lt (bytes : List UInt8) :
    littleValue bytes < 256 ^ bytes.length := by
  induction bytes with
  | nil => exact Nat.one_pos
  | cons byte bytes induction =>
      have bound : byte.toNat < 256 := byte.toNat_lt
      rw [littleValue, List.length_cons, pow_succ]
      omega

theorem littleValue_littleBytes (width number : Nat)
    (bound : number < 256 ^ width) :
    littleValue (littleBytes width number) = number := by
  induction width generalizing number with
  | zero =>
      rw [pow_zero, Nat.lt_one_iff] at bound
      rw [bound, littleBytes, littleValue]
  | succ width induction =>
      have rest : number / 256 < 256 ^ width :=
        Nat.div_lt_of_lt_mul (by rwa [pow_succ'] at bound)
      have low : (UInt8.ofNat number).toNat = number % 256 :=
        UInt8.toNat_ofNat'
      rw [littleBytes, littleValue, induction _ rest, low]
      exact Nat.mod_add_div number 256

theorem littleBytes_littleValue (bytes : List UInt8) :
    littleBytes bytes.length (littleValue bytes) = bytes := by
  induction bytes with
  | nil => rfl
  | cons byte bytes induction =>
      have bound : byte.toNat < 256 := byte.toNat_lt
      have high : (byte.toNat + 256 * littleValue bytes) / 256 =
          littleValue bytes := by omega
      have low : UInt8.ofNat (byte.toNat + 256 * littleValue bytes) = byte := by
        apply UInt8.toNat_inj.mp
        rw [UInt8.toNat_ofNat']
        omega
      rw [List.length_cons, littleValue, littleBytes, high, low, induction]

def ByteOrder.little : ByteOrder where
  encode := littleBytes
  decode := littleValue
  length_encode := length_littleBytes
  decode_lt := littleValue_lt
  decode_encode := littleValue_littleBytes
  encode_decode := littleBytes_littleValue

/-- Most significant byte first. -/
def ByteOrder.big : ByteOrder where
  encode width number := (littleBytes width number).reverse
  decode bytes := littleValue bytes.reverse
  length_encode width number := by
    rw [List.length_reverse, length_littleBytes]
  decode_lt bytes := by
    rw [← List.length_reverse]
    exact littleValue_lt _
  decode_encode width number bound := by
    rw [List.reverse_reverse, littleValue_littleBytes width number bound]
  encode_decode bytes := by
    rw [← List.length_reverse, littleBytes_littleValue, List.reverse_reverse]

end HermitDb.Library
