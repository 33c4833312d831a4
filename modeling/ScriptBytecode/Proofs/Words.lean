import Mathlib.Algebra.Group.Int.Defs
import Mathlib.Algebra.Ring.Nat
import ScriptBytecode.Bytes

/-!
# Words and their bytes

A word is the sum of its bytes, weighted by the powers of 256.  Hence the functions between words
and bytes undo each other; only the high byte of a 24-bit operand is lost.
-/

namespace ScriptBytecode
namespace Bytes

/-- A byte above the bits of a number is added to it. -/
theorem or_shiftLeft_eq_add
    (low high shift : Nat)
    (lowBound : low < 2 ^ shift) :
    low ||| high <<< shift = low + 2 ^ shift * high := by
  rw [Nat.or_comm, Nat.shiftLeft_eq, Nat.mul_comm high,
    ← Nat.two_pow_add_eq_or_of_lt lowBound, Nat.add_comm]

theorem toNat_toUInt16 (byte0 byte1 : UInt8) :
    (toUInt16 byte0 byte1).toNat = byte0.toNat + 2 ^ 8 * byte1.toNat := by
  have bound0 : byte0.toNat < 2 ^ 8 := byte0.toNat_lt
  have bound1 : byte1.toNat < 2 ^ 8 := byte1.toNat_lt
  have shifted : byte1.toNat <<< 8 < 2 ^ 16 := by
    rw [Nat.shiftLeft_eq]
    omega
  unfold toUInt16
  rw [UInt16.toNat_or, UInt16.toNat_shiftLeft, UInt8.toNat_toUInt16,
    UInt8.toNat_toUInt16]
  change byte0.toNat ||| byte1.toNat <<< 8 % 2 ^ 16 = _
  rw [Nat.mod_eq_of_lt shifted, or_shiftLeft_eq_add _ _ _ bound0]

theorem toNat_toUInt24 (byte0 byte1 byte2 : UInt8) :
    (toUInt24 byte0 byte1 byte2).toNat =
      byte0.toNat + 2 ^ 8 * byte1.toNat + 2 ^ 16 * byte2.toNat := by
  have bound0 : byte0.toNat < 2 ^ 8 := byte0.toNat_lt
  have bound1 : byte1.toNat < 2 ^ 8 := byte1.toNat_lt
  have bound2 : byte2.toNat < 2 ^ 8 := byte2.toNat_lt
  have shifted1 : byte1.toNat <<< 8 < 2 ^ 32 := by
    rw [Nat.shiftLeft_eq]
    omega
  have shifted2 : byte2.toNat <<< 16 < 2 ^ 32 := by
    rw [Nat.shiftLeft_eq]
    omega
  unfold toUInt24
  rw [UInt32.toNat_or, UInt32.toNat_or, UInt32.toNat_shiftLeft, UInt32.toNat_shiftLeft,
    UInt8.toNat_toUInt32, UInt8.toNat_toUInt32, UInt8.toNat_toUInt32]
  change byte0.toNat ||| byte1.toNat <<< 8 % 2 ^ 32 ||| byte2.toNat <<< 16 % 2 ^ 32 = _
  rw [Nat.mod_eq_of_lt shifted1, Nat.mod_eq_of_lt shifted2,
    or_shiftLeft_eq_add _ _ _ bound0, or_shiftLeft_eq_add _ _ _ (by omega)]

theorem toNat_toUInt32 (byte0 byte1 byte2 byte3 : UInt8) :
    (toUInt32 byte0 byte1 byte2 byte3).toNat =
      byte0.toNat + 2 ^ 8 * byte1.toNat + 2 ^ 16 * byte2.toNat + 2 ^ 24 * byte3.toNat := by
  have bound0 : byte0.toNat < 2 ^ 8 := byte0.toNat_lt
  have bound1 : byte1.toNat < 2 ^ 8 := byte1.toNat_lt
  have bound2 : byte2.toNat < 2 ^ 8 := byte2.toNat_lt
  have bound3 : byte3.toNat < 2 ^ 8 := byte3.toNat_lt
  have shifted : byte3.toNat <<< 24 < 2 ^ 32 := by
    rw [Nat.shiftLeft_eq]
    omega
  have low := toNat_toUInt24 byte0 byte1 byte2
  unfold toUInt24 at low
  unfold toUInt32
  rw [UInt32.toNat_or, low, UInt32.toNat_shiftLeft, UInt8.toNat_toUInt32]
  change _ ||| byte3.toNat <<< 24 % 2 ^ 32 = _
  rw [Nat.mod_eq_of_lt shifted, or_shiftLeft_eq_add _ _ _ (by omega)]

@[simp] theorem ofUInt16_toUInt16 (byte0 byte1 : UInt8) :
    ofUInt16 (toUInt16 byte0 byte1) = [byte0, byte1] := by
  have bound0 : byte0.toNat < 2 ^ 8 := byte0.toNat_lt
  have bound1 : byte1.toNat < 2 ^ 8 := byte1.toNat_lt
  simp only [ofUInt16, List.cons.injEq, and_true, ← UInt8.toNat_inj, UInt16.toNat_toUInt8,
    UInt16.toNat_shiftRight, toNat_toUInt16, UInt16.reduceToNat, Nat.shiftRight_eq_div_pow,
    Nat.reduceMod]
  omega

@[simp] theorem toUInt16_ofUInt16 (value : UInt16) :
    toUInt16 value.toUInt8 (value >>> 8).toUInt8 = value := by
  have bound : value.toNat < 2 ^ 16 := value.toNat_lt
  simp only [← UInt16.toNat_inj, toNat_toUInt16, UInt16.toNat_toUInt8,
    UInt16.toNat_shiftRight, UInt16.reduceToNat, Nat.shiftRight_eq_div_pow, Nat.reduceMod]
  omega

@[simp] theorem ofUInt24_toUInt24 (byte0 byte1 byte2 : UInt8) :
    ofUInt24 (toUInt24 byte0 byte1 byte2) = [byte0, byte1, byte2] := by
  have bound0 : byte0.toNat < 2 ^ 8 := byte0.toNat_lt
  have bound1 : byte1.toNat < 2 ^ 8 := byte1.toNat_lt
  have bound2 : byte2.toNat < 2 ^ 8 := byte2.toNat_lt
  simp only [ofUInt24, List.cons.injEq, and_true, ← UInt8.toNat_inj, UInt32.toNat_toUInt8,
    UInt32.toNat_shiftRight, toNat_toUInt24, UInt32.reduceToNat, Nat.shiftRight_eq_div_pow,
    Nat.reduceMod]
  omega

/-- The bytes of a 24-bit operand keep its low 24 bits. -/
theorem toNat_toUInt24_ofUInt24 (value : UInt32) :
    (toUInt24 value.toUInt8 (value >>> 8).toUInt8 (value >>> 16).toUInt8).toNat =
      value.toNat % 2 ^ 24 := by
  have bound : value.toNat < 2 ^ 32 := value.toNat_lt
  simp only [toNat_toUInt24, UInt32.toNat_toUInt8, UInt32.toNat_shiftRight, UInt32.reduceToNat,
    Nat.shiftRight_eq_div_pow, Nat.reduceMod]
  omega

@[simp] theorem ofUInt32_toUInt32 (byte0 byte1 byte2 byte3 : UInt8) :
    ofUInt32 (toUInt32 byte0 byte1 byte2 byte3) = [byte0, byte1, byte2, byte3] := by
  have bound0 : byte0.toNat < 2 ^ 8 := byte0.toNat_lt
  have bound1 : byte1.toNat < 2 ^ 8 := byte1.toNat_lt
  have bound2 : byte2.toNat < 2 ^ 8 := byte2.toNat_lt
  have bound3 : byte3.toNat < 2 ^ 8 := byte3.toNat_lt
  simp only [ofUInt32, List.cons.injEq, and_true, ← UInt8.toNat_inj, UInt32.toNat_toUInt8,
    UInt32.toNat_shiftRight, toNat_toUInt32, UInt32.reduceToNat, Nat.shiftRight_eq_div_pow,
    Nat.reduceMod]
  omega

@[simp] theorem toUInt32_ofUInt32 (value : UInt32) :
    toUInt32 value.toUInt8 (value >>> 8).toUInt8 (value >>> 16).toUInt8
      (value >>> 24).toUInt8 = value := by
  have bound : value.toNat < 2 ^ 32 := value.toNat_lt
  simp only [← UInt32.toNat_inj, toNat_toUInt32, UInt32.toNat_toUInt8,
    UInt32.toNat_shiftRight, UInt32.reduceToNat, Nat.shiftRight_eq_div_pow, Nat.reduceMod]
  omega

/-! ## Halves of 64-bit words -/

theorem toNat_toUInt64 (low high : UInt32) :
    (toUInt64 low high).toNat = low.toNat + 2 ^ 32 * high.toNat := by
  have lowBound : low.toNat < 2 ^ 32 := low.toNat_lt
  have highBound : high.toNat < 2 ^ 32 := high.toNat_lt
  have shifted : high.toNat <<< 32 < 2 ^ 64 := by
    rw [Nat.shiftLeft_eq]
    omega
  unfold toUInt64
  simp only [UInt64.toNat_or, UInt64.toNat_shiftLeft, UInt32.toNat_toUInt64, UInt64.reduceToNat,
    Nat.reduceMod, Nat.mod_eq_of_lt shifted]
  exact or_shiftLeft_eq_add _ _ _ lowBound

@[simp] theorem toUInt64_halves (value : UInt64) :
    toUInt64 value.toUInt32 (value >>> 32).toUInt32 = value := by
  have bound : value.toNat < 2 ^ 64 := value.toNat_lt
  simp only [← UInt64.toNat_inj, toNat_toUInt64, UInt64.toNat_toUInt32, UInt64.toNat_shiftRight,
    UInt64.reduceToNat, Nat.shiftRight_eq_div_pow, Nat.reduceMod]
  omega

/-- A 64-bit word is stored as its halves. -/
theorem ofUInt64_eq (value : UInt64) :
    ofUInt64 value = ofUInt32 value.toUInt32 ++ ofUInt32 (value >>> 32).toUInt32 := by
  have bound : value.toNat < 2 ^ 64 := value.toNat_lt
  simp only [ofUInt64, ofUInt32, List.cons_append, List.nil_append, List.cons.injEq, and_true,
    ← UInt8.toNat_inj, UInt32.toNat_toUInt8, UInt64.toNat_toUInt8, UInt64.toNat_toUInt32,
    UInt32.toNat_shiftRight, UInt64.toNat_shiftRight, UInt64.reduceToNat, UInt32.reduceToNat,
    Nat.shiftRight_eq_div_pow, Nat.reduceMod]
  omega

end Bytes
end ScriptBytecode
