import Mathlib
import ShardedModel.Binary32

/-!
# Adding zero to a bit pattern

Sums unpack two bit patterns into sign, mantissa and exponent, add, and pack the result.
Adding zero hands the other number on, and packing gives back what was unpacked for every
bit pattern that is not a NaN. The one number that zero changes is minus zero.

The round trip through `pack` is the library's `pack_unpack`. It comes with no smaller part of
Mathlib, so this is the one module that imports all of it.
-/

namespace ShardedModel

open Float.Model (Format UnpackedFloat)
open Float.Model.UnpackedFloat

/-! ## Packing what was unpacked -/

theorem toNat_unpackMantissa (b : BitVec Format.binary32.numBits) :
    (unpackMantissa b).toNat = b.toNat % 8388608 := by
  simp [unpackMantissa]

theorem toNat_unpackExponent (b : BitVec Format.binary32.numBits) :
    (unpackExponent b).toNat = b.toNat / 8388608 % 256 := by
  simp [unpackExponent, Nat.shiftRight_eq_div_pow]

/-- The mantissa of a normal number has a one before the bits that are stored. -/
theorem toNat_append_unpackMantissa (b : BitVec Format.binary32.numBits) :
    (1#1 ++ unpackMantissa b).toNat = 2 ^ 23 + (unpackMantissa b).toNat := by
  have hlt : (unpackMantissa b).toNat < 2 ^ 23 := (unpackMantissa b).isLt
  rw [BitVec.toNat_append, ← Nat.shiftLeft_add_eq_or_of_lt hlt]
  rfl

theorem pack_unpack_of_ne {b : BitVec Format.binary32.numBits}
    (h : unpack .binary32 b ≠ .notANumber) : pack .binary32 (unpack .binary32 b) = b := by
  have hnumber : ¬ isNaNBits b := by
    intro hnan
    obtain ⟨hexponent, hmantissa⟩ := of_decide_eq_true hnan
    exact h (by rw [unpack, if_pos hexponent, if_neg hmantissa])
  rw [pack_unpack b, if_neg hnumber]

/-! ## Sums -/

namespace Binary32

/-- Minus zero. -/
def negZero : Binary32 := ⟨0x80000000⟩

/-- The number that a bit pattern stands for. -/
def unpacked (x : Binary32) : UnpackedFloat := unpack .binary32 x.bits.toBitVec

theorem unpacked_ne {x : Binary32} (h : x.isNaN = false) : x.unpacked ≠ .notANumber := by
  intro hnan
  have : x.isNaN = (unpack .binary32 (pack .binary32 x.unpacked)).isNaN := rfl
  rw [hnan] at this
  exact absurd (this.symm.trans h) (by decide)

/-- The sum of two numbers is the packed sum of what they stand for. -/
theorem bits_add {x y : Binary32} (hx : x.isNaN = false) (hy : y.isNaN = false) :
    x + y = ⟨.ofBitVec (pack .binary32 (UnpackedFloat.add .binary32 x.unpacked y.unpacked))⟩ := by
  show Binary32.mk (.ofBitVec (pack .binary32 (UnpackedFloat.add .binary32
    (unpack .binary32 (pack .binary32 x.unpacked))
    (unpack .binary32 (pack .binary32 y.unpacked))))) = _
  have hpackx : pack .binary32 x.unpacked = x.bits.toBitVec := pack_unpack_of_ne (unpacked_ne hx)
  have hpacky : pack .binary32 y.unpacked = y.bits.toBitVec := pack_unpack_of_ne (unpacked_ne hy)
  rw [hpackx, hpacky]
  rfl

theorem unpacked_zero : (0 : Binary32).unpacked = .zero .positive := rfl

theorem eq_of_unpacked {x : Binary32} (hx : x.isNaN = false) :
    (⟨.ofBitVec (pack .binary32 x.unpacked)⟩ : Binary32) = x := by
  have hpack : pack .binary32 x.unpacked = x.bits.toBitVec := pack_unpack_of_ne (unpacked_ne hx)
  rw [hpack]

/-- Zero is neutral for every number but minus zero. -/
theorem add_zero_and_zero_add {x : Binary32} (hx : x.isNaN = false) (hneg : x ≠ negZero) :
    x + 0 = x ∧ 0 + x = x := by
  have hsame : UnpackedFloat.add .binary32 x.unpacked (.zero .positive) = x.unpacked ∧
      UnpackedFloat.add .binary32 (.zero .positive) x.unpacked = x.unpacked := by
    cases hunpacked : x.unpacked with
    | notANumber => exact absurd hunpacked (unpacked_ne hx)
    | infinity sign => exact ⟨rfl, rfl⟩
    | finite sign m e hpos => exact ⟨rfl, rfl⟩
    | zero sign =>
        cases sign with
        | positive => exact ⟨rfl, rfl⟩
        | negative =>
            have heq := eq_of_unpacked hx
            rw [hunpacked] at heq
            exact absurd heq.symm hneg
  have hzero : (0 : Binary32).isNaN = false := by decide
  rw [bits_add hx hzero, bits_add hzero hx, unpacked_zero, hsame.1, hsame.2, eq_of_unpacked hx]
  exact ⟨rfl, rfl⟩

end Binary32

end ShardedModel
