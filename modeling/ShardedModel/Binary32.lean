/-!
# Single-precision numbers as bit patterns

Weights and scores are numbers of the IEEE 754 binary32 format, kept as their 32
bits. The bits are the value: two NaNs with different payloads are different
numbers here, a copy of a number is the same bits, and ranking reads nothing
else. Sums and products are those of the format, rounded to nearest with ties to
even; of a NaN they keep no more than that it is one.

The order is the format's total order. Read as a number in sign and magnitude, a
bit pattern with the sign set comes the earlier the larger its magnitude, so
`rank` turns those patterns round and puts the others above them. Then negative
NaNs come first, -0 comes directly before +0, and positive NaNs come last.
-/

namespace ShardedModel

structure Binary32 where
  bits : UInt32
deriving DecidableEq, Repr

namespace Binary32

def toFloat32 (x : Binary32) : Float32 := Float32.ofBits x.bits

def ofFloat32 (x : Float32) : Binary32 := ⟨x.toBits⟩

instance : Inhabited Binary32 := ⟨⟨0⟩⟩

instance : Zero Binary32 := ⟨⟨0⟩⟩

instance : One Binary32 := ⟨⟨0x3f800000⟩⟩

instance : Add Binary32 := ⟨fun x y => ofFloat32 (x.toFloat32 + y.toFloat32)⟩

instance : Mul Binary32 := ⟨fun x y => ofFloat32 (x.toFloat32 * y.toFloat32)⟩

/-- The number nearest to an integer. -/
def ofInt (n : Int) : Binary32 := ofFloat32 (Float32.ofInt n)

/-- The place of a bit pattern in the total order, counted from the lowest. -/
def rank (x : Binary32) : Nat :=
  if x.bits.toNat < 2147483648 then x.bits.toNat + 2147483648 else 4294967295 - x.bits.toNat

instance : Ord Binary32 := ⟨fun x y => compare x.rank y.rank⟩

/-- Equality of the numbers that two bit patterns stand for: both zeros are equal
and a NaN equals nothing. -/
def sameNumber (x y : Binary32) : Bool := x.toFloat32 == y.toFloat32

def isNaN (x : Binary32) : Bool := x.toFloat32.isNaN

end Binary32

end ShardedModel
