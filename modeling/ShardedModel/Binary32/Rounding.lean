import ShardedModel.Binary32

/-!
# Other formats, and rounding to single precision

Numbers come in from two more formats of the same family: half precision, with 5
bits of exponent and 10 of fraction, and double precision, with 11 and 52. Each
finite number of these is an integer times a power of two, and `ofScaled` finds the
single-precision number nearest to such a product, the even one of two that are
equally near. A half number is always met exactly.

A NaN is made quiet by setting the highest bit of its fraction, and keeps its sign
and as much of the fraction as there is room for.
-/

namespace ShardedModel

/-- The quotient of two numbers, rounded to nearest, a half to the even neighbour. -/
def divNearestEven (n d : Nat) : Nat :=
  let q := n / d
  let r := n % d
  if 2 * r < d then q
  else if d < 2 * r then q + 1
  else if q % 2 = 0 then q
  else q + 1

namespace Binary32

/-- The bit patterns of infinity and of a quiet NaN without a fraction, and the sign. -/
def infinityBits : Nat := 0x7f800000

def quietBits : Nat := 0x7fc00000

def signBit : Nat := 0x80000000

def ofSigned (negative : Bool) (magnitude : Nat) : Binary32 :=
  ⟨(if negative then signBit + magnitude else magnitude).toUInt32⟩

/-- The number nearest to `m * 2 ^ q`, and infinity if that is too large.

The result is a multiple of `2 ^ t`, where `t` leaves 24 digits before it or is the
lowest there is. Written as `t` steps of a binade plus the digits, the bit pattern
comes out right also when rounding carries into the next binade. -/
def ofScaled (negative : Bool) (m : Nat) (q : Int) : Binary32 :=
  if m = 0 then
    ofSigned negative 0
  else
    let digits : Int := Nat.log2 m + 1
    let t := max (digits + q - 24) (-149)
    let mantissa :=
      if t ≤ q then m * Nat.pow 2 (q - t).toNat else divNearestEven m (Nat.pow 2 (t - q).toNat)
    ofSigned negative (min ((t + 149).toNat * 8388608 + mantissa) infinityBits)

/-- The value of a half-precision number. -/
def ofHalf (h : UInt16) : Binary32 :=
  let negative := 0x8000 ≤ h.toNat
  let exponent := h.toNat / 1024 % 32
  let fraction := h.toNat % 1024
  if exponent = 31 then
    ofSigned negative (if fraction = 0 then infinityBits else quietBits ||| (fraction * 8192))
  else if exponent = 0 then
    ofScaled negative fraction (-24)
  else
    ofScaled negative (1024 + fraction) (exponent - 25)

/-- The value of a double-precision number, rounded. -/
def ofDouble (d : UInt64) : Binary32 :=
  let negative := 0x8000000000000000 ≤ d.toNat
  let exponent := d.toNat / 4503599627370496 % 2048
  let fraction := d.toNat % 4503599627370496
  if exponent = 2047 then
    ofSigned negative (if fraction = 0 then infinityBits else quietBits ||| (fraction / 536870912))
  else if exponent = 0 then
    ofScaled negative fraction (-1074)
  else
    ofScaled negative (4503599627370496 + fraction) (exponent - 1075)

/-- The same number with a NaN made quiet. -/
def quieted (x : Binary32) : Binary32 :=
  if infinityBits < x.bits.toNat % signBit then ⟨x.bits ||| 0x00400000⟩ else x

/-- The half-precision pattern that could stand for a number: its sign, its exponent
and the upper part of its fraction. -/
def halfCandidate (x : Binary32) : UInt16 :=
  let sign := x.bits.toNat / signBit * 0x8000
  let exponent := x.bits.toNat / 8388608 % 256
  let fraction := x.bits.toNat % 8388608
  let magnitude :=
    if exponent = 255 then 31744 + fraction / 8192
    else if 113 ≤ exponent ∧ exponent ≤ 142 then (exponent - 112) * 1024 + fraction / 8192
    else if 103 ≤ exponent ∧ exponent ≤ 112 then (8388608 + fraction) / Nat.pow 2 (126 - exponent)
    else 0
  (sign + magnitude).toUInt16

/-- The half-precision number with the same value, if there is one. -/
def toHalf? (x : Binary32) : Option UInt16 :=
  if ofHalf (halfCandidate x) = x then some (halfCandidate x) else none

end Binary32

end ShardedModel
