import ShardedModel.Binary32.Rounding

/-!
# Binary numbers with a fixed number of decimals

A finite number of a binary format is an integer times a power of two, so its decimal
expansion ends, and cutting it to a number of places is a division of integers. The
result is rounded to nearest, and a half goes to the even neighbour. A minus is kept
also where only zeros are left.
-/

namespace ShardedModel.Decimal

/-- The number `m * 2 ^ q` with so many decimals. -/
def fixed (places m : Nat) (q : Int) : String :=
  let scaled :=
    if 0 ≤ q then m * Nat.pow 2 q.toNat * Nat.pow 10 places
    else divNearestEven (m * Nat.pow 10 places) (Nat.pow 2 (-q).toNat)
  let digits := Nat.toDigits 10 scaled
  let padded := List.replicate (places + 1 - digits.length) '0' ++ digits
  let whole := padded.take (padded.length - places)
  String.ofList (whole ++ '.' :: padded.drop (padded.length - places))

/-- The number with a bit pattern, in the binary format with so many bits for the
exponent and for the fraction. -/
def ofPattern (exponentBits fractionBits places bits : Nat) : String :=
  let fraction := bits % Nat.pow 2 fractionBits
  let exponent := bits / Nat.pow 2 fractionBits % Nat.pow 2 exponentBits
  let sign := if bits / Nat.pow 2 (fractionBits + exponentBits) % 2 = 1 then "-" else ""
  let bias : Int := Nat.pow 2 (exponentBits - 1) - 1
  if exponent = Nat.pow 2 exponentBits - 1 then
    if fraction = 0 then sign ++ "inf" else "NaN"
  else if exponent = 0 then
    sign ++ fixed places fraction (1 - bias - fractionBits)
  else
    sign ++ fixed places (Nat.pow 2 fractionBits + fraction) (exponent - bias - fractionBits)

def ofBinary32 (places : Nat) (x : Binary32) : String := ofPattern 8 23 places x.bits.toNat

def ofDouble (places : Nat) (x : Float) : String := ofPattern 11 52 places x.toBits.toNat

end ShardedModel.Decimal
