import ShardedModel.Binary32
import ShardedModel.Random.Layers
import ShardedModel.Random.Stream

/-!
# Normally distributed numbers

The ziggurat method. A point is thrown into one of the layers under the curve; most
points lie inside the layer above too and are taken at once, a point in the outer
part of a layer is taken if it lies below the curve, and the lowest layer sends
points of its outer part to the tail. A point that is not taken is thrown again.

A throw is taken in 99 of 100 cases, and a throw at the tail in 7 of 8. The number
of throws is bounded so that sampling always ends; no sample comes near the bound.
-/

namespace ShardedModel.Normal

/-- The number in [1, 2) or in [2, 4) with the upper 52 of the given bits as its
fraction. -/
def withFraction (bits exponent : UInt64) : Float :=
  Float.ofBits ((bits >>> 12) ||| (exponent <<< 52))

/-- A number between 0 and 1, with neither end. -/
def openUnit (s : WordStream) : Float × WordStream :=
  let (bits, s) := s.next64
  (withFraction bits 1023 - (1.0 - Float.ofBits 0x3ca0000000000000), s)

/-- A number from 0 up to but not including 1. -/
def unit (s : WordStream) : Float × WordStream :=
  let (bits, s) := s.next64
  ((bits >>> 11).toFloat * Float.ofBits 0x3ca0000000000000, s)

/-- Throws at the tail until one is taken: how far it lies beyond the start of the
tail, as a number that is not positive. -/
def tail : Nat → WordStream → Float × WordStream
  | 0, s => (0.0, s)
  | throws + 1, s =>
    let (p, s) := openUnit s
    let (q, s) := openUnit s
    let a := p.log / tailStart
    let b := q.log
    if -2.0 * b < a * a then tail throws s else (a, s)

/-- Throws into the layers until a throw is taken. -/
def sample : Nat → WordStream → Float × WordStream
  | 0, s => (0.0, s)
  | throws + 1, s =>
    let (bits, s) := s.next64
    let layer := (bits &&& 0xff).toNat
    let u := withFraction bits 1024 - 3.0
    let x := u * edge layer
    if x.abs < edge (layer + 1) then
      (x, s)
    else if layer = 0 then
      let (a, s) := tail throws s
      (if u < 0.0 then a - tailStart else tailStart - a, s)
    else
      let (t, s) := unit s
      if height (layer + 1) + (height layer - height (layer + 1)) * t < (-x * x / 2.0).exp then
        (x, s)
      else
        sample throws s

/-- The bound on the throws for one number. -/
def throwLimit : Nat := 4096

/-- The next normally distributed number of a stream, in single precision. -/
def draw (s : WordStream) : Binary32 × WordStream :=
  let (x, s) := sample throwLimit s
  (Binary32.ofFloat32 x.toFloat32, s)

end ShardedModel.Normal
