/-!
# CBOR data items

The data model of the Concise Binary Object Representation, as far as a reader can
tell items apart: whether an array or a map announced its length is forgotten, but
a string that came in pieces is told from one that did not, because the latter alone
can be a field name. Floating-point numbers keep the width they were written in.

How deep an item is nested counts the arrays, maps and tags around its innermost
part. A tag that only marks a string of bytes as a large integer does not count.
-/

namespace ShardedModel.Cbor

inductive Item where
  | unsigned (n : Nat)
  /-- The number `-1 - n`. -/
  | negative (n : Nat)
  | bytes (content : List UInt8)
  | bytesInPieces (content : List UInt8)
  | text (content : String)
  | textInPieces (content : String)
  | array (items : List Item)
  | map (entries : List (Item × Item))
  | tag (number : Nat) (item : Item)
  /-- One of false, true, null and undefined, by its number. -/
  | simple (number : Nat)
  | half (bits : UInt16)
  | single (bits : UInt32)
  | double (bits : UInt64)

/-- The number whose digits to base 256 are given, the highest first. -/
def bigEndian (content : List UInt8) : Nat :=
  content.foldl (fun n b => n * 256 + b.toNat) 0

namespace Item

/-- The integer that a tag makes of a string of up to 16 bytes. -/
def largeInteger? (number : Nat) : Item → Option Int
  | .bytes content =>
      if 16 < content.length then none
      else if number = 2 then some (bigEndian content)
      else if number = 3 then some (-1 - bigEndian content)
      else none
  | _ => none

mutual

/-- The number of items around the innermost part, this one included. -/
def nesting : Item → Nat
  | .array items => nestingOfItems items + 1
  | .map entries => nestingOfEntries entries + 1
  | .tag number item => if (largeInteger? number item).isSome then 0 else item.nesting + 1
  | _ => 0

def nestingOfItems : List Item → Nat
  | [] => 0
  | item :: rest => max item.nesting (nestingOfItems rest)

def nestingOfEntries : List (Item × Item) → Nat
  | [] => 0
  | (key, value) :: rest => max (max key.nesting value.nesting) (nestingOfEntries rest)

end

/-- The least integer of 128 bits with a sign. -/
def leastInteger : Int := -(Nat.pow 2 127 : Nat)

mutual

/-- Every negative integer in the item fits 128 bits with a sign. -/
def integersFit : Item → Bool
  | .array items => integersFitInItems items
  | .map entries => integersFitInEntries entries
  | .tag number item =>
      match largeInteger? number item with
      | some n => leastInteger ≤ n
      | none => item.integersFit
  | _ => true

def integersFitInItems : List Item → Bool
  | [] => true
  | item :: rest => item.integersFit && integersFitInItems rest

def integersFitInEntries : List (Item × Item) → Bool
  | [] => true
  | (key, value) :: rest => key.integersFit && value.integersFit && integersFitInEntries rest

end

/-- The item behind any tags. -/
def untagged : Item → Item
  | .tag _ item => item.untagged
  | item => item

end Item

/-- The lowest `count` digits of a number to base 256, the highest first. -/
def toBigEndian : Nat → Nat → List UInt8
  | 0, _ => []
  | count + 1, n => toBigEndian count (n / 256) ++ [(n % 256).toUInt8]

end ShardedModel.Cbor
