import ShardedModel.Cbor.Item

/-!
# Writing items

Every item begins with a head: three bits for its type and a number, which is
written in the fewest bytes that hold it. Arrays, maps and strings announce their
length.
-/

namespace ShardedModel.Cbor

/-- The head of an item of a type with a number. -/
def head (type n : Nat) : List UInt8 :=
  let first (info : Nat) : UInt8 := (type * 32 + info).toUInt8
  if n < 24 then [first n]
  else if n < 256 then first 24 :: toBigEndian 1 n
  else if n < 65536 then first 25 :: toBigEndian 2 n
  else if n < 4294967296 then first 26 :: toBigEndian 4 n
  else first 27 :: toBigEndian 8 n

namespace Item

mutual

def write : Item → List UInt8
  | .unsigned n => head 0 n
  | .negative n => head 1 n
  | .bytes content | .bytesInPieces content => head 2 content.length ++ content
  | .text content | .textInPieces content =>
      head 3 content.utf8ByteSize ++ content.toUTF8.toList
  | .array items => head 4 items.length ++ writeItems items
  | .map entries => head 5 entries.length ++ writeEntries entries
  | .tag number item => head 6 number ++ item.write
  | .simple number => head 7 number
  | .half bits => 0xf9 :: toBigEndian 2 bits.toNat
  | .single bits => 0xfa :: toBigEndian 4 bits.toNat
  | .double bits => 0xfb :: toBigEndian 8 bits.toNat

def writeItems : List Item → List UInt8
  | [] => []
  | item :: rest => item.write ++ writeItems rest

def writeEntries : List (Item × Item) → List UInt8
  | [] => []
  | (key, value) :: rest => key.write ++ (value.write ++ writeEntries rest)

end

end Item

end ShardedModel.Cbor
