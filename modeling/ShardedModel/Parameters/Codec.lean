import ShardedModel.Binary32.Rounding
import ShardedModel.Cbor.Reader
import ShardedModel.Cbor.Writer
import ShardedModel.Parameters

/-!
# Parameter files

Parameters are stored as one CBOR item, a map from field names to values at each
level. Writing uses the field names below in a fixed order and gives each number
in the shorter of half and single precision that holds it.

Reading is more liberal. Fields may come in any order and among unknown ones, whose
values are passed over as long as they are not nested too deep and hold no integer
that is too small; a field name may be a string of bytes; tags in front of a value
mean nothing, except that they make an integer of a string of bytes; a number may be
in double precision and is then rounded; and a string of bytes can stand for a list of
small numbers. But each field has to be there once, and an integer is not taken for a
number. What follows the item is ignored, and so is whether data fit the dimensions.
-/

namespace ShardedModel

open Cbor (Item)

namespace Parameters

/-! ## Writing -/

/-- A number in the shortest format that holds it. -/
def numberItem (x : Binary32) : Item :=
  match x.quieted.toHalf? with
  | some h => .half h
  | none => .single x.quieted.bits

def matrixItem (t : Tensor2 Binary32) : Item :=
  .map [(.text "data", .array (t.data.toList.map numberItem)), (.text "rows", .unsigned t.rows),
    (.text "cols", .unsigned t.cols)]

def sliceItem (s : TableSlice Binary32) : Item :=
  .map [(.text "shard_id", .unsigned s.shardId), (.text "table", matrixItem s.table)]

def projectionItem (p : Projection Binary32) : Item :=
  .map [(.text "stage_a", matrixItem p.stageA), (.text "stage_b", matrixItem p.stageB)]

def toItem (p : Parameters Binary32) : Item :=
  .map [(.text "shards", .array (p.shards.map sliceItem)),
    (.text "projection", projectionItem p.projection)]

/-- The content of a parameter file. -/
def encode (p : Parameters Binary32) : List UInt8 := p.toItem.write

/-! ## Reading -/

/-- The longest field name that is looked at, in bytes. -/
def nameLimit : Nat := 4096

/-- The nesting that is allowed, from the outermost map. -/
def nestingLimit : Nat := 256

/-- A field name, as bytes. -/
def name? (key : Item) : Option (List UInt8) :=
  let content : Option (List UInt8) :=
    match key.untagged with
    | .text s => some s.toUTF8.toList
    | .bytes b => some b
    | _ => none
  content.filter (·.length ≤ nameLimit)

/-- The value of the one field with a name. -/
def field? (fields : List (List UInt8 × Item)) (name : String) : Option Item :=
  match fields.filter (·.1 = name.toUTF8.toList) with
  | [(_, value)] => some value
  | _ => none

/-- The values of a map's fields, in the order of `names`, when the map itself is at a
depth. -/
def record? (names : List String) (depth : Nat) (item : Item) : Option (List Item) := do
  let entries ← match item.untagged with
    | .map entries => some entries
    | _ => none
  let fields ← entries.mapM fun (key, value) => do
    let name ← name? key
    some (name, value)
  let known := names.map (·.toUTF8.toList)
  let passedOver := fields.filter fun (name, _) => !known.contains name
  if passedOver.all fun (_, value) =>
      value.integersFit && value.nesting + depth ≤ nestingLimit then
    names.mapM (field? fields)
  else
    none

/-- A count, which may be written as a large integer. -/
def count? : Item → Option Nat
  | .unsigned n => some n
  | .tag number item =>
      if number = 2 then
        match item with
        | .bytes content | .bytesInPieces content =>
            if Cbor.bigEndian content < Word.limit then some (Cbor.bigEndian content) else none
        | _ => none
      else if number = 3 then none
      else count? item
  | _ => none

def number? (item : Item) : Option Binary32 :=
  match item.untagged with
  | .half bits => some (.ofHalf bits)
  | .single bits => some (Binary32.quieted ⟨bits⟩)
  | .double bits => some (.ofDouble bits)
  | _ => none

def numbers? (item : Item) : Option (List Binary32) :=
  match item.untagged with
  | .array items => items.mapM number?
  | .bytes content | .bytesInPieces content =>
      some (content.map fun b => .ofScaled false b.toNat 0)
  | _ => none

def matrix? (depth : Nat) (item : Item) : Option (Tensor2 Binary32) := do
  match ← record? ["data", "rows", "cols"] depth item with
  | [data, rows, cols] =>
      let data ← numbers? data
      let rows ← count? rows
      let cols ← count? cols
      some ⟨data.toArray, rows, cols⟩
  | _ => none

def slice? (depth : Nat) (item : Item) : Option (TableSlice Binary32) := do
  match ← record? ["shard_id", "table"] depth item with
  | [shardId, table] =>
      let shardId ← count? shardId
      let table ← matrix? (depth + 1) table
      some ⟨shardId, table⟩
  | _ => none

/-- The slices. An empty string of bytes counts as an empty list. -/
def slices? (depth : Nat) (item : Item) : Option (List (TableSlice Binary32)) :=
  match item.untagged with
  | .array items => items.mapM (slice? (depth + 1))
  | .bytes [] | .bytesInPieces [] => some []
  | _ => none

def projection? (depth : Nat) (item : Item) : Option (Projection Binary32) := do
  match ← record? ["stage_a", "stage_b"] depth item with
  | [stageA, stageB] =>
      let stageA ← matrix? (depth + 1) stageA
      let stageB ← matrix? (depth + 1) stageB
      some ⟨stageA, stageB⟩
  | _ => none

def ofItem? (item : Item) : Option (Parameters Binary32) := do
  match ← record? ["shards", "projection"] 1 item with
  | [shards, projection] =>
      let shards ← slices? 2 shards
      let projection ← projection? 2 projection
      some ⟨shards, projection⟩
  | _ => none

/-- The parameters in a parameter file. -/
def decode (content : List UInt8) : Outcome (Parameters Binary32) :=
  match (Cbor.read content).bind fun (item, _) => ofItem? item with
  | some p => .ok p
  | none => .error (.format .parameters)

/-! ## Comparing -/

/-- The two hold the same numbers at the same places. -/
def sameNumbers (a b : Tensor2 Binary32) : Bool :=
  a.rows = b.rows ∧ a.cols = b.cols ∧ a.data.size = b.data.size ∧
    (a.data.zip b.data).all fun (x, y) => x.sameNumber y

/-- The two have the same shape and hold the same numbers. A NaN is not the same as
itself. -/
def sameAs (p q : Parameters Binary32) : Bool :=
  p.shards.length = q.shards.length ∧
    ((p.shards.zip q.shards).all fun (s, t) =>
      s.shardId = t.shardId ∧ sameNumbers s.table t.table) ∧
    sameNumbers p.projection.stageA q.projection.stageA ∧
    sameNumbers p.projection.stageB q.projection.stageB

end Parameters

end ShardedModel
