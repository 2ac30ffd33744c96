import ShardedModel.Cbor.Item

/-!
# Reading items

Reading takes one item off the front of a string of bytes and leaves the rest. It
accepts numbers in any width, and arrays, maps and strings that end with a stop
instead of announcing their length; the pieces of a string may come in pieces
themselves. Text must be UTF-8, each piece on its own, and of the simple values only
false, true, null and undefined are known.

Every item takes at least one byte, so the number of bytes bounds the number of
items, and with it the steps that reading takes.
-/

namespace ShardedModel.Cbor

/-- The first `n` bytes and the rest, if there are as many. -/
def takeBytes : Nat → List UInt8 → Option (List UInt8 × List UInt8)
  | 0, bs => some ([], bs)
  | _ + 1, [] => none
  | n + 1, b :: bs => do
      let (front, rest) ← takeBytes n bs
      some (b :: front, rest)

/-- A number of `n` bytes. -/
def readNumber (n : Nat) (bs : List UInt8) : Option (Nat × List UInt8) := do
  let (front, rest) ← takeBytes n bs
  some (bigEndian front, rest)

/-- The beginning of an item. A length that is absent means that a stop follows. -/
inductive Head where
  | unsigned (n : Nat)
  | negative (n : Nat)
  | bytes (length : Option Nat)
  | text (length : Option Nat)
  | array (length : Option Nat)
  | map (length : Option Nat)
  | tag (number : Nat)
  | simple (number : Nat)
  | half (bits : UInt16)
  | single (bits : UInt32)
  | double (bits : UInt64)
  | stop

namespace Head

/-- The number after the first byte of a head, and none if a stop is announced. -/
def readArgument (info : Nat) (bs : List UInt8) : Option (Option Nat × List UInt8) :=
  if info < 24 then some (some info, bs)
  else if info = 24 then (readNumber 1 bs).map fun (n, rest) => (some n, rest)
  else if info = 25 then (readNumber 2 bs).map fun (n, rest) => (some n, rest)
  else if info = 26 then (readNumber 4 bs).map fun (n, rest) => (some n, rest)
  else if info = 27 then (readNumber 8 bs).map fun (n, rest) => (some n, rest)
  else if info = 31 then some (none, bs)
  else none

/-- A head from its type, the lower bits of its first byte and its number. -/
def ofParts (type info : Nat) (argument : Option Nat) : Option Head :=
  match type, argument with
  | 0, some n => some (.unsigned n)
  | 1, some n => some (.negative n)
  | 2, length => some (.bytes length)
  | 3, length => some (.text length)
  | 4, length => some (.array length)
  | 5, length => some (.map length)
  | 6, some n => some (.tag n)
  | 7, none => some .stop
  | 7, some n =>
      if info = 25 then some (.half n.toUInt16)
      else if info = 26 then some (.single n.toUInt32)
      else if info = 27 then some (.double n.toUInt64)
      else some (.simple n)
  | _, _ => none

def read : List UInt8 → Option (Head × List UInt8)
  | [] => none
  | b :: bs => do
      let info := b.toNat % 32
      let (argument, rest) ← readArgument info bs
      let h ← ofParts (b.toNat / 32) info argument
      some (h, rest)

end Head

/-- The text that a string of bytes encodes. -/
def decodeText (content : List UInt8) : Option String :=
  String.fromUTF8? ⟨content.toArray⟩

/-- The kinds of strings. -/
inductive StringKind where
  | bytes
  | text
deriving DecidableEq

/-- The announced length of a piece of a string of a kind. -/
def StringKind.piece? (kind : StringKind) (h : Head) : Option (Option Nat) :=
  match kind, h with
  | .bytes, .bytes length => some length
  | .text, .text length => some length
  | _, _ => none

/-- The pieces of a string up to its stop, joined, when `depth` more stops are to come
after that one. -/
def readPieces (kind : StringKind) : Nat → Nat → List UInt8 → Option (List UInt8 × List UInt8)
  | 0, _, _ => none
  | steps + 1, depth, bs => do
      let (h, rest) ← Head.read bs
      match h, depth with
      | .stop, 0 => some ([], rest)
      | .stop, depth + 1 => readPieces kind steps depth rest
      | h, depth =>
          match ← kind.piece? h with
          | none => readPieces kind steps (depth + 1) rest
          | some length =>
              let (piece, rest) ← takeBytes length rest
              if kind = .text ∧ (decodeText piece).isNone then none
              else
                let (more, rest) ← readPieces kind steps depth rest
                some (piece ++ more, rest)

mutual

/-- Reads one item, in no more than the given number of steps. -/
def readItem : Nat → List UInt8 → Option (Item × List UInt8)
  | 0, _ => none
  | steps + 1, bs => do
      let (h, rest) ← Head.read bs
      match h with
      | .unsigned n => some (.unsigned n, rest)
      | .negative n => some (.negative n, rest)
      | .bytes (some length) =>
          let (content, rest) ← takeBytes length rest
          some (.bytes content, rest)
      | .bytes none =>
          let (content, rest) ← readPieces .bytes steps 0 rest
          some (.bytesInPieces content, rest)
      | .text (some length) =>
          let (content, rest) ← takeBytes length rest
          let s ← decodeText content
          some (.text s, rest)
      | .text none =>
          let (content, rest) ← readPieces .text steps 0 rest
          let s ← decodeText content
          some (.textInPieces s, rest)
      | .array (some length) =>
          let (items, rest) ← readItems steps length rest
          some (.array items, rest)
      | .array none =>
          let (items, rest) ← readItemsToStop steps rest
          some (.array items, rest)
      | .map (some length) =>
          let (entries, rest) ← readEntries steps length rest
          some (.map entries, rest)
      | .map none =>
          let (entries, rest) ← readEntriesToStop steps rest
          some (.map entries, rest)
      | .tag number =>
          let (item, rest) ← readItem steps rest
          some (.tag number item, rest)
      | .simple number =>
          if 20 ≤ number ∧ number ≤ 23 then some (.simple number, rest) else none
      | .half bits => some (.half bits, rest)
      | .single bits => some (.single bits, rest)
      | .double bits => some (.double bits, rest)
      | .stop => none

/-- Reads a number of items. -/
def readItems : Nat → Nat → List UInt8 → Option (List Item × List UInt8)
  | _, 0, bs => some ([], bs)
  | 0, _ + 1, _ => none
  | steps + 1, count + 1, bs => do
      let (item, rest) ← readItem steps bs
      let (more, rest) ← readItems steps count rest
      some (item :: more, rest)

/-- Reads items up to a stop. -/
def readItemsToStop : Nat → List UInt8 → Option (List Item × List UInt8)
  | 0, _ => none
  | _ + 1, 0xff :: rest => some ([], rest)
  | steps + 1, bs => do
      let (item, rest) ← readItem steps bs
      let (more, rest) ← readItemsToStop steps rest
      some (item :: more, rest)

/-- Reads a number of keys with their values. -/
def readEntries : Nat → Nat → List UInt8 → Option (List (Item × Item) × List UInt8)
  | _, 0, bs => some ([], bs)
  | 0, _ + 1, _ => none
  | steps + 1, count + 1, bs => do
      let (key, rest) ← readItem steps bs
      let (value, rest) ← readItem steps rest
      let (more, rest) ← readEntries steps count rest
      some ((key, value) :: more, rest)

/-- Reads keys with their values up to a stop. -/
def readEntriesToStop : Nat → List UInt8 → Option (List (Item × Item) × List UInt8)
  | 0, _ => none
  | _ + 1, 0xff :: rest => some ([], rest)
  | steps + 1, bs => do
      let (key, rest) ← readItem steps bs
      let (value, rest) ← readItem steps rest
      let (more, rest) ← readEntriesToStop steps rest
      some ((key, value) :: more, rest)

end

/-- Takes one item off the front of a string of bytes. -/
def read (bs : List UInt8) : Option (Item × List UInt8) := readItem (2 * bs.length + 2) bs

end ShardedModel.Cbor
