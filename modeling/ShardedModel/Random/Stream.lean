/-!
# A stream of random words from a seed

The words come from the ChaCha block function with 12 rounds. A seed is stretched
into a key of eight words by a permuted congruential generator; the key and the
number of a block determine its sixteen words, and the stream is the blocks one
after the other.
-/

namespace ShardedModel

namespace ChaCha

def rotateLeft (x : UInt32) (n : UInt32) : UInt32 := (x <<< n) ||| (x >>> (32 - n))

/-- Adds, mixes and turns four words of a state, four times over. -/
def quarterRound (s : Array UInt32) (a b c d : Nat) : Array UInt32 :=
  let mix (s : Array UInt32) (x y z : Nat) (n : UInt32) : Array UInt32 :=
    let s := s.setIfInBounds x (s.getD x 0 + s.getD y 0)
    s.setIfInBounds z (rotateLeft (s.getD z 0 ^^^ s.getD x 0) n)
  let s := mix s a b d 16
  let s := mix s c d b 12
  let s := mix s a b d 8
  mix s c d b 7

/-- The four columns of a state and then its four diagonals. -/
def doubleRound (s : Array UInt32) : Array UInt32 :=
  let s := quarterRound s 0 4 8 12
  let s := quarterRound s 1 5 9 13
  let s := quarterRound s 2 6 10 14
  let s := quarterRound s 3 7 11 15
  let s := quarterRound s 0 5 10 15
  let s := quarterRound s 1 6 11 12
  let s := quarterRound s 2 7 8 13
  quarterRound s 3 4 9 14

/-- The constants that open a state: the text "expand 32-byte k". -/
def constants : Array UInt32 := #[0x61707865, 0x3320646e, 0x79622d32, 0x6b206574]

/-- The sixteen words of a block. -/
def block (key : Array UInt32) (number : UInt64) : Array UInt32 :=
  let start := constants ++ key ++ #[number.toUInt32, (number >>> 32).toUInt32, 0, 0]
  let mixed := (List.range 6).foldl (fun s _ => doubleRound s) start
  Array.zipWith (· + ·) mixed start

end ChaCha

/-- A place in a stream of words: the words left of the block that was begun, and
the number of the block after it. -/
structure WordStream where
  key : Array UInt32
  nextBlock : UInt64
  pending : List UInt32
deriving Repr

namespace WordStream

/-- One step of the generator that stretches a seed. -/
def stretch (state : UInt64) : UInt32 × UInt64 :=
  let state := state * 6364136223846793005 + 11634580027462260723
  let folded := (((state >>> 18) ^^^ state) >>> 27).toUInt32
  let turn := (state >>> 59).toUInt32
  ((folded >>> turn) ||| (folded <<< ((32 - turn) % 32)), state)

/-- The key of a seed. -/
def keyOf (seed : UInt64) : Array UInt32 :=
  ((List.range 8).foldl (fun (key, state) _ =>
    let (word, state) := stretch state
    (key.push word, state)) ((#[] : Array UInt32), seed)).1

def ofSeed (seed : UInt64) : WordStream := ⟨keyOf seed, 0, []⟩

def next32 (s : WordStream) : UInt32 × WordStream :=
  match s.pending with
  | word :: rest => (word, { s with pending := rest })
  | [] =>
    match (ChaCha.block s.key s.nextBlock).toList with
    | word :: rest => (word, ⟨s.key, s.nextBlock + 1, rest⟩)
    | [] => (0, s)

/-- Two words as one number, the first as its lower half. -/
def next64 (s : WordStream) : UInt64 × WordStream :=
  let (low, s) := s.next32
  let (high, s) := s.next32
  (low.toUInt64 ||| (high.toUInt64 <<< 32), s)

end WordStream

end ShardedModel
