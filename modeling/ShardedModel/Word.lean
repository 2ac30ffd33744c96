import ShardedModel.Failure

/-!
# Counts and offsets are 64-bit words

Sizes, offsets and ids are natural numbers throughout the library, and each sum,
product or difference that the program forms on them is checked at the point
where it is formed: a result that no 64-bit word holds is a fault. Statements
about the library therefore speak of plain numbers, and the bounds under which no
fault arises appear as hypotheses.
-/

namespace ShardedModel.Word

/-- One more than the largest word. -/
def limit : Nat := 18446744073709551616

/-- One more than the largest signed word. -/
def signedLimit : Nat := 9223372036854775808

/-- A number that fits a word, unchanged. -/
def check (n : Nat) : Outcome Nat :=
  if n < limit then .ok n else .error .fault

def add (a b : Nat) : Outcome Nat := check (a + b)

def mul (a b : Nat) : Outcome Nat := check (a * b)

def sub (a b : Nat) : Outcome Nat :=
  if b ≤ a then .ok (a - b) else .error .fault

/-- The word nearest to `n` between two words, which must be in order. -/
def clamp (n low high : Nat) : Outcome Nat :=
  if low ≤ high then .ok (max low (min n high)) else .error .fault

/-- A sum that goes round at the word limit, for counters that never stop. -/
def addWrapping (a b : Nat) : Nat := (a + b) % limit

/-- The signed number that has the same 64 bits as `n`. -/
def toSigned (n : Nat) : Int := Int.bmod n limit

end ShardedModel.Word
