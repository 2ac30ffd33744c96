/-!
# Reading decimal numerals

A numeral is a sign, which may be left out, and at least one digit. It is read from
left to right, and the first character that cannot be taken decides what is wrong: it
is no digit, or it takes the number over its bound. So a numeral that is too large is
reported as such even if something else than a digit follows.
-/

namespace ShardedModel.Numeral

inductive Fault where
  | empty
  | invalidDigit
  | tooLarge
  | tooSmall
deriving DecidableEq, Repr

def Fault.message : Fault → String
  | .empty => "cannot parse integer from empty string"
  | .invalidDigit => "invalid digit found in string"
  | .tooLarge => "number too large to fit in target type"
  | .tooSmall => "number too small to fit in target type"

/-- The value of an ASCII digit. -/
def digit? (c : Char) : Option Nat :=
  if '0' ≤ c ∧ c ≤ '9' then some (c.toNat - '0'.toNat) else none

/-- Reads digits on from the number `n`, up to a bound beyond which lies a fault. -/
def scan (bound : Nat) (beyond : Fault) (n : Nat) : List Char → Except Fault Nat
  | [] => .ok n
  | c :: rest =>
    match digit? c with
    | none => .error .invalidDigit
    | some d => if 10 * n + d ≤ bound then scan bound beyond (10 * n + d) rest else .error beyond

/-- The largest number of 64 bits, and the largest with a sign. -/
def largestUnsigned : Nat := 18446744073709551615

def largestSigned : Nat := 9223372036854775807

/-- A number of 64 bits with a sign. -/
def readSigned : List Char → Except Fault Int
  | [] => .error .empty
  | ['+'] | ['-'] => .error .invalidDigit
  | '-' :: digits => (scan (largestSigned + 1) .tooSmall 0 digits).map fun n => -(n : Int)
  | '+' :: digits => (scan largestSigned .tooLarge 0 digits).map Int.ofNat
  | digits => (scan largestSigned .tooLarge 0 digits).map Int.ofNat

/-- A number of 64 bits without a sign, though a plus may stand before it. -/
def readUnsigned : List Char → Except Fault Nat
  | [] => .error .empty
  | ['+'] => .error .invalidDigit
  | '+' :: digits => scan largestUnsigned .tooLarge 0 digits
  | digits => scan largestUnsigned .tooLarge 0 digits

end ShardedModel.Numeral
