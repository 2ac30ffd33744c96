import ShardedModel.Text.Numeral
import ShardedModel.Text.Pieces
import ShardedModel.Toml.Quoted
import ShardedModel.Toml.Value

/-!
# Unquoted scalars in TOML

Integers, other numbers, truth values and times all stand as one word, except that a
blank may divide a date from a time. A word is a run of characters that can occur in
such values, and it is read as a whole: none of these characters can follow a value.

An underscore may stand between two digits. An integer has to fit 64 bits with a
sign. Another number must not be so large that it rounds to infinity, unless a minus
stands before it.
-/

namespace ShardedModel.Toml

/-- A character of a word. -/
def isWordChar (c : Char) : Bool :=
  c.isAlphanum || c = '+' || c = '-' || c = '_' || c = '.' || c = ':'

/-! ## Digits -/

def isDigit (c : Char) : Bool := (Numeral.digit? c).isSome

def isHexDigit (c : Char) : Bool := (hexDigit? c).isSome

def isOctalDigit (c : Char) : Bool := '0' ≤ c && c ≤ '7'

def isBinaryDigit (c : Char) : Bool := c = '0' || c = '1'

/-- Digits with single underscores between them, as digits alone. -/
def digitRun? (isDigit : Char → Bool) (word : List Char) : Option (List Char) :=
  let groups := Text.pieces '_' word
  if groups.all (fun group => !group.isEmpty && group.all isDigit) then some groups.flatten
  else none

/-- The number that digits denote in a base. -/
def ofDigits (base : Nat) (digits : List Char) : Nat :=
  digits.foldl (fun n c => base * n + (hexDigit? c).getD 0) 0

/-- A sign, if there is one, and what follows: whether it is a minus. -/
def splitSign : List Char → Bool × List Char
  | '-' :: rest => (true, rest)
  | '+' :: rest => (false, rest)
  | rest => (false, rest)

/-- Decimal digits that do not begin with a zero, except for zero itself. -/
def wholeDigits? (word : List Char) : Option (List Char) := do
  let digits ← digitRun? isDigit word
  if digits.length > 1 ∧ digits.head? = some '0' then none else some digits

/-! ## Integers -/

/-- An integer that fits 64 bits with a sign. -/
def ranged? (n : Int) : Option Value :=
  if -9223372036854775808 ≤ n ∧ n ≤ 9223372036854775807 then some (.integer n) else none

def integer? : List Char → Option Value
  | '0' :: 'x' :: word => do ranged? (ofDigits 16 (← digitRun? isHexDigit word))
  | '0' :: 'o' :: word => do ranged? (ofDigits 8 (← digitRun? isOctalDigit word))
  | '0' :: 'b' :: word => do ranged? (ofDigits 2 (← digitRun? isBinaryDigit word))
  | word => do
      let (negative, word) := splitSign word
      let n : Int := ofDigits 10 (← wholeDigits? word)
      ranged? (if negative then -n else n)

/-! ## Other numbers -/

/-- Whether `m * 10 ^ e` rounds to infinity in double precision. Far from the limit the
number of digits tells. -/
def isTooLarge (m : Nat) (e : Int) : Bool :=
  let digits : Int := (Nat.toDigits 10 m).length
  if m = 0 ∨ digits + e < 300 then false
  else if 320 < digits + e then true
  else
    let limit := (Nat.pow 2 54 - 1) * Nat.pow 2 970
    if 0 ≤ e then limit ≤ m * Nat.pow 10 e.toNat else limit * Nat.pow 10 (-e).toNat ≤ m

/-- The part of a word before a sign, and the part after it if there is one. -/
def splitAtChar (p : Char → Bool) (word : List Char) : List Char × Option (List Char) :=
  match word.dropWhile (!p ·) with
  | _ :: after => (word.takeWhile (!p ·), some after)
  | [] => (word, none)

/-- An exponent: a sign and digits, which may begin with zeros. -/
def exponent? (word : List Char) : Option Int := do
  let (negative, word) := splitSign word
  let n : Int := ofDigits 10 (← digitRun? isDigit word)
  some (if negative then -n else n)

def float? (word : List Char) : Option Value := do
  let (negative, magnitude) := splitSign word
  if magnitude = "inf".toList ∨ magnitude = "nan".toList then
    some (.float (String.ofList word))
  else
    let (mantissa, exponent) := splitAtChar (fun c => c = 'e' || c = 'E') magnitude
    let (whole, fraction) := splitAtChar (· = '.') mantissa
    if exponent.isNone ∧ fraction.isNone then
      none
    else
      let whole ← wholeDigits? whole
      let fraction ← match fraction with
        | some digits => digitRun? isDigit digits
        | none => some []
      let exponent ← match exponent with
        | some digits => exponent? digits
        | none => some 0
      if !negative && isTooLarge (ofDigits 10 (whole ++ fraction)) (exponent - fraction.length) then
        none
      else
        some (.float (String.ofList word))

/-! ## Times -/

/-- A number of two digits that is in a range. -/
def twoDigits? (low high : Nat) (a b : Char) : Option Nat := do
  let n := 10 * (← Numeral.digit? a) + (← Numeral.digit? b)
  if low ≤ n ∧ n ≤ high then some n else none

def daysIn (year month : Nat) : Nat :=
  if month = 2 then
    if year % 4 = 0 ∧ (year % 100 ≠ 0 ∨ year % 400 = 0) then 29 else 28
  else if month = 4 ∨ month = 6 ∨ month = 9 ∨ month = 11 then 30
  else 31

/-- A date, and what follows it in the word. -/
def date? : List Char → Option (List Char)
  | a :: b :: c :: d :: '-' :: e :: f :: '-' :: g :: h :: rest => do
      let century ← twoDigits? 0 99 a b
      let year ← twoDigits? 0 99 c d
      let month ← twoDigits? 1 12 e f
      let _ ← twoDigits? 1 (daysIn (100 * century + year) month) g h
      some rest
  | _ => none

/-- A time of day, and what follows it in the word. -/
def clock? : List Char → Option (List Char)
  | a :: b :: ':' :: c :: d :: ':' :: e :: f :: rest => do
      let _ ← twoDigits? 0 23 a b
      let _ ← twoDigits? 0 59 c d
      let _ ← twoDigits? 0 60 e f
      match rest with
      | '.' :: fraction =>
          if fraction.head?.any isDigit then some (fraction.dropWhile isDigit) else none
      | rest => some rest
  | _ => none

/-- The difference from universal time, or nothing. -/
def isOffset : List Char → Bool
  | [] | ['Z'] | ['z'] => true
  | [sign, a, b, ':', c, d] =>
      (sign = '+' || sign = '-') && (twoDigits? 0 23 a b).isSome && (twoDigits? 0 59 c d).isSome
  | _ => false

/-- A time of day with an offset, filling the word. -/
def isClock (word : List Char) : Bool := (clock? word).any isOffset

/-- A date, a date and a time, or a time of day. -/
def isTime (word : List Char) : Bool :=
  match date? word with
  | some [] => true
  | some (c :: rest) => (c = 'T' || c = 't') && isClock rest
  | none => clock? word == some []

/-- The word is a date, so that a time may follow after a blank. -/
def isDate (word : List Char) : Bool := date? word == some []

/-! ## Words -/

def ofWord? (word : List Char) : Option Value :=
  if word = "true".toList then some (.boolean true)
  else if word = "false".toList then some (.boolean false)
  else if isTime word then some (.time (String.ofList word))
  else (float? word).or (integer? word)

/-- An unquoted scalar, and what follows it. -/
def scalarValue? (input : List Char) : Option (Value × List Char) := do
  let word := input.takeWhile isWordChar
  let rest := input.dropWhile isWordChar
  let value ← ofWord? word
  match rest with
  | ' ' :: more =>
      let second := more.takeWhile isWordChar
      if isDate word ∧ second ≠ [] then
        if isClock second then
          some (.time (String.ofList (word ++ ' ' :: second)), more.dropWhile isWordChar)
        else none
      else some (value, rest)
  | _ => some (value, rest)

end ShardedModel.Toml
