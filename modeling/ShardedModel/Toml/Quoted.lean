/-!
# Strings in TOML

A string stands between quotes or between apostrophes, and either sign can be tripled
so that the string may have line ends. Between apostrophes nothing is escaped;
between quotes a backslash begins an escape. A line end right after a tripled sign
does not count, and up to two of the signs may stand before the closing three.

Writing takes the plainest form that fits: `form` goes through the forms in order. How far a
writer can count on the way is a property of the writer.

Reading goes character by character; what an escape has come to so far is the
`Progress` of the reader.
-/

namespace ShardedModel.Toml

/-! ## Characters -/

/-- A character that can stand for itself: a tab, or anything from the blank on
except the delete character. -/
def isPlain (c : Char) : Bool := c = '\t' || (0x20 ≤ c.toNat && c.toNat ≠ 0x7F)

/-- A character that has to be escaped: one that cannot stand for itself and does not
end a line. -/
def isControl (c : Char) : Bool := !isPlain c && c ≠ '\n'

/-! ## Writing -/

inductive Form where
  | quotes
  | apostrophes
  | tripleQuotes
  | tripleApostrophes
deriving DecidableEq, Repr

/-- How often a character occurs in a row at most, if the text stands after a row of
`run`. -/
def longestRunAfter (c : Char) (run : Nat) : List Char → Nat
  | [] => run
  | d :: rest =>
    if d = c then longestRunAfter c (run + 1) rest else max run (longestRunAfter c 0 rest)

def longestRun (c : Char) (text : List Char) : Nat := longestRunAfter c 0 text

/-- The form in which a text is written. -/
def form (text : List Char) : Form :=
  let control := text.any isControl
  let has (c : Char) : Bool := text.contains c
  if !control && !has '\\' && !has '"' && !has '\n' then .quotes
  else if !control && !has '\'' && !has '\n' then .apostrophes
  else if !control && !has '\\' && longestRun '"' text < 3 then .tripleQuotes
  else if !control && longestRun '\'' text < 3 then .tripleApostrophes
  else if has '\n' then .tripleQuotes
  else .quotes

/-- A writer counts quotes and apostrophes in a row to find the form of a text. One whose
counter has a limit faults beyond it. -/
structure Writer where
  runLimit? : Option Nat

namespace Writer

/-- The counter is one byte. -/
def bytewise : Writer := ⟨some 255⟩

def unbounded : Writer := ⟨none⟩

/-- The counter does not run over. -/
def writes (w : Writer) (text : List Char) : Bool :=
  match w.runLimit? with
  | some limit => longestRun '"' text ≤ limit && longestRun '\'' text ≤ limit
  | none => true

def WritesAll (w : Writer) (texts : List String) : Prop :=
  ∀ text ∈ texts, w.writes text.toList = true

instance (w : Writer) (texts : List String) : Decidable (w.WritesAll texts) :=
  inferInstanceAs (Decidable (∀ text ∈ texts, _))

end Writer

def hexLetters (n : Nat) : List Char := (Nat.toDigits 16 n).map Char.toUpper

/-- A character between quotes. -/
def escaped (c : Char) : List Char :=
  if c = '\x08' then ['\\', 'b']
  else if c = '\t' then ['\\', 't']
  else if c = '\n' then ['\\', 'n']
  else if c = '\x0C' then ['\\', 'f']
  else if c = '\r' then ['\\', 'r']
  else if c = '"' then ['\\', '"']
  else if c = '\\' then ['\\', '\\']
  else if isControl c then
    let digits := hexLetters c.toNat
    '\\' :: 'u' :: (List.replicate (4 - digits.length) '0' ++ digits)
  else [c]

/-- The characters between tripled quotes, after so many quotes in a row: line ends
stay, and of quotes only every third in a row is escaped. -/
def escapedLines (quotes : Nat) : List Char → List Char
  | [] => []
  | c :: rest =>
    if c = '\n' then '\n' :: escapedLines 0 rest
    else if c = '"' then
      if quotes = 2 then '\\' :: '"' :: escapedLines 0 rest
      else '"' :: escapedLines (quotes + 1) rest
    else escaped c ++ escapedLines 0 rest

/-- A line end that does not count, if the text has line ends. -/
def opening (text : List Char) : List Char := if text.contains '\n' then ['\n'] else []

def quoted (text : List Char) : List Char :=
  match form text with
  | .quotes => '"' :: text.flatMap escaped ++ ['"']
  | .apostrophes => '\'' :: text ++ ['\'']
  | .tripleQuotes => ['"', '"', '"'] ++ opening text ++ escapedLines 0 text ++ ['"', '"', '"']
  | .tripleApostrophes => ['\'', '\'', '\''] ++ opening text ++ text ++ ['\'', '\'', '\'']

/-! ## Reading -/

/-- The value of a hexadecimal digit. -/
def hexDigit? (c : Char) : Option Nat :=
  if '0' ≤ c ∧ c ≤ '9' then some (c.toNat - '0'.toNat)
  else if 'a' ≤ c ∧ c ≤ 'f' then some (c.toNat - 'a'.toNat + 10)
  else if 'A' ≤ c ∧ c ≤ 'F' then some (c.toNat - 'A'.toNat + 10)
  else none

/-- The character behind a backslash and a letter. -/
def named? (c : Char) : Option Char :=
  if c = 'b' then some '\x08'
  else if c = 't' then some '\t'
  else if c = 'n' then some '\n'
  else if c = 'f' then some '\x0C'
  else if c = 'r' then some '\r'
  else if c = '"' then some '"'
  else if c = '\\' then some '\\'
  else none

/-- The character with a number, if there is one. -/
def scalar? (n : Nat) : Option Char := if n.isValidChar then some (Char.ofNat n) else none

/-- Where the reader of a string between quotes is. -/
inductive Progress where
  | plain
  /-- After a backslash. -/
  | escape
  /-- Within the number of a character: so many digits are still to come. -/
  | code (missing value : Nat)
  /-- After a backslash and blanks, before the line end. -/
  | lineEnd
  /-- After such a line end, among the blanks and line ends that do not count. -/
  | gap

/-- A text that was read, and what follows it. -/
abbrev Rest := Option (List Char × List Char)

def emit (c : Char) (rest : Rest) : Rest := rest.map fun (text, after) => (c :: text, after)

/-- One character within an escape: the character it makes, or how it goes on. -/
def Progress.step (missing value : Nat) (c : Char) : Option (Char ⊕ Progress) := do
  let d ← hexDigit? c
  if missing ≤ 1 then
    let made ← scalar? (16 * value + d)
    some (.inl made)
  else
    some (.inr (.code (missing - 1) (16 * value + d)))

/-- The text up to the closing quote. -/
def basic (progress : Progress) : List Char → Rest
  | [] => none
  | c :: rest =>
    match progress with
    | .escape =>
        if c = 'u' then basic (.code 4 0) rest
        else if c = 'U' then basic (.code 8 0) rest
        else do emit (← named? c) (basic .plain rest)
    | .code missing value =>
        match Progress.step missing value c with
        | some (.inl made) => emit made (basic .plain rest)
        | some (.inr further) => basic further rest
        | none => none
    | _ =>
        if c = '"' then some ([], rest)
        else if c = '\\' then basic .escape rest
        else if isPlain c then emit c (basic .plain rest)
        else none

/-- The text up to the closing apostrophe. -/
def literal : List Char → Rest
  | [] => none
  | c :: rest =>
    if c = '\'' then some ([], rest)
    else if isPlain c then emit c (literal rest)
    else none

def isInlineBlank (c : Char) : Bool := c = ' ' || c = '\t'

/-- A newline stands next, so that a return before it is part of the line end. -/
def beforeNewline (rest : List Char) : Bool := rest.head? == some '\n'

/-- A line end, with or without a return in it, stands next. -/
def atLineEnd : List Char → Bool
  | '\n' :: _ => true
  | '\r' :: '\n' :: _ => true
  | _ => false

/-- What stands next belongs to a gap, or the text goes on. -/
def Progress.afterGap (rest : List Char) : Progress :=
  if atLineEnd rest || (rest.head?.any isInlineBlank) then .gap else .plain

/-- At most two more signs after the first three belong to the text. -/
def closed (sign : Char) : List Char → List Char × List Char
  | a :: b :: rest =>
      if a = sign ∧ b = sign then ([sign, sign], rest)
      else if a = sign then ([sign], b :: rest)
      else ([], a :: b :: rest)
  | [a] => if a = sign then ([sign], []) else ([], [a])
  | [] => ([], [])

/-- The closing signs stand next: what belongs to the text, and what follows. -/
def closing? (sign : Char) : List Char → Rest
  | a :: b :: c :: rest =>
      if a = sign ∧ b = sign ∧ c = sign then some (closed sign rest) else none
  | _ => none

/-- The text up to the three closing quotes. -/
def basicLines (progress : Progress) : List Char → Rest
  | [] => none
  | c :: rest =>
    match progress with
    | .escape =>
        if c = 'u' then basicLines (.code 4 0) rest
        else if c = 'U' then basicLines (.code 8 0) rest
        else if isInlineBlank c then basicLines .lineEnd rest
        else if c = '\n' then basicLines (.afterGap rest) rest
        else if c = '\r' then if beforeNewline rest then basicLines .lineEnd rest else none
        else do emit (← named? c) (basicLines .plain rest)
    | .code missing value =>
        match Progress.step missing value c with
        | some (.inl made) => emit made (basicLines .plain rest)
        | some (.inr further) => basicLines further rest
        | none => none
    | .lineEnd =>
        if isInlineBlank c then basicLines .lineEnd rest
        else if c = '\n' then basicLines (.afterGap rest) rest
        else if c = '\r' ∧ beforeNewline rest then basicLines .lineEnd rest
        else none
    | .gap => basicLines (.afterGap rest) rest
    | .plain =>
        match closing? '"' (c :: rest) with
        | some done => some done
        | none =>
          if c = '\\' then basicLines .escape rest
          else if c = '\r' then if beforeNewline rest then basicLines .plain rest else none
          else if c = '\n' ∨ isPlain c then emit c (basicLines .plain rest)
          else none

/-- The text up to the three closing apostrophes. -/
def literalLines : List Char → Rest
  | [] => none
  | c :: rest =>
    match closing? '\'' (c :: rest) with
    | some done => some done
    | none =>
      if c = '\r' then if beforeNewline rest then literalLines rest else none
      else if c = '\n' ∨ isPlain c then emit c (literalLines rest)
      else none

/-- What follows a line end that does not count. -/
def afterOpening : List Char → List Char
  | '\n' :: rest => rest
  | '\r' :: '\n' :: rest => rest
  | rest => rest

/-- A string within one line. -/
def lineString? : List Char → Rest
  | '"' :: rest => basic .plain rest
  | '\'' :: rest => literal rest
  | _ => none

/-- A string in any form. -/
def string? : List Char → Rest
  | '"' :: '"' :: '"' :: rest => basicLines .plain (afterOpening rest)
  | '\'' :: '\'' :: '\'' :: rest => literalLines (afterOpening rest)
  | rest => lineString? rest

end ShardedModel.Toml
