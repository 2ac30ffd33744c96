import ShardedModel.Toml.Scalar

/-!
# Reading TOML

A document is a list of lines, where a line may extend over several lines of text if
a value does: pairs of a key and a value, headers, and headers of repeated tables.
Reading the lines and putting the tables together are separate steps.

Values can be nested in arrays and inline tables, and keys can be nested by dots, but
only to a fixed depth. The loops over items, pairs and lines take a bound on their
number, for which the length of the input is always enough.
-/

namespace ShardedModel.Toml

/-! ## Blanks and comments -/

def skipBlanks (input : List Char) : List Char := input.dropWhile isInlineBlank

/-- Skips blanks, line ends and comments. -/
def skipLines (inComment : Bool) : List Char → List Char
  | [] => []
  | c :: rest =>
    if c = '\n' then skipLines false rest
    else if c = '\r' ∧ beforeNewline rest then skipLines inComment rest
    else if inComment ∧ isPlain c then skipLines true rest
    else if !inComment ∧ isInlineBlank c then skipLines false rest
    else if !inComment ∧ c = '#' then skipLines true rest
    else c :: rest

/-- The end of a line, with a comment before it or not, or the end of the input. -/
def lineEnd? (inComment : Bool) : List Char → Option (List Char)
  | [] => some []
  | c :: rest =>
    if c = '\n' then some rest
    else if c = '\r' ∧ beforeNewline rest then lineEnd? inComment rest
    else if inComment ∧ isPlain c then lineEnd? true rest
    else if !inComment ∧ isInlineBlank c then lineEnd? false rest
    else if !inComment ∧ c = '#' then lineEnd? true rest
    else none

/-! ## Keys -/

/-- How deep keys and values can be nested. -/
def nestingLimit : Nat := 80

def isKeyChar (c : Char) : Bool := c.isAlphanum || c = '_' || c = '-'

/-- One part of a key, quoted or not. -/
def keyPart? (input : List Char) : Option (String × List Char) :=
  match input with
  | '"' :: _ | '\'' :: _ => (lineString? input).map fun (text, rest) => (String.ofList text, rest)
  | _ =>
      let key := input.takeWhile isKeyChar
      if key.isEmpty then none else some (String.ofList key, input.dropWhile isKeyChar)

/-- A key: parts with dots between them, and blanks around each. -/
def keyPath? (bound : Nat) (input : List Char) : Option (List String × List Char) :=
  match bound with
  | 0 => none
  | bound + 1 => do
      let (key, rest) ← keyPart? (skipBlanks input)
      match skipBlanks rest with
      | '.' :: more => do
          let (path, rest) ← keyPath? bound more
          some (key :: path, rest)
      | rest => some ([key], rest)

/-- A key that is not nested too deep. -/
def key? (input : List Char) : Option (List String × List Char) :=
  (keyPath? (input.length + 1) input).filter fun (path, _) => path.length < nestingLimit

/-! ## Values -/

/-- A reader of one value, which also says what follows. -/
abbrev ValueReader := List Char → Option (Value × List Char)

/-- The items of an array up to its closing bracket. -/
def items? (value? : ValueReader) : Nat → List Char → Option (List Value × List Char)
  | 0, _ => none
  | bound + 1, input =>
    match skipLines false input with
    | ']' :: rest => some ([], rest)
    | input => do
        let (item, rest) ← value? input
        match skipLines false rest with
        | ',' :: rest => do
            let (items, rest) ← items? value? bound rest
            some (item :: items, rest)
        | ']' :: rest => some ([item], rest)
        | _ => none

/-- A key and a value with an equals sign between them. -/
def pair? (value? : ValueReader) (input : List Char) :
    Option ((List String × Value) × List Char) := do
  let (path, rest) ← key? input
  match rest with
  | '=' :: rest => do
      let (value, rest) ← value? (skipBlanks rest)
      some ((path, value), rest)
  | _ => none

/-- The pairs of an inline table up to its closing brace. -/
def pairs? (value? : ValueReader) :
    Nat → List Char → Option (List (List String × Value) × List Char)
  | 0, _ => none
  | bound + 1, input => do
      let (pair, rest) ← pair? value? input
      match skipBlanks rest with
      | ',' :: rest => do
          let (pairs, rest) ← pairs? value? bound rest
          some (pair :: pairs, rest)
      | '\x7d' :: rest => some ([pair], rest)
      | _ => none

/-- The table of an inline table's pairs. -/
def inlineTable? (pairs : List (List String × Value)) : Option Value := do
  let table ← pairs.foldlM (fun t (path, value) => t.addPair path value) (⟨.inline, []⟩ : Table)
  some (.table table.origin table.entries)

/-- A value in which arrays and inline tables are nested at most `depth` deep. -/
def value? : Nat → ValueReader
  | depth, input =>
    match input, depth with
    | '"' :: _, _ | '\'' :: _, _ =>
        (string? input).map fun (text, rest) => (.string (String.ofList text), rest)
    | '[' :: rest, depth + 1 => do
        let (items, rest) ← items? (value? depth) (rest.length + 1) rest
        some (.array items, rest)
    | '\x7b' :: rest, depth + 1 =>
        match skipBlanks rest with
        | '\x7d' :: rest => some (.table .inline [], rest)
        | _ => do
            let (pairs, rest) ← pairs? (value? depth) (rest.length + 1) rest
            let table ← inlineTable? pairs
            some (table, rest)
    | _, _ => scalarValue? input

/-! ## Lines -/

inductive Line where
  | pair (path : List String) (value : Value)
  | header (path : List String)
  | element (path : List String)

/-- The line that begins here, and what follows it. -/
def line? (input : List Char) : Option (Line × List Char) :=
  match input with
  | '[' :: '[' :: rest => do
      let (path, rest) ← key? rest
      match rest with
      | ']' :: ']' :: rest => do some (.element path, ← lineEnd? false rest)
      | _ => none
  | '[' :: rest => do
      let (path, rest) ← key? rest
      match rest with
      | ']' :: rest => do some (.header path, ← lineEnd? false rest)
      | _ => none
  | _ => do
      let ((path, value), rest) ← pair? (value? (nestingLimit - 1)) input
      some (.pair path value, ← lineEnd? false rest)

/-- All lines, of which there are fewer than `bound`. -/
def lines? : Nat → List Char → Option (List Line)
  | 0, _ => none
  | bound + 1, input =>
    match skipLines false input with
    | [] => some []
    | input => do
        let (line, rest) ← line? input
        let lines ← lines? bound rest
        some (line :: lines)

/-! ## Documents -/

/-- The tables so far, and the header that is open. -/
structure Draft where
  table : Table
  here : List String

/-- One line more. -/
def Draft.add (p : Draft) : Line → Option Draft
  | .pair path value => do
      let table ← p.table.alter false (·.addPair path value) p.here
      some { p with table }
  | .header path => do
      let table ← p.table.openHeader path
      some ⟨table, path⟩
  | .element path => do
      let table ← p.table.openElement path
      some ⟨table, path⟩

/-- The table that lines make up. -/
def assemble? (lines : List Line) : Option (List (String × Value)) := do
  let p ← lines.foldlM Draft.add ⟨⟨.header, []⟩, []⟩
  some p.table.entries

/-- The text without a byte order mark at its beginning. -/
def withoutMark : List Char → List Char
  | '\uFEFF' :: rest => rest
  | text => text

/-- The table of a document. -/
def read? (text : List Char) : Option (List (String × Value)) := do
  let text := withoutMark text
  assemble? (← lines? (text.length + 1) text)

end ShardedModel.Toml
