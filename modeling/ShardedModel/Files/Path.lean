import ShardedModel.Text.Pieces

/-!
# Path texts

A path is a text in which slashes divide names, and the file system reads the text as
it stands. So does everything here: a path keeps all of its names, and what is left of
a text after an operation is left unchanged. Nevertheless some names are idle. An empty
one, where slashes follow each other or the text ends with one, leads nowhere, and
neither does the name `.`, except at the very beginning of a path that does not begin
with a slash.
-/

namespace ShardedModel

structure Path where
  absolute : Bool
  /-- The texts between slashes, after the one at the beginning if there is one. -/
  names : List String
deriving DecidableEq, Repr

namespace Path

def isAbsolute (path : String) : Bool := path.toList.head? == some '/'

def ofText (path : String) : Path :=
  let names (text : List Char) : List String := (Text.pieces '/' text).map String.ofList
  if isAbsolute path then ⟨true, names path.toList.tail⟩ else ⟨false, names path.toList⟩

def text (path : Path) : String :=
  (if path.absolute then "/" else "") ++ "/".intercalate path.names

/-- The steps that the file system takes, one for each name that is not empty. -/
def steps (path : String) : List String := (ofText path).names.filter (· ≠ "")

/-! ## Names that count -/

def isIdle (name : String) : Bool := name = "" || name = "."

/-- Without the idle names at the end. -/
def trimEnd (names : List String) : List String := (names.reverse.dropWhile isIdle).reverse

/-- The name `.` at the very beginning. -/
def lead (path : Path) : List String :=
  if !path.absolute && path.names.head? == some "." then ["."] else []

/-- The names after the lead. -/
def body (path : Path) : List String := path.names.drop path.lead.length

/-- The last name that counts, after the names before it in reverse. -/
def last? (path : Path) : Option (String × List String) :=
  match path.body.reverse.dropWhile isIdle with
  | name :: before => some (name, before.reverse)
  | [] => none

/-- The path without its last name. The root and the empty path have none. -/
def parent? (path : Path) : Option Path :=
  match path.last? with
  | some (_, before) => some { path with names := path.lead ++ trimEnd before }
  | none => if path.lead.isEmpty then none else some { path with names := [] }

/-- The paths around this one that end before one of its names, the nearest first. -/
def outer (path : Path) : List Path :=
  let ends := (List.range path.body.length).filter fun n => (path.body[n]?).any (!isIdle ·)
  ends.reverse.map fun n => { path with names := path.lead ++ trimEnd (path.body.take n) }

/-! ## Extensions -/

/-- A name up to its last dot, and what follows the dot. A dot at the beginning does not
count. -/
def splitName (name : String) : String × Option String :=
  match name.toList.reverse.span (· ≠ '.') with
  | (after, _ :: before) =>
      if before.isEmpty then (name, none)
      else (String.ofList before.reverse, some (String.ofList after.reverse))
  | (_, []) => (name, none)

/-- The path with an extension after the stem of its last name, and nothing after that.
A path that ends in `..` or has no name stays as it is. -/
def setExtension (path : Path) (extension : String) : Path :=
  match path.last? with
  | some ("..", _) | none => path
  | some (name, before) =>
      { path with names := path.lead ++ before ++ [(splitName name).1 ++ "." ++ extension] }

/-- The number of characters in the extension of the last name. -/
def extensionLength (path : Path) : Nat :=
  match path.last? with
  | some ("..", _) | none => 0
  | some (name, _) => ((splitName name).2.map String.length).getD 0

/-- A path text with another extension. As many characters as the old extension has are
cut off the end of the text before the new one is set. -/
def withExtension (path extension : String) : String :=
  let kept := path.toList.take (path.length - (ofText path).extensionLength)
  ((ofText (String.ofList kept)).setExtension extension).text

/-! ## Places below others -/

def endsInSlash (path : String) : Bool := path.toList.getLast? == some '/'

/-- A name below a directory. -/
def below (directory name : String) : String :=
  directory ++ (if directory = "" || endsInSlash directory then "" else "/") ++ name

/-- The path with the home directory for a `~` that stands alone before the first
slash. -/
def expandHome (home : Option String) (path : String) : String :=
  match home, path.toList with
  | some home, ['~'] => home
  | some home, '~' :: '/' :: rest => home ++ String.ofList ('/' :: rest)
  | _, _ => path

end Path

end ShardedModel
