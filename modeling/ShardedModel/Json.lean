/-!
# JSON documents

Just enough of the format to write a description of a graph: a document is a tree,
and it is written over several lines, each level two blanks further in than the one
around it. An empty list or object stays on one line.
-/

namespace ShardedModel

inductive Json where
  | null
  | number (n : Nat)
  | string (s : String)
  | list (items : List Json)
  | object (fields : List (String × Json))

namespace Json

/-- A character inside a string. -/
def escape (c : Char) : String :=
  if c = '"' then "\\\""
  else if c = '\\' then "\\\\"
  else c.toString

def quoted (s : String) : String := "\"" ++ String.join (s.toList.map escape) ++ "\""

def indent (depth : Nat) : String := String.ofList (List.replicate (2 * depth) ' ')

/-- Lines between a pair of brackets, divided by commas, one level further in. -/
def block (opening closing : String) (depth : Nat) (lines : List String) : String :=
  if lines.isEmpty then
    opening ++ closing
  else
    opening ++ "\n" ++ ",\n".intercalate (lines.map (indent (depth + 1) ++ ·)) ++ "\n"
      ++ indent depth ++ closing

mutual

/-- A document whose first line begins at a depth. -/
def pretty (depth : Nat) : Json → String
  | .null => "null"
  | .number n => toString n
  | .string s => quoted s
  | .list items => block "[" "]" depth (prettyItems (depth + 1) items)
  | .object fields => block "\x7b" "\x7d" depth (prettyFields (depth + 1) fields)

def prettyItems (depth : Nat) : List Json → List String
  | [] => []
  | item :: rest => item.pretty depth :: prettyItems depth rest

def prettyFields (depth : Nat) : List (String × Json) → List String
  | [] => []
  | (key, value) :: rest =>
      (quoted key ++ ": " ++ value.pretty depth) :: prettyFields depth rest

end

end Json

end ShardedModel
