/-!
# TOML values and tables

The data of a TOML document. A number that is no integer and a point in time are kept
as they were written.

Tables come into being in four ways, and these differ in how the table may grow
later. An inline table is complete where it stands. The table of a header gets the
pairs below the header. A table that was only passed by a header may still get a
header of its own. And a table that came from a key with dots grows by further keys
with dots, but has no header. `alter` goes down a path and keeps to these rules.
-/

namespace ShardedModel.Toml

inductive Origin where
  | inline
  | header
  | passed
  | dotted
deriving DecidableEq, Repr

inductive Value where
  | string (text : String)
  | integer (n : Int)
  | float (text : String)
  | boolean (b : Bool)
  | time (text : String)
  | array (items : List Value)
  | table (origin : Origin) (entries : List (String × Value))
  /-- The tables of one repeated header. -/
  | tables (items : List (List (String × Value)))

/-- A table that is still growing. -/
structure Table where
  origin : Origin
  entries : List (String × Value)

namespace Table

def get? (t : Table) (key : String) : Option Value := t.entries.lookup key

/-- The table with a value at a key, in place of the one that was there. -/
def set (t : Table) (key : String) (v : Value) : Table :=
  { t with entries := t.entries.filter (·.1 ≠ key) ++ [(key, v)] }

/-- Changes the table at the end of a path and makes the tables that are missing on
the way. A path of dotted keys makes dotted tables and does not enter the table of a
header; a header's path makes passed tables and goes through anything that is a table
outside a value. Of repeated tables it enters the last. -/
def alter (dotted : Bool) (f : Table → Option Table) : List String → Table → Option Table
  | [], t => f t
  | key :: rest, t =>
    match t.get? key with
    | none => do
        let new ← alter dotted f rest ⟨if dotted then .dotted else .passed, []⟩
        some (t.set key (.table new.origin new.entries))
    | some (.table origin entries) =>
        if origin = .inline ∨ (dotted ∧ origin = .header) then
          none
        else do
          let new ← alter dotted f rest ⟨origin, entries⟩
          some (t.set key (.table new.origin new.entries))
    | some (.tables items) => do
        let last ← items.getLast?
        let new ← alter dotted f rest ⟨.header, last⟩
        some (t.set key (.tables (items.dropLast ++ [new.entries])))
    | some _ => none

/-- Puts a value at a new key. Whether the path to the table had dots must agree with
how the table came into being. -/
def putNew (path : List String) (key : String) (v : Value) (t : Table) : Option Table :=
  if (t.origin = .dotted) = (path = []) then none
  else if (t.get? key).isSome then none
  else some (t.set key v)

/-- Adds a pair whose key is a path. -/
def addPair (path : List String) (v : Value) (t : Table) : Option Table :=
  match path.getLast? with
  | none => none
  | some key => t.alter true (putNew path.dropLast key v) path.dropLast

/-- Begins the table of a header. -/
def openHeader (path : List String) (t : Table) : Option Table :=
  match path.getLast? with
  | none => none
  | some key =>
    let opened (t : Table) : Option Table :=
      match t.get? key with
      | none => some (t.set key (.table .header []))
      | some (.table .passed entries) => some (t.set key (.table .header entries))
      | some _ => none
    t.alter false opened path.dropLast

/-- Begins one more table of a repeated header. -/
def openElement (path : List String) (t : Table) : Option Table :=
  match path.getLast? with
  | none => none
  | some key =>
    let opened (t : Table) : Option Table :=
      match t.get? key with
      | none => some (t.set key (.tables [[]]))
      | some (.tables items) => some (t.set key (.tables (items ++ [[]])))
      | some _ => none
    t.alter false opened path.dropLast

end Table

end ShardedModel.Toml
