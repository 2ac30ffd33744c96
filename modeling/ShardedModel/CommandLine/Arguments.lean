import ShardedModel.Text.Numeral

/-!
# Arguments of the command line

An invocation names a command and gives it options. An option has a long name and may
have a letter; its value stands in the same argument, after an equals sign or directly
after the letter, or in the next argument, which then must not look like an option. No
option is given twice. The settings file can be named before the command and after it,
and the latter counts.

What does not follow these rules is refused as a whole, so there is no account of what
is wrong with it.
-/

namespace ShardedModel.CommandLine

/-! ## Options -/

/-- What an option takes. -/
inductive Kind where
  /-- Nothing: it is given or not. -/
  | flag
  /-- A number of 64 bits without a sign. -/
  | count
  | text
  /-- A text that is not empty. -/
  | path
deriving DecidableEq, Repr

structure Parameter where
  name : String
  letter : Option Char
  kind : Kind
deriving DecidableEq, Repr

def Kind.accepts (value : String) : Kind → Bool
  | .flag => false
  | .count => (Numeral.readUnsigned value.toList).toOption.isSome
  | .text => true
  | .path => value ≠ ""

/-- The options given so far, with their values. -/
abbrev Given := List (String × String)

def given? (values : Given) (name : String) : Option String := values.lookup name

def isGiven (values : Given) (name : String) : Bool := (given? values name).isSome

/-- Enters a value that an option accepts, once. -/
def enter? (values : Given) (p : Parameter) (value : String) : Option Given :=
  if isGiven values p.name ∨ !p.kind.accepts value then none else some (values ++ [(p.name, value)])

/-- Enters a flag, once. -/
def raise? (values : Given) (p : Parameter) : Option Given :=
  if isGiven values p.name then none else some (values ++ [(p.name, "")])

/-! ## Reading options -/

/-- Flags that end an invocation where they stand. -/
def endings : List String := ["help", "version"]

/-- How reading options ended. -/
inductive Reading where
  | refused
  /-- A flag asked for a text instead of a run. -/
  | asked (flag : String)
  /-- All options are read. A word that is no option may stand next, with what
  follows it. -/
  | done (values : Given) (next : Option (String × List String))

/-- What an argument with options in it leads to. -/
inductive Step where
  | refused
  | asked (flag : String)
  /-- The option waits for its value. -/
  | waiting (values : Given) (p : Parameter)
  | read (values : Given)

/-- A flag that was found. -/
def ofFlag (values : Given) (p : Parameter) (next : Given → Step) : Step :=
  if endings.contains p.name then .asked p.name
  else
    match raise? values p with
    | some values => next values
    | none => .refused

def ofValue (values : Given) (p : Parameter) (value : String) : Step :=
  match enter? values p value with
  | some values => .read values
  | none => .refused

/-- An argument with a long name, after the two hyphens. -/
def longStep (params : List Parameter) (values : Given) (text : List Char) : Step :=
  let name := String.ofList (text.takeWhile (· ≠ '='))
  match params.find? (·.name = name), text.dropWhile (· ≠ '=') with
  | none, _ => .refused
  | some p, [] => if p.kind = .flag then ofFlag values p .read else .waiting values p
  | some p, _ :: value =>
      if p.kind = .flag then .refused else ofValue values p (String.ofList value)

/-- An argument with letters, after the hyphen. -/
def letterStep (params : List Parameter) (values : Given) : List Char → Step
  | [] => .read values
  | c :: rest =>
    match params.find? (·.letter = some c) with
    | none => .refused
    | some p =>
      if p.kind = .flag then
        ofFlag values p fun values => letterStep params values rest
      else
        match rest with
        | [] => .waiting values p
        | '=' :: value => ofValue values p (String.ofList value)
        | value => ofValue values p (String.ofList value)

/-- An argument that looks like an option. A hyphen alone does not. -/
def looksLikeOption (argument : String) : Bool :=
  match argument.toList with
  | '-' :: _ :: _ => true
  | _ => false

/-- Reads options up to the first other word; one option may be waiting for its
value. Two hyphens end the options, and no word may follow them. -/
def readOptions (params : List Parameter) (values : Given) (waiting : Option Parameter) :
    List String → Reading
  | [] => if waiting.isSome then .refused else .done values none
  | argument :: rest =>
    match waiting with
    | some p =>
        if looksLikeOption argument then .refused
        else
          match enter? values p argument with
          | some values => readOptions params values none rest
          | none => .refused
    | none =>
      let step : Step :=
        match argument.toList with
        | ['-', '-'] => if rest.isEmpty then .read values else .refused
        | '-' :: '-' :: text => longStep params values text
        | '-' :: text => letterStep params values text
        | _ => .read values
      if looksLikeOption argument then
        match step with
        | .refused => .refused
        | .asked flag => .asked flag
        | .waiting values p => readOptions params values (some p) rest
        | .read values => readOptions params values none rest
      else
        .done values (some (argument, rest))

/-! ## Commands -/

/-- Settings that are given in place of those of the settings file. -/
structure Overrides where
  vocabSize : Option Nat
  shards : Option Nat
  dim : Option Nat
  seqLen : Option Nat
  k : Option Nat
deriving DecidableEq, Repr

inductive Command where
  | generateConfig (output : Option String) (force : Bool)
  | plan (overrides : Overrides)
  | graph (overrides : Overrides) (noCoalesce json : Bool)
  | infer (tokens : String) (overrides : Overrides) (params logLevel : Option String)
deriving DecidableEq, Repr

inductive Invocation where
  | help
  | version
  | run (settingsFile : Option String) (command : Command)
deriving DecidableEq, Repr

def commandNames : List String := ["generate-config", "plan", "graph", "infer"]

def settingsParameter : Parameter := ⟨"config", some 'c', .path⟩

def helpParameter : Parameter := ⟨"help", some 'h', .flag⟩

/-- The options before the command. -/
def generalParameters : List Parameter :=
  [settingsParameter, helpParameter, ⟨"version", some 'V', .flag⟩]

def overrideParameters : List Parameter :=
  [⟨"vocab-size", none, .count⟩, ⟨"shards", some 's', .count⟩, ⟨"dim", none, .count⟩,
    ⟨"seq-len", none, .count⟩, ⟨"k", some 'k', .count⟩]

/-- The options of a command. -/
def parametersOf (command : String) : List Parameter :=
  [settingsParameter, helpParameter] ++
    if command = "generate-config" then
      [⟨"output", some 'o', .path⟩, ⟨"force", none, .flag⟩]
    else if command = "graph" then
      overrideParameters ++ [⟨"no-coalesce", none, .flag⟩, ⟨"json", none, .flag⟩]
    else if command = "infer" then
      overrideParameters ++ [⟨"tokens", some 't', .text⟩, ⟨"params", some 'p', .path⟩,
        ⟨"log-level", some 'l', .text⟩]
    else
      overrideParameters

def countOf (values : Given) (name : String) : Option Nat := do
  (Numeral.readUnsigned (← given? values name).toList).toOption

def overridesOf (values : Given) : Overrides :=
  ⟨countOf values "vocab-size", countOf values "shards", countOf values "dim",
    countOf values "seq-len", countOf values "k"⟩

/-- The command with the options given to it, if none is missing. -/
def commandOf? (name : String) (values : Given) : Option Command :=
  if name = "generate-config" then
    some (.generateConfig (given? values "output") (isGiven values "force"))
  else if name = "plan" then
    some (.plan (overridesOf values))
  else if name = "graph" then
    some (.graph (overridesOf values) (isGiven values "no-coalesce") (isGiven values "json"))
  else if name = "infer" then do
    let tokens ← given? values "tokens"
    some (.infer tokens (overridesOf values) (given? values "params") (given? values "log-level"))
  else
    none

def asked (flag : String) : Invocation := if flag = "version" then .version else .help

/-- The invocation that arguments make, or nothing if they are refused. -/
def parse? (arguments : List String) : Option Invocation :=
  match readOptions generalParameters [] none arguments with
  | .refused | .done _ none => none
  | .asked flag => some (asked flag)
  | .done general (some (name, rest)) =>
    if name = "help" then
      if rest.isEmpty ∨ (rest.length = 1 ∧ rest.all commandNames.contains) then some .help else none
    else if !commandNames.contains name then
      none
    else
      match readOptions (parametersOf name) [] none rest with
      | .asked flag => some (asked flag)
      | .done values none => do
          let command ← commandOf? name values
          some (.run ((given? values "config").or (given? general "config")) command)
      | _ => none

end ShardedModel.CommandLine
