import ShardedModel.Files

/-!
# A disk

A file system as a value: what stands at each place, and the place one is in. A
place is a list of names from the root. A path is followed name by name, and every
place that is passed on the way has to be a directory; `.` stays and `..` goes back.
A slash at the end asks for a directory as a final `.` would.

Looking at a place after something was put there or taken away is described by the
lemmas `get?_put` and `get?_remove`.
-/

namespace ShardedModel

inductive Entry where
  | directory
  | file (content : List UInt8)
deriving DecidableEq, Repr

structure Disk where
  here : List String
  entries : List (List String × Entry)
deriving DecidableEq, Repr

namespace Disk

/-- A disk on which there is nothing but the directory one is in. -/
def bare (here : List String) : Disk :=
  ⟨here, (List.range here.length).map fun n => (here.take (n + 1), .directory)⟩

/-! ## Places -/

/-- What stands at a place. The root is always there. -/
def get? (d : Disk) (place : List String) : Option Entry :=
  if place = [] then some .directory
  else (d.entries.find? (·.1 = place)).map (·.2)

def remove (d : Disk) (place : List String) : Disk :=
  { d with entries := d.entries.filter (·.1 ≠ place) }

def put (d : Disk) (place : List String) (entry : Entry) : Disk :=
  { d with entries := (place, entry) :: (d.remove place).entries }

theorem get?_remove (d : Disk) {place : List String} (other : List String) (h : place ≠ []) :
    (d.remove place).get? other = if other = place then none else d.get? other := by
  by_cases root : other = []
  · simp [get?, root, h.symm]
  · simp only [get?, remove, root, if_false]
    by_cases same : other = place
    · subst same
      simp
    · simp only [same, if_false]
      congr 1
      rw [List.find?_filter]
      congr 1
      funext e
      by_cases at_other : e.1 = other
      · simp [at_other, same]
      · simp [at_other]

theorem get?_put (d : Disk) {place : List String} (other : List String) (entry : Entry)
    (h : place ≠ []) :
    (d.put place entry).get? other = if other = place then some entry else d.get? other := by
  by_cases same : other = place
  · subst same
    simp [get?, put, h]
  · rw [if_neg same]
    have removed := get?_remove d other h
    rw [if_neg same] at removed
    rw [← removed]
    simp [get?, put, Ne.symm same]

/-! ## Following a path -/

/-- The longest name and the longest path, in bytes. -/
def nameLimit : Nat := 255

def pathLimit : Nat := 4095

/-- The place one step further. -/
def next (place : List String) (step : String) : List String :=
  if step = "." then place else if step = ".." then place.dropLast else place ++ [step]

def walk (d : Disk) (place : List String) : List String → Outcome (List String)
  | [] => .ok place
  | step :: rest =>
    match d.get? place with
    | none => .error (.file .notFound)
    | some (.file _) => .error (.file .notADirectory)
    | some .directory =>
      if nameLimit < step.utf8ByteSize then .error (.file .nameTooLong)
      else d.walk (next place step) rest

/-- A text that can be a path at all. -/
def checkText (path : String) : Outcome Unit := do
  ensure (path ≠ "") (.file .notFound)
  ensure ('\x00' ∉ path.toList) (.file .nulInPath)
  ensure (path.utf8ByteSize ≤ pathLimit) (.file .nameTooLong)

/-- The place that a path leads to, whether or not something stands there. -/
def locate (d : Disk) (path : String) : Outcome (List String) := do
  checkText path
  let start := if Path.isAbsolute path then [] else d.here
  d.walk start (Path.steps path ++ if Path.endsInSlash path then ["."] else [])

/-- What a path leads to. -/
def find? (d : Disk) (path : String) : Option Entry :=
  match d.locate path with
  | .ok place => d.get? place
  | .error _ => none

/-! ## Operations -/

def read (d : Disk) (path : String) : Outcome (List UInt8) := do
  let place ← d.locate path
  match d.get? place with
  | some (.file content) => .ok content
  | some .directory => .error (.file .isADirectory)
  | none => .error (.file .notFound)

/-- A directory can be named with slashes at the end before it is there. -/
def directoryName (path : String) : String :=
  match (path.toList.reverse.dropWhile (· = '/')).reverse with
  | [] => path
  | name => String.ofList name

def makeDirectory (d : Disk) (path : String) : Outcome Disk := do
  checkText path
  let place ← d.locate (directoryName path)
  match d.get? place with
  | some _ => .error (.file .alreadyExists)
  | none => .ok (d.put place .directory)

def write (d : Disk) (path : String) (content : List UInt8) : Outcome Disk := do
  let place ← d.locate path
  match d.get? place with
  | some .directory => .error (.file .isADirectory)
  | _ => .ok (d.put place (.file content))

def touch (d : Disk) (path : String) : Outcome Disk := do
  let place ← d.locate path
  match d.get? place with
  | some .directory => .error (.file .isADirectory)
  | some (.file _) => .ok d
  | none => .ok (d.put place (.file []))

def move (d : Disk) (source target : String) : Outcome Disk := do
  let content ← d.read source
  let old ← d.locate source
  let new ← d.locate target
  match d.get? new with
  | some .directory => .error (.file .isADirectory)
  | _ => .ok ((d.remove old).put new (.file content))

/-- An operation that changes the disk if it succeeds. -/
def change (operation : Disk → Outcome Disk) : ExceptT Failure (StateM Disk) Unit := do
  let d ← get
  let changed ← liftExcept (operation d)
  set changed

instance : Files (StateM Disk) where
  read path := do liftExcept ((← get).read path)
  isThere path := do return ((← get).find? path).isSome
  isDirectory path := do return (← get).find? path == some .directory
  makeDirectory path := change (·.makeDirectory path)
  write path content := change (·.write path content)
  touch path := change (·.touch path)
  move source target := change (·.move source target)

/-- The files below a place, with their paths from there. -/
def filesBelow (d : Disk) (place : List String) : List String :=
  d.entries.filterMap fun (p, entry) =>
    match entry with
    | .file _ => if place.isPrefixOf p then some ("/".intercalate (p.drop place.length)) else none
    | .directory => none

end Disk

end ShardedModel
