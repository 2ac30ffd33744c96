import ShardedModel.Failure
import ShardedModel.Files.Path

/-!
# Files

What the library needs of a file system, for any monad that has one: files are read
and written whole or opened to be written on, directories are made, and a file can be
moved over another.

Two operations are built on these. `makeDirectories` makes a directory with all that
is missing around it. `replaceFile` writes a file under another name first and then
moves it to its place, so that at no moment a half-written file has the name that
readers look for. The content may turn out not to exist; then no file is touched.
-/

namespace ShardedModel

class Files (m : Type → Type) where
  read (path : String) : ExceptT Failure m (List UInt8)
  isThere (path : String) : m Bool
  isDirectory (path : String) : m Bool
  makeDirectory (path : String) : ExceptT Failure m Unit
  write (path : String) (content : List UInt8) : ExceptT Failure m Unit
  /-- Opens a file for lines to come, and makes it if it is not there. -/
  touch (path : String) : ExceptT Failure m Unit
  /-- Gives a file another name, and replaces the file that has it. -/
  move (source target : String) : ExceptT Failure m Unit

namespace Files

variable {m : Type → Type} [Monad m] [Files m]

/-- Runs an operation and goes on, whatever its outcome. -/
def attempt {β : Type} (operation : ExceptT Failure m β) : ExceptT Failure m (Outcome β) :=
  ExceptT.lift operation.run

/-- A directory that could not be made is there all the same, or the attempt failed. -/
def acceptDirectory (path : String) : Outcome Unit → ExceptT Failure m Unit
  | .ok () => pure ()
  | .error failure => do
      if ← (isDirectory path : m Bool) then pure () else throw failure

/-- Makes a directory. If the one around it is missing, makes that first, and so on
through the list. -/
def makeWithin (path : String) : List String → ExceptT Failure m Unit
  | [] => do
      acceptDirectory path (← attempt (makeDirectory path))
  | around :: further => do
      match ← attempt (makeDirectory path) with
      | .error (.file .notFound) => do
          makeWithin around further
          acceptDirectory path (← attempt (makeDirectory path))
      | made => acceptDirectory path made

/-- Makes a directory and what is missing around it. The empty path stands for the
directory one is in. -/
def makeDirectories (path : String) : ExceptT Failure m Unit :=
  if path = "" then
    pure ()
  else
    makeWithin path (((Path.ofText path).outer.map (·.text)).filter (· ≠ ""))

/-- Makes the directory of a file that is about to be written. -/
def makeParent (path : String) : ExceptT Failure m Unit :=
  match (Path.ofText path).parent? with
  | some parent => makeDirectories parent.text
  | none => pure ()

/-- Puts a file with some content in its place, by way of a draft that has another
extension. -/
def replaceFile (path extension : String) (content : Outcome (List UInt8)) :
    ExceptT Failure m Unit := do
  makeParent path
  let content ← liftExcept content
  write (Path.withExtension path extension) content
  move (Path.withExtension path extension) path

end Files

end ShardedModel
