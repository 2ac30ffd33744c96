import ShardedModel.CommandLine.Run
import Std.Time

/-!
# The program

The machine that commands run on, and the entry point. All decisions are made in
`CommandLine.run`; here files, the clock and the two output streams are connected
to it.
-/

namespace ShardedModel.CommandLine

/-- Why the file system refused. -/
def fileCause : IO.Error → FileCause
  | .noFileOrDirectory .. => .notFound
  | .alreadyExists .. => .alreadyExists
  | error => .other (toString error)

/-- A file operation, with the reason if it is refused. -/
def fileAction {β : Type} (action : IO β) : ExceptT Failure IO β :=
  ExceptT.mk do
    try
      return .ok (← action)
    catch error =>
      return .error (.file (fileCause error))

/-- Whether something can be opened for reading. -/
def canOpen (path : String) : IO Bool := do
  try
    let _ ← IO.FS.Handle.mk path .read
    return true
  catch _ =>
    return false

def hexByte (b : UInt8) : List Char :=
  let digits := Nat.toDigits 16 b.toNat
  List.replicate (2 - digits.length) '0' ++ digits

/-- A random name in the usual form, with version and variant marked. -/
def randomId (bytes : List UInt8) : String :=
  let marked := bytes.mapIdx fun i b =>
    if i = 6 then (b &&& 0x0F) ||| 0x40 else if i = 8 then (b &&& 0x3F) ||| 0x80 else b
  let digits := marked.flatMap hexByte
  let part (start count : Nat) : String := String.ofList ((digits.drop start).take count)
  "-".intercalate [part 0 8, part 8 4, part 12 4, part 16 4, part 20 12]

/-- The date in Greenwich, as year, month and day with dashes between. -/
def dateText : IO String := do
  let now ← Std.Time.Timestamp.now
  return (Std.Time.PlainDate.ofEpochDay now.toDaysSinceUnixEpoch).toSQLDateString

instance : Host IO where
  read path := fileAction do return (← IO.FS.readBinFile path).toList
  isThere path := canOpen path
  isDirectory path := canOpen (path ++ "/.")
  makeDirectory path := fileAction (IO.FS.createDir path)
  write path content := fileAction (IO.FS.writeBinFile path ⟨content.toArray⟩)
  touch path := fileAction do
    let _ ← IO.FS.Handle.mk path .append
  move source target := fileAction (IO.FS.rename source target)
  home := IO.getEnv "HOME"
  now := IO.monoMsNow
  today := dateText
  newJobId := do return randomId (← IO.getRandomBytes 16).toList

/-- Prints what a run ended with. -/
def report (ending : Ending) : IO Unit := do
  match ending with
  | .printed lines => for line in lines do IO.println line
  | .complained chain =>
      IO.eprintln ("Error: " ++ "\n\nCaused by:\n    ".intercalate (chain.take 2))
      for cause in chain.drop 2 do IO.eprintln ("    " ++ cause)
  | .refused => IO.eprintln "error: the arguments are not understood"
  | .faulted => IO.eprintln "error: a computation left its bounds"

end ShardedModel.CommandLine

def main (arguments : List String) : IO UInt32 := do
  let ending ← ShardedModel.CommandLine.run arguments
  ShardedModel.CommandLine.report ending
  return ending.exitCode
