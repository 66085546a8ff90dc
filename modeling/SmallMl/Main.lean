import SmallMl.Command.Run

/-!
# The command line

Reads the source that the action asks for, carries the action out and writes the report.  A session
asks for one line at a time.
-/

namespace SmallMl.Main

partial def readAll (s : IO.FS.Stream) (acc : ByteArray) : IO ByteArray := do
  let chunk ← s.read 65536
  if chunk.isEmpty then return acc
  readAll s (acc ++ chunk)

def readError (name : String) : IO.Error → ReadError
  | .noFileOrDirectory .. => .missing
  | .inappropriateType none .. => .isDirectory
  | .inappropriateType .. => .notDirectory
  | .permissionDenied .. => .other (String.join ["open ", name, ": permission denied"])
  | e => .other (String.join ["read ", name, ": ", e.toString])

def attempt (name : String) (read : IO ByteArray) : IO (Except ReadError (List UInt8)) := do
  try
    let bytes ← read
    return .ok bytes.toList
  catch e => return .error (readError name e)

def sourceName? : Action → Option String
  | .tokens name _ | .tree name _ | .check name => some name
  | _ => none

def inputs (a : Action) : IO Inputs := do
  match sourceName? a with
  | none => return { file := fun _ => .error .missing, stdin := [] }
  | some name =>
    if name = Inputs.stdinName then
      match ← attempt Inputs.stdinPath do readAll (← IO.getStdin) ByteArray.empty with
      | .ok bytes => return { file := fun _ => .error .missing, stdin := bytes }
      | .error e => return { file := fun _ => .error .missing, stdin := [], stdinError := some e }
    else
      let contents ← attempt name (IO.FS.readBinFile name)
      return { file := fun _ => contents, stdin := [] }

def emit (e : Event) : IO Unit := do
  IO.print e.toOut
  IO.eprint e.toErr
  (← IO.getStdout).flush

/-- The entries of the next line; none at the end of the input. -/
def typed : IO (List Session.Input) := do
  let text ← (← IO.getStdin).getLine
  return Session.script (Utf8.encode text)

/-- Asks for entries until the session ends; `ahead` are those that have been typed already. -/
partial def converse (s : Session) (ahead : List Session.Input) : IO Unit := do
  emit (.prompt s.promptText)
  let entries ← if ahead.isEmpty then typed else pure ahead
  let r := s.feed (entries.head?.getD .failure)
  r.events.forM emit
  if r.goesOn then converse r.session entries.tail

end SmallMl.Main

def main (args : List String) : IO UInt32 := do
  match SmallMl.Action.ofArguments args with
  | .session =>
    IO.println SmallMl.Action.banner
    SmallMl.Main.converse (.start false true) []
    return 0
  | a =>
    let report := a.report (← SmallMl.Main.inputs a)
    IO.print report.stdout
    IO.eprint report.stderr
    return report.code.toUInt32
