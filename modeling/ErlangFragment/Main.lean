import ErlangFragment.Command.Run

/-! The program: the command line on the files and streams of the system. -/

namespace ErlangFragment.Main

/-- The text of a file, by its whole contents. -/
def decode (bytes : ByteArray) : Except FileError String :=
  match String.fromUTF8? bytes with
  | some text => .ok text
  | none => .error .notUtf8

def causeOf : IO.Error → FileError
  | .inappropriateType _ _ _ => .notDirectory
  | .noFileOrDirectory _ _ _ => .missing
  | .invalidArgument _ 36 _ => .nameTooLong
  | _ => .missing

def readFile (path : String) : IO (Except FileError String) := do
  try
    if ← (← IO.currentDir) / path |>.isDir then return .error .isDirectory
    return decode (← IO.FS.readBinFile path)
  catch e => return .error (causeOf e)

def files : Files IO where
  read := readFile
  isFile path := do
    let whole := (← IO.currentDir) / path
    return (← whole.pathExists) && !(← whole.isDir)
  present path := do return ← ((← IO.currentDir) / path).pathExists

partial def readAll (stream : IO.FS.Stream) (read : ByteArray) : IO ByteArray := do
  let more ← stream.read 65536
  if more.isEmpty then return read else readAll stream (read ++ more)

def world : IO (World IO) := do
  return ⟨files, do return decode (← readAll (← IO.getStdin) .empty), (← IO.currentDir).toString⟩

def showReport : Report → String
  | .plain text => text
  | .located drawing none => "Error: " ++ drawing.title ++ "\n"
  | .located drawing (some (line, column)) =>
    "Error: " ++ drawing.title ++ " at " ++ Nat.repr line ++ ":" ++ Nat.repr column ++ "\n"

end ErlangFragment.Main

def main (args : List String) : IO UInt32 := do
  let outcome ← ErlangFragment.Command.run (← ErlangFragment.Main.world) args
  (← IO.getStdout).putStr outcome.output
  match outcome.report with
  | some report => (← IO.getStderr).putStr (ErlangFragment.Main.showReport report)
  | none => pure ()
  return outcome.exitCode.toUInt32
