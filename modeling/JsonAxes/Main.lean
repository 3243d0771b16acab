import JsonAxes.Outer.Host
import JsonAxes.Outer.Messages

/-!
# The program

Reads the files that the arguments name, runs the program on them, and passes on what it prints,
its messages and its exit status.
-/

set_option autoImplicit false

namespace JsonAxes.Outer

/-- The number of an error in the system, which may come negated. -/
def systemNumber (code : UInt32) : UInt32 := min code (0 - code)

/-- Reads a file of the file system. -/
def readFile (name : String) : IO (Except FileError (List UInt8)) := do
  try
    let bytes ← IO.FS.readBinFile name
    return .ok bytes.toList
  catch
    | .noFileOrDirectory .. => return .error .notFound
    | .inappropriateType _ code _ =>
      return .error (if systemNumber code = 21 then .isDirectory else .notDirectory)
    | e@(.invalidArgument _ code _) =>
      return .error (if systemNumber code = 36 then .nameTooLong else .other (toString e))
    | e => return .error (.other (toString e))

/-- The contents of some files. -/
def readFiles (names : List String) : IO Files := do
  let contents ← names.mapM fun name => return (name, ← readFile name)
  return fun name => (contents.lookup name).getD (.error .notFound)

/-- Prints what a run left and gives its exit status. -/
def emit (o : Cli.Outcome) : IO UInt32 := do
  (← IO.getStdout).putStr o.stdout
  for message in o.messages do
    for line in shown message do
      IO.eprintln line
  return o.exit.toUInt32

end JsonAxes.Outer

/-- Runs the program on the arguments of the command line. -/
def main (argv : List String) : IO UInt32 := do
  let names := match JsonAxes.Outer.readArguments argv with
    | .ok args => args.config :: args.files
    | .error _ => []
  let files ← JsonAxes.Outer.readFiles names
  JsonAxes.Outer.emit (JsonAxes.Cli.run (JsonAxes.Outer.host files) argv)
