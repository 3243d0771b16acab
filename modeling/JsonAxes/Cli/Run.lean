import JsonAxes.Cli.Host
import JsonAxes.Cli.Report
import JsonAxes.Path.Reader
import JsonAxes.Query.Select
import JsonAxes.Value.Printer

/-!
# Runs of the program

A run reads its arguments, its settings and its path, in this order, and then queries one file
after another. What goes wrong with one file does not keep the others from being queried; the run
fails if any file did, and says how many.

`Run.file` is what comes of one file, and `Run.tally` puts these together, file by file.
-/

set_option autoImplicit false

namespace JsonAxes.Cli

/-- What the program says besides what it prints. -/
inductive Message where
  /-- What is said of a command line that cannot be read. -/
  | usage (text : String)
  /-- An error in a text. -/
  | report (r : Report)
  /-- An error that the program goes on behind. -/
  | logged (text : String)
  /-- The error that the program ends with, and what was behind it. -/
  | fatal (text : String) (causes : List String)
  deriving DecidableEq, Repr

/-- What a run leaves: its exit status, what it printed, and its messages. -/
structure Outcome where
  exit : Nat
  stdout : String
  messages : List Message
  deriving DecidableEq, Repr

/-- What comes of one file: what was printed, what was reported, and the error that it failed with,
from the outside in. -/
structure FileOutcome where
  stdout : String
  reports : List Report
  error? : Option (List String)
  deriving DecidableEq, Repr

namespace FileOutcome

/-- A file that failed before anything was printed or reported. -/
def failure (error : List String) : FileOutcome := ⟨"", [], some error⟩

/-- Whether the file failed. -/
def failed (o : FileOutcome) : Bool := o.error?.isSome

/-- The messages about the file. -/
def messages (o : FileOutcome) : List Message :=
  o.reports.map .report ++ o.error?.toList.map fun error => .logged (": ".intercalate error)

end FileOutcome

/-! ## One file -/

/-- What is asked of every file. -/
structure Run where
  path : Path
  layout : Layout
  nesting : Nat
  stepLimit? : Option Nat
  count : Bool
  json : Bool
  /-- Whether counts are printed with the names of their files. -/
  labelled : Bool
  exclusive : ¬ (count = true ∧ json = true)

namespace Run

/-- What is printed while matches are found: one line for each, unless they are counted or
gathered. -/
def matchLines (r : Run) (places : List (Place Node)) : String :=
  if r.json || r.count then ""
  else String.join (places.map fun p => p.node.toValue.print r.layout ++ "\n")

/-- The matches as one array for exchange. -/
def matchArray (writer : Exchange.Writer (List Char)) (places : List (Place Node)) : String :=
  String.ofList ((Value.array (places.map fun p => p.node.toValue)).writtenBy writer) ++ "\n"

/-- The number of matches. -/
def matchCount (r : Run) (file : String) (places : List (Place Node)) : String :=
  (if r.labelled then file ++ ": " else "") ++ toString places.length ++ "\n"

/-- What is printed of a search that came to its end. -/
def output (r : Run) (host : Host) (file : String) (places : List (Place Node)) : String :=
  r.matchLines places ++ (if r.json then matchArray host.writer places else "")
    ++ if r.count then r.matchCount file places else ""

/-- Queries the value of a file. -/
def value (r : Run) (host : Host) (file : String) (v : Value) : FileOutcome :=
  let answers := Document.search r.path v r.stepLimit?
  match answers.ending.error? (Document.ending_search r.path v r.stepLimit?) with
  | none => ⟨r.output host file answers.matched, [], none⟩
  | some e =>
    ⟨r.matchLines answers.matched, [], some ["failed to query `" ++ file ++ "`", e.message]⟩

/-- Queries the canonical text of a file. -/
def canonical (r : Run) (host : Host) (file text : String) : FileOutcome :=
  match Value.ofCanonical? r.nesting text with
  | .ok v => r.value host file v
  | .error e =>
    ⟨"", [.ofReadError file text e], some ["failed to parse `" ++ file ++ "`: " ++ e.message]⟩

/-- Queries a file. -/
def file (r : Run) (host : Host) (name : String) : FileOutcome :=
  match host.read name with
  | .error e => .failure ["failed to read file `" ++ name ++ "`", e]
  | .ok bytes =>
    match Canonical.ofBytes bytes with
    | .error e => .failure ["failed to normalize `" ++ name ++ "`", e.message]
    | .ok text => r.canonical host name text

/-! ## All files -/

/-- What has come of the files that were queried so far. -/
structure Tally where
  stdout : String
  messages : List Message
  /-- The number of files that failed. -/
  failed : Nat

/-- Before the first file. -/
def Tally.start : Tally := ⟨"", [], 0⟩

/-- Takes in what came of one more file. -/
def Tally.add (t : Tally) (o : FileOutcome) : Tally :=
  ⟨t.stdout ++ o.stdout, t.messages ++ o.messages, if o.failed then t.failed + 1 else t.failed⟩

/-- Queries files one after another, behind others. -/
def tally (r : Run) (host : Host) : Tally → List String → Tally
  | t, [] => t
  | t, name :: names => r.tally host (t.add (r.file host name)) names

/-- The closing message of a run in which some files failed. -/
def summary (failed total : Nat) : Message :=
  .fatal (toString failed ++ " of " ++ toString total ++ " input files could not be queried") []

/-- Queries all files. -/
def files (r : Run) (host : Host) (names : List String) : Outcome :=
  let total := r.tally host .start names
  if total.failed = 0 then ⟨0, total.stdout, total.messages⟩
  else ⟨1, total.stdout, total.messages ++ [summary total.failed names.length]⟩

/-- The run that arguments and settings ask for, with a path that has been read. -/
def ofArguments (args : Arguments) (settings : Settings) (path : Path) : Run where
  path := path
  layout := settings.layoutFor args
  nesting := settings.nesting
  stepLimit? := settings.stepLimit?
  count := args.count
  json := args.json
  labelled := 1 < args.files.length
  exclusive := args.exclusive

end Run

/-- Runs the program on arguments that have been read. -/
def runArguments (host : Host) (args : Arguments) : Outcome :=
  -- the settings are read before the path, and the path before any file
  match host.settings args.config with
  | .error causes => ⟨1, "", [.fatal ("failed to load config `" ++ args.config ++ "`") causes]⟩
  | .ok settings =>
    match Path.ofText? args.path with
    | .error e =>
      ⟨1, "", [.report (.ofPathError args.path e),
        .fatal ("invalid path expression `" ++ args.path ++ "`") []]⟩
    | .ok path => (Run.ofArguments args settings path).files host args.files

/-- Runs the program on a command line. -/
def run (host : Host) (argv : List String) : Outcome :=
  match host.arguments argv with
  | .error usage => ⟨usage.exit, usage.stdout, usage.message?.toList.map .usage⟩
  | .ok args => runArguments host args

end JsonAxes.Cli
