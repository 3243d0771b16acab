import JsonAxes.Exchange.Writer
import JsonAxes.Value.Layout
import JsonAxes.Value.Reader

/-!
# What lies outside the program

The program leaves the command line, the settings file, the files and the writing of values for
exchange to others. A host is what they do, and nothing more is known of it here: everything that
the program does is a function of its host.
-/

set_option autoImplicit false

namespace JsonAxes.Cli

/-- What the program is asked to do. -/
structure Arguments where
  /-- The name of the settings file. -/
  config : String
  /-- Escape all but ASCII. -/
  ascii : Bool
  /-- Print each match over several lines. -/
  pretty : Bool
  /-- Print the number of matches instead of the matches. -/
  count : Bool
  /-- Print the matches of each file as one array for exchange. -/
  json : Bool
  path : String
  files : List String
  exclusive : ¬ (count = true ∧ json = true)
  files_ne_nil : files ≠ []
  deriving DecidableEq, Repr

/-- The settings file that is used unless another is named. -/
def Arguments.defaultConfig : String := "treepath.toml"

/-- What becomes of a command line that asks for nothing to be done: an exit status, what is
printed, and the message about a command line that is wrong. -/
structure Usage where
  exit : Nat
  stdout : String
  message? : Option String
  deriving DecidableEq, Repr

/-- How matches are printed and how far the program goes. -/
structure Settings where
  layout : Layout
  /-- The number of containers that may be open at once. -/
  nesting : Nat
  /-- The number of expansions after which a search is given up. -/
  stepLimit? : Option Nat
  deriving DecidableEq, Repr

namespace Settings

/-- What holds where nothing is set. -/
def default : Settings := ⟨{ Layout.compact with indent := 2 }, Value.defaultNesting, none⟩

/-- The layout that settings and arguments ask for together. The pretty layout keeps only the
escaping of the settings. -/
def layoutFor (s : Settings) (args : Arguments) : Layout :=
  let base := if args.pretty then { Layout.pretty with asciiOnly := s.layout.asciiOnly }
    else s.layout
  if args.ascii then { base with asciiOnly := true } else base

end Settings

/-- What lies outside the program. -/
structure Host where
  /-- The reading of a command line. -/
  arguments : List String → Except Usage Arguments
  /-- The settings in the file of a name, or why there are none: what went wrong, and what was
  behind that. -/
  settings : String → Except (List String) Settings
  /-- The bytes of the file of a name, or why there are none. -/
  read : String → Except String (List UInt8)
  /-- What writes values for exchange. -/
  writer : Exchange.Writer (List Char)

end JsonAxes.Cli
