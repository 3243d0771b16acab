import JsonAxes.Cli.Host

/-!
# A reading of command lines

The program is called with a path, at least one file, and options, which may stand anywhere in front
of a lone `--`. An option may be given once. What does not fit has no reading, and the program then
does nothing. This stands in for a library that reads command lines; of what that says of itself and
of wrong calls it keeps the exit status and a line.
-/

set_option autoImplicit false

namespace JsonAxes.Outer

open Cli

/-- The options that take no value. -/
inductive Flag where
  /-- Escape all but ASCII. -/
  | ascii
  /-- Print each match over several lines. -/
  | pretty
  /-- Print the number of matches only. -/
  | count
  /-- Print the matches of each file as one array for exchange. -/
  | json
  deriving DecidableEq, Repr

/-- The flag that an argument spells. -/
def Flag.ofArgument? (arg : String) : Option Flag :=
  if arg = "--ascii" then some .ascii
  else if arg = "--pretty" then some .pretty
  else if arg = "--count" then some .count
  else if arg = "--json" then some .json
  else none

/-- Why a command line asks for nothing to be done. -/
inductive Refusal where
  | help
  | version
  | unusable
  deriving DecidableEq, Repr

/-- What is made of an option that is not among those of the program. -/
def Refusal.ofOption (arg : String) : Refusal :=
  if arg = "--help" ∨ arg = "-h" then .help
  else if arg = "--version" ∨ arg = "-V" then .version
  else .unusable

/-- Arguments sorted by what they are. -/
structure Sorted where
  flags : List Flag
  config? : Option String
  positionals : List String

namespace Sorted

/-- Before the first argument. -/
def start : Sorted := ⟨[], none, []⟩

/-- Takes a flag, which must be new. -/
def addFlag (s : Sorted) (f : Flag) : Except Refusal Sorted :=
  if f ∈ s.flags then .error .unusable else .ok { s with flags := f :: s.flags }

/-- Takes the name of the settings file, which must be new and not empty. -/
def addConfig (s : Sorted) (name : String) : Except Refusal Sorted :=
  if name.isEmpty ∨ s.config?.isSome then .error .unusable
  else .ok { s with config? := some name }

/-- Takes positional arguments. -/
def addPositionals (s : Sorted) (args : List String) : Sorted :=
  { s with positionals := s.positionals ++ args }

/-- Whether an argument is taken for an option. A dash alone is not. -/
def looksLikeOption (arg : String) : Bool := arg.toList.head? == some '-' && arg != "-"

/-- The option whose value is the argument behind it. -/
def configOption : String := "--config"

/-- The value of an argument that spells the option and its value together. -/
def attachedConfig? (arg : String) : Option String :=
  let lead := (configOption ++ "=").toList
  if lead.isPrefixOf arg.toList then some (String.ofList (arg.toList.drop lead.length)) else none

/-- Takes arguments one after another. -/
def addAll (s : Sorted) : List String → Except Refusal Sorted
  | [] => .ok s
  | arg :: rest =>
    if arg = "--" then .ok (s.addPositionals rest)
    else if arg = configOption then
      match rest with
      | [] => .error .unusable
      | name :: rest =>
        if looksLikeOption name then .error .unusable
        else (s.addConfig name).bind fun s => s.addAll rest
    else match attachedConfig? arg with
      | some name => (s.addConfig name).bind fun s => s.addAll rest
      | none =>
        match Flag.ofArgument? arg with
        | some f => (s.addFlag f).bind fun s => s.addAll rest
        | none =>
          if looksLikeOption arg then .error (.ofOption arg)
          else (s.addPositionals [arg]).addAll rest

/-- The reading of sorted arguments: there has to be a path and a file, no file's name is empty, and
matches are not both counted and gathered. -/
def arguments (s : Sorted) : Except Refusal Arguments :=
  match s.positionals with
  | path :: file :: files =>
    if (file :: files).any String.isEmpty then .error .unusable
    else if h : Flag.count ∈ s.flags ∧ Flag.json ∈ s.flags then .error .unusable
    else .ok
      { config := s.config?.getD Arguments.defaultConfig
        ascii := s.flags.contains .ascii
        pretty := s.flags.contains .pretty
        count := decide (Flag.count ∈ s.flags)
        json := decide (Flag.json ∈ s.flags)
        path := path
        files := file :: files
        exclusive := by simpa using h
        files_ne_nil := List.cons_ne_nil file files }
  | _ => .error .unusable

end Sorted

/-- How the program is called. -/
def usageText : String := "Usage: treepath [OPTIONS] <PATH> <FILES>..."

/-- The name and the version of the program. -/
def versionText : String := "treepath 0.1.0"

/-- What is printed where nothing is to be done. -/
def Refusal.usage : Refusal → Usage
  | help => ⟨0, usageText ++ "\n", none⟩
  | version => ⟨0, versionText ++ "\n", none⟩
  | unusable => ⟨2, "", some usageText⟩

/-- The reading of a command line. -/
def readArguments (argv : List String) : Except Usage Arguments :=
  ((Sorted.start.addAll argv).bind Sorted.arguments).mapError Refusal.usage

end JsonAxes.Outer
