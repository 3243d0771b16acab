import JsonAxes.Cli.Host
import JsonAxes.Encoding.Decode
import JsonAxes.Outer.Files
import JsonAxes.Outer.Toml

/-!
# A reading of settings files

A file that is missing says nothing, and what is not said has a default. A setting that the program
does not know is ignored; one of the wrong type makes the whole file unusable, as does a name that
does not end as those of settings files do. This stands in for libraries that read settings; of
their language it knows as much as `JsonAxes.Outer.Toml` says.
-/

set_option autoImplicit false

namespace JsonAxes.Outer

open Cli

/-- A setting read as a natural; the outer option is for the wrong type. -/
def natural? (d : Toml.Document) (key : Toml.Key) : Option (Option Nat) :=
  match d.definition? key with
  | none => some none
  | some (.value (.integer i)) => if 0 ≤ i then some (some i.toNat) else none
  | some _ => none

/-- A setting read as a truth value, false where it is not set. -/
def switch? (d : Toml.Document) (name : String) : Option Bool :=
  match d.definition? ["print", name] with
  | none => some false
  | some (.value (.boolean b)) => some b
  | some _ => none

/-- The settings that a document makes. -/
def settingsOf? (d : Toml.Document) : Option Settings := do
  if d.hasValue ["print"] then none
  let asciiOnly ← switch? d "ascii_only"
  let readableSpacing ← switch? d "readable_spacing"
  let arrayLineBreaks ← switch? d "array_line_breaks"
  let objectLineBreaks ← switch? d "object_line_breaks"
  let leadingLineBreak ← switch? d "leading_line_break"
  let lineBreakAfterKey ← switch? d "line_break_after_key"
  let indent ← natural? d ["print", "indent"]
  let nesting ← natural? d ["max_depth"]
  let stepLimit ← natural? d ["step_limit"]
  return ⟨⟨asciiOnly, readableSpacing, arrayLineBreaks, objectLineBreaks, leadingLineBreak,
    lineBreakAfterKey, indent.getD Settings.default.layout.indent⟩,
    nesting.getD Settings.default.nesting, stepLimit⟩

/-- The settings that the contents of a file make. -/
def settingsOfBytes? (bytes : List UInt8) : Option Settings :=
  let decoded := Encoding.decodeUtf8 0 bytes
  if decoded.fault?.isSome then none else (Toml.ofText? decoded.chars).bind settingsOf?

/-- How the names of settings files end. -/
def extension : List Char := ".toml".toList

/-- The parts of a name. -/
def parts (name : String) : List String :=
  ((name.toList.splitOn '/').map String.ofList).filter fun part => part != "" && part != "."

/-- Whether a name is that of a settings file: something stands in front of its ending. -/
def isSettingsName (name : String) : Bool :=
  match (parts name).getLast? with
  | some last => extension.isSuffixOf last.toList && extension.length < last.toList.length
  | none => false

/-- The settings in the file of a name, or what is wrong with it. -/
def loadSettings (files : Files) (name : String) : Except (List String) Settings :=
  if isSettingsName name then
    match files name with
    | .ok bytes =>
      match settingsOfBytes? bytes with
      | some settings => .ok settings
      | none => .error ["the file cannot be understood"]
    | .error .notFound => .ok .default
    | .error e => .error ["the file cannot be read", e.message]
  else .error ["the name does not end in .toml"]

end JsonAxes.Outer
