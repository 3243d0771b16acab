/-!
# Files

What the program finds under the names of files: their bytes, or why there are none.
-/

set_option autoImplicit false

namespace JsonAxes.Outer

/-- Why a file could not be read. -/
inductive FileError where
  | notFound
  | notDirectory
  | isDirectory
  | nameTooLong
  | other (message : String)
  deriving DecidableEq, Repr

/-- The wording of an error, with its number in the system. -/
def FileError.message : FileError → String
  | notFound => "No such file or directory (os error 2)"
  | notDirectory => "Not a directory (os error 20)"
  | isDirectory => "Is a directory (os error 21)"
  | nameTooLong => "File name too long (os error 36)"
  | other message => message

/-- The contents of files by name. -/
abbrev Files := String → Except FileError (List UInt8)

end JsonAxes.Outer
