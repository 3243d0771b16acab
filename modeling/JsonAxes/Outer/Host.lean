import JsonAxes.Outer.Arguments
import JsonAxes.Outer.Settings
import JsonAxes.Outer.Writer

/-!
# A host

The host that the program is put together with, up to what is in the files.
-/

set_option autoImplicit false

namespace JsonAxes.Outer

/-- The host with some files. -/
def host (files : Files) : Cli.Host where
  arguments := readArguments
  settings := loadSettings files
  read name := (files name).mapError FileError.message
  writer := writer

end JsonAxes.Outer
