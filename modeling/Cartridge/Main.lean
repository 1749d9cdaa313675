import Cartridge.CommandLine.Basic

/-!
# The program

Runs the command line on the files of the machine.
-/

namespace Cartridge

/-- The cause that the machine gives for a file that cannot be read. The number of an error comes
with either sign, so it is read as the smaller of the two. -/
def FileError.ofMachine (error : IO.Error) : FileError :=
  let number (code : UInt32) := min code (0 - code)
  match error with
  | .noFileOrDirectory .. => .notFound
  | .inappropriateType _ code _ => if number code == 20 then .notDirectory else .isDirectory
  | .invalidArgument _ code _ => if number code == 36 then .nameTooLong else .nulInName
  | _ => .other (toString error)

/-- The file system of the machine. -/
def FileSystem.machine : FileSystem IO where
  read path := do
    try
      return .ok (← IO.FS.readBinFile path).toList
    catch e =>
      return .error (.ofMachine e)
  write path bytes := do
    try
      IO.FS.writeBinFile path bytes.toByteArray
      return true
    catch _ =>
      return false

end Cartridge

/-- Runs the command line. -/
def main (arguments : List String) : IO UInt32 := do
  let report ← Cartridge.CommandLine.run Cartridge.FileSystem.machine arguments
  IO.print report.stdout
  IO.eprint report.stderr
  return report.exit.toUInt32
