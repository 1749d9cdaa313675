import Cartridge.Json.Basic

/-!
# Configuration

How many errors a compilation may report and what it prints.
-/

namespace Cartridge

/-- The choices that do not depend on the program. -/
structure Config where
  /-- The number of errors at which a compilation gives up. -/
  errorLimit : Nat := 30
  /-- Show the progress of the compilation. -/
  verbose : Bool := false
  /-- Do not show diagnostics. -/
  quiet : Bool := false
deriving DecidableEq, Repr, Inhabited

/-- Reads a configuration. Every field may be left out, but none may be `null`. -/
def Config.ofJson? : Json → Option Config
  | .object fields => do
    let read {α : Type} (key : String) (value? : Json → Option α) (default : α) : Option α :=
      match fields.lookup key with
      | none => some default
      | some value => value? value
    let errorLimit ← read "error_limit" Json.size? 30
    let verbose ← read "verbose" Json.bool? false
    let quiet ← read "quiet" Json.bool? false
    return { errorLimit, verbose, quiet }
  | _ => none

end Cartridge
