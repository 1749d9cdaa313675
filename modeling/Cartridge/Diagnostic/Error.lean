import Cartridge.Files
import Cartridge.Source.Statement
import Cartridge.Text.Hex

/-!
# Errors

Every cause that can be reported, and the one place where causes are put into words.
-/

namespace Cartridge

/-- A cause to be reported. -/
inductive Error where
  -- Files
  | fileOpen (path : String)
  | fileWrite (path : String)
  | malformed (path reason : String)
  -- Reporting itself
  | tooManyErrors (count : Nat)
  | internal (what : String)
  -- Symbols
  | redefinition (name previous : String)
  | notAPackage (name wanted : String)
  | noPackage (package wanted : String)
  | noAttribute (name within wanted : String)
  -- Folding
  | tooManyExpansions (depth : Nat) (chain : String)
  | overflow (operation : String)
  | underflow
  | divisionByZero
  | moduloByZero
  | packageAsValue (name : String)
  | builtinAsValue (name : String)
  | indeterminate (name : String)
  -- Layout of rom and ram
  | noOrigin
  | addressSpace (address : Nat)
  | bankOverflow (capacity excess : Nat)
  | moveBackwards (current target : Nat)
  | seekOutside
  | writeOutside
  | byteRange (value : UInt16)
  | bankIndex (index : UInt16) (count : Nat)
  | ramOverflow (address : Nat)
  | noRamCounter
  -- Header
  | multipleHeaders
  | headerInBlock
  | statementBeforeHeader
  | missingHeader
  | unknownSetting (name : String)
  | duplicateSetting (name : String)
  | missingSetting (name : String)
  | settingRange (name : String) (value min max : UInt16)
  | invalidHeader
  -- Relocations and labels
  | unresolvedRam
  | unresolvedBank
  | unresolvedRom
  | noBank (what : String)
  | labelWithoutOrigin
  | labelOutOfRange (name : String)
  -- Declarations and data
  | emptyArray
  | embed (path : String) (cause : FileError)
  -- Commands and branches
  | invalidCommand (kind : CommandKind) (converted reason : String)
  | branchFlag (flag : String)
  | conditionalIndirect
  | indirectCall
  | branchDestination (kind found : String)
  | relativeRange (offset : Int)
deriving DecidableEq, Repr

/-- The cause in words. -/
def Error.message : Error → String
  | fileOpen path => s!"Failed to open file: {path}"
  | fileWrite path => s!"Failed to write file: {path}"
  | malformed path reason => s!"Failed to parse `{path}`: {reason}"
  | tooManyErrors count => s!"too many errors ({count}), giving up"
  | internal what => s!"internal error: {what}"
  | redefinition name previous =>
    s!"redefinition of symbol `{name}`, previously defined at {previous}"
  | notAPackage name wanted =>
    s!"`{name}` is not a package but was treated as one, when trying to get attribute `{wanted}`"
  | noPackage package wanted =>
    s!"no package named `{package}` exists, needed to get attribute `{wanted}`"
  | noAttribute name within wanted =>
    s!"no attribute named `{name}` exists in {within}, needed to get attribute `{wanted}`"
  | tooManyExpansions depth chain =>
    s!"too many constant expansions required (exceeded max depth {depth}). " ++
      s!"are there mutually-dependent constants?{chain}"
  | overflow operation =>
    s!"{operation} yields result which will overflow outside of 0..65535."
  | underflow => "subtraction yields result which will underflow outside of 0..65535."
  | divisionByZero => "division by zero is undefined."
  | moduloByZero => "modulo by zero is undefined."
  | packageAsValue name =>
    s!"package `{name}` may not be directly used in a numeric expression because it's a scope, " ++
      "not a value"
  | builtinAsValue name =>
    s!"`{name}` is a register or flag and may not be used in a numeric expression"
  | indeterminate name => s!"attribute `{name}` has an indeterminate value."
  | noOrigin => "no origin point was set before bank was expanded."
  | addressSpace address =>
    "bank's position went outside of addressable memory 0..65535 " ++
      s!"(attempted to expand to position = {address})"
  | bankOverflow capacity excess =>
    s!"bank expanded beyond its {capacity} byte boundary by {excess} bytes"
  | moveBackwards current target =>
    "attempt to move backwards within the bank. " ++
      s!"(location 0x{Hex.lower 4 current} -> 0x{Hex.lower 4 target})"
  | seekOutside => "attempt to move outside of bank's reserved space."
  | writeOutside => "attempt to write outside of bank's reserved space."
  | byteRange value =>
    s!"value {value.toNat} is outside of representable 8-bit range 0..255"
  | bankIndex index count =>
    s!"bank {index.toNat} is out of range (the rom has {count} banks)"
  | ramOverflow address =>
    "ram counter went outside of addressable memory 0..65535 " ++
      s!"(attempted to expand to position = {address})"
  | noRamCounter =>
    "variable declaration found, but the ram counter has not been set by a ram relocation yet"
  | multipleHeaders => "multiple ines headers found"
  | headerInBlock => "ines header may only appear in the outermost block of the program"
  | statementBeforeHeader => "only constant declarations may appear before the ines header"
  | missingHeader => "no ines header found."
  | unknownSetting name => s!"unrecognized ines header setting `{name}`"
  | duplicateSetting name => s!"duplicate ines header setting `{name}`"
  | missingSetting name => s!"missing required ines header setting `{name}`"
  | settingRange name value min max =>
    s!"ines header setting `{name}` = {value.toNat} is outside of allowed range " ++
      s!"{min.toNat}..{max.toNat}"
  | invalidHeader => "ines header is invalid"
  | unresolvedRam =>
    "could not resolve the destination address provided to this ram relocation statement"
  | unresolvedBank =>
    "could not resolve the bank number provided to this rom relocation statement"
  | unresolvedRom =>
    "could not resolve the destination address provided to this rom relocation statement"
  | noBank what => s!"{what} found, but a rom bank hasn't been selected yet"
  | labelWithoutOrigin => "label declaration found, but the active bank has no origin yet"
  | labelOutOfRange name =>
    s!"label `{name}` would be placed outside of addressable memory 0..65535"
  | emptyArray => "array size of a variable declaration must be at least 1"
  | embed path cause => s!"could not read embedded file `{path}`: {cause.message}"
  | invalidCommand kind converted reason =>
    s!"invalid `{kind.name}` command{converted}: {reason}"
  | branchFlag flag =>
    s!"`{flag}` is not a valid branch condition; " ++
      "it must be the p-flag `carry`, `zero`, `negative`, or `overflow`"
  | conditionalIndirect => "indirect jumps may not have a condition"
  | indirectCall => "call destination may not be an indirect label"
  | branchDestination kind found =>
    s!"`{kind}` destination must be a label, found `{found}`"
  | relativeRange offset =>
    s!"relative jump is outside of range -128..127 (offset = {offset})"

end Cartridge
