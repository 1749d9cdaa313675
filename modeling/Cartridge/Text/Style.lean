/-!
# Styled text

The escape sequences with which terminals show colours, bold and underlined text.
-/

namespace Cartridge.Style

/-- The sequence with the given code. -/
def escape (code : Nat) : String :=
  s!"\x1b[{code}m"

/-- Text between two escape codes. -/
def between (on off : Nat) (text : String) : String :=
  escape on ++ text ++ escape off

/-- Blue text. -/
def blue (text : String) : String :=
  between 34 39 text

/-- Underlined text. -/
def underline (text : String) : String :=
  between 4 24 text

/-- Text that is red and bold, as the word that introduces an error. -/
def alert (text : String) : String :=
  escape 31 ++ escape 1 ++ text ++ escape 39 ++ escape 22

end Cartridge.Style
