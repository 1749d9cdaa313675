import Cartridge.Json.Basic

/-!
# Writing JSON texts

Values are written without blanks. Quotes, backslashes and control characters are escaped; every
other character stands for itself.
-/

namespace Cartridge.Json

/-- The hexadecimal digit of a number below 16. -/
def hexDigit (n : Nat) : Char :=
  Nat.digitChar (n % 16)

/-- A character as it stands in a quoted text. -/
def escaped (c : Char) : String :=
  match c with
  | '"' => "\\\""
  | '\\' => "\\\\"
  | '\n' => "\\n"
  | '\r' => "\\r"
  | '\t' => "\\t"
  | '\x08' => "\\b"
  | '\x0c' => "\\f"
  | c =>
    if c < ' ' then
      "\\u00" ++ String.ofList [hexDigit (c.toNat / 16), hexDigit c.toNat]
    else c.toString

/-- A text in quotes. -/
def quoted (text : String) : String :=
  "\"" ++ text.foldl (fun acc c => acc ++ escaped c) "" ++ "\""

mutual

/-- The text of a value. -/
def render : Json → String
  | null => "null"
  | bool true => "true"
  | bool false => "false"
  | integer value => toString value
  | real text => text
  | string text => quoted text
  | array [] => "[]"
  | array (item :: items) => "[" ++ render item ++ renderItems items ++ "]"
  | object [] => "\x7b\x7d"
  | object ((key, value) :: fields) =>
    "\x7b" ++ quoted key ++ ":" ++ render value ++ renderFields fields ++ "\x7d"

/-- The text of the items after the first. -/
def renderItems : List Json → String
  | [] => ""
  | item :: items => "," ++ render item ++ renderItems items

/-- The text of the fields after the first. -/
def renderFields : List (String × Json) → String
  | [] => ""
  | (key, value) :: fields => "," ++ quoted key ++ ":" ++ render value ++ renderFields fields

end

end Cartridge.Json
