import Cartridge.Json.Basic
import Cartridge.Json.Lexer

/-!
# Reading JSON texts

The parser is a machine that takes one token at a time and keeps the arrays and objects that are
still open on a stack, so texts of any depth are read by one pass over their tokens. Of two fields
with the same key the later one counts.
-/

namespace Cartridge.Json

/-- An array or object that is still open, its parts with the last one first. -/
inductive Frame where
  | array (items : List Json)
  | object (fields : List (String × Json)) (key : String)
deriving Repr

/-- What the next token has to be. -/
inductive Expecting where
  | value
  /-- The first item of an array, or its end. -/
  | firstItem
  /-- The first key of an object, or its end. -/
  | firstKey
  | key
  | colon
  /-- A comma, or the end of what is open. -/
  | separator
  /-- The end of the text. -/
  | done (result : Json)
deriving Repr

/-- The parser: what is open, the innermost first, and what has to come next. -/
structure Parser where
  frames : List Frame := []
  expecting : Expecting := .value
deriving Repr

namespace Parser

/-- Takes a complete value. -/
def accept (frames : List Frame) (v : Json) : Parser :=
  match frames with
  | [] => { expecting := .done v }
  | .array items :: outer => { frames := .array (v :: items) :: outer, expecting := .separator }
  | .object fields key :: outer =>
    let others := fields.filter fun entry => entry.1 != key
    { frames := .object ((key, v) :: others) key :: outer, expecting := .separator }

/-- Takes the end of the innermost array or object. -/
def close? (frames : List Frame) (c : Char) : Option Parser :=
  match frames, c with
  | .array items :: outer, ']' => some (accept outer (.array items.reverse))
  | .object fields _ :: outer, '\x7d' => some (accept outer (.object fields.reverse))
  | _, _ => none

/-- Takes the first token of a value. -/
def open? (frames : List Frame) : Token → Option Parser
  | .mark '[' => some { frames := .array [] :: frames, expecting := .firstItem }
  | .mark '\x7b' => some { frames := .object [] "" :: frames, expecting := .firstKey }
  | .mark _ => none
  | .string text => some (accept frames (.string text))
  | .integer value => some (accept frames (.integer value))
  | .real text => some (accept frames (.real text))
  | .bool value => some (accept frames (.bool value))
  | .null => some (accept frames .null)

/-- Takes the key of a field. -/
def key? (frames : List Frame) (text : String) : Option Parser :=
  match frames with
  | .object fields _ :: outer =>
    some { frames := .object fields text :: outer, expecting := .colon }
  | _ => none

/-- Takes one token. -/
def step (parser : Parser) (token : Token) : Option Parser :=
  match parser.expecting, token with
  | .value, token => open? parser.frames token
  | .firstItem, .mark ']' => close? parser.frames ']'
  | .firstItem, token => open? parser.frames token
  | .firstKey, .mark '\x7d' => close? parser.frames '\x7d'
  | .firstKey, .string text => key? parser.frames text
  | .key, .string text => key? parser.frames text
  | .colon, .mark ':' => some { parser with expecting := .value }
  | .separator, .mark ',' =>
    match parser.frames with
    | .array _ :: _ => some { parser with expecting := .value }
    | .object _ _ :: _ => some { parser with expecting := .key }
    | [] => none
  | .separator, .mark c => close? parser.frames c
  | _, _ => none

end Parser

/-- The value that a JSON text stands for. -/
def parse? (text : String) : Option Json := do
  let tokens ← tokens? text
  let parser ← tokens.foldlM Parser.step {}
  match parser.expecting with
  | .done result => some result
  | _ => none

end Cartridge.Json
