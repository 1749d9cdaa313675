/-!
# JSON tokens

Splitting a JSON text into tokens. The lexer is a machine that takes one character at a time, so
a text is read by one pass over its characters.
-/

namespace Cartridge.Json

/-- A token of a JSON text. -/
inductive Token where
  /-- One of the six structural characters. -/
  | mark (c : Char)
  | string (text : String)
  | integer (value : Int)
  /-- A number with a fraction or an exponent, or the negative zero. -/
  | real (text : String)
  | bool (value : Bool)
  | null
deriving Repr, DecidableEq

namespace Token

/-- The number a run of decimal digits stands for. -/
def decimal (digits : List Char) : Nat :=
  digits.foldl (fun n c => 10 * n + (c.toNat - '0'.toNat)) 0

/-- Whether a text is an exponent, without its mark. -/
def isExponent : List Char → Bool
  | '+' :: digits => !digits.isEmpty && digits.all Char.isDigit
  | '-' :: digits => !digits.isEmpty && digits.all Char.isDigit
  | digits => !digits.isEmpty && digits.all Char.isDigit

/-- Whether a text is what may follow the integer part of a number. -/
def isTail (chars : List Char) : Bool :=
  let exponent (rest : List Char) : Bool :=
    match rest with
    | [] => true
    | c :: digits => (c == 'e' || c == 'E') && isExponent digits
  match chars with
  | '.' :: rest => rest.head?.any Char.isDigit && exponent (rest.dropWhile Char.isDigit)
  | rest => exponent rest

/-- The number that an unquoted text stands for. The integer part has no leading zero. -/
def ofNumber? (chars : List Char) : Option Token :=
  let negative := chars.head? == some '-'
  let body := if negative then chars.drop 1 else chars
  let digits := body.takeWhile Char.isDigit
  let tail := body.dropWhile Char.isDigit
  if digits.isEmpty || (digits.length > 1 && digits.head? == some '0') then none
  else if tail.isEmpty && !(negative && digits == ['0']) then
    let value : Int := decimal digits
    some (integer (if negative then -value else value))
  else if isTail tail then some (real (String.ofList chars))
  else none

/-- The token of an unquoted text: a literal or a number. -/
def ofBare? (chars : List Char) : Option Token :=
  match String.ofList chars with
  | "null" => some null
  | "true" => some (bool true)
  | "false" => some (bool false)
  | _ => ofNumber? chars

end Token

/-- What the lexer is in the middle of. Texts are collected with the last character first. -/
inductive Lexing where
  | between
  /-- A literal or a number. -/
  | bare (chars : List Char)
  | quoted (chars : List Char)
  /-- After a backslash. -/
  | escaped (chars : List Char)
  /-- In the four digits of a code unit, perhaps the second of a surrogate pair. -/
  | unit (chars : List Char) (first : Option Nat) (digits value : Nat)
  /-- Before the backslash, and before the letter, of the second unit of a surrogate pair. -/
  | pairSlash (chars : List Char) (first : Nat)
  | pairLetter (chars : List Char) (first : Nat)
deriving Repr

/-- The lexer: the tokens so far, the last one first, and what is in progress. -/
structure Lexer where
  tokens : List Token := []
  state : Lexing := .between
deriving Repr

namespace Lexer

/-- The value of a hexadecimal digit. -/
def hexDigit? (c : Char) : Option Nat :=
  if '0' ≤ c ∧ c ≤ '9' then some (c.toNat - '0'.toNat)
  else if 'a' ≤ c ∧ c ≤ 'f' then some (c.toNat - 'a'.toNat + 10)
  else if 'A' ≤ c ∧ c ≤ 'F' then some (c.toNat - 'A'.toNat + 10)
  else none

/-- The character that an escape letter stands for. -/
def escape? : Char → Option Char
  | '"' => some '"'
  | '\\' => some '\\'
  | '/' => some '/'
  | 'b' => some '\x08'
  | 'f' => some '\x0c'
  | 'n' => some '\n'
  | 'r' => some '\r'
  | 't' => some '\t'
  | _ => none

/-- Characters that may stand between tokens. -/
def isBlank (c : Char) : Bool :=
  c == ' ' || c == '\t' || c == '\n' || c == '\r'

/-- The structural characters. -/
def isMark (c : Char) : Bool :=
  c == '[' || c == ']' || c == '\x7b' || c == '\x7d' || c == ':' || c == ','

/-- Takes a character that starts something new. -/
def start (tokens : List Token) (c : Char) : Lexer :=
  if isBlank c then { tokens }
  else if isMark c then { tokens := .mark c :: tokens }
  else if c == '"' then { tokens, state := .quoted [] }
  else { tokens, state := .bare [c] }

/-- Takes a code unit of an escape. A first surrogate waits for its second, and no surrogate
stands alone. -/
def unit? (lexer : Lexer) (chars : List Char) (first : Option Nat) (value : Nat) :
    Option Lexer :=
  let isFirst := 0xD800 ≤ value ∧ value < 0xDC00
  let isSecond := 0xDC00 ≤ value ∧ value < 0xE000
  match first with
  | none =>
    if isFirst then some { lexer with state := .pairSlash chars value }
    else if isSecond then none
    else some { lexer with state := .quoted (Char.ofNat value :: chars) }
  | some high =>
    if isSecond then
      let code := 0x10000 + (high - 0xD800) * 0x400 + (value - 0xDC00)
      some { lexer with state := .quoted (Char.ofNat code :: chars) }
    else none

/-- Takes one character. -/
def step (lexer : Lexer) (c : Char) : Option Lexer :=
  match lexer.state with
  | .between => some (start lexer.tokens c)
  | .bare chars =>
    if isBlank c || isMark c || c == '"' then do
      let token ← Token.ofBare? chars.reverse
      return start (token :: lexer.tokens) c
    else some { lexer with state := .bare (c :: chars) }
  | .quoted chars =>
    if c == '"' then some { tokens := .string (String.ofList chars.reverse) :: lexer.tokens }
    else if c == '\\' then some { lexer with state := .escaped chars }
    else if c < ' ' then none
    else some { lexer with state := .quoted (c :: chars) }
  | .escaped chars =>
    if c == 'u' then some { lexer with state := .unit chars none 0 0 }
    else do
      let plain ← escape? c
      return { lexer with state := .quoted (plain :: chars) }
  | .unit chars first digits value => do
    let digit ← hexDigit? c
    let value := 16 * value + digit
    if digits == 3 then lexer.unit? chars first value
    else return { lexer with state := .unit chars first (digits + 1) value }
  | .pairSlash chars first =>
    if c == '\\' then some { lexer with state := .pairLetter chars first } else none
  | .pairLetter chars first =>
    if c == 'u' then some { lexer with state := .unit chars (some first) 0 0 } else none

/-- The tokens once every character has been taken. -/
def finish? (lexer : Lexer) : Option (List Token) :=
  match lexer.state with
  | .between => some lexer.tokens.reverse
  | .bare chars => do
    let token ← Token.ofBare? chars.reverse
    return (token :: lexer.tokens).reverse
  | _ => none

end Lexer

/-- The tokens of a JSON text. -/
def tokens? (text : String) : Option (List Token) := do
  let lexer ← text.toList.foldlM Lexer.step {}
  lexer.finish?

end Cartridge.Json
