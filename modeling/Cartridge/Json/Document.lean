import Cartridge.Json.Parser

/-!
# Documents

A document is a text that holds one value, perhaps after blanks and comments. A comment runs from
`#` to the end of its line. A document without a value stands for the empty object, so a file of
settings may be empty. What is said about a document names the place at which its value starts.

Main results:

- Theorem `Document.skip_append`: blanks and comments are passed over without loss.
-/

namespace Cartridge

/-- A place in a text: its line and the characters before it in that line, both from zero. -/
structure LineColumn where
  line : Nat := 0
  column : Nat := 0
deriving DecidableEq, Repr

namespace LineColumn

/-- The place after a character that ends no line. -/
def right (place : LineColumn) : LineColumn :=
  { place with column := place.column + 1 }

/-- The start of the next line. -/
def down (place : LineColumn) : LineColumn where
  line := place.line + 1

/-- The first line start that is not before a place. -/
def lineStart (place : LineColumn) : LineColumn :=
  if place.column = 0 then place else place.down

/-- How a message ends that is about a place. The start of a text is not mentioned. -/
def mention (place : LineColumn) : String :=
  if place = {} then "" else s!" at line {place.line + 1} column {place.column + 1}"

end LineColumn

/-- A text that holds a value. -/
structure Document where
  /-- The place at which the value starts. -/
  start : LineColumn
  /-- The value, if the text is well formed. -/
  value? : Option Json
deriving Repr

namespace Document

/-- Passes over blanks and comments: the place where something else starts, and the text from
there on. -/
def skip (inComment : Bool) (place : LineColumn) : List Char → LineColumn × List Char
  | [] => (place, [])
  | '\r' :: '\n' :: rest => skip false place.down rest
  | c :: rest =>
    if c == '\n' || c == '\r' then skip false place.down rest
    else if inComment || c == ' ' then skip inComment place.right rest
    else if c == '#' then skip true place.right rest
    else (place, c :: rest)

/-- Reads a document. One without a value starts where its last line has ended. -/
def ofText (text : String) : Document :=
  match skip false {} text.toList with
  | (place, []) => { start := place.lineStart, value? := some (.object []) }
  | (place, rest) => { start := place, value? := Json.parse? (String.ofList rest) }

/-- What is left after blanks and comments is the end of the text. -/
theorem skip_append (inComment : Bool) (place : LineColumn) (chars : List Char) :
    ∃ skipped, chars = skipped ++ (skip inComment place chars).2 := by
  fun_induction skip inComment place chars with
  | case1 => exact ⟨[], rfl⟩
  | case2 _ _ rest ih =>
    obtain ⟨skipped, h⟩ := ih
    exact ⟨'\r' :: '\n' :: skipped, by rw [List.cons_append, List.cons_append, ← h]⟩
  | case3 _ _ c rest _ _ ih | case4 _ _ c rest _ _ _ ih | case5 _ _ c rest _ _ _ _ ih =>
    obtain ⟨skipped, h⟩ := ih
    exact ⟨c :: skipped, by rw [List.cons_append, ← h]⟩
  | case6 => exact ⟨[], rfl⟩

-- The empty text holds the empty object.
example : ofText "" = { start := {}, value? := some (.object []) } := rfl

end Document

end Cartridge
