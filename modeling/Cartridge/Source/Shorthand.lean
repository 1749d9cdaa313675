import Cartridge.Json.Basic
import Cartridge.Source.Statement

/-!
# Shorthand trees

A short way to write trees as nested arrays, in which every node stands at the same position. A
number is a number and a text a dotted reference; anything else is an array that starts with its
name. What an array may hold is fixed: neither more nor fewer items are accepted.

Main definitions:

- `Expr.ofShort?`, `Operand.ofShort?`, `Statement.ofShort?`: reading the short forms.
- `Program.ofShort?`: reading a list of statements.
-/

namespace Cartridge

/-- Where every node of a shorthand tree stands. -/
def Position.shorthand : Position where
  file := "main.nel"
  line := 1
  col := 1

/-- A name in a shorthand tree. -/
def Name.short (text : String) : Name where
  text := text
  pos := .shorthand

/-- A number in a shorthand tree. -/
def Expr.short (value : UInt16) : Expr :=
  .number value .shorthand

/-- A reference in a shorthand tree, from its path with dots. -/
def Expr.dotted (path : String) : Expr :=
  .reference ((path.splitOn ".").map Name.short) .shorthand

/-- Reads a short expression. -/
def Expr.ofShort? : Json → Option Expr
  | .integer value => (Json.word? (.integer value)).map .short
  | .string path => some (.dotted path)
  | .array [.string op, left, right] => do
    return .operation (← BinaryOp.ofTag? op) (← ofShort? left) (← ofShort? right) .shorthand
  | _ => none

/-- A register or flag as an operand. -/
def Operand.register (b : Builtin) : Operand where
  mode := .builtin b
  pos := .shorthand

/-- The modes of operands with an expression, by their short names. -/
def Mode.ofShort? : String → Option Mode
  | "immediate" => some .immediate
  | "direct" => some .direct
  | "indexed_x" => some .indexedByX
  | "indexed_y" => some .indexedByY
  | "indirect_x" => some .indexedIndirect
  | "indirect_y" => some .indirectIndexed
  | _ => none

/-- The operand that a branch to a dotted path has. -/
def Operand.destination (path : String) (mode : Mode := .label) : Operand where
  mode := mode
  expr := some (.dotted path)
  pos := .shorthand

/-- Reads a short operand. -/
def Operand.ofShort? : Json → Option Operand
  | .string name => (Builtin.ofName? name).map .register
  | .array [.string "label_ref", .string path] => some (.destination path)
  | .array [.string "indirect_label", .string path] => some (.destination path .indirectLabel)
  | .array [.string mode, e] => do
    return { mode := ← Mode.ofShort? mode, expr := some (← Expr.ofShort? e), pos := .shorthand }
  | _ => none

/-- Reads a short data item. -/
def DataItem.ofShort? : Json → Option DataItem
  | .string text => some (.string text .shorthand)
  | .array [e] => (Expr.ofShort? e).map .value
  | .integer n => (Expr.ofShort? (.integer n)).map .value
  | _ => none

/-- Reads a short setting. -/
def Setting.ofShort? : Json → Option Setting
  | .array [.string name, value] => do
    return { name := .short name, value := .short (← value.word?) }
  | _ => none

/-- Reads a short command: its name and its argument. -/
def Command.ofShort? : Json → Option Command
  | .array [.string kind, argument] => do
    return { kind := ← CommandKind.ofName? kind
             argument := ← argument.optional? Operand.ofShort?
             pos := .shorthand }
  | _ => none

/-- A condition on a flag. -/
def Condition.short (flag : Builtin) (set : Bool) : Condition where
  set := set
  flag := .register flag

/-- Reads a short condition. -/
def Condition.ofShort? : Json → Option Condition
  | .array [.string flag, .bool set] => do
    return .short (← Builtin.ofName? flag) set
  | _ => none

/-- A branch in a shorthand tree. -/
def Statement.shortBranch (kind : BranchKind) (destination : Option Operand := none)
    (condition : Option Condition := none) : Statement :=
  .branch { kind, destination, condition, pos := .shorthand }

/-- Reads a short statement that is not a block. -/
def Statement.leafOfShort? : Json → Option Statement
  | .array [.string "header", .array settings] => do
    return .header { settings := ← settings.mapM Setting.ofShort?, pos := .shorthand }
  | .array [.string "rom", bank, dest] => do
    let bank ← bank.optional? Json.word?
    let dest ← dest.optional? Json.word?
    return .relocation (.rom (bank.map .short) (dest.map .short)) .shorthand
  | .array [.string "ram", dest] => do
    return .relocation (.ram (.short (← dest.word?))) .shorthand
  | .array [.string "label", .string name] => some (.label (.short name))
  | .array [.string "constant", .string name, value] => do
    return .constant (.short name) (← Expr.ofShort? value)
  | .array [.string "var", .string width, .array names, arraySize] => do
    return .storage {
      width := ← Width.ofName? width
      names := (← names.mapM Json.string?).map .short
      arraySize := ← arraySize.optional? Expr.ofShort?
      pos := .shorthand }
  | .array [.string "data", .string width, .array items] => do
    return .data {
      width := ← Width.ofName? width
      items := ← items.mapM DataItem.ofShort?
      pos := .shorthand }
  | .array [.string "embed", .string path] => some (.embed path .shorthand)
  | .array [.string "cmd", receiver, kind, argument] => do
    let receiver ← Operand.ofShort? receiver
    return .command { receiver, commands := [← Command.ofShort? (.array [kind, argument])] }
  | .array [.string "commands", receiver, .array commands] => do
    let receiver ← Operand.ofShort? receiver
    return .command { receiver, commands := ← commands.mapM Command.ofShort? }
  | .array [.string "branch", .string kind, destination, condition] => do
    return shortBranch (← BranchKind.ofName? kind) (← destination.optional? Operand.ofShort?)
      (← condition.optional? Condition.ofShort?)
  | .array [.string "goto", .string path] => some (shortBranch .goto (some (.destination path)))
  | .array [.string "goto_when", .string path, flag, set] => do
    return shortBranch .goto (some (.destination path))
      (some (← Condition.ofShort? (.array [flag, set])))
  | .array [.string "call", .string path] => some (shortBranch .call (some (.destination path)))
  | .array [.string "nop"] => some (shortBranch .nop)
  | _ => none

mutual

/-- Reads a short statement. -/
def Statement.ofShort? : Json → Option Statement
  | .array [.string "scope", .array statements] => do
    return .block .scope (← Statement.listOfShort? statements) .shorthand
  | .array [.string "package", .string name, .array statements] => do
    return .block (.package (.short name)) (← Statement.listOfShort? statements) .shorthand
  | j => Statement.leafOfShort? j

/-- Reads short statements. -/
def Statement.listOfShort? : List Json → Option (List Statement)
  | [] => some []
  | j :: rest => do
    return (← Statement.ofShort? j) :: (← Statement.listOfShort? rest)

end

/-- Reads a program from its short statements. -/
def Program.ofShort? : Json → Option Program
  | .array statements => do
    return { statements := ← Statement.listOfShort? statements, pos := .shorthand }
  | _ => none

end Cartridge
