import Cartridge.Json.Basic
import Cartridge.Source.Statement

/-!
# Writing syntax trees

Every tree has one written form, in which each field is present: positions are written even where
they are the default, and an optional part that is missing is written as `null`.
-/

namespace Cartridge

/-- The written form of a position. -/
def Position.toJson (pos : Position) : Json :=
  .object [("file", .string pos.file), ("line", .nat pos.line.toNat), ("col", .nat pos.col.toNat)]

/-- The written form of a name. -/
def Name.toJson (name : Name) : Json :=
  .object [("text", .string name.text), ("pos", name.pos.toJson)]

/-- The written form of an expression. -/
def Expr.toJson : Expr → Json
  | number value pos =>
    .object [("kind", .object [("number", .nat value.toNat)]), ("pos", pos.toJson)]
  | reference path pos =>
    .object [("kind", .object [("attribute", .array (path.map Name.toJson))]),
      ("pos", pos.toJson)]
  | operation op left right pos =>
    .object [("kind", .object [("operation", .object [("op", .string op.tag),
      ("left", left.toJson), ("right", right.toJson)])]), ("pos", pos.toJson)]

/-- The written form of an operand. -/
def Operand.toJson (operand : Operand) : Json :=
  .object [("mode", .string operand.mode.tag), ("expr", .ofOption Expr.toJson operand.expr),
    ("pos", operand.pos.toJson)]

/-- The written form of a command. -/
def Command.toJson (command : Command) : Json :=
  .object [("kind", .string command.kind.name),
    ("argument", .ofOption Operand.toJson command.argument), ("pos", command.pos.toJson)]

/-- The written form of a branch condition. -/
def Condition.toJson (condition : Condition) : Json :=
  .object [("set", .bool condition.set), ("flag", condition.flag.toJson)]

/-- The written form of a data item. -/
def DataItem.toJson : DataItem → Json
  | value expr => .object [("expression", expr.toJson)]
  | string text pos =>
    .object [("string", .object [("text", .string text), ("pos", pos.toJson)])]

/-- The written form of a header setting. -/
def Setting.toJson (setting : Setting) : Json :=
  .object [("name", setting.name.toJson), ("value", setting.value.toJson)]

/-- The written form of a relocation. -/
def Relocation.toJson : Relocation → Json
  | rom bank dest =>
    .object [("rom", .object [("bank", .ofOption Expr.toJson bank),
      ("dest", .ofOption Expr.toJson dest)])]
  | ram dest => .object [("ram", .object [("dest", dest.toJson)])]

/-- The written form of a kind of block. -/
def BlockKind.toJson : BlockKind → Json
  | main => .string "main"
  | scope => .string "scope"
  | package name => .object [("package", name.toJson)]

mutual

/-- The written form of a statement, tagged with its kind. -/
def Statement.toJson : Statement → Json
  | .block kind statements pos =>
    .object [("statement", .string "block"), ("kind", kind.toJson),
      ("statements", .array (Statement.listToJson statements)), ("pos", pos.toJson)]
  | .header h =>
    .object [("statement", .string "header"),
      ("settings", .array (h.settings.map Setting.toJson)), ("pos", h.pos.toJson)]
  | .relocation target pos =>
    .object [("statement", .string "relocation"), ("target", target.toJson),
      ("pos", pos.toJson)]
  | .label name => .object [("statement", .string "label"), ("name", name.toJson)]
  | .constant name value =>
    .object [("statement", .string "constant"), ("name", name.toJson), ("value", value.toJson)]
  | .storage v =>
    .object [("statement", .string "variable"), ("width", .string v.width.name),
      ("names", .array (v.names.map Name.toJson)),
      ("array_size", .ofOption Expr.toJson v.arraySize), ("pos", v.pos.toJson)]
  | .data d =>
    .object [("statement", .string "data"), ("width", .string d.width.name),
      ("items", .array (d.items.map DataItem.toJson)), ("pos", d.pos.toJson)]
  | .command c =>
    .object [("statement", .string "command"), ("receiver", c.receiver.toJson),
      ("commands", .array (c.commands.map Command.toJson))]
  | .branch b =>
    .object [("statement", .string "branch"), ("kind", .string b.kind.name),
      ("destination", .ofOption Operand.toJson b.destination),
      ("condition", .ofOption Condition.toJson b.condition), ("pos", b.pos.toJson)]
  | .embed path pos =>
    .object [("statement", .string "embed"), ("path", .string path), ("pos", pos.toJson)]

/-- The written forms of the statements of a block. -/
def Statement.listToJson : List Statement → List Json
  | [] => []
  | statement :: rest => statement.toJson :: Statement.listToJson rest

end

/-- The written form of a program. -/
def Program.toJson (program : Program) : Json :=
  .object [("statements", .array (Statement.listToJson program.statements)),
    ("pos", program.pos.toJson)]

end Cartridge
