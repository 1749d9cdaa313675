import Cartridge.Json.Basic
import Cartridge.Source.Statement

/-!
# Reading syntax trees

A tree is read from a JSON value. Positions may be left out, and so may optional parts, for which
`null` is allowed as well; fields that nothing asks for are ignored. A value that stands for one
of several alternatives is an object with exactly one field, named for the alternative, or a text
if the alternative has no parts.
-/

namespace Cartridge

/-! ## Positions and names -/

/-- Reads a position; all its fields are required. -/
def Position.ofJson? (j : Json) : Option Position := do
  let file ← (j.field "file").string?
  let line ← (j.field "line").size?
  let col ← (j.field "col").size?
  return { file, line := .ofNat line, col := .ofNat col }

/-- Reads the position of a node, which may be left out but may not be `null`. -/
def Json.pos? (j : Json) : Option Position :=
  match j.field? "pos" with
  | none => some {}
  | some pos => Position.ofJson? pos

/-- Reads a name. -/
def Name.ofJson? (j : Json) : Option Name := do
  let text ← (j.field "text").string?
  let pos ← j.pos?
  return { text, pos }

/-- Reads a list with a reader for its items. -/
def Json.list? {α : Type} (read : Json → Option α) (j : Json) : Option (List α) := do
  (← j.array?).mapM read

/-- Reads one of a set of names with a look-up. -/
def Json.named? {α : Type} (look : String → Option α) (j : Json) : Option α := do
  look (← j.string?)

/-! ## Expressions and operands -/

/-- Reads an expression. -/
def Expr.ofJson? (j : Json) : Option Expr :=
  match hkind : j.field? "kind" with
  | some (.object [("number", value)]) => do
    return .number (← value.word?) (← j.pos?)
  | some (.object [("attribute", path)]) => do
    return .reference (← path.list? Name.ofJson?) (← j.pos?)
  | some (.object [("operation", body)]) =>
    match hleft : body.field? "left", hright : body.field? "right" with
    | some left, some right =>
      have := Json.sizeOf_field?_lt hkind
      have := Json.sizeOf_field?_lt hleft
      have := Json.sizeOf_field?_lt hright
      do
        let op ← (body.field "op").named? BinaryOp.ofTag?
        return .operation op (← Expr.ofJson? left) (← Expr.ofJson? right) (← j.pos?)
    | _, _ => none
  | _ => none
termination_by sizeOf j
decreasing_by
  all_goals
    simp at *
    omega

/-- Reads an operand. -/
def Operand.ofJson? (j : Json) : Option Operand := do
  let mode ← (j.field "mode").named? Mode.ofTag?
  let expr ← (j.field "expr").optional? Expr.ofJson?
  let pos ← j.pos?
  return { mode, expr, pos }

/-- Reads a command. -/
def Command.ofJson? (j : Json) : Option Command := do
  let kind ← (j.field "kind").named? CommandKind.ofName?
  let argument ← (j.field "argument").optional? Operand.ofJson?
  let pos ← j.pos?
  return { kind, argument, pos }

/-- Reads the commands of a command statement. -/
def CommandList.ofJson? (j : Json) : Option CommandList := do
  let receiver ← Operand.ofJson? (j.field "receiver")
  let commands ← (j.field "commands").list? Command.ofJson?
  return { receiver, commands }

/-! ## Other leaves -/

/-- Reads a branch condition, which asks for a set flag unless it says otherwise. -/
def Condition.ofJson? (j : Json) : Option Condition := do
  let flag ← Operand.ofJson? (j.field "flag")
  let set ← match j.field? "set" with
    | none => some true
    | some set => set.bool?
  return { set, flag }

/-- Reads a branch. -/
def Branch.ofJson? (j : Json) : Option Branch := do
  let kind ← (j.field "kind").named? BranchKind.ofName?
  let destination ← (j.field "destination").optional? Operand.ofJson?
  let condition ← (j.field "condition").optional? Condition.ofJson?
  let pos ← j.pos?
  return { kind, destination, condition, pos }

/-- Reads a data item. -/
def DataItem.ofJson? : Json → Option DataItem
  | .object [("expression", expr)] => do
    return .value (← Expr.ofJson? expr)
  | .object [("string", body)] => do
    return .string (← (body.field "text").string?) (← body.pos?)
  | _ => none

/-- Reads a run of data. -/
def Data.ofJson? (j : Json) : Option Data := do
  let width ← (j.field "width").named? Width.ofName?
  let items ← (j.field "items").list? DataItem.ofJson?
  let pos ← j.pos?
  return { width, items, pos }

/-- Reads a declaration of variables. -/
def Variables.ofJson? (j : Json) : Option Variables := do
  let width ← (j.field "width").named? Width.ofName?
  let names ← (j.field "names").list? Name.ofJson?
  let arraySize ← (j.field "array_size").optional? Expr.ofJson?
  let pos ← j.pos?
  return { width, names, arraySize, pos }

/-- Reads a header setting. -/
def Setting.ofJson? (j : Json) : Option Setting := do
  let name ← Name.ofJson? (j.field "name")
  let value ← Expr.ofJson? (j.field "value")
  return { name, value }

/-- Reads a header. -/
def Header.ofJson? (j : Json) : Option Header := do
  let settings ← (j.field "settings").list? Setting.ofJson?
  let pos ← j.pos?
  return { settings, pos }

/-- Reads a relocation. -/
def Relocation.ofJson? : Json → Option Relocation
  | .object [("rom", .object fields)] => do
    let body := Json.object fields
    let bank ← (body.field "bank").optional? Expr.ofJson?
    let dest ← (body.field "dest").optional? Expr.ofJson?
    return .rom bank dest
  | .object [("ram", body)] => do
    return .ram (← Expr.ofJson? (body.field "dest"))
  | _ => none

/-- Reads a kind of block. -/
def BlockKind.ofJson? : Json → Option BlockKind
  | .string "main" => some .main
  | .string "scope" => some .scope
  | .object [("package", name)] => do
    return .package (← Name.ofJson? name)
  | _ => none

/-! ## Statements and programs -/

mutual

/-- Reads a statement, of the kind its tag names. -/
def Statement.ofJson? (j : Json) : Option Statement :=
  match j.field? "statement" with
  | some (.string "block") =>
    match hstatements : j.field? "statements" with
    | some (.array items) =>
      have := Json.sizeOf_field?_lt hstatements
      do
        let kind ← BlockKind.ofJson? (j.field "kind")
        let statements ← Statement.listOfJson? items
        return .block kind statements (← j.pos?)
    | _ => none
  | some (.string "header") => do
    return .header (← Header.ofJson? j)
  | some (.string "relocation") => do
    return .relocation (← Relocation.ofJson? (j.field "target")) (← j.pos?)
  | some (.string "label") => do
    return .label (← Name.ofJson? (j.field "name"))
  | some (.string "constant") => do
    return .constant (← Name.ofJson? (j.field "name")) (← Expr.ofJson? (j.field "value"))
  | some (.string "variable") => do
    return .storage (← Variables.ofJson? j)
  | some (.string "data") => do
    return .data (← Data.ofJson? j)
  | some (.string "command") => do
    return .command (← CommandList.ofJson? j)
  | some (.string "branch") => do
    return .branch (← Branch.ofJson? j)
  | some (.string "embed") => do
    return .embed (← (j.field "path").string?) (← j.pos?)
  | _ => none
termination_by sizeOf j
decreasing_by
  simp at this
  omega

/-- Reads the statements of a block. -/
def Statement.listOfJson? (items : List Json) : Option (List Statement) :=
  match items with
  | [] => some []
  | item :: rest => do
    return (← Statement.ofJson? item) :: (← Statement.listOfJson? rest)
termination_by sizeOf items

end

/-- Reads a program. Two other spellings of a tree are not read: a record as the array of its
fields in their order, and an alternative without parts as an object, such as `{"scope": null}` for
the kind of a block. -/
def Program.ofJson? (j : Json) : Option Program := do
  let items ← (j.field "statements").array?
  let statements ← Statement.listOfJson? items
  let pos ← j.pos?
  return { statements, pos }

end Cartridge
