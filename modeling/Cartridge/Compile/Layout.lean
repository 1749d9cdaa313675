import Cartridge.Compile.Context
import Cartridge.Encoding.Branch

/-!
# Laying out the rom

The second pass reserves the space of every statement, and gives labels the addresses at which
they then stand. The encoding of each command is chosen here for good, so that what is written
later has exactly the reserved size.

Main definitions:

- `Command.select`: the encoding of a command.
- `Statement.layOut`: reserves the space of a statement.
-/

namespace Cartridge

/-! ## Commands -/

namespace Command

/-- An operand with its location. -/
abbrev Located := Operand × Location

/-- Whether an operand is known to lie in the zero page. An address that is not known yet is taken
to lie outside. -/
def inZeroPage : Option Located → Pass Bool
  | some ({ expr := some e, .. }, location) => do
    return (← Pass.fold .tentative location e).any (· < 0x100)
  | _ => return false

/-- The encoding of a shape, with the form of the memory operand decided. -/
def encode (swapped : Bool) (receiver : Located) (argument : Option Located) :
    Shape → Pass Encoding
  | .implied opcode => return .instruction none opcode none
  | .sequence instructions => return .sequence instructions
  | .memory lead (.only opcode) side => return .instruction lead opcode (some side)
  | .memory lead (.either short long) side => do
    if ← inZeroPage (side.pick swapped receiver argument) then
      return .instruction lead short (some side)
    else
      return .instruction lead long (some side)

/-- The encoding of a command, or nothing if the reason why there is none was reported. -/
def select (c : Command) (receiver : Operand) (receiverAt argumentAt : Location) :
    Pass (Option Selection) := do
  let n := c.kind.normal receiver c.argument
  match c.kind.shapeOf receiver c.argument with
  | .error objection =>
    Run.error (c.kind.refusal receiver c.argument objection) c.pos
    return none
  | .ok shape =>
    let encoding ← encode n.swapped (receiver, receiverAt)
      (c.argument.map fun arg => (arg, argumentAt)) shape
    return some { kind := n.kind, convertedFrom := n.convertedFrom, encoding }

/-- Chooses the encoding of a command and reserves its space. -/
def layOut (receiver : Operand) (receiverAt argumentAt : Location) (c : Command) : Pass Unit := do
  let selection ← c.select receiver receiverAt argumentAt
  Run.update fun ctx => { ctx with selections := ctx.selections.set argumentAt selection }
  Pass.reserveSome "command" (selection.map Selection.size) c.pos

/-- Lays out commands that share a receiver, from the one with the given index on. The receiver is
the first child of the statement, and the commands follow it. -/
def layOutAll (location : Location) (receiver : Operand) : Nat → List Command → Pass Unit
  | _, [] => pure ()
  | index, c :: rest => do
    c.layOut receiver (location.child 0) (location.child (index + 1))
    layOutAll location receiver (index + 1) rest

end Command

/-! ## Other statements -/

/-- The number of units of a data item. A string takes one for each byte of its text. -/
def DataItem.units : DataItem → Nat
  | value _ => 1
  | string text _ => text.utf8ByteSize

/-- The number of units of several data items. -/
def DataItem.unitsOf : List DataItem → Nat
  | [] => 0
  | item :: rest => item.units + unitsOf rest

/-- The number of bytes of a data statement. -/
def Data.size (d : Data) : Nat :=
  DataItem.unitsOf d.items * d.width.bytes

/-- The size of a branch, or nothing if what is wrong with it was reported. -/
def Branch.check (b : Branch) : Pass (Option Nat) :=
  match b.size? with
  | .ok n => return some n
  | .error (e, pos) => do
    Run.error e pos
    return none

/-- Checks a branch and reserves its space. -/
def Branch.layOut (location : Location) (b : Branch) : Pass Unit := do
  let size ← b.check
  Run.update fun ctx => { ctx with branches := ctx.branches.set location size }
  Pass.reserveSome "branch" size b.pos

/-- The symbol table with the address of the label at a location. -/
def Context.placeLabel (ctx : Context) (location : Location) (address : UInt16) : SymbolTable :=
  match ctx.labels.at? location with
  | none => ctx.symbols
  | some id => ctx.symbols.placeLabel id address

/-- Places a label where the next byte of the active bank will go. -/
def Name.placeLabel (location : Location) (name : Name) : Pass Unit := do
  let counter ← Pass.programCounter "label declaration" .labelWithoutOrigin name.pos
  if counter < addressSpace then
    let address := UInt16.ofNat counter
    Run.update fun ctx => { ctx with symbols := ctx.placeLabel location address }
    Pass.note (.label name.text address)
  else
    Run.error (.labelOutOfRange name.text) name.pos

namespace Relocation

/-- Switches to the bank that a relocation names. -/
def layOutBank (location : Location) (pos : Position) : Option Expr → Pass Unit
  | none => pure ()
  | some e => do
    match ← Pass.fold .final location e with
    | none => Run.fatal .unresolvedBank pos
    | some index => Pass.onRom pos (Rom.switchBank index pos)

/-- Moves to the address that a relocation names, reserving what is skipped. -/
def layOutDest (location : Location) (pos : Position) : Option Expr → Pass Unit
  | none => pure ()
  | some e => do
    match ← Pass.fold .final location e with
    | none => Run.fatal .unresolvedRom pos
    | some address => Pass.onBank "rom relocation" pos (Bank.org address pos)

/-- Switches the bank and moves the program counter. -/
def layOut (location : Location) (pos : Position) : Relocation → Pass Unit
  | ram _ => pure ()
  | rom bank dest => do
    layOutBank (location.child 0) pos bank
    layOutDest (location.child 1) pos dest

end Relocation

/-- Reads an embedded file and reserves its space. -/
def Files.embed (files : Files) (location : Location) (name : String) (pos : Position) :
    Pass Unit := do
  let path := pos.sibling name
  match files path with
  | .error cause => Run.error (.embed path cause) pos
  | .ok bytes =>
    Pass.reserve "embed statement" bytes.length pos
    Pass.note (.embedded path bytes.length)
    Run.update fun ctx => { ctx with contents := ctx.contents.set location (some bytes) }

/-- The scope that a block has opened. -/
def Pass.scopeOf (location : Location) (pos : Position) : Pass ScopeId := do
  match (← Run.read).scopes.at? location with
  | none => Run.internal "block visited before its scope was gathered" pos
  | some scope => return scope

mutual

/-- Reserves the space of a statement. -/
def Statement.layOut (files : Files) (location : Location) : Statement → Pass Unit
  | .block _ statements pos => do
    let scope ← Pass.scopeOf location pos
    Pass.within scope (Statement.layOutAll files location 0 statements)
  | .relocation target pos => target.layOut location pos
  | .label name => name.placeLabel location
  | .data d => Pass.reserve "data statement" d.size d.pos
  | .embed path pos => files.embed location path pos
  | .command c => Command.layOutAll location c.receiver 0 c.commands
  | .branch b => b.layOut location
  | .header _ | .constant _ _ | .storage _ => pure ()

/-- Reserves the space of the statements of a block from the one with the given index on. -/
def Statement.layOutAll (files : Files) (location : Location) : Nat → List Statement → Pass Unit
  | _, [] => pure ()
  | index, s :: rest => do
    s.layOut files (location.child index)
    layOutAll files location (index + 1) rest

end

end Cartridge
