import Cartridge.Compile.Layout

/-!
# Emitting bytes

The third pass writes the bytes of every statement into the space that was reserved for it. A
value that could not be folded has been reported, and is written as zero, so that the bytes after
it stay in their places.

Main definitions:

- `Statement.emit`: writes the bytes of a statement.
-/

namespace Cartridge

/-! ## Commands -/

namespace Command

/-- Writes the operand bytes of an instruction. -/
def emitOperand (opcode : Opcode) (pos : Position) : Option Located → Pass Unit
  | some ({ expr := some e, .. }, location) => do
    let value := (← Pass.fold .final location e).getD 0
    if opcode.form.operandSize = 1 then Pass.writeByte value e.pos
    else Pass.writeWord value e.pos
  | _ => Run.internal "memory operand without an address expression" pos

/-- Writes the bytes of a command in the encoding that was selected. -/
def emitSelection (s : Selection) (receiver : Located) (argument : Option Located)
    (pos : Position) : Pass Unit := do
  match s.encoding with
  | .sequence instructions => Pass.writeBytes (instructions.flatMap Instruction.bytes) pos
  | .instruction lead opcode carrier =>
    Pass.writeSomeOpcode lead pos
    Pass.writeOpcode opcode pos
    match carrier with
    | none => pure ()
    | some side => emitOperand opcode pos (side.pick s.swapped receiver argument)

/-- Writes the bytes of a command, if it has an encoding. -/
def emit (receiver : Operand) (receiverAt argumentAt : Location) (c : Command) : Pass Unit := do
  match (← Run.read).selections.at? argumentAt with
  | none => pure ()
  | some s =>
    emitSelection s (receiver, receiverAt) (c.argument.map fun arg => (arg, argumentAt)) c.pos

/-- Writes the bytes of commands that share a receiver, from the one with the given index on. -/
def emitAll (location : Location) (receiver : Operand) : Nat → List Command → Pass Unit
  | _, [] => pure ()
  | index, c :: rest => do
    c.emit receiver (location.child 0) (location.child (index + 1))
    emitAll location receiver (index + 1) rest

end Command

/-! ## Other statements -/

/-- Writes bytes, each as a unit of data. -/
def Width.emitBytes (width : Width) (pos : Position) : List UInt8 → Pass Unit
  | [] => pure ()
  | b :: rest => do
    Pass.writeUnit width b.toUInt16 pos
    width.emitBytes pos rest

/-- Writes a data item. -/
def DataItem.emit (location : Location) (width : Width) : DataItem → Pass Unit
  | value e => do
    let v := (← Pass.fold .final location e).getD 0
    Pass.writeUnit width v e.pos
  | string text pos => width.emitBytes pos text.toUTF8.data.toList

/-- Writes data items from the one with the given index on. -/
def DataItem.emitAll (location : Location) (width : Width) : Nat → List DataItem → Pass Unit
  | _, [] => pure ()
  | index, item :: rest => do
    item.emit (location.child index) width
    emitAll location width (index + 1) rest

namespace Branch

/-- The distance from the byte after a displacement to its target. -/
def displacement (target : UInt16) (counter : Nat) : Int :=
  (target.toNat : Int) - (counter + 1)

/-- Writes the displacement of a branch to a target, which may be unknown. -/
def emitDisplacement (target : Option UInt16) (e : Expr) (pos : Position) : Pass Unit := do
  let counter ← Pass.programCounter "branch" .noOrigin pos
  match target with
  | none => Pass.writeByte 0 e.pos
  | some address =>
    let offset := displacement address counter
    if offset < -128 ∨ 127 < offset then
      Run.error (.relativeRange offset) e.pos
      Pass.writeByte 0 e.pos
    else
      Pass.writeByte (UInt16.ofNat (offset % 256).toNat) e.pos

/-- Writes a branch of the given size. -/
def emitSized (location : Location) (size : Nat) (b : Branch) : Pass Unit := do
  match b.opcode? with
  | none => Run.internal "branch without an opcode" b.pos
  | some opcode =>
    Pass.writeOpcode opcode b.pos
    if size = 1 then pure ()
    else
      match b.destination.bind Operand.expr with
      | none => Run.internal "branch destination without an expression" b.pos
      | some e =>
        let target ← Pass.fold .final (location.child 0) e
        if size = 3 then Pass.writeWord (target.getD 0) e.pos
        else emitDisplacement target e b.pos

/-- Writes a branch, if it has an encoding. -/
def emit (location : Location) (b : Branch) : Pass Unit := do
  match (← Run.read).branches.at? location with
  | none => pure ()
  | some size => b.emitSized location size

end Branch

/-- The value that is remembered for an expression of the tree, which may be missing. -/
def Context.known? (ctx : Context) (location : Location) : Option Expr → Option UInt16
  | none => none
  | some _ => ctx.memo.value? (.tree location)

namespace Relocation

/-- Repeats the bank switch of a relocation. -/
def emitBank (location : Location) (pos : Position) (bank : Option Expr) : Pass Unit := do
  match (← Run.read).known? location bank with
  | none => pure ()
  | some index => Pass.onRom pos (Rom.switchBank index pos)

/-- Moves to the address to which a relocation has gone. -/
def emitDest (location : Location) (pos : Position) (dest : Option Expr) : Pass Unit := do
  match (← Run.read).known? location dest with
  | none => pure ()
  | some address => Pass.onBank "rom relocation" pos (Bank.seek address pos)

/-- Repeats a relocation inside the reserved space. -/
def emit (location : Location) (pos : Position) : Relocation → Pass Unit
  | ram _ => pure ()
  | rom bank dest => do
    emitBank (location.child 0) pos bank
    emitDest (location.child 1) pos dest

end Relocation

/-- Writes the contents of an embedded file. -/
def Pass.emitContents (location : Location) (pos : Position) : Pass Unit := do
  match (← Run.read).contents.at? location with
  | none => pure ()
  | some bytes => Pass.writeBytes bytes pos

mutual

/-- Writes the bytes of a statement. -/
def Statement.emit (location : Location) : Statement → Pass Unit
  | .block _ statements pos => do
    let scope ← Pass.scopeOf location pos
    Pass.within scope (Statement.emitAll location 0 statements)
  | .relocation target pos => target.emit location pos
  | .data d => DataItem.emitAll location d.width 0 d.items
  | .embed _ pos => Pass.emitContents location pos
  | .command c => Command.emitAll location c.receiver 0 c.commands
  | .branch b => b.emit location
  | .header _ | .label _ | .constant _ _ | .storage _ => pure ()

/-- Writes the bytes of the statements of a block from the one with the given index on. -/
def Statement.emitAll (location : Location) : Nat → List Statement → Pass Unit
  | _, [] => pure ()
  | index, s :: rest => do
    s.emit (location.child index)
    emitAll location (index + 1) rest

end

end Cartridge
