import Cartridge.Diagnostic.Error
import Cartridge.Encoding.Normal
import Cartridge.Encoding.Shape

/-!
# Selections

The encoding that is chosen for a command. It is chosen once, when space is reserved for the
command, so that exactly the reserved bytes are written later.

Main results:

- Theorem `Encoding.size_instruction`: an instruction takes the bytes of its opcode, its operand
  and what leads it.
-/

namespace Cartridge

/-- The instructions of a command, with the operand bytes still to come. -/
inductive Encoding where
  /-- One instruction, perhaps after one that prepares the carry flag. Its operand bytes come from
  one side of the command, or there are none. -/
  | instruction (lead : Option Opcode) (opcode : Opcode) (carrier : Option Side)
  /-- Fixed instructions. -/
  | sequence (instructions : List Instruction)
deriving DecidableEq, Repr

/-- The number of bytes of an encoding. -/
def Encoding.size : Encoding → Nat
  | instruction lead opcode _ => lead.toList.length + 1 + opcode.form.operandSize
  | sequence instructions => (instructions.flatMap Instruction.bytes).length

@[simp] theorem Encoding.size_instruction (lead : Option Opcode) (opcode : Opcode)
    (carrier : Option Side) :
    (instruction lead opcode carrier).size =
      lead.toList.length + 1 + opcode.form.operandSize :=
  rfl

/-- The encoding chosen for a command. -/
structure Selection where
  kind : CommandKind
  /-- The kind that was written, if the operands have changed places. -/
  convertedFrom : Option CommandKind
  encoding : Encoding
deriving DecidableEq, Repr

/-- Whether the operands have changed places. -/
def Selection.swapped (s : Selection) : Bool :=
  s.convertedFrom.isSome

/-- The number of bytes of the command. -/
def Selection.size (s : Selection) : Nat :=
  s.encoding.size

/-- What stands on one side of a command, after its operands have changed places if they do. -/
def Side.pick {α : Type} (side : Side) (swapped : Bool) (receiver : α) (argument : Option α) :
    Option α :=
  match swapped, argument, side with
  | true, some a, .receiver => some a
  | true, some _, .argument => some receiver
  | _, _, .receiver => some receiver
  | _, argument, .argument => argument

/-- The shape of a command, which need not be in normal form. Two memory operands are refused
before the table is asked. -/
def CommandKind.shapeOf (kind : CommandKind) (receiver : Operand) (argument : Option Operand) :
    Except Objection Shape :=
  let n := kind.normal receiver argument
  if receiver.mode.isMemory && argument.any (·.mode.isMemory) then .error .memoryPair
  else n.kind.shape n.receiver.mode (n.argument.map Operand.mode)

/-- How a command was spelled before its operands changed places, for messages. -/
def CommandKind.convertedText (kind : CommandKind) (receiver : Operand)
    (argument : Option Operand) : String :=
  let spelling := receiver.text ++ ": " ++ kind.name
  match argument with
  | some arg => s!" (converted from `{spelling} {arg.text}`)"
  | none => s!" (converted from `{spelling}`)"

/-- The report that a command has no encoding. It shows the normal form. -/
def CommandKind.refusal (kind : CommandKind) (receiver : Operand) (argument : Option Operand)
    (objection : Objection) : Error :=
  let n := kind.normal receiver argument
  let converted := if n.swapped then kind.convertedText receiver argument else ""
  .invalidCommand n.kind converted objection.text

end Cartridge
