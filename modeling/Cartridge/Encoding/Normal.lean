import Cartridge.Source.Statement

/-!
# The normal form of commands

Loads and stores can be spelled from either side: a memory operand may get a register's value, or
the register may be put into it. In normal form the receiver is the register.

Main results:

- Theorem `CommandKind.normal_normal`: a normal form is its own normal form.
-/

namespace Cartridge

/-- A command in normal form. -/
structure NormalCommand where
  kind : CommandKind
  /-- The kind that was written, if the operands have changed places. -/
  convertedFrom : Option CommandKind := none
  receiver : Operand
  argument : Option Operand
deriving DecidableEq, Repr

/-- Whether the operands have changed places. -/
def NormalCommand.swapped (n : NormalCommand) : Bool :=
  n.convertedFrom.isSome

/-- The normal form of a command: where a memory operand gets from a register the register puts
instead, and where it is put into a register the register gets. Only an operand that is not in
memory is swapped in, and an immediate value can be read but not written. -/
def CommandKind.normal (kind : CommandKind) (receiver : Operand) (argument : Option Operand) :
    NormalCommand :=
  let unchanged := { kind, receiver, argument }
  match argument with
  | none => unchanged
  | some arg =>
    if arg.mode.isMemory then unchanged
    else match kind with
      | .get =>
        if receiver.mode.isAddressable then
          { kind := .put, convertedFrom := some .get, receiver := arg, argument := some receiver }
        else unchanged
      | .put =>
        if receiver.mode.isMemory then
          { kind := .get, convertedFrom := some .put, receiver := arg, argument := some receiver }
        else unchanged
      | _ => unchanged

/-- An addressable operand is in memory. -/
theorem Mode.isMemory_of_isAddressable {m : Mode} (h : m.isAddressable = true) :
    m.isMemory = true := by
  simp [Mode.isMemory, h]

/-- A normal form is its own normal form: nothing changes places a second time. -/
theorem CommandKind.normal_normal (kind : CommandKind) (receiver : Operand)
    (argument : Option Operand) :
    let n := kind.normal receiver argument
    n.kind.normal n.receiver n.argument = { n with convertedFrom := none } := by
  cases argument with
  | none => simp [normal]
  | some arg =>
    cases hm : arg.mode.isMemory with
    | true => simp [normal, hm]
    | false =>
      cases kind <;> simp only [normal, hm, Bool.false_eq_true, ↓reduceIte]
      case get =>
        cases ha : receiver.mode.isAddressable with
        | true => simp [Mode.isMemory_of_isAddressable ha]
        | false => simp [hm, ha]
      case put =>
        cases ha : receiver.mode.isMemory with
        | true => simp [ha]
        | false => simp [hm, ha]

end Cartridge
