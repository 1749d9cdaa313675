import Cartridge.Encoding.Selection

/-!
# The entries of the encoding table

An instruction of the encoding table has operand bytes exactly if it carries an operand, and then
one byte or two. So the size of an encoding is the number of bytes that are written for it.

Main definitions:

- `Shape.Sized` and `Encoding.Sized`: the opcodes fit the operand that is carried.
- `Shape.Entry`: what can stand in the encoding table.

Main results:

- Theorem `CommandKind.entry_of_shape`: what comes out of the encoding table is one of its entries.
- Theorem `Shape.Entry.sized`: every entry of the encoding table is sized.
- Theorem `Encoding.Sized.size_le`: an encoding has at most five bytes.
-/

namespace Cartridge

namespace Opcode

/-- The opcode takes an operand, of one byte or two. -/
def TakesOperand (o : Opcode) : Prop :=
  o.form.operandSize = 1 ∨ o.form.operandSize = 2

end Opcode

/-- The opcodes of a shape fit the operand that it carries. -/
def Shape.Sized : Shape → Prop
  | .implied o => o.form.operandSize = 0
  | .memory _ (.only o) _ => o.TakesOperand
  | .memory _ (.either short long) _ => short.form.operandSize = 1 ∧ long.form.operandSize = 2
  | .sequence instructions => (instructions.flatMap Instruction.bytes).length ≤ 5

/-- The opcode of an encoding fits the operand that it carries. -/
def Encoding.Sized : Encoding → Prop
  | .instruction _ o none => o.form.operandSize = 0
  | .instruction _ o (some _) => o.TakesOperand
  | .sequence instructions => (instructions.flatMap Instruction.bytes).length ≤ 5

/-- An encoding has at most five bytes. -/
theorem Encoding.Sized.size_le {e : Encoding} (h : e.Sized) : e.size ≤ 5 := by
  cases e with
  | sequence instructions => exact h
  | instruction lead o carrier =>
    have hl : lead.toList.length ≤ 1 := by
      cases lead <;> simp
    have ho : o.form.operandSize ≤ 2 := by
      cases carrier with
      | none => exact Nat.le_trans (Nat.le_of_eq h) (by decide)
      | some side => rcases h with h | h <;> omega
    rw [size_instruction]
    omega

/-- Where an operation offers one opcode for a memory operand, that opcode takes an operand. -/
theorem Operation.takesOperand_of_access? {op : Operation} {mode : Mode} {o : Opcode}
    (h : op.access? mode = some (.only o)) : o.TakesOperand := by
  have single {form : Form} (hs : form.operandSize = 1)
      (h : (op.opcode? form).map Access.only = some (.only o)) : o.TakesOperand := by
    obtain ⟨o', ho, heq⟩ := Option.map_eq_some_iff.1 h
    cases heq
    left
    rw [form_of_opcode? ho, hs]
  have pair {short long : Form} (hs : short.operandSize = 1) (hl : long.operandSize = 2)
      (h : Access.ofPair? (op.opcode? short) (op.opcode? long) = some (.only o)) :
      o.TakesOperand := by
    unfold Access.ofPair? at h
    split at h <;> cases h
    · rename_i ho
      left
      rw [form_of_opcode? ho, hs]
    · rename_i ho
      right
      rw [form_of_opcode? ho, hl]
  cases mode with
  | immediate => exact single rfl h
  | indexedIndirect => exact single rfl h
  | indirectIndexed => exact single rfl h
  | direct => exact pair rfl rfl h
  | indexedByX => exact pair rfl rfl h
  | indexedByY => exact pair rfl rfl h
  | label => cases h
  | indirectLabel => cases h
  | builtin b => cases h

/-! ## The entries of the table -/

/-- What stands in the encoding table, given the modes of the operands: instructions without operand
bytes, operations on the operand of one side in its own mode, and short sequences. -/
inductive Shape.Entry (receiver : Mode) (argument : Option Mode) : Shape → Prop
  | implied (o : Opcode) (size : o.form.operandSize = 0) : Entry receiver argument (.implied o)
  | memory (op : Operation) (mode : Mode) (lead : Option Opcode) (access : Access) (side : Side)
      (pick : side.pick false receiver argument = some mode)
      (offers : op.access? mode = some access) : Entry receiver argument (.memory lead access side)
  | sequence (instructions : List Instruction)
      (size : (instructions.flatMap Instruction.bytes).length ≤ 5) :
      Entry receiver argument (.sequence instructions)

/-- Every shape that comes out is an entry. -/
def Entries (receiver : Mode) (argument : Option Mode) (r : Except Objection Shape) : Prop :=
  ∀ shape, r = .ok shape → shape.Entry receiver argument

namespace Entries

variable {receiver : Mode} {argument : Option Mode}

theorem error (o : Objection) : Entries receiver argument (.error o) := by
  intro shape h
  cases h

/-- An operation without an operand is an entry. -/
theorem alone (op : Operation) (h : (op.code? .implied).isSome = true) :
    Entries receiver argument (Shape.alone op h) := by
  intro shape hs
  cases hs
  exact .implied _ rfl

/-- An operation on memory is an entry if the operand of its side has the mode that was looked
up. -/
theorem onMemory (op : Operation) {mode : Mode} {side : Side} (objection : Objection)
    (lead : Option Opcode) (hpick : side.pick false receiver argument = some mode) :
    Entries receiver argument (Shape.onMemory op mode side objection lead) := by
  intro shape h
  unfold Shape.onMemory at h
  cases ha : op.access? mode with
  | none =>
    rw [ha] at h
    cases h
  | some access =>
    rw [ha] at h
    cases h
    exact .memory op mode lead access side hpick ha

/-- Operations on the accumulator take their argument from memory. -/
theorem shapeOnA (receiver argument : Mode) (op : Operation) (objection : Objection)
    (lead : Option Opcode) :
    Entries receiver (some argument)
      (CommandKind.shapeOnA receiver argument op objection lead) := by
  unfold CommandKind.shapeOnA
  split
  · exact onMemory _ _ _ rfl
  · exact error _

/-- Shifts work on the accumulator or on memory. -/
theorem shapeOfShift (receiver : Mode) (op : Operation)
    (h : (op.code? .accumulator).isSome = true) :
    Entries receiver none (CommandKind.shapeOfShift receiver op h) := by
  unfold CommandKind.shapeOfShift
  split
  · intro shape hs
    cases hs
    exact .implied _ rfl
  · exact onMemory _ _ _ rfl

/-- Loads and transfers between registers are entries. -/
theorem shapeOfGet (receiver argument : Mode) :
    Entries receiver (some argument) (CommandKind.shapeOfGet receiver argument) := by
  unfold CommandKind.shapeOfGet
  split
  · exact alone _ _
  · exact alone _ _
  · exact onMemory _ _ _ rfl
  · exact alone _ _
  · exact alone _ _
  · exact onMemory _ _ _ rfl
  · exact alone _ _
  · exact onMemory _ _ _ rfl
  · exact alone _ _
  · exact error _
  · exact error _

/-- Stores and transfers between registers are entries. -/
theorem shapeOfPut (receiver argument : Mode) :
    Entries receiver (some argument) (CommandKind.shapeOfPut receiver argument) := by
  unfold CommandKind.shapeOfPut
  split
  · exact alone _ _
  · exact alone _ _
  · exact onMemory _ _ _ rfl
  · exact alone _ _
  · exact alone _ _
  · exact onMemory _ _ _ rfl
  · exact alone _ _
  · exact onMemory _ _ _ rfl
  · exact alone _ _
  · exact error _
  · exact error _

/-- Comparisons are entries: they take their argument from memory. -/
theorem shapeOfCmp (receiver argument : Mode) :
    Entries receiver (some argument) (CommandKind.shapeOfCmp receiver argument) := by
  unfold CommandKind.shapeOfCmp
  split
  · exact onMemory _ _ _ rfl
  · exact onMemory _ _ _ rfl
  · exact onMemory _ _ _ rfl
  · exact error _

/-- Setting a flag is an entry: there is one instruction for each flag that can be set. -/
theorem shapeOfSet (receiver argument : Mode) :
    Entries receiver (some argument) (CommandKind.shapeOfSet receiver argument) := by
  unfold CommandKind.shapeOfSet
  split
  · exact alone _ _
  · exact alone _ _
  · exact alone _ _
  · exact error _
  · exact error _

/-- Clearing a flag is an entry: there is one instruction for each flag that can be cleared. -/
theorem shapeOfUnset (receiver argument : Mode) :
    Entries receiver (some argument) (CommandKind.shapeOfUnset receiver argument) := by
  unfold CommandKind.shapeOfUnset
  split
  · exact alone _ _
  · exact alone _ _
  · exact alone _ _
  · exact alone _ _
  · exact error _
  · exact error _

/-- Commands with an argument have entries only. -/
theorem shapeWith (kind : CommandKind) (receiver argument : Mode) :
    Entries receiver (some argument) (kind.shapeWith receiver argument) := by
  cases kind with
  | get => exact shapeOfGet _ _
  | put => exact shapeOfPut _ _
  | cmp => exact shapeOfCmp _ _
  | set => exact shapeOfSet _ _
  | unset => exact shapeOfUnset _ _
  | add | addc | sub | subc | or | and | xor | bit => exact shapeOnA _ _ _ _ _
  | inc | dec | not | neg | shl | shr | rol | ror | push | pull => exact error _

/-- Commands without an argument have entries only. -/
theorem shapeAlone (kind : CommandKind) (receiver : Mode) :
    Entries receiver none (kind.shapeAlone receiver) := by
  have fixed {receiver : Mode} {instructions : List Instruction}
      (h : (instructions.flatMap Instruction.bytes).length ≤ 5) :
      Entries receiver none (.ok (.sequence instructions)) := by
    intro shape hs
    cases hs
    exact .sequence _ h
  unfold CommandKind.shapeAlone
  split
  · exact alone _ _
  · exact alone _ _
  · exact onMemory _ _ _ rfl
  · exact alone _ _
  · exact alone _ _
  · exact onMemory _ _ _ rfl
  · exact fixed (by decide)
  · exact fixed (by decide)
  · exact error _
  · exact error _
  · exact shapeOfShift _ _ _
  · exact shapeOfShift _ _ _
  · exact shapeOfShift _ _ _
  · exact shapeOfShift _ _ _
  · exact alone _ _
  · exact alone _ _
  · exact alone _ _
  · exact alone _ _
  · exact error _
  · exact error _
  · exact error _

end Entries

/-- Every entry of the encoding table is sized. -/
theorem Shape.Entry.sized {receiver : Mode} {argument : Option Mode} {shape : Shape}
    (h : shape.Entry receiver argument) : shape.Sized := by
  cases h with
  | implied o size => exact size
  | sequence instructions size => exact size
  | memory op mode lead access side _ offers =>
    cases access with
    | only o => exact Operation.takesOperand_of_access? offers
    | either short long => exact Operation.operandSize_of_access? offers

namespace CommandKind

/-- What comes out of the encoding table is one of its entries. -/
theorem entry_of_shape {kind : CommandKind} {receiver : Mode} {argument : Option Mode}
    {shape : Shape} (h : kind.shape receiver argument = .ok shape) :
    shape.Entry receiver argument := by
  unfold CommandKind.shape at h
  split at h
  · exact Entries.shapeWith _ _ _ _ h
  · cases h
  · cases h
  · exact Entries.shapeAlone _ _ _ h

/-- The shape of a command is sized. -/
theorem sized_of_shapeOf {kind : CommandKind} {receiver : Operand} {argument : Option Operand}
    {shape : Shape} (h : kind.shapeOf receiver argument = .ok shape) : shape.Sized := by
  unfold CommandKind.shapeOf at h
  simp only at h
  split at h
  · cases h
  · exact (entry_of_shape h).sized

end CommandKind

/-- What holds of both operands holds of the one that is picked. -/
theorem Side.forall_pick {α : Type} {p : α → Prop} {receiver : α} {argument : Option α}
    (hr : p receiver) (ha : ∀ a ∈ argument, p a) (side : Side) (swapped : Bool) :
    ∀ a ∈ side.pick swapped receiver argument, p a := by
  intro a h
  cases argument with
  | none =>
    cases side <;> cases swapped <;> cases h <;> exact hr
  | some b =>
    have hb : p b := ha b rfl
    cases side <;> cases swapped <;> cases h <;> assumption

end Cartridge
