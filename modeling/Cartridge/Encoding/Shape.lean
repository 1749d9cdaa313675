import Cartridge.Cpu.Opcode
import Cartridge.Source.Statement

/-!
# The encoding table

Which instructions carry out a command, given the modes of its operands. The table is keyed on
commands in normal form. A memory operand may be offered in a zero-page and in an absolute form;
the choice between the two is left open here.

Main definitions:

- `CommandKind.shape`: the entry of the table, or the objection to the operands.
- `Objection.text`: what is wrong with the operands, in words.

Main results:

- Theorem `Operation.operandSize_of_access?`: where a memory operand has two forms, they take one
  byte and two.
-/

namespace Cartridge

/-- Why a command has no encoding. -/
inductive Objection where
  | memoryPair
  | needsArgument
  | noArgument
  | getReceiver
  | getA
  | getX
  | getY
  | toS
  | putReceiver
  | putA
  | putX
  | putY
  | cmpReceiver
  | cmpIndex
  | aReceiver
  | aluArgument
  | bitArgument
  | stepReceiver
  | shiftReceiver
  | stackReceiver
  | pReceiver
  | setArgument
  | unsetArgument
deriving DecidableEq, Repr

/-- The objection in words. -/
def Objection.text : Objection → String
  | memoryPair => "receiver and argument may not both be memory terms"
  | needsArgument => "an argument is required"
  | noArgument => "no argument is allowed"
  | getReceiver =>
    "receiver must be the register `a`, `x`, `y`, or `s`, or some memory term that is not an " ++
      "immediate value"
  | getA =>
    "if receiver is the register `a`, then the argument must be the register `x` or `y`, an " ++
      "immediate value #foo, a direct memory term of form @foo, @foo[x] or @foo[y], or an " ++
      "indirect term of form @[foo[x]] or @[foo][y]"
  | getX =>
    "if receiver is the register `x`, then the argument must be the register `a` or `s`, an " ++
      "immediate value #foo, or a direct memory term of form @foo or @foo[y]"
  | getY =>
    "if receiver is the register `y`, then the argument must be the register `a`, an immediate " ++
      "value #foo, or a direct memory term of form @foo or @foo[x]"
  | toS => "if receiver is the register `s`, then the argument must be the register `x`"
  | putReceiver => "receiver must be the register `a`, `x`, `y`, or `s`, or some memory term"
  | putA =>
    "if receiver is the register `a`, then the argument must be the register `x` or `y`, a " ++
      "direct memory term of form @foo, @foo[x] or @foo[y], or an indirect term of form " ++
      "@[foo[x]] or @[foo][y]"
  | putX =>
    "if receiver is the register `x`, then the argument must be the register `a` or `s`, or a " ++
      "direct memory term of form @foo or @foo[y]"
  | putY =>
    "if receiver is the register `y`, then the argument must be the register `a`, or a direct " ++
      "memory term of form @foo or @foo[x]"
  | cmpReceiver => "receiver must be the register `a`, `x`, or `y`"
  | cmpIndex =>
    "if receiver is an index register, then the argument must be an immediate value #foo, or a " ++
      "direct memory term of form @foo"
  | aReceiver => "receiver must be the register `a`"
  | aluArgument =>
    "argument must be an immediate value #foo, a direct memory term of form @foo, @foo[x] or " ++
      "@foo[y], or an indirect term of form @[foo[x]] or @[foo][y]"
  | bitArgument => "argument must be a direct memory term of form @foo"
  | stepReceiver =>
    "receiver must be the register `x`, register `y`, or a direct memory term of form @foo, or " ++
      "@foo[x]"
  | shiftReceiver =>
    "receiver must be the register `a`, or a direct memory term of form @foo, or @foo[x]"
  | stackReceiver => "receiver must be the register `a` or `p`"
  | pReceiver => "receiver must be the register `p`"
  | setArgument => "argument must be the p-flag `carry`, `interrupt`, or `decimal`"
  | unsetArgument =>
    "argument must be the p-flag `carry`, `interrupt`, `decimal`, or `overflow`"

/-! ## Shapes -/

/-- One of the two operands of a command. -/
inductive Side where
  | receiver
  | argument
deriving DecidableEq, Repr

/-- The opcodes that an operation offers for a memory operand. -/
inductive Access where
  | only (opcode : Opcode)
  /-- One for addresses in the zero page and one for all. -/
  | either (short long : Opcode)
deriving DecidableEq, Repr

/-- An opcode with its operand bytes. -/
structure Instruction where
  opcode : Opcode
  operand : List UInt8 := []
deriving DecidableEq, Repr

/-- The bytes of an instruction. -/
def Instruction.bytes (i : Instruction) : List UInt8 :=
  i.opcode.byte :: i.operand

/-- How a command is carried out. -/
inductive Shape where
  /-- By an instruction without operand bytes. -/
  | implied (opcode : Opcode)
  /-- By an instruction on a memory operand, perhaps after one that prepares the carry flag. -/
  | memory (lead : Option Opcode) (access : Access) (side : Side)
  /-- By fixed instructions. -/
  | sequence (instructions : List Instruction)
deriving DecidableEq, Repr

/-- The access through an opcode for a short operand and one for a long operand, as far as there are
such opcodes. -/
def Access.ofPair? : Option Opcode → Option Opcode → Option Access
  | some short, some long => some (.either short long)
  | some short, none => some (.only short)
  | none, some long => some (.only long)
  | none, none => none

/-- The opcodes that an operation offers for a memory operand of the given mode. -/
def Operation.access? (op : Operation) : Mode → Option Access
  | .immediate => (op.opcode? .immediate).map .only
  | .indexedIndirect => (op.opcode? .indirectX).map .only
  | .indirectIndexed => (op.opcode? .indirectY).map .only
  | .direct => Access.ofPair? (op.opcode? .zeroPage) (op.opcode? .absolute)
  | .indexedByX => Access.ofPair? (op.opcode? .zeroPageX) (op.opcode? .absoluteX)
  | .indexedByY => Access.ofPair? (op.opcode? .zeroPageY) (op.opcode? .absoluteY)
  | .label | .indirectLabel | .builtin _ => none

/-- The opcode of an operation in a form has that form. -/
theorem Operation.form_of_opcode? {op : Operation} {form : Form} {o : Opcode}
    (h : op.opcode? form = some o) : o.form = form := by
  unfold Operation.opcode? at h
  split at h
  · cases h
    rfl
  · cases h

/-- Where there is a choice, it is one between an operand of one byte and one of two. -/
theorem Operation.operandSize_of_access? {op : Operation} {mode : Mode} {short long : Opcode}
    (h : op.access? mode = some (.either short long)) :
    short.form.operandSize = 1 ∧ long.form.operandSize = 2 := by
  have key {z a : Form}
      (h : Access.ofPair? (op.opcode? z) (op.opcode? a) = some (.either short long)) :
      short.form = z ∧ long.form = a := by
    unfold Access.ofPair? at h
    split at h <;> cases h
    rename_i hz ha
    exact ⟨form_of_opcode? hz, form_of_opcode? ha⟩
  cases mode <;> simp only [Operation.access?, Option.map_eq_some_iff, reduceCtorEq, and_false,
    exists_false] at h
  all_goals
    obtain ⟨hs, hl⟩ := key h
    rw [hs, hl]
    exact ⟨rfl, rfl⟩

namespace Shape

/-- An operation on a memory operand, with the objection to operands it cannot take. -/
def onMemory (op : Operation) (mode : Mode) (side : Side) (objection : Objection)
    (lead : Option Opcode := none) : Except Objection Shape :=
  match op.access? mode with
  | some access => .ok (.memory lead access side)
  | none => .error objection

/-- An operation without operand bytes. -/
def alone (op : Operation) (supported : (op.code? .implied).isSome = true := by decide) :
    Except Objection Shape :=
  .ok (.implied { operation := op, form := .implied, supported })

/-- The complement of register `a`. -/
def complement : List Instruction :=
  [{ opcode := { operation := .eor, form := .immediate }, operand := [0xFF] }]

/-- The negative of register `a`: its complement plus one. -/
def negation : List Instruction :=
  [{ opcode := { operation := .clc, form := .implied } },
    { opcode := { operation := .eor, form := .immediate }, operand := [0xFF] },
    { opcode := { operation := .adc, form := .immediate }, operand := [0x01] }]

end Shape

/-! ## The table -/

namespace CommandKind

open Shape

/-- The entry for `get`. -/
def shapeOfGet (receiver argument : Mode) : Except Objection Shape :=
  match receiver, argument with
  | .builtin .a, .builtin .x => alone .txa
  | .builtin .a, .builtin .y => alone .tya
  | .builtin .a, mode => onMemory .lda mode .argument .getA
  | .builtin .x, .builtin .a => alone .tax
  | .builtin .x, .builtin .s => alone .tsx
  | .builtin .x, mode => onMemory .ldx mode .argument .getX
  | .builtin .y, .builtin .a => alone .tay
  | .builtin .y, mode => onMemory .ldy mode .argument .getY
  | .builtin .s, .builtin .x => alone .txs
  | .builtin .s, _ => .error .toS
  | _, _ => .error .getReceiver

/-- The entry for `put`. -/
def shapeOfPut (receiver argument : Mode) : Except Objection Shape :=
  match receiver, argument with
  | .builtin .a, .builtin .x => alone .tax
  | .builtin .a, .builtin .y => alone .tay
  | .builtin .a, mode => onMemory .sta mode .argument .putA
  | .builtin .x, .builtin .a => alone .txa
  | .builtin .x, .builtin .s => alone .txs
  | .builtin .x, mode => onMemory .stx mode .argument .putX
  | .builtin .y, .builtin .a => alone .tya
  | .builtin .y, mode => onMemory .sty mode .argument .putY
  | .builtin .s, .builtin .x => alone .tsx
  | .builtin .s, _ => .error .toS
  | _, _ => .error .putReceiver

/-- The entry for `cmp`. -/
def shapeOfCmp (receiver argument : Mode) : Except Objection Shape :=
  match receiver with
  | .builtin .a => onMemory .cmp argument .argument .aluArgument
  | .builtin .x => onMemory .cpx argument .argument .cmpIndex
  | .builtin .y => onMemory .cpy argument .argument .cmpIndex
  | _ => .error .cmpReceiver

/-- The entry for a command that works on register `a`. -/
def shapeOnA (receiver argument : Mode) (op : Operation) (objection : Objection)
    (lead : Option Opcode := none) : Except Objection Shape :=
  if receiver = .builtin .a then onMemory op argument .argument objection lead
  else .error .aReceiver

/-- The entry for `set`. -/
def shapeOfSet (receiver argument : Mode) : Except Objection Shape :=
  match receiver, argument with
  | .builtin .p, .builtin .carry => alone .sec
  | .builtin .p, .builtin .interrupt => alone .sei
  | .builtin .p, .builtin .decimal => alone .sed
  | .builtin .p, _ => .error .setArgument
  | _, _ => .error .pReceiver

/-- The entry for `unset`. -/
def shapeOfUnset (receiver argument : Mode) : Except Objection Shape :=
  match receiver, argument with
  | .builtin .p, .builtin .carry => alone .clc
  | .builtin .p, .builtin .interrupt => alone .cli
  | .builtin .p, .builtin .decimal => alone .cld
  | .builtin .p, .builtin .overflow => alone .clv
  | .builtin .p, _ => .error .unsetArgument
  | _, _ => .error .pReceiver

/-- The entry for a command that shifts or rotates. -/
def shapeOfShift (receiver : Mode) (op : Operation)
    (supported : (op.code? .accumulator).isSome = true := by decide) : Except Objection Shape :=
  if receiver = .builtin .a then
    .ok (.implied { operation := op, form := .accumulator, supported })
  else onMemory op receiver .receiver .shiftReceiver

/-- The entry for a command with an argument. -/
def shapeWith (kind : CommandKind) (receiver argument : Mode) : Except Objection Shape :=
  let clc : Opcode := { operation := .clc, form := .implied }
  let sec : Opcode := { operation := .sec, form := .implied }
  match kind with
  | get => shapeOfGet receiver argument
  | put => shapeOfPut receiver argument
  | cmp => shapeOfCmp receiver argument
  | add => shapeOnA receiver argument .adc .aluArgument (some clc)
  | addc => shapeOnA receiver argument .adc .aluArgument
  | sub => shapeOnA receiver argument .sbc .aluArgument (some sec)
  | subc => shapeOnA receiver argument .sbc .aluArgument
  | or => shapeOnA receiver argument .ora .aluArgument
  | and => shapeOnA receiver argument .and .aluArgument
  | xor => shapeOnA receiver argument .eor .aluArgument
  | bit => shapeOnA receiver argument .bit .bitArgument
  | set => shapeOfSet receiver argument
  | unset => shapeOfUnset receiver argument
  | inc | dec | not | neg | shl | shr | rol | ror | push | pull => .error .noArgument

/-- The entry for a command without an argument. -/
def shapeAlone (kind : CommandKind) (receiver : Mode) : Except Objection Shape :=
  match kind, receiver with
  | inc, .builtin .x => alone .inx
  | inc, .builtin .y => alone .iny
  | inc, mode => onMemory .inc mode .receiver .stepReceiver
  | dec, .builtin .x => alone .dex
  | dec, .builtin .y => alone .dey
  | dec, mode => onMemory .dec mode .receiver .stepReceiver
  | not, .builtin .a => .ok (.sequence complement)
  | neg, .builtin .a => .ok (.sequence negation)
  | not, _ => .error .aReceiver
  | neg, _ => .error .aReceiver
  | shl, mode => shapeOfShift mode .asl
  | shr, mode => shapeOfShift mode .lsr
  | rol, mode => shapeOfShift mode .rol
  | ror, mode => shapeOfShift mode .ror
  | push, .builtin .a => alone .pha
  | push, .builtin .p => alone .php
  | pull, .builtin .a => alone .pla
  | pull, .builtin .p => alone .plp
  | push, _ => .error .stackReceiver
  | pull, _ => .error .stackReceiver
  | _, _ => .error .needsArgument

/-- The entry of the table for a command in normal form. -/
def shape (kind : CommandKind) (receiver : Mode) (argument : Option Mode) :
    Except Objection Shape :=
  match kind.takesArgument, argument with
  | true, some mode => kind.shapeWith receiver mode
  | true, none => .error .needsArgument
  | false, some _ => .error .noArgument
  | false, none => kind.shapeAlone receiver

end CommandKind

end Cartridge
