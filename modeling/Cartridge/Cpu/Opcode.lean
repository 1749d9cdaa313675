/-!
# Opcodes

An opcode is an operation of the processor in one of the forms that the processor has for it. The
table `Operation.codes` is the only place where operations, forms and opcode bytes meet: the byte
of an opcode, the forms an operation has and the reading of a byte all come from it.

The form also fixes how many operand bytes follow the opcode byte, so the length of an
instruction never has to be kept beside its opcode.

Main results:

- Theorem `Opcode.code?_eq`: an opcode's byte is its entry in the table.
- Theorem `Opcode.ofByte?_byte`: an opcode is found again under its byte, so bytes are distinct.
-/

namespace Cartridge

/-- What an instruction does. -/
inductive Operation where
  -- Transfers between registers
  | tax | tay | tsx | txa | txs | tya
  -- Loads and stores
  | lda | ldx | ldy | sta | stx | sty
  -- Comparisons
  | cmp | cpx | cpy | bit
  -- Arithmetic and logic
  | adc | sbc | ora | and | eor
  -- Increment and decrement
  | inx | iny | inc | dex | dey | dec
  -- Shifts and rotations
  | asl | lsr | rol | ror
  -- Stack
  | pha | php | pla | plp
  -- Status flags
  | sec | sei | sed | clc | cli | cld | clv
  -- Control flow
  | bcs | bcc | beq | bne | bmi | bpl | bvs | bvc | jmp | jsr | rts | rti | nop
deriving DecidableEq, Repr

/-- How an instruction finds its operand. -/
inductive Form where
  /-- No operand. -/
  | implied
  /-- The operand is register `a`. -/
  | accumulator
  /-- The operand byte is the value. -/
  | immediate
  /-- The address is stored in the zero page, at the operand byte plus `x`. -/
  | indirectX
  /-- The address stored in the zero page at the operand byte, plus `y`. -/
  | indirectY
  /-- The operand byte is an address in the zero page. -/
  | zeroPage
  /-- The operand word is an address. -/
  | absolute
  /-- The operand byte plus `x`, within the zero page. -/
  | zeroPageX
  /-- The operand word plus `x`. -/
  | absoluteX
  /-- The operand byte plus `y`, within the zero page. -/
  | zeroPageY
  /-- The operand word plus `y`. -/
  | absoluteY
  /-- The operand byte is a signed displacement from the next instruction. -/
  | relative
  /-- The operand word is the address to go to. -/
  | target
  /-- The operand word is where the address to go to is stored. -/
  | pointer
deriving DecidableEq, Repr

namespace Form

/-- How many operand bytes follow the opcode byte. -/
def operandSize : Form → Nat
  | implied | accumulator => 0
  | immediate | indirectX | indirectY | zeroPage | zeroPageX | zeroPageY | relative => 1
  | absolute | absoluteX | absoluteY | target | pointer => 2

/-- What the form adds to the name of an operation. -/
def suffix : Form → String
  | implied | relative | target => ""
  | accumulator => "_a"
  | immediate => "_imm"
  | indirectX => "_ind_x"
  | indirectY => "_ind_y"
  | zeroPage => "_zp"
  | absolute => "_abs"
  | zeroPageX => "_zp_x"
  | absoluteX => "_abs_x"
  | zeroPageY => "_zp_y"
  | absoluteY => "_abs_y"
  | pointer => "_ind"

end Form

namespace Operation

/-- Every operation. -/
def all : List Operation :=
  [tax, tay, tsx, txa, txs, tya, lda, ldx, ldy, sta, stx, sty, cmp, cpx, cpy, bit, adc, sbc,
   ora, and, eor, inx, iny, inc, dex, dey, dec, asl, lsr, rol, ror, pha, php, pla, plp, sec,
   sei, sed, clc, cli, cld, clv, bcs, bcc, beq, bne, bmi, bpl, bvs, bvc, jmp, jsr, rts, rti,
   nop]

/-- The name of the operation. -/
def name : Operation → String
  | tax => "tax"
  | tay => "tay"
  | tsx => "tsx"
  | txa => "txa"
  | txs => "txs"
  | tya => "tya"
  | lda => "lda"
  | ldx => "ldx"
  | ldy => "ldy"
  | sta => "sta"
  | stx => "stx"
  | sty => "sty"
  | cmp => "cmp"
  | cpx => "cpx"
  | cpy => "cpy"
  | bit => "bit"
  | adc => "adc"
  | sbc => "sbc"
  | ora => "ora"
  | and => "and"
  | eor => "eor"
  | inx => "inx"
  | iny => "iny"
  | inc => "inc"
  | dex => "dex"
  | dey => "dey"
  | dec => "dec"
  | asl => "asl"
  | lsr => "lsr"
  | rol => "rol"
  | ror => "ror"
  | pha => "pha"
  | php => "php"
  | pla => "pla"
  | plp => "plp"
  | sec => "sec"
  | sei => "sei"
  | sed => "sed"
  | clc => "clc"
  | cli => "cli"
  | cld => "cld"
  | clv => "clv"
  | bcs => "bcs"
  | bcc => "bcc"
  | beq => "beq"
  | bne => "bne"
  | bmi => "bmi"
  | bpl => "bpl"
  | bvs => "bvs"
  | bvc => "bvc"
  | jmp => "jmp"
  | jsr => "jsr"
  | rts => "rts"
  | rti => "rti"
  | nop => "nop"

/-- The forms the processor has for an operation, each with its opcode byte. -/
def codes : Operation → List (Form × UInt8)
  | tax => [(.implied, 0xAA)]
  | tay => [(.implied, 0xA8)]
  | tsx => [(.implied, 0xBA)]
  | txa => [(.implied, 0x8A)]
  | txs => [(.implied, 0x9A)]
  | tya => [(.implied, 0x98)]
  | lda => [(.immediate, 0xA9), (.indirectX, 0xA1), (.indirectY, 0xB1), (.zeroPage, 0xA5),
      (.absolute, 0xAD), (.zeroPageX, 0xB5), (.absoluteX, 0xBD), (.absoluteY, 0xB9)]
  | ldx => [(.immediate, 0xA2), (.zeroPage, 0xA6), (.absolute, 0xAE), (.zeroPageY, 0xB6),
      (.absoluteY, 0xBE)]
  | ldy => [(.immediate, 0xA0), (.zeroPage, 0xA4), (.absolute, 0xAC), (.zeroPageX, 0xB4),
      (.absoluteX, 0xBC)]
  | sta => [(.indirectX, 0x81), (.indirectY, 0x91), (.zeroPage, 0x85), (.absolute, 0x8D),
      (.zeroPageX, 0x95), (.absoluteX, 0x9D), (.absoluteY, 0x99)]
  | stx => [(.zeroPage, 0x86), (.absolute, 0x8E), (.zeroPageY, 0x96)]
  | sty => [(.zeroPage, 0x84), (.absolute, 0x8C), (.zeroPageX, 0x94)]
  | cmp => [(.immediate, 0xC9), (.indirectX, 0xC1), (.indirectY, 0xD1), (.zeroPage, 0xC5),
      (.absolute, 0xCD), (.zeroPageX, 0xD5), (.absoluteX, 0xDD), (.absoluteY, 0xD9)]
  | cpx => [(.immediate, 0xE0), (.zeroPage, 0xE4), (.absolute, 0xEC)]
  | cpy => [(.immediate, 0xC0), (.zeroPage, 0xC4), (.absolute, 0xCC)]
  | bit => [(.zeroPage, 0x24), (.absolute, 0x2C)]
  | adc => [(.immediate, 0x69), (.indirectX, 0x61), (.indirectY, 0x71), (.zeroPage, 0x65),
      (.absolute, 0x6D), (.zeroPageX, 0x75), (.absoluteX, 0x7D), (.absoluteY, 0x79)]
  | sbc => [(.immediate, 0xE9), (.indirectX, 0xE1), (.indirectY, 0xF1), (.zeroPage, 0xE5),
      (.absolute, 0xED), (.zeroPageX, 0xF5), (.absoluteX, 0xFD), (.absoluteY, 0xF9)]
  | ora => [(.immediate, 0x09), (.indirectX, 0x01), (.indirectY, 0x11), (.zeroPage, 0x05),
      (.absolute, 0x0D), (.zeroPageX, 0x15), (.absoluteX, 0x1D), (.absoluteY, 0x19)]
  | and => [(.immediate, 0x29), (.indirectX, 0x21), (.indirectY, 0x31), (.zeroPage, 0x25),
      (.absolute, 0x2D), (.zeroPageX, 0x35), (.absoluteX, 0x3D), (.absoluteY, 0x39)]
  | eor => [(.immediate, 0x49), (.indirectX, 0x41), (.indirectY, 0x51), (.zeroPage, 0x45),
      (.absolute, 0x4D), (.zeroPageX, 0x55), (.absoluteX, 0x5D), (.absoluteY, 0x59)]
  | inx => [(.implied, 0xE8)]
  | iny => [(.implied, 0xC8)]
  | inc => [(.zeroPage, 0xE6), (.absolute, 0xEE), (.zeroPageX, 0xF6), (.absoluteX, 0xFE)]
  | dex => [(.implied, 0xCA)]
  | dey => [(.implied, 0x88)]
  | dec => [(.zeroPage, 0xC6), (.absolute, 0xCE), (.zeroPageX, 0xD6), (.absoluteX, 0xDE)]
  | asl => [(.accumulator, 0x0A), (.zeroPage, 0x06), (.absolute, 0x0E), (.zeroPageX, 0x16),
      (.absoluteX, 0x1E)]
  | lsr => [(.accumulator, 0x4A), (.zeroPage, 0x46), (.absolute, 0x4E), (.zeroPageX, 0x56),
      (.absoluteX, 0x5E)]
  | rol => [(.accumulator, 0x2A), (.zeroPage, 0x26), (.absolute, 0x2E), (.zeroPageX, 0x36),
      (.absoluteX, 0x3E)]
  | ror => [(.accumulator, 0x6A), (.zeroPage, 0x66), (.absolute, 0x6E), (.zeroPageX, 0x76),
      (.absoluteX, 0x7E)]
  | pha => [(.implied, 0x48)]
  | php => [(.implied, 0x08)]
  | pla => [(.implied, 0x68)]
  | plp => [(.implied, 0x28)]
  | sec => [(.implied, 0x38)]
  | sei => [(.implied, 0x78)]
  | sed => [(.implied, 0xF8)]
  | clc => [(.implied, 0x18)]
  | cli => [(.implied, 0x58)]
  | cld => [(.implied, 0xD8)]
  | clv => [(.implied, 0xB8)]
  | bcs => [(.relative, 0xB0)]
  | bcc => [(.relative, 0x90)]
  | beq => [(.relative, 0xF0)]
  | bne => [(.relative, 0xD0)]
  | bmi => [(.relative, 0x30)]
  | bpl => [(.relative, 0x10)]
  | bvs => [(.relative, 0x70)]
  | bvc => [(.relative, 0x50)]
  | jmp => [(.target, 0x4C), (.pointer, 0x6C)]
  | jsr => [(.target, 0x20)]
  | rts => [(.implied, 0x60)]
  | rti => [(.implied, 0x40)]
  | nop => [(.implied, 0xEA)]

/-- The opcode byte of an operation in a form, if the processor has it. -/
def code? (op : Operation) (form : Form) : Option UInt8 :=
  op.codes.lookup form

/-- The operations that can take a memory operand, each with a family of forms. -/
def withMemoryOperand : List Operation :=
  [lda, cmp, adc, sbc, ora, and, eor, sta, ldx, ldy, stx, sty, cpx, cpy, bit, inc, dec, asl, lsr,
    rol, ror]

/-- The operation of the given name. -/
def ofName? (text : String) : Option Operation :=
  all.find? fun op => op.name == text

end Operation

/-- An operation in a form that the processor has for it. -/
structure Opcode where
  operation : Operation
  form : Form
  supported : (operation.code? form).isSome = true := by decide
deriving DecidableEq, Repr

namespace Operation

/-- The opcode of an operation in a form, if the processor has it. -/
def opcode? (op : Operation) (form : Form) : Option Opcode :=
  if h : (op.code? form).isSome = true then some ⟨op, form, h⟩ else none

end Operation

namespace Opcode

/-- The byte by which the processor recognizes the opcode. -/
def byte (o : Opcode) : UInt8 :=
  (o.operation.code? o.form).get o.supported

/-- The name of the operation followed by that of the form. -/
def mnemonic (o : Opcode) : String :=
  o.operation.name ++ o.form.suffix

/-- Every opcode. -/
def all : List Opcode :=
  Operation.all.flatMap fun op => op.codes.filterMap fun entry => op.opcode? entry.1

/-- The opcode that a byte stands for. -/
def ofByte? (b : UInt8) : Option Opcode :=
  all.find? fun o => o.byte == b

/-- An opcode's byte is its entry in the table. -/
theorem code?_eq (o : Opcode) : o.operation.code? o.form = some o.byte :=
  (Option.some_get o.supported).symm

/-- The list of opcodes is complete. -/
theorem mem_all (o : Opcode) : o ∈ all := by
  obtain ⟨op, form, h⟩ := o
  have key : op.opcode? form = some ⟨op, form, h⟩ := by simp [Operation.opcode?, h]
  refine List.mem_flatMap.2 ⟨op, by cases op <;> decide, List.mem_filterMap.2 ?_⟩
  have found : ∃ entry ∈ op.codes, entry.1 = form := by
    obtain ⟨entry, hmem, same⟩ := List.lookup_isSome_iff.1 h
    exact ⟨entry, hmem, (eq_of_beq same).symm⟩
  obtain ⟨entry, hmem, rfl⟩ := found
  exact ⟨entry, hmem, key⟩

/-- An opcode is found again under its byte, so no two opcodes share a byte. -/
@[simp] theorem ofByte?_byte (o : Opcode) : ofByte? o.byte = some o := by
  have table : ∀ o ∈ all, ofByte? o.byte = some o := by decide +kernel
  exact table o (mem_all o)

end Opcode

end Cartridge
