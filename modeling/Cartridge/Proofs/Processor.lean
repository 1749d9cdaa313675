import Cartridge.Cpu.Opcode
import Cartridge.Rom.Bank

/-!
# The processor

The processor as its manual describes it: four registers, six status flags and a memory of 65536
cells. What an opcode byte means is read off its bit fields, and not from the table by which code is
written. Sums are binary whatever the decimal flag says. Jumps are left out: code runs straight on.

Main definitions:

- `Processor`, `Status`: the state of the machine.
- `Place`: what an instruction reads or writes, a register or a cell.
- `Form.place?`: the place that an addressing form stands for.
- `Processor.decode`: the instruction that an opcode byte stands for.
- `Processor.step`, `Processor.run`: the execution of instructions from memory.

Main results:

- Theorem `Processor.decode_byte`: the byte that is written for an opcode is decoded to it again.
- Theorem `Processor.step_of_holds`: where an instruction stands in memory, it is executed.
-/

namespace Cartridge

/-! ## The state of the machine -/

/-- The status flags. -/
structure Status where
  carry : Bool
  zero : Bool
  interrupt : Bool
  decimal : Bool
  overflow : Bool
  negative : Bool
deriving DecidableEq, Repr

namespace Status

/-- The flags as they are pushed: the two bits that are no flags are set. -/
def toByte (status : Status) : UInt8 :=
  let bit (b : Bool) (weight : UInt8) : UInt8 := if b then weight else 0
  bit status.negative 0x80 ||| bit status.overflow 0x40 ||| 0x30 ||| bit status.decimal 0x08 |||
    bit status.interrupt 0x04 ||| bit status.zero 0x02 ||| bit status.carry 0x01

/-- The flags as they are pulled. -/
def ofByte (b : UInt8) : Status where
  carry := b.toNat.testBit 0
  zero := b.toNat.testBit 1
  interrupt := b.toNat.testBit 2
  decimal := b.toNat.testBit 3
  overflow := b.toNat.testBit 6
  negative := b.toNat.testBit 7

end Status

/-- The state of the processor, without the program counter. -/
structure Processor where
  a : UInt8
  x : UInt8
  y : UInt8
  /-- The stack pointer. -/
  s : UInt8
  status : Status
  memory : UInt16 → UInt8

/-- What an instruction can read or write. -/
inductive Place where
  | a
  | x
  | y
  | s
  | status
  /-- A value in the instruction itself, which can only be read. -/
  | literal (value : UInt8)
  | cell (address : UInt16)
deriving DecidableEq, Repr

namespace Place

/-- What is found at a place. -/
def read : Place → Processor → UInt8
  | a, p => p.a
  | x, p => p.x
  | y, p => p.y
  | s, p => p.s
  | status, p => p.status.toByte
  | literal value, _ => value
  | cell address, p => p.memory address

/-- The state after a value was put at a place. -/
def write : Place → UInt8 → Processor → Processor
  | a, v, p => { p with a := v }
  | x, v, p => { p with x := v }
  | y, v, p => { p with y := v }
  | s, v, p => { p with s := v }
  | status, v, p => { p with status := .ofByte v }
  | literal _, _, p => p
  | cell address, v, p =>
    { p with memory := fun other => if other = address then v else p.memory other }

end Place

namespace Processor

/-! ## Addressing -/

/-- The word with the given low and high byte. -/
def word (low high : UInt8) : UInt16 :=
  UInt16.ofNat (low.toNat + 256 * high.toNat)

/-- The address that is stored in the zero page. Its high byte does not leave the zero page. -/
def pointer (p : Processor) (base : UInt8) : UInt16 :=
  word (p.memory base.toUInt16) (p.memory (base + 1).toUInt16)

end Processor

namespace Form

/-- The number of bytes of an instruction. -/
def length : Form → Nat
  | implied | accumulator => 1
  | immediate | indirectX | indirectY | zeroPage | zeroPageX | zeroPageY | relative => 2
  | absolute | absoluteX | absoluteY | target | pointer => 3

/-- The place that an addressing form stands for, given the operand of the instruction. -/
def place? (form : Form) (operand : UInt16) (p : Processor) : Option Place :=
  match form with
  | accumulator => some .a
  | immediate => some (.literal operand.toUInt8)
  | zeroPage => some (.cell operand.toUInt8.toUInt16)
  | zeroPageX => some (.cell (operand.toUInt8 + p.x).toUInt16)
  | zeroPageY => some (.cell (operand.toUInt8 + p.y).toUInt16)
  | absolute => some (.cell operand)
  | absoluteX => some (.cell (operand + p.x.toUInt16))
  | absoluteY => some (.cell (operand + p.y.toUInt16))
  | indirectX => some (.cell (p.pointer (operand.toUInt8 + p.x)))
  | indirectY => some (.cell (p.pointer operand.toUInt8 + p.y.toUInt16))
  | implied | relative | target | pointer => none

end Form

/-! ## What instructions do -/

namespace Processor

/-- Shows a result in the flags. -/
def mark (v : UInt8) (p : Processor) : Processor :=
  { p with status := { p.status with zero := v == 0, negative := v.toNat.testBit 7 } }

/-- Takes a value over and shows it in the flags. -/
def load (target source : Place) (p : Processor) : Processor :=
  (target.write (source.read p) p).mark (source.read p)

/-- Takes a value over without a trace in the flags. -/
def store (source target : Place) (p : Processor) : Processor :=
  target.write (source.read p) p

/-- Makes register `a` the result of an operation on it. -/
def operate (f : UInt8 → UInt8 → UInt8) (m : Place) (p : Processor) : Processor :=
  let result := f p.a (m.read p)
  { p with a := result }.mark result

/-- Adds a value and the carry flag to register `a`. -/
def addWithCarry (v : UInt8) (p : Processor) : Processor :=
  let sum := p.a.toNat + v.toNat + p.status.carry.toNat
  let result := UInt8.ofNat sum
  -- The sum overflows if its sign is neither that of register `a` nor that of the value.
  let overflow := ((p.a ^^^ result) &&& (v ^^^ result)).toNat.testBit 7
  { p with a := result, status := { p.status with carry := decide (256 ≤ sum), overflow } }.mark
    result

/-- Compares a register with a value. -/
def compare (r m : Place) (p : Processor) : Processor :=
  { p with status := { p.status with carry := decide (m.read p ≤ r.read p) } }.mark
    (r.read p - m.read p)

/-- Compares the bits of register `a` with those of a value. -/
def testBits (m : Place) (p : Processor) : Processor :=
  let v := m.read p
  { p with status := { p.status with
    zero := p.a &&& v == 0, overflow := v.toNat.testBit 6, negative := v.toNat.testBit 7 } }

/-- Replaces a value by one computed from it. -/
def modify (f : UInt8 → UInt8) (m : Place) (p : Processor) : Processor :=
  (m.write (f (m.read p)) p).mark (f (m.read p))

/-- Shifts a value to the left. The bit that leaves it goes to the carry flag. -/
def shiftLeft (entering : Bool) (m : Place) (p : Processor) : Processor :=
  let v := m.read p
  let result := v <<< 1 ||| entering.toUInt8
  let q := m.write result p
  { q with status := { q.status with carry := v.toNat.testBit 7 } }.mark result

/-- Shifts a value to the right. The bit that leaves it goes to the carry flag. -/
def shiftRight (entering : Bool) (m : Place) (p : Processor) : Processor :=
  let v := m.read p
  let result := v >>> 1 ||| entering.toUInt8 <<< 7
  let q := m.write result p
  { q with status := { q.status with carry := v.toNat.testBit 0 } }.mark result

/-- The cell to which the stack pointer points. -/
def stackCell (s : UInt8) : Place :=
  .cell (0x100 + s.toUInt16)

/-- Pushes a value. -/
def push (source : Place) (p : Processor) : Processor :=
  { (stackCell p.s).write (source.read p) p with s := p.s - 1 }

/-- Pulls a value. -/
def pull (target : Place) (p : Processor) : Processor :=
  target.write ((stackCell (p.s + 1)).read p) { p with s := p.s + 1 }

/-- Changes the flags. -/
def onStatus (f : Status → Status) (p : Processor) : Processor :=
  { p with status := f p.status }

end Processor

namespace Operation

open Processor

/-- What an operation without an operand does. -/
def alone? : Operation → Option (Processor → Processor)
  | tax => some (load .x .a)
  | tay => some (load .y .a)
  | tsx => some (load .x .s)
  | txa => some (load .a .x)
  | txs => some (store .x .s)
  | tya => some (load .a .y)
  | inx => some (Processor.modify (· + 1) .x)
  | iny => some (Processor.modify (· + 1) .y)
  | dex => some (Processor.modify (· - 1) .x)
  | dey => some (Processor.modify (· - 1) .y)
  | pha => some (push .a)
  | php => some (push .status)
  | pla => some fun p => (pull .a p).mark (pull .a p).a
  | plp => some (pull .status)
  | sec => some (onStatus fun status => { status with carry := true })
  | sei => some (onStatus fun status => { status with interrupt := true })
  | sed => some (onStatus fun status => { status with decimal := true })
  | clc => some (onStatus fun status => { status with carry := false })
  | cli => some (onStatus fun status => { status with interrupt := false })
  | cld => some (onStatus fun status => { status with decimal := false })
  | clv => some (onStatus fun status => { status with overflow := false })
  | nop => some id
  | _ => none

/-- What an operation does to the place that its operand stands for. -/
def onPlace? : Operation → Option (Place → Processor → Processor)
  | lda => some (load .a)
  | ldx => some (load .x)
  | ldy => some (load .y)
  | sta => some (store .a)
  | stx => some (store .x)
  | sty => some (store .y)
  | cmp => some (Processor.compare .a)
  | cpx => some (Processor.compare .x)
  | cpy => some (Processor.compare .y)
  | bit => some testBits
  | adc => some fun m p => p.addWithCarry (m.read p)
  | sbc => some fun m p => p.addWithCarry (~~~ m.read p)
  | ora => some (operate (· ||| ·))
  | and => some (operate (· &&& ·))
  | eor => some (operate (· ^^^ ·))
  | inc => some (Processor.modify (· + 1))
  | dec => some (Processor.modify (· - 1))
  | asl => some (Processor.shiftLeft false)
  | lsr => some (Processor.shiftRight false)
  | rol => some fun m p => Processor.shiftLeft p.status.carry m p
  | ror => some fun m p => Processor.shiftRight p.status.carry m p
  | _ => none

/-- What an instruction does, unless it jumps. -/
def execute (op : Operation) (form : Form) (operand : UInt16) (p : Processor) :
    Option Processor :=
  match form with
  | .implied => op.alone?.map fun f => f p
  | _ => op.onPlace?.bind fun f => (form.place? operand p).map fun place => f place p

end Operation

/-! ## Execution from memory -/

namespace Processor

/-- The instructions whose bytes end in the bits 00, by their row and column. -/
def decodeControl (row column : Nat) : Option (Operation × Form) :=
  match column, row with
  | 0, 1 => some (.jsr, .target)
  | 0, 2 => some (.rti, .implied)
  | 0, 3 => some (.rts, .implied)
  | 0, 5 => some (.ldy, .immediate)
  | 0, 6 => some (.cpy, .immediate)
  | 0, 7 => some (.cpx, .immediate)
  | 1, 1 => some (.bit, .zeroPage)
  | 1, 4 => some (.sty, .zeroPage)
  | 1, 5 => some (.ldy, .zeroPage)
  | 1, 6 => some (.cpy, .zeroPage)
  | 1, 7 => some (.cpx, .zeroPage)
  | 2, row => ([.php, .plp, .pha, .pla, .dey, .tay, .iny, .inx] : List Operation)[row]?.map
      fun op => (op, .implied)
  | 3, 1 => some (.bit, .absolute)
  | 3, 2 => some (.jmp, .target)
  | 3, 3 => some (.jmp, .pointer)
  | 3, 4 => some (.sty, .absolute)
  | 3, 5 => some (.ldy, .absolute)
  | 3, 6 => some (.cpy, .absolute)
  | 3, 7 => some (.cpx, .absolute)
  | 4, row => ([.bpl, .bmi, .bvc, .bvs, .bcc, .bcs, .bne, .beq] : List Operation)[row]?.map
      fun op => (op, .relative)
  | 5, 4 => some (.sty, .zeroPageX)
  | 5, 5 => some (.ldy, .zeroPageX)
  | 6, row => ([.clc, .sec, .cli, .sei, .tya, .clv, .cld, .sed] : List Operation)[row]?.map
      fun op => (op, .implied)
  | 7, 5 => some (.ldy, .absoluteX)
  | _, _ => none

/-- The instructions whose bytes end in the bits 01. There is no store to an immediate value. -/
def decodeArithmetic (row column : Nat) : Option (Operation × Form) := do
  let op ← ([.ora, .and, .eor, .adc, .sta, .lda, .cmp, .sbc] : List Operation)[row]?
  let form ← ([.indirectX, .zeroPage, .immediate, .absolute, .indirectY, .zeroPageX, .absoluteY,
    .absoluteX] : List Form)[column]?
  if op = .sta ∧ form = .immediate then none else some (op, form)

/-- The instructions whose bytes end in the bits 10. Where register `x` takes part, register `y` is
the index. -/
def decodeModify (row column : Nat) : Option (Operation × Form) := do
  let op ← ([.asl, .rol, .lsr, .ror, .stx, .ldx, .dec, .inc] : List Operation)[row]?
  match column, op with
  | 0, .ldx => some (.ldx, .immediate)
  | 1, op => some (op, .zeroPage)
  | 2, .stx => some (.txa, .implied)
  | 2, .ldx => some (.tax, .implied)
  | 2, .dec => some (.dex, .implied)
  | 2, .inc => some (.nop, .implied)
  | 2, op => some (op, .accumulator)
  | 3, op => some (op, .absolute)
  | 5, .stx => some (.stx, .zeroPageY)
  | 5, .ldx => some (.ldx, .zeroPageY)
  | 5, op => some (op, .zeroPageX)
  | 6, .stx => some (.txs, .implied)
  | 6, .ldx => some (.tsx, .implied)
  | 7, .stx => none
  | 7, .ldx => some (.ldx, .absoluteY)
  | 7, op => some (op, .absoluteX)
  | _, _ => none

/-- The instruction that an opcode byte stands for. Its upper three bits are the row of a table, the
next three the column, and the last two choose the table. -/
def decode (b : UInt8) : Option (Operation × Form) :=
  let row := b.toNat / 32
  let column := b.toNat / 4 % 8
  match b.toNat % 4 with
  | 0 => decodeControl row column
  | 1 => decodeArithmetic row column
  | 2 => decodeModify row column
  | _ => none

/-- The byte that is written for an opcode is decoded to it again. -/
theorem decode_byte (o : Opcode) : decode o.byte = some (o.operation, o.form) := by
  have table : ∀ o ∈ Opcode.all, decode o.byte = some (o.operation, o.form) := by decide +kernel
  exact table o o.mem_all

/-- The operand of the instruction at an address. -/
def operand (form : Form) (pc : UInt16) (p : Processor) : UInt16 :=
  match form.length with
  | 2 => (p.memory (pc + 1)).toUInt16
  | 3 => word (p.memory (pc + 1)) (p.memory (pc + 2))
  | _ => 0

/-- Executes the instruction at an address, and tells the address of the next one. -/
def step (pc : UInt16) (p : Processor) : Option (UInt16 × Processor) :=
  (decode (p.memory pc)).bind fun instruction =>
    (instruction.1.execute instruction.2 (operand instruction.2 pc p) p).map fun q =>
      (pc + .ofNat instruction.2.length, q)

/-- Executes a number of instructions from an address on. -/
def run : Nat → UInt16 → Processor → Option (UInt16 × Processor)
  | 0, pc, p => some (pc, p)
  | n + 1, pc, p => (step pc p).bind fun next => run n next.1 next.2

/-- The bytes stand in memory from an address on. -/
def Holds (p : Processor) (pc : UInt16) : List UInt8 → Prop
  | [] => True
  | b :: rest => p.memory pc = b ∧ p.Holds (pc + 1) rest

variable {p : Processor} {pc : UInt16}

/-- The bytes of a word are put together again. -/
theorem word_littleEndian (v : UInt16) : word v.toUInt8 (v >>> 8).toUInt8 = v := by
  have hv := v.toNat_lt
  rw [← UInt16.toNat_inj, word, UInt16.toNat_ofNat', UInt16.toNat_toUInt8, UInt16.toNat_toUInt8,
    UInt16.toNat_shiftRight]
  simp only [UInt16.reduceToNat, Nat.reduceMod, Nat.shiftRight_eq_div_pow]
  omega

/-- A small word is its low byte. -/
theorem toUInt16_toUInt8 {v : UInt16} (h : v ≤ 0xFF) : v.toUInt8.toUInt16 = v := by
  have hv : v.toNat ≤ 0xFF := h
  rw [← UInt16.toNat_inj, UInt8.toNat_toUInt16, UInt16.toNat_toUInt8]
  omega

theorem Holds.append {a b : List UInt8} (h : p.Holds pc (a ++ b)) :
    p.Holds pc a ∧ p.Holds (pc + .ofNat a.length) b := by
  induction a generalizing pc with
  | nil =>
    rw [List.nil_append] at h
    rw [List.length_nil, show pc + UInt16.ofNat 0 = pc from UInt16.add_zero pc]
    exact ⟨trivial, h⟩
  | cons x a ih =>
    obtain ⟨hx, hrest⟩ := h
    obtain ⟨ha, hb⟩ := ih hrest
    refine ⟨⟨hx, ha⟩, ?_⟩
    rw [List.length_cons, Nat.add_comm, UInt16.ofNat_add, ← UInt16.add_assoc]
    exact hb

/-- The operand of an instruction is the one that was written for it. -/
theorem operand_of_holds {form : Form} {v : UInt16}
    (h : form.length = 2 ∧ v ≤ 0xFF ∧ p.Holds (pc + 1) [v.toUInt8] ∨
      form.length = 3 ∧ p.Holds (pc + 1) (littleEndian v)) : operand form pc p = v := by
  unfold operand
  rcases h with ⟨hl, hv, hb, -⟩ | ⟨hl, hb, hc, -⟩
  · simp only [hl, hb]
    exact toUInt16_toUInt8 hv
  · rw [UInt16.add_assoc] at hc
    simp only [hl, hb]
    rw [show pc + 2 = pc + (1 + 1) from rfl, hc]
    exact word_littleEndian v

/-- Where an opcode stands in memory, the instruction is executed. -/
theorem step_of_holds {o : Opcode} {rest : List UInt8} {q : Processor}
    (h : p.Holds pc (o.byte :: rest))
    (hq : o.operation.execute o.form (operand o.form pc p) p = some q) :
    step pc p = some (pc + .ofNat o.form.length, q) := by
  unfold step
  rw [h.1, decode_byte, Option.bind_some, hq]
  rfl

end Processor

end Cartridge
