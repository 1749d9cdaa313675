import Cartridge.Cpu.Builtin

/-!
# Operand modes

The shapes an operand can take: a label, a register or flag, an immediate value, or one of the
five ways to name a place in memory. Each mode has a tag, by which trees spell it, and a text,
by which messages show it.

Main results:

- Theorem `Mode.isMemory_iff`: memory operands are the immediates and the storage locations.
- Theorem `Mode.ofTag?_tag`: every mode is found again under its tag.
-/

namespace Cartridge

/-- The shape of an operand. -/
inductive Mode where
  /-- A code address, named by a label. -/
  | label
  /-- The code address stored at a label. -/
  | indirectLabel
  /-- A register or status flag. -/
  | builtin (b : Builtin)
  /-- A value given in the instruction itself. -/
  | immediate
  /-- The location at an address. -/
  | direct
  /-- The location at an address plus register `x`. -/
  | indexedByX
  /-- The location at an address plus register `y`. -/
  | indexedByY
  /-- The location whose address is stored in the zero page, at a base plus register `x`. -/
  | indexedIndirect
  /-- The location at an address stored in the zero page, plus register `y`. -/
  | indirectIndexed
deriving DecidableEq, Repr

namespace Mode

/-- Every mode. -/
def all : List Mode :=
  [label, indirectLabel] ++ Builtin.all.map builtin ++
    [immediate, direct, indexedByX, indexedByY, indexedIndirect, indirectIndexed]

/-- How trees spell the mode. -/
def tag : Mode → String
  | label => "label"
  | indirectLabel => "indirect_label"
  | builtin b => b.name
  | immediate => "immediate"
  | direct => "direct"
  | indexedByX => "indexed_by_x"
  | indexedByY => "indexed_by_y"
  | indexedIndirect => "zp_indexed_indirect"
  | indirectIndexed => "zp_indirect_indexed"

/-- How messages show the mode of an operand without an expression. -/
def text : Mode → String
  | label => "label"
  | indirectLabel => "[label]"
  | builtin b => b.name
  | immediate => "#imm"
  | direct => "@addr"
  | indexedByX => "@addr[x]"
  | indexedByY => "@addr[y]"
  | indexedIndirect => "@[zp[x]]"
  | indirectIndexed => "@[zp][y]"

/-- The mode with the given tag. -/
def ofTag? (tag : String) : Option Mode :=
  all.find? fun m => m.tag == tag

/-- Whether the operand can be stored to. -/
def isAddressable : Mode → Bool
  | direct | indexedByX | indexedByY | indexedIndirect | indirectIndexed => true
  | _ => false

/-- Whether the operand is a memory term: a place in memory or an immediate value. -/
def isMemory (m : Mode) : Bool :=
  m = immediate || m.isAddressable

/-- Operands that name a code address. -/
def isLabel : Mode → Bool
  | label | indirectLabel => true
  | _ => false

/-- The register or flag an operand is, if it is one. -/
def builtin? : Mode → Option Builtin
  | builtin b => some b
  | _ => none

/-- Memory operands are the immediates and the storage locations. -/
theorem isMemory_iff (m : Mode) : m.isMemory = true ↔ m = immediate ∨ m.isAddressable = true := by
  simp [isMemory]

/-- Every mode is found again under its tag. -/
@[simp] theorem ofTag?_tag (m : Mode) : ofTag? m.tag = some m := by
  cases m with
  | builtin b => cases b <;> decide
  | _ => decide

end Mode

end Cartridge
