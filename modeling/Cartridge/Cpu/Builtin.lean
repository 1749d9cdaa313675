/-!
# Registers and status flags

The five registers and six status flags of the processor that a program can name. They are
always in scope, numbered in a fixed order, and spelled in lower case.

Main results:

- Theorem `Builtin.ofNumber?_number`: every builtin is found again under its number.
- Theorem `Builtin.ofName?_name`: every builtin is found again under its name.
-/

namespace Cartridge

/-- A register or status flag that is always in scope. -/
inductive Builtin where
  | a
  | x
  | y
  | s
  | p
  | carry
  | interrupt
  | decimal
  | overflow
  | zero
  | negative
deriving DecidableEq, Repr

namespace Builtin

/-- Every builtin, in the order of their numbers. -/
def all : List Builtin :=
  [a, x, y, s, p, carry, interrupt, decimal, overflow, zero, negative]

/-- The name by which a program refers to the builtin. -/
def name : Builtin → String
  | a => "a"
  | x => "x"
  | y => "y"
  | s => "s"
  | p => "p"
  | carry => "carry"
  | interrupt => "interrupt"
  | decimal => "decimal"
  | overflow => "overflow"
  | zero => "zero"
  | negative => "negative"

/-- The place of the builtin in `all`. -/
def number : Builtin → Nat
  | a => 0
  | x => 1
  | y => 2
  | s => 3
  | p => 4
  | carry => 5
  | interrupt => 6
  | decimal => 7
  | overflow => 8
  | zero => 9
  | negative => 10

/-- The builtin with the given number. -/
def ofNumber? (n : Nat) : Option Builtin :=
  all[n]?

/-- The builtin with the given name; names are case-sensitive. -/
def ofName? (text : String) : Option Builtin :=
  all.find? fun b => b.name == text

/-- Every builtin is found again under its number. -/
@[simp] theorem ofNumber?_number (b : Builtin) : ofNumber? b.number = some b := by
  cases b <;> rfl

/-- Every builtin is found again under its name. -/
@[simp] theorem ofName?_name (b : Builtin) : ofName? b.name = some b := by
  cases b <;> decide

/-- The list of builtins is complete. -/
theorem mem_all (b : Builtin) : b ∈ all := by
  cases b <;> decide

end Builtin

end Cartridge
