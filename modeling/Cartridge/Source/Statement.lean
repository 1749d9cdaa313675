import Cartridge.Cpu.Mode
import Cartridge.Source.Expr

/-!
# Statements

The tree of a parsed program. Blocks nest; every other statement is a leaf. A statement is plain
syntax: what the passes learn about it is kept elsewhere, by its location in the tree.
-/

namespace Cartridge

/-! ## Operands and commands -/

/-- An operand with its mode. -/
structure Operand where
  mode : Mode
  expr : Option Expr := none
  pos : Position := {}
deriving DecidableEq, Repr

/-- The operand as messages show it. -/
def Operand.text (operand : Operand) : String :=
  match operand.mode, operand.expr with
  | .label, some e => e.text
  | .indirectLabel, some e => "[" ++ e.text ++ "]"
  | .immediate, some e => "#" ++ e.text
  | .direct, some e => "@" ++ e.text
  | .indexedByX, some e => "@" ++ e.text ++ "[x]"
  | .indexedByY, some e => "@" ++ e.text ++ "[y]"
  | .indexedIndirect, some e => "@[" ++ e.text ++ "[x]]"
  | .indirectIndexed, some e => "@[" ++ e.text ++ "][y]"
  | mode, _ => mode.text

/-- What a command asks for. -/
inductive CommandKind where
  | get
  | put
  | add
  | addc
  | sub
  | subc
  | or
  | and
  | xor
  | cmp
  | bit
  | inc
  | dec
  | not
  | neg
  | shl
  | shr
  | rol
  | ror
  | push
  | pull
  | set
  | unset
deriving DecidableEq, Repr

namespace CommandKind

/-- Every kind of command. -/
def all : List CommandKind :=
  [get, put, add, addc, sub, subc, or, and, xor, cmp, bit, inc, dec, not, neg, shl, shr, rol, ror,
    push, pull, set, unset]

/-- The name of the command, in trees and in messages. -/
def name : CommandKind → String
  | get => "get"
  | put => "put"
  | add => "add"
  | addc => "addc"
  | sub => "sub"
  | subc => "subc"
  | or => "or"
  | and => "and"
  | xor => "xor"
  | cmp => "cmp"
  | bit => "bit"
  | inc => "inc"
  | dec => "dec"
  | not => "not"
  | neg => "neg"
  | shl => "shl"
  | shr => "shr"
  | rol => "rol"
  | ror => "ror"
  | push => "push"
  | pull => "pull"
  | set => "set"
  | unset => "unset"

/-- The command of the given name. -/
def ofName? (text : String) : Option CommandKind :=
  all.find? fun kind => kind.name == text

/-- Whether the command works on an argument beside its receiver. -/
def takesArgument : CommandKind → Bool
  | get | put | add | addc | sub | subc | or | and | xor | cmp | bit | set | unset => true
  | inc | dec | not | neg | shl | shr | rol | ror | push | pull => false

/-- Every command is found again under its name. -/
@[simp] theorem ofName?_name (kind : CommandKind) : ofName? kind.name = some kind := by
  cases kind <;> decide

end CommandKind

/-- One command of a command statement. -/
structure Command where
  kind : CommandKind
  argument : Option Operand := none
  pos : Position := {}
deriving DecidableEq, Repr

/-- Commands that share one receiver, carried out in order. -/
structure CommandList where
  receiver : Operand
  commands : List Command
deriving DecidableEq, Repr

/-! ## Branches -/

/-- What a branch statement does. -/
inductive BranchKind where
  | nop
  | goto
  | call
  | return
  | resume
deriving DecidableEq, Repr

namespace BranchKind

/-- Every kind of branch. -/
def all : List BranchKind :=
  [nop, goto, call, .return, resume]

/-- The name of the branch, in trees and in messages. -/
def name : BranchKind → String
  | nop => "nop"
  | goto => "goto"
  | call => "call"
  | .return => "return"
  | resume => "resume"

/-- The branch of the given name. -/
def ofName? (text : String) : Option BranchKind :=
  all.find? fun kind => kind.name == text

/-- Every branch is found again under its name. -/
@[simp] theorem ofName?_name (kind : BranchKind) : ofName? kind.name = some kind := by
  cases kind <;> decide

end BranchKind

/-- The flag on which a branch depends, and the state it has to be in. -/
structure Condition where
  set : Bool := true
  flag : Operand
deriving DecidableEq, Repr

/-- A branch statement. -/
structure Branch where
  kind : BranchKind
  destination : Option Operand := none
  condition : Option Condition := none
  pos : Position := {}
deriving DecidableEq, Repr

/-! ## Data and declarations -/

/-- The size of a unit of data or of a variable. -/
inductive Width where
  | byte
  | word
deriving DecidableEq, Repr

namespace Width

/-- The name of the width, in trees and in messages. -/
def name : Width → String
  | byte => "byte"
  | word => "word"

/-- The number of bytes of a unit. -/
def bytes : Width → Nat
  | byte => 1
  | word => 2

/-- The width of the given name. -/
def ofName? (text : String) : Option Width :=
  [byte, word].find? fun width => width.name == text

/-- Every width is found again under its name. -/
@[simp] theorem ofName?_name (width : Width) : ofName? width.name = some width := by
  cases width <;> decide

end Width

/-- An item of a data statement. -/
inductive DataItem where
  | value (expr : Expr)
  | string (text : String) (pos : Position)
deriving DecidableEq, Repr

/-- A run of data units. -/
structure Data where
  width : Width
  items : List DataItem
  pos : Position := {}
deriving DecidableEq, Repr

/-- Variables of one width, each an array if a size is given. -/
structure Variables where
  width : Width
  names : List Name
  arraySize : Option Expr := none
  pos : Position := {}
deriving DecidableEq, Repr

/-- One setting of the rom header. -/
structure Setting where
  name : Name
  value : Expr
deriving DecidableEq, Repr

/-- The header statement, which describes the rom. -/
structure Header where
  settings : List Setting
  pos : Position := {}
deriving DecidableEq, Repr

/-- Where a relocation goes. -/
inductive Relocation where
  /-- To a bank, an address in the active bank, or both in turn. -/
  | rom (bank dest : Option Expr)
  /-- To a ram address, for the variables that follow. -/
  | ram (dest : Expr)
deriving DecidableEq, Repr

/-- What kind of scope a block opens. -/
inductive BlockKind where
  /-- The block around a whole program. -/
  | main
  /-- A scope without a name. -/
  | scope
  /-- A scope whose names are reached through the package's. -/
  | package (name : Name)
deriving DecidableEq, Repr

/-! ## Statements and programs -/

/-- A statement of a program. -/
inductive Statement where
  | block (kind : BlockKind) (statements : List Statement) (pos : Position)
  | header (header : Header)
  | relocation (target : Relocation) (pos : Position)
  | label (name : Name)
  | constant (name : Name) (value : Expr)
  | storage (storage : Variables)
  | data (data : Data)
  | command (commands : CommandList)
  | branch (branch : Branch)
  /-- The contents of a file. -/
  | embed (path : String) (pos : Position)
deriving Repr

namespace Statement

/-- Where the statement was written. A declaration of one name stands where its name does, and
a command statement where its receiver does. -/
def pos : Statement → Position
  | block _ _ pos => pos
  | header h => h.pos
  | relocation _ pos => pos
  | label name => name.pos
  | constant name _ => name.pos
  | storage v => v.pos
  | data d => d.pos
  | command c => c.receiver.pos
  | branch b => b.pos
  | embed _ pos => pos

/-- Whether the statement declares a constant. -/
def isConstant : Statement → Bool
  | constant _ _ => true
  | _ => false

/-- Whether the statement is a header. -/
def isHeader : Statement → Bool
  | header _ => true
  | _ => false

end Statement

/-- A parsed program: the statements of its outermost block. -/
structure Program where
  statements : List Statement
  pos : Position := {}
deriving Repr

end Cartridge
