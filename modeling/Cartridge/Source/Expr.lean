import Cartridge.Source.Position

/-!
# Expressions

Constant expressions over 16-bit numbers and dotted references to symbols. An expression is plain
syntax: what folding finds out about it is kept elsewhere, by the place of its nodes.
-/

namespace Cartridge

/-- The operators of constant expressions. -/
inductive BinaryOp where
  | mul
  | div
  | mod
  | add
  | sub
  | shl
  | shr
  | and
  | xor
  | or
deriving DecidableEq, Repr

namespace BinaryOp

/-- Every operator. -/
def all : List BinaryOp :=
  [mul, div, mod, add, sub, shl, shr, and, xor, or]

/-- How trees spell the operator. -/
def tag : BinaryOp → String
  | mul => "mul"
  | div => "div"
  | mod => "mod"
  | add => "add"
  | sub => "sub"
  | shl => "shl"
  | shr => "shr"
  | and => "and"
  | xor => "xor"
  | or => "or"

/-- How messages show the operator. -/
def symbol : BinaryOp → String
  | mul => "*"
  | div => "/"
  | mod => "%"
  | add => "+"
  | sub => "-"
  | shl => "<<"
  | shr => ">>"
  | and => "&"
  | xor => "^"
  | or => "|"

/-- The operator with the given tag. -/
def ofTag? (tag : String) : Option BinaryOp :=
  all.find? fun op => op.tag == tag

/-- Every operator is found again under its tag. -/
@[simp] theorem ofTag?_tag (op : BinaryOp) : ofTag? op.tag = some op := by
  cases op <;> decide

end BinaryOp

/-- A constant expression. -/
inductive Expr where
  | number (value : UInt16) (pos : Position)
  /-- A dotted reference such as `sprites.first`. -/
  | reference (path : List Name) (pos : Position)
  | operation (op : BinaryOp) (left right : Expr) (pos : Position)
deriving DecidableEq, Repr

namespace Expr

/-- Where the expression was written. -/
def pos : Expr → Position
  | number _ pos => pos
  | reference _ pos => pos
  | operation _ _ _ pos => pos

/-- The expression as messages show it, with every operation in brackets. -/
def text : Expr → String
  | number value _ => toString value.toNat
  | reference path _ => Name.dotted path
  | operation op left right _ => "(" ++ left.text ++ " " ++ op.symbol ++ " " ++ right.text ++ ")"

end Expr

end Cartridge
