import Cartridge.Source.Location
import Cartridge.Symbol.Table

/-!
# What folding remembers

Folding an expression leaves a result at each of its nodes, so that no node is evaluated or
reported twice. A node is named by its site: what its expression hangs from, and the turns down
to it. The expression of a constant is shared by every reference to the constant, and so are the
results in it.

Main results:

- Theorems `Memo.set_self` and `Memo.set_of_ne`: what a memo says after a result was added.
-/

namespace Cartridge

/-- What is known of an expression. -/
inductive Folded where
  /-- Not folded yet, or it depends on something that is not known yet. -/
  | pending
  | value (v : UInt16)
  /-- Folding it was reported as an error, and is not tried again. -/
  | invalid
deriving DecidableEq, Repr, Inhabited

/-- The value, if folding has succeeded. -/
def Folded.value? : Folded → Option UInt16
  | value v => some v
  | _ => none

/-- What an expression hangs from. -/
inductive Anchor where
  /-- An expression of a statement. -/
  | tree (location : Location)
  /-- The expression of a constant. -/
  | constant (id : DefId)
  /-- An expression that stands for itself, told apart from others by a number. -/
  | detached (number : Nat)
deriving DecidableEq, Repr

/-- One step down in an expression. -/
inductive Turn where
  | left
  | right
deriving DecidableEq, Repr

/-- A node of an expression: the turns down to it, the last one first, and their number. -/
structure Site where
  depth : Nat := 0
  anchor : Anchor
  turns : List Turn := []
deriving DecidableEq, Repr

/-- The site of an operand. -/
def Site.child (site : Site) (turn : Turn) : Site :=
  { site with depth := site.depth + 1, turns := turn :: site.turns }

/-- The result at every site. -/
structure Memo where
  result : Site → Folded

namespace Memo

/-- Nothing is known yet. -/
def empty : Memo where
  result _ := .pending

/-- Adds a result. -/
def set (memo : Memo) (site : Site) (folded : Folded) : Memo where
  result other := if other = site then folded else memo.result other

/-- The value known for the expression that hangs from an anchor. -/
def value? (memo : Memo) (anchor : Anchor) : Option UInt16 :=
  (memo.result { anchor }).value?

@[simp] theorem set_self (memo : Memo) (site : Site) (folded : Folded) :
    (memo.set site folded).result site = folded := by
  simp [set]

theorem set_of_ne {memo : Memo} {site other : Site} {folded : Folded} (h : other ≠ site) :
    (memo.set site folded).result other = memo.result other := by
  simp [set, h]

end Memo

end Cartridge
