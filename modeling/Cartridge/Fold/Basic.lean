import Cartridge.Fold.Arithmetic
import Cartridge.Fold.Memo
import Cartridge.Symbol.Resolution

/-!
# Folding

Folding reduces an expression to a 16-bit value with the definitions known so far. Both operands
of an operation are folded even if the first one fails, so that every error is found at once. A
constant is folded where it was declared, and at most sixteen constants may be expanded
inside one another; one more ends the run, which is how cyclic definitions are caught.

The symbol table does not change while expressions are folded. What changes is the memo.

Main definitions:

- `SymbolTable.foldWith`: folding, given what is to happen at a constant.
- `SymbolTable.expandUpTo`: the expansion of constants, with room for so many inside one another.
- `SymbolTable.fold`: folding.
-/

namespace Cartridge

/-- How much is asked of a fold. -/
structure Demand where
  /-- An expression that cannot be folded yet is reported as indeterminate. -/
  mustFold : Bool
  /-- A reference to a missing symbol is reported. -/
  forbidUndefined : Bool
deriving DecidableEq, Repr

/-- How many constants may be expanded inside one another. -/
def maxExpansions : Nat := 16

namespace SymbolTable

/-- The result for a site: the one that is remembered, or else the given computation's, which is
then remembered. -/
def remember (site : Site) (compute : Run Memo Folded) : Run Memo Folded := do
  match (← Run.read).result site with
  | .pending =>
    let folded ← compute
    Run.update fun memo => memo.set site folded
    return folded
  | known => return known

/-- The result for a reference that has no value yet. -/
def unresolved (demand : Demand) (path : List Name) (pos : Position) : Run Memo Folded := do
  if demand.mustFold then
    Run.error (.indeterminate (Name.dotted path)) pos
    return .invalid
  else
    return .pending

/-- The result of an operation from those of its operands. -/
def combine (op : BinaryOp) (pos : Position) : Folded → Folded → Run Memo Folded
  | .value l, .value r =>
    match op.apply l r with
    | .ok v => pure (.value v)
    | .error e => do
      Run.error e pos
      return .invalid
  | .invalid, _ => pure .invalid
  | _, .invalid => pure .invalid
  | _, _ => pure .pending

/-- What is to happen at a constant: its number, its expression, the scope of its declaration, and
the position of the reference to it. -/
abbrev Expansion :=
  DefId → Expr → ScopeId → Position → Run Memo Folded

/-- The result for a reference. -/
def foldReference (t : SymbolTable) (demand : Demand) (expand : Expansion) (scope : ScopeId)
    (path : List Name) (pos : Position) : Run Memo Folded := do
  match ← t.resolve scope path demand.forbidUndefined with
  | .failed => return .invalid
  | .missing => unresolved demand path pos
  | .found id =>
    match t.meaning? id with
    | some (.builtin b) =>
      Run.error (.builtinAsValue b.name) pos
      return .invalid
    | some (.package _) =>
      Run.error (.packageAsValue (t.qualifiedName id)) pos
      return .invalid
    | some (.storage address) => return .value address
    | some (.label (some address)) => return .value address
    | some (.constant value scope) => expand id value scope pos
    | some (.label none) | none => unresolved demand path pos

/-- Folds an expression at a site, given what is to happen at a constant. -/
def foldWith (t : SymbolTable) (demand : Demand) (expand : Expansion) (scope : ScopeId) :
    Site → Expr → Run Memo Folded
  | site, .number v _ => remember site (pure (.value v))
  | site, .reference path pos =>
    remember site (t.foldReference demand expand scope path pos)
  | site, .operation op left right pos => remember site do
    let l ← foldWith t demand expand scope (site.child .left) left
    let r ← foldWith t demand expand scope (site.child .right) right
    combine op pos l r

/-- The constants of a chain of expansions, each on a line with where it was declared. -/
def chainText (t : SymbolTable) (chain : List DefId) : String :=
  String.join (chain.map fun id =>
    let place := match (t.definition? id).bind Definition.pos with
      | some pos => pos.text
      | none => ""
    "\n    `" ++ t.nameOf id ++ "` at " ++ place)

/-- Expands a constant inside the chain of those being expanded, with room for so many. -/
def expandUpTo (t : SymbolTable) (demand : Demand) : Nat → List DefId → Expansion
  | 0, chain, id, _, _, pos =>
    Run.fatal (.tooManyExpansions maxExpansions (t.chainText (chain ++ [id]))) pos
  | room + 1, chain, id, value, scope, _ =>
    t.foldWith demand (expandUpTo t demand room (chain ++ [id])) scope
      { anchor := .constant id } value

/-- Folds the expression that hangs from an anchor, in a scope. -/
def fold (t : SymbolTable) (demand : Demand) (scope : ScopeId) (anchor : Anchor) (e : Expr) :
    Run Memo Folded :=
  t.foldWith demand (t.expandUpTo demand maxExpansions []) scope { anchor } e

end SymbolTable

end Cartridge
