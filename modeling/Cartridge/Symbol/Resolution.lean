import Cartridge.Symbol.Table

/-!
# Name resolution

The first piece of a dotted path is looked for in a scope and then outwards through its parents;
every further piece is looked for in the package found so far, and nowhere else. A definition's
qualified name lists the packages around its declaration.

Main definitions:

- `SymbolTable.chain`: a scope followed by its parents, from the inside out.
- `SymbolTable.resolve`: what a path stands for.
- `SymbolTable.qualifiedName`: the path under which a definition is known from outside.
-/

namespace Cartridge

namespace SymbolTable

variable {σ : Type}

/-- At most `n` scopes of the chain from a scope outwards. -/
def chainUpTo (t : SymbolTable) : Nat → ScopeId → List ScopeId
  | 0, _ => []
  | n + 1, id =>
    id :: match (t.scope id).parent with
      | some parent => chainUpTo t n parent
      | none => []

/-- A scope followed by its parents. Parents have smaller numbers, so the number of a scope
bounds the length of its chain. -/
def chain (t : SymbolTable) (id : ScopeId) : List ScopeId :=
  t.chainUpTo (id.index + 1) id

/-- The definition that a name has in a scope, looking outwards through the parents as well if
`inherit` is set. -/
def lookup (t : SymbolTable) (scope : ScopeId) (name : String) (inherit : Bool) : Option DefId :=
  if inherit then (t.chain scope).findSome? fun id => t.binding? id name
  else t.binding? scope name

/-- What became of a path. -/
inductive Lookup where
  | found (id : DefId)
  /-- There is no such definition, which is not worth a report yet. -/
  | missing
  /-- There is no such definition, as a report says. -/
  | failed
deriving DecidableEq, Repr

/-- Where the last piece of a path was looked for, in words. -/
def placeText (before : List Name) : String :=
  if before.isEmpty then "the current scope"
  else "the package `" ++ Name.dotted before ++ "`"

/-- Resolves the pieces of a path that remain after `before`, which led to `scope`. The text of
the whole path is `wanted`. -/
def resolvePieces (t : SymbolTable) (forbidUndefined : Bool) (wanted : String) :
    List Name → ScopeId → List Name → Run σ Lookup
  | _, _, [] => pure .missing
  | before, scope, piece :: rest =>
    match t.lookup scope piece.text before.isEmpty, rest with
    | some id, [] => pure (.found id)
    | none, [] => do
      if forbidUndefined then
        Run.error (.noAttribute piece.text (placeText before) wanted) piece.pos
        return .failed
      else
        return .missing
    | none, _ :: _ => do
      Run.error (.noPackage (Name.dotted (before ++ [piece])) wanted) piece.pos
      return .failed
    | some id, _ :: _ =>
      match t.meaning? id with
      | some (.package inner) =>
        resolvePieces t forbidUndefined wanted (before ++ [piece]) inner rest
      | _ => do
        Run.error (.notAPackage (Name.dotted (before ++ [piece])) wanted) piece.pos
        return .failed

/-- Resolves a path from a scope. All pieces before the last have to name packages. A last piece
that is not found is only reported if `forbidUndefined` is set. -/
def resolve (t : SymbolTable) (scope : ScopeId) (path : List Name) (forbidUndefined : Bool) :
    Run σ Lookup :=
  t.resolvePieces forbidUndefined (Name.dotted path) [] scope path

/-- The name of a definition. -/
def nameOf (t : SymbolTable) (id : DefId) : String :=
  ((t.definition? id).map Definition.name).getD ""

/-- The names of the packages around a definition's declaration, from the outside in, and then
its own name. -/
def qualifiedPieces (t : SymbolTable) (id : DefId) : List String :=
  match t.definition? id with
  | none => []
  | some d =>
    let packages := (t.chain d.owner).filterMap fun scope => (t.scope scope).package
    (packages.map t.nameOf).reverse ++ [d.name]

/-- The qualified name of a definition, with its pieces joined by dots. -/
def qualifiedName (t : SymbolTable) (id : DefId) : String :=
  ".".intercalate (t.qualifiedPieces id)

end SymbolTable

end Cartridge
