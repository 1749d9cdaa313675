import Cartridge.Diagnostic.Run

/-!
# Symbol tables

The scopes and definitions of a program, and the scopes that are entered. Scopes and definitions
are numbered in the order of their creation, so the parent of a scope always has a smaller number
than the scope itself. The first scope is the root; it holds the builtins.

Main results:

- Theorem `SymbolTable.current_enter` and `SymbolTable.exit_enter`: entering a scope makes it the
  current one, and leaving it restores the stack.
-/

namespace Cartridge

/-- The number of a scope. -/
structure ScopeId where
  index : Nat
deriving DecidableEq, Repr, Inhabited

/-- The number of a definition. -/
structure DefId where
  index : Nat
deriving DecidableEq, Repr, Inhabited

/-- What a name stands for. -/
inductive Meaning where
  | builtin (b : Builtin)
  /-- An expression, with the scope in which its names are looked for. -/
  | constant (value : Expr) (scope : ScopeId)
  /-- A code address, once the label is placed. -/
  | label (address : Option UInt16)
  /-- A variable, by its ram address. -/
  | storage (address : UInt16)
  /-- A package, by the scope that holds its names. -/
  | package (scope : ScopeId)
deriving DecidableEq, Repr

/-- A name with its meaning. -/
structure Definition where
  name : String
  /-- Where the name was declared; builtins have no position. -/
  pos : Option Position := none
  meaning : Meaning
  /-- The scope the definition was put into. -/
  owner : ScopeId
deriving DecidableEq, Repr

/-- A set of names, inside another scope unless it is the root. -/
structure Scope where
  parent : Option ScopeId := none
  /-- The package that the scope belongs to. -/
  package : Option DefId := none
  /-- The bindings, the latest first. -/
  names : List (String × DefId) := []
deriving DecidableEq, Repr, Inhabited

/-- The scopes and definitions of a program, and the scopes that are entered. -/
structure SymbolTable where
  scopes : Array Scope
  definitions : Array Definition
  /-- The entered scopes, the innermost first. -/
  stack : List ScopeId := []
deriving DecidableEq, Repr

namespace SymbolTable

/-! ## Scopes -/

/-- The root scope. -/
def root : ScopeId := ⟨0⟩

/-- The table of an empty program, which knows the builtins. -/
def empty : SymbolTable where
  scopes := #[{ names := Builtin.all.map fun b => (b.name, ⟨b.number⟩) }]
  definitions :=
    (Builtin.all.map fun b =>
      { name := b.name, meaning := .builtin b, owner := root : Definition }).toArray

/-- A scope by its number. -/
def scope (t : SymbolTable) (id : ScopeId) : Scope :=
  t.scopes.getD id.index {}

/-- The innermost entered scope, or the root. -/
def current (t : SymbolTable) : ScopeId :=
  t.stack.head?.getD root

/-- Enters a scope. -/
def enter (t : SymbolTable) (id : ScopeId) : SymbolTable :=
  { t with stack := id :: t.stack }

/-- Leaves the innermost entered scope. -/
def exit (t : SymbolTable) : SymbolTable :=
  { t with stack := t.stack.tail }

/-- The number that the next scope will have. -/
def nextScope (t : SymbolTable) : ScopeId :=
  ⟨t.scopes.size⟩

/-- Adds an empty scope. -/
def addScope (t : SymbolTable) (parent : ScopeId) : SymbolTable :=
  { t with scopes := t.scopes.push { parent := some parent } }

/-- Adds an empty scope and tells its number. -/
def createScope (parent : ScopeId) : Run SymbolTable ScopeId := do
  let t ← Run.read
  Run.update fun t => t.addScope parent
  return t.nextScope

/-! ## Definitions -/

/-- A definition by its number. -/
def definition? (t : SymbolTable) (id : DefId) : Option Definition :=
  t.definitions[id.index]?

/-- What a definition stands for. -/
def meaning? (t : SymbolTable) (id : DefId) : Option Meaning :=
  (t.definition? id).map Definition.meaning

/-- The number of definitions. -/
def size (t : SymbolTable) : Nat :=
  t.definitions.size

/-- The number that the next definition will have. -/
def nextDef (t : SymbolTable) : DefId :=
  ⟨t.definitions.size⟩

/-- The latest binding of a name in one scope. -/
def binding? (t : SymbolTable) (scope : ScopeId) (name : String) : Option DefId :=
  (t.scope scope).names.lookup name

/-- Adds a definition and binds its name in its scope. -/
def define (t : SymbolTable) (d : Definition) : SymbolTable :=
  { t with
    scopes := t.scopes.modify d.owner.index fun scope =>
      { scope with names := (d.name, t.nextDef) :: scope.names }
    definitions := t.definitions.push d }

/-- Where a definition was declared, in words. -/
def placeOf (t : SymbolTable) (id : DefId) : String :=
  match (t.definition? id).bind Definition.pos with
  | some pos => pos.text
  | none => "<builtin>"

/-- Reports that the current scope already binds a name, if it does. -/
def reportRedefinition (name : String) (pos : Option Position) : Run SymbolTable Unit := do
  let t ← Run.read
  match t.binding? t.current name with
  | none => pure ()
  | some previous => Run.error (.redefinition name (t.placeOf previous)) (pos.getD {})

/-- Puts a name into the current scope. If the scope already binds the name, that is reported,
and the new binding still takes the place of the old one. -/
def put (name : String) (pos : Option Position) (meaning : Meaning) : Run SymbolTable DefId := do
  reportRedefinition name pos
  let t ← Run.read
  Run.update fun t => t.define { name, pos, meaning, owner := t.current }
  return t.nextDef

/-- Says which package a scope belongs to. -/
def setPackage (t : SymbolTable) (scope : ScopeId) (package : DefId) : SymbolTable :=
  { t with scopes := t.scopes.modify scope.index fun s => { s with package := some package } }

/-- Adds the scope of a package inside the current scope, and puts the package's name there. -/
def createPackage (name : Name) : Run SymbolTable ScopeId := do
  let scope ← createScope (← Run.read).current
  let id ← put name.text (some name.pos) (.package scope)
  Run.update fun t => t.setPackage scope id
  return scope

/-- Gives a label its address. Other definitions stay as they are. -/
def placeLabel (t : SymbolTable) (id : DefId) (address : UInt16) : SymbolTable :=
  { t with definitions := t.definitions.modify id.index fun d =>
      match d.meaning with
      | .label _ => { d with meaning := .label (some address) }
      | _ => d }

@[simp] theorem current_enter (t : SymbolTable) (id : ScopeId) : (t.enter id).current = id :=
  rfl

@[simp] theorem exit_enter (t : SymbolTable) (id : ScopeId) : (t.enter id).exit = t :=
  rfl

end SymbolTable

end Cartridge
