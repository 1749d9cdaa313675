import Cartridge.Compile.Header

/-!
# Gathering declarations

The first pass puts every declaration into the symbol table. Variables take their ram addresses at
once; labels wait for the layout. The constants of a block come before everything else in it, so
where they stand in the block does not matter.

Main definitions:

- `Statement.gather`: gathers the declarations of a statement.
-/

namespace Cartridge

/-- Declares a constant, to be folded in the current scope when it is needed. -/
def Expr.declare (name : Name) (value : Expr) : Pass Unit := do
  let scope := (← Run.read).symbols.current
  let _ ← Pass.onSymbols (SymbolTable.put name.text (some name.pos) (.constant value scope))

/-- Declares a label that has no address yet. -/
def Name.declareLabel (location : Location) (name : Name) : Pass Unit := do
  let id ← Pass.onSymbols (SymbolTable.put name.text (some name.pos) (.label none))
  Run.update fun ctx => { ctx with labels := ctx.labels.set location (some id) }

namespace Variables

/-- The number of units of each variable, or nothing if that is reported to be unknown. -/
def count? (location : Location) (v : Variables) : Pass (Option Nat) := do
  match v.arraySize with
  | none => return some 1
  | some e =>
    match ← Pass.fold .early (location.child 0) e with
    | none => return none
    | some n =>
      if n = 0 then
        Run.error .emptyArray e.pos
        return none
      else
        return some n.toNat

/-- Takes the next ram addresses, and tells the first of them. -/
def allocate (size : Nat) (pos : Position) : Pass UInt16 :=
  Pass.onRom pos do
    match (← Run.read).ram with
    | none => Run.fatal .noRamCounter pos
    | some counter =>
      Rom.expandRam size pos
      return UInt16.ofNat counter

/-- Declares variables of one size. -/
def declareAll (size : Nat) : List Name → Pass Unit
  | [] => pure ()
  | name :: rest => do
    let address ← allocate size name.pos
    let _ ← Pass.onSymbols (SymbolTable.put name.text (some name.pos) (.storage address))
    declareAll size rest

/-- Declares the variables of a statement. -/
def declare (location : Location) (v : Variables) : Pass Unit := do
  match ← v.count? location with
  | none => pure ()
  | some count => declareAll (v.width.bytes * count) v.names

end Variables

/-- Moves the ram counter. -/
def Relocation.gather (location : Location) (pos : Position) : Relocation → Pass Unit
  | rom _ _ => pure ()
  | ram dest => do
    match ← Pass.fold .early (location.child 1) dest with
    | none => Run.fatal .unresolvedRam pos
    | some address =>
      Pass.onRom pos (Run.update (Rom.moveRam address))
      Pass.note (.ramCounter address)

/-- Opens the scope of a block. -/
def BlockKind.openScope : BlockKind → Pass ScopeId
  | main | scope => do
    let parent := (← Run.read).symbols.current
    Pass.onSymbols (SymbolTable.createScope parent)
  | package name => Pass.onSymbols (SymbolTable.createPackage name)

/-- Starts the rom that the header of an outermost block describes. Other blocks have none. -/
def BlockKind.startRom (location : Location) (statements : List Statement) (pos : Position) :
    BlockKind → Pass Unit
  | main => Header.install location statements pos
  | scope | package _ => Header.refuse statements

/-- Declares the constants among statements. -/
def Statement.gatherConstants : List Statement → Pass Unit
  | [] => pure ()
  | .constant name value :: rest => do
    value.declare name
    gatherConstants rest
  | _ :: rest => gatherConstants rest

mutual

/-- Gathers the declarations of a statement. -/
def Statement.gather (location : Location) : Statement → Pass Unit
  | .block kind statements pos => do
    let scope ← kind.openScope
    Run.update fun ctx => { ctx with scopes := ctx.scopes.set location (some scope) }
    Pass.within scope do
      Statement.gatherConstants statements
      kind.startRom location statements pos
      Statement.gatherOthers location 0 statements
  | .relocation target pos => target.gather location pos
  | .label name => name.declareLabel location
  | .constant name value => value.declare name
  | .storage v => v.declare location
  | .header _ | .data _ | .command _ | .branch _ | .embed _ _ => pure ()

/-- Gathers the declarations of the statements of a block that are neither constants nor headers,
from the one with the given index on. -/
def Statement.gatherOthers (location : Location) : Nat → List Statement → Pass Unit
  | _, [] => pure ()
  | index, s :: rest => do
    (if s.isConstant || s.isHeader then pure () else s.gather (location.child index))
    gatherOthers location (index + 1) rest

end

end Cartridge
