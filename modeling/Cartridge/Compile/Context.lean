import Cartridge.Compile.Note
import Cartridge.Compile.Record
import Cartridge.Encoding.Selection
import Cartridge.Fold.Basic
import Cartridge.Rom.Basic

/-!
# The context of a compilation

The state that the passes over a tree share, and the operations through which they change it.

Main results:

- Theorem `Pass.within_eq`: a pass inside a scope leaves the scope again on every path.
-/

namespace Cartridge

/-- The state shared by the passes. -/
structure Context where
  symbols : SymbolTable := .empty
  /-- The results of the expressions of the tree and of the constants. -/
  memo : Memo := .empty
  /-- The rom, once a header has described it. -/
  rom : Option Rom := none
  /-- The scope that each block opened. -/
  scopes : Record ScopeId := .empty
  /-- The definition of each label. -/
  labels : Record DefId := .empty
  /-- The encoding of each command. -/
  selections : Record Selection := .empty
  /-- The size of each branch. -/
  branches : Record Nat := .empty
  /-- The contents of each embedded file. -/
  contents : Record (List UInt8) := .empty
  /-- What there is to tell about the progress, the oldest first. -/
  notes : List Note := []

namespace Context

/-- The context inside a scope. -/
def enter (scope : ScopeId) (ctx : Context) : Context :=
  { ctx with symbols := ctx.symbols.enter scope }

/-- The context after the innermost scope was left. -/
def exit (ctx : Context) : Context :=
  { ctx with symbols := ctx.symbols.exit }

end Context

/-- A part of a pass. -/
abbrev Pass (α : Type) : Type :=
  Run Context α

/-- For an expression that has to have a value while declarations are still being gathered. -/
def Demand.early : Demand where
  mustFold := true
  forbidUndefined := false

/-- For an expression whose value is useful, but may come later. -/
def Demand.tentative : Demand where
  mustFold := false
  forbidUndefined := true

/-- For an expression that has to have a value when every name is declared. -/
def Demand.final : Demand where
  mustFold := true
  forbidUndefined := true

namespace Pass

variable {α : Type}

/-- Tells about the progress. -/
def note (n : Note) : Pass Unit :=
  Run.update fun ctx => { ctx with notes := ctx.notes ++ [n] }

/-! ## Symbols and values -/

/-- A run over the symbol table. -/
def onSymbols (act : Run SymbolTable α) : Pass α :=
  Run.focus Context.symbols (fun symbols ctx => { ctx with symbols }) act

/-- A pass inside a scope, which is left again on every path. -/
def within (scope : ScopeId) (act : Pass α) : Pass α := fun s =>
  match act { s with state := s.state.enter scope } with
  | .ok a t => .ok a { t with state := t.state.exit }
  | .error e t => .error e { t with state := t.state.exit }

/-- Folds an expression in the current scope. -/
def foldAt (demand : Demand) (anchor : Anchor) (e : Expr) : Pass (Option UInt16) := do
  let symbols := (← Run.read).symbols
  let folded ← Run.focus Context.memo (fun memo ctx => { ctx with memo })
    (symbols.fold demand symbols.current anchor e)
  return folded.value?

/-- Folds an expression of the tree in the current scope. -/
def fold (demand : Demand) (location : Location) (e : Expr) : Pass (Option UInt16) :=
  foldAt demand (.tree location) e

/-- A pass inside a scope leaves the scope again. -/
theorem within_eq {scope : ScopeId} {act : Pass α} {s t : Logged Context} {a : α}
    (h : act { s with state := s.state.enter scope } = .ok a t) :
    within scope act s = .ok a { t with state := t.state.exit } := by
  unfold within
  simp only [h]

/-! ## The rom -/

/-- A run over the rom. -/
def onRom (pos : Position) (act : Run Rom α) : Pass α := do
  match (← Run.read).rom with
  | none => Run.internal "rom layout used before the ines header was resolved" pos
  | some rom => Run.focus (fun _ => rom) (fun rom ctx => { ctx with rom := some rom }) act

/-- A run over the active bank, on behalf of the statement that `what` names. -/
def onBank (what : String) (pos : Position) (act : Run Bank α) : Pass α :=
  onRom pos do
    match (← Run.read).active with
    | none => Run.fatal (.noBank what) pos
    | some index => Rom.onBank index act

/-- Reserves space in the active bank. -/
def reserve (what : String) (amount : Nat) (pos : Position) : Pass Unit :=
  onBank what pos (Bank.expand amount pos)

/-- Reserves space in the active bank for something that may have no size. -/
def reserveSome (what : String) (amount : Option Nat) (pos : Position) : Pass Unit :=
  match amount with
  | none => pure ()
  | some n => reserve what n pos

/-- The address of the cursor of the active bank, which has to have an origin. -/
def programCounter (what : String) (missing : Error) (pos : Position) : Pass Nat :=
  onBank what pos do
    match (← Run.read).programCounter? with
    | none => Run.fatal missing pos
    | some counter => return counter

/-- Writes a value of one byte to the active bank. -/
def writeByte (value : UInt16) (pos : Position) : Pass Unit :=
  onBank "data" pos (Bank.writeByte value pos)

/-- Writes a value of two bytes to the active bank. -/
def writeWord (value : UInt16) (pos : Position) : Pass Unit :=
  onBank "data" pos (Bank.writeWord value pos)

/-- Writes bytes to the active bank. -/
def writeBytes (bytes : List UInt8) (pos : Position) : Pass Unit :=
  onBank "data" pos (Bank.writeBytes bytes pos)

/-- Writes an opcode to the active bank. -/
def writeOpcode (opcode : Opcode) (pos : Position) : Pass Unit :=
  writeByte opcode.byte.toUInt16 pos

/-- Writes an opcode, if there is one, to the active bank. -/
def writeSomeOpcode (opcode : Option Opcode) (pos : Position) : Pass Unit :=
  match opcode with
  | none => pure ()
  | some o => writeOpcode o pos

/-- Writes a unit of data to the active bank. -/
def writeUnit (width : Width) (value : UInt16) (pos : Position) : Pass Unit :=
  match width with
  | .byte => writeByte value pos
  | .word => writeWord value pos

end Pass

end Cartridge
