import Cartridge.Compile.Emit
import Cartridge.Compile.Gather
import Cartridge.Config

/-!
# Compilation

A program is compiled by three passes over the block of its statements. It has an image only if
nothing at all was reported.

Main results:

- Theorem `Program.result_ofRun`: an image comes from a run that finished with a clean log.
-/

namespace Cartridge

/-- Everything that was reported by a compilation without an image. -/
structure Failure where
  /-- The number of errors. -/
  errors : Nat
  diagnostics : List Diagnostic
deriving DecidableEq, Repr

/-- What comes out of a compilation. -/
structure Compilation where
  /-- The image of the rom, or what was reported. -/
  result : Except Failure (List UInt8)
  /-- What there is to tell about the progress. -/
  notes : List Note

namespace Rom

/-- What there is to tell about the banks that are in use. -/
def bankNotes (rom : Rom) : List Note :=
  rom.banks.toList.zipIdx.filterMap fun (bank, index) =>
    bank.origin.map fun origin => .bank index origin bank.reserved

end Rom

/-- Tells about the banks of the rom. -/
def Context.noteBanks (ctx : Context) : Context :=
  { ctx with notes := ctx.notes ++ ctx.rom.elim [] Rom.bankNotes }

namespace Program

/-- The block of all the statements of a program. -/
def block (program : Program) : Statement :=
  .block .main program.statements program.pos

/-- The first pass, which gathers the declarations. -/
def gather (program : Program) : Pass Unit := do
  program.block.gather .top
  Pass.note (.gathered (← Run.read).symbols.size)

/-- The second pass, which lays out the rom. -/
def layOut (files : Files) (program : Program) : Pass Unit := do
  program.block.layOut files .top
  Run.update Context.noteBanks

/-- Goes back to the start of every bank. -/
def rewind (program : Program) : Pass Unit :=
  Pass.onRom program.pos (Run.update Rom.rewind)

/-- The third pass, which writes the bytes. -/
def emit (program : Program) : Pass Unit :=
  program.block.emit .top

/-- The image of the rom. -/
def image (program : Program) : Pass (List UInt8) :=
  Pass.onRom program.pos (return (← Run.read).toBytes)

/-- The three passes. -/
def passes (files : Files) (program : Program) : Pass (List UInt8) := do
  program.gather
  program.layOut files
  program.rewind
  program.emit
  program.image

/-- The state in which a compilation starts. -/
def start (config : Config) : Logged Context where
  state := {}
  log := Log.empty config.errorLimit

/-- What comes out of a run of the passes. -/
def ofRun : EStateM.Result Abort (Logged Context) (List UInt8) → Compilation
  | .ok image s =>
    { result := if s.log.isClean then .ok image else .error (failure s.log)
      notes := s.state.notes }
  | .error _ s => { result := .error (failure s.log), notes := s.state.notes }
where
  failure (log : Log) : Failure :=
    { errors := log.count, diagnostics := log.entries }

/-- Compiles a program. -/
def compile (files : Files) (config : Config) (program : Program) : Compilation :=
  ofRun (program.passes files (start config))

/-- An image comes from a run that finished with a clean log. -/
theorem result_ofRun {r : EStateM.Result Abort (Logged Context) (List UInt8)}
    {image : List UInt8} :
    (ofRun r).result = .ok image ↔ ∃ s, r = .ok image s ∧ s.log.isClean = true := by
  cases r with
  | error e s => simp [ofRun]
  | ok bytes s =>
    cases h : s.log.isClean with
    | true =>
      simp only [ofRun, h, ↓reduceIte, Except.ok.injEq]
      constructor
      · rintro rfl
        exact ⟨s, rfl, h⟩
      · rintro ⟨t, ht, -⟩
        cases ht
        rfl
    | false =>
      simp only [ofRun, h, Bool.false_eq_true, ↓reduceIte, reduceCtorEq, false_iff, not_exists]
      rintro t ⟨ht, hc⟩
      cases ht
      rw [h] at hc
      cases hc

end Program

end Cartridge
