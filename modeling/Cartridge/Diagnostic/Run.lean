import Cartridge.Diagnostic.Log

/-!
# Runs

A run is a computation over a state that reports to a log and may be abandoned. An abandoned run
keeps the state and the log that it had reached. The log is only touched by the three ways of
reporting defined here.

Main results:

- Theorem `Run.bind_eq_ok`: a run in two parts finishes exactly if both parts do.
- Theorems `Run.error_of_room` and `Run.error_of_full`: a recoverable error goes on or abandons
  the run, depending on the limit.
- Theorem `Run.fatal_eq`: a fatal error abandons the run.
-/

namespace Cartridge

/-- The sign that a run was abandoned. -/
inductive Abort where
  | abort
deriving DecidableEq, Repr

/-- A state together with the log of the run. -/
structure Logged (σ : Type) where
  state : σ
  log : Log
deriving Repr

/-- A computation over a state that may report diagnostics and may be abandoned. -/
abbrev Run (σ α : Type) : Type :=
  EStateM Abort (Logged σ) α

namespace Run

variable {σ τ α : Type}

/-! ## The state -/

/-- The current state. -/
def read : Run σ σ := fun s =>
  .ok s.state s

/-- Changes the state. -/
def update (f : σ → σ) : Run σ Unit := fun s =>
  .ok () { s with state := f s.state }

/-- A run over a part of the state. -/
def focus (get : σ → τ) (put : τ → σ → σ) (act : Run τ α) : Run σ α := fun s =>
  match act { state := get s.state, log := s.log } with
  | .ok a t => .ok a { state := put t.state s.state, log := t.log }
  | .error e t => .error e { state := put t.state s.state, log := t.log }

/-- A run in two parts finishes exactly if both parts do. -/
theorem bind_eq_ok {β : Type} {act : Run σ α} {next : α → Run σ β} {s u : Logged σ} {b : β} :
    (act >>= next) s = .ok b u ↔ ∃ a t, act s = .ok a t ∧ next a t = .ok b u := by
  show EStateM.bind act next s = .ok b u ↔ _
  unfold EStateM.bind
  cases h : act s with
  | ok a t =>
    constructor
    · intro hb
      exact ⟨a, t, rfl, hb⟩
    · rintro ⟨a', t', ha, hb⟩
      cases ha
      exact hb
  | error e t =>
    constructor
    · intro hb
      cases hb
    · rintro ⟨a', t', ha, -⟩
      cases ha

/-! ## Reporting -/

/-- Reports a recoverable error. The run is abandoned when this reaches the limit. -/
def error (e : Error) (pos : Position) : Run σ Unit := fun s =>
  let log := s.log.soft e pos
  if log.isFull then .error .abort { s with log := log.giveUp }
  else .ok () { s with log }

/-- Reports an error that abandons the run. -/
def fatal (e : Error) (pos : Position) : Run σ α := fun s =>
  .error .abort { s with log := s.log.fatal e pos }

/-- Reports a broken agreement between the parts of the compiler. -/
def internal (what : String) (pos : Position) : Run σ α :=
  fatal (.internal what) pos

/-- Below the limit the run goes on after a recoverable error. -/
theorem error_of_room {e : Error} {pos : Position} {s : Logged σ}
    (h : s.log.count + 1 < s.log.limit) :
    error e pos s = .ok () { s with log := s.log.soft e pos } := by
  simp [error, Log.isFull, Nat.not_le.2 h]

/-- At the limit a recoverable error abandons the run, with the closing entry. -/
theorem error_of_full {e : Error} {pos : Position} {s : Logged σ}
    (h : s.log.limit ≤ s.log.count + 1) :
    error e pos s = .error .abort { s with log := (s.log.soft e pos).giveUp } := by
  simp [error, Log.isFull, h]

/-- A fatal error abandons the run. -/
theorem fatal_eq {e : Error} {pos : Position} {s : Logged σ} :
    (fatal e pos : Run σ α) s = .error .abort { s with log := s.log.fatal e pos } :=
  rfl

end Run

end Cartridge
