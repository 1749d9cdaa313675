import Cartridge.Proofs.Run
import Mathlib.Logic.Relation

/-!
# Runs in steps

The state of a run changes in steps, and between them something may be reported. A system says which
steps there are, and what holds in all the states that they lead through. A run belongs to a system
if it is a path of its steps, from the start up to the end, or up to the moment at which the run is
abandoned.

Main definitions:

- `Run.System`: the steps of runs, with an invariant that they keep.
- `Run.System.Path`: the states that a run goes through.
- `Run.System.Stops`: a run is abandoned after a moment.
- `Run.System.frame`: the frame of the runs that belong to a system.

Main results:

- Theorem `Run.System.Path.safe`: what every step keeps is kept on every path.
- Theorem `Run.System.ends_focus`: a run over a part of the state.
-/

namespace Cartridge

namespace Run

variable {σ τ α : Type}

/-- The steps of runs. -/
structure System (σ : Type) where
  step : σ → σ → Prop
  /-- What holds of all the states. -/
  safe : σ → Prop
  /-- The state before a run is abandoned, and the one that it leaves behind. -/
  left : σ → σ → Prop
  keeps : ∀ {a b}, safe a → step a b → safe b
  left_refl : ∀ a, left a a

namespace System

/-- From one moment of a run to the next one. -/
inductive Next (M : System σ) : Logged σ → Logged σ → Prop
  | report (s : Logged σ) (e : Error) (pos : Position) : Next M s { s with log := s.log.soft e pos }
  | step {s : Logged σ} {b : σ} (h : M.step s.state b) : Next M s { s with state := b }

/-- The moments of a run. -/
def Path (M : System σ) : Logged σ → Logged σ → Prop :=
  Relation.ReflTransGen M.Next

/-- A run is abandoned after a moment, with one more report. -/
structure Stops (M : System σ) (u t : Logged σ) : Prop where
  state : M.left u.state t.state
  log : ∃ e pos, t.log = u.log.fatal e pos ∨ t.log = (u.log.soft e pos).giveUp

variable {M : System σ} {N : System τ}

/-- What every step keeps is kept on every path. -/
theorem Path.safe {s t : Logged σ} (h : M.Path s t) (hs : M.safe s.state) : M.safe t.state := by
  induction h with
  | refl => exact hs
  | tail _ hnext ih =>
    cases hnext with
    | report e pos => exact ih
    | step hstep => exact M.keeps ih hstep

theorem Path.of_step {s : Logged σ} {b : σ} (h : M.step s.state b) :
    M.Path s { s with state := b } :=
  .single (.step h)

/-- A path of one system is a path of another one, if its steps are steps of that one. -/
theorem Path.map {f : τ → σ} (hf : ∀ a b, N.safe a → N.step a b → M.step (f a) (f b))
    {s t : Logged τ} (h : N.Path s t) (hs : N.safe s.state) :
    M.Path { state := f s.state, log := s.log } { state := f t.state, log := t.log } := by
  induction h with
  | refl => exact .refl
  | tail hpath hnext ih =>
    cases hnext with
    | report e pos => exact ih.tail (.report _ e pos)
    | step hstep => exact ih.tail (.step (hf _ _ (Path.safe hpath hs) hstep))

/-- The frame of the runs that belong to a system. -/
def frame (M : System σ) : Frame σ where
  rel s t := M.safe s.state → M.Path s t
  abort s t := M.safe s.state → ∃ u, M.Path s u ∧ M.Stops u t
  refl _ _ := .refl
  trans hst htu hs := (hst hs).trans (htu ((hst hs).safe hs))
  trans_abort hst htu hs :=
    have ⟨v, hv, hstops⟩ := htu ((hst hs).safe hs)
    ⟨v, (hst hs).trans hv, hstops⟩

/-- Only runs that start in safe states matter. -/
theorem ends_of_safe {s : Logged σ} {r : EStateM.Result Abort (Logged σ) α}
    (h : M.safe s.state → M.frame.Ends s r) : M.frame.Ends s r := by
  cases r with
  | ok a t => exact fun hs => h hs hs
  | error x t => exact fun hs => h hs hs

theorem reports (M : System σ) (e : Error) : M.frame.Reports e where
  soft s pos _ := .single (.report s e pos)
  giveUp s pos _ := ⟨s, .refl, M.left_refl _, e, pos, .inr rfl⟩
  fatal s pos _ := ⟨s, .refl, M.left_refl _, e, pos, .inl rfl⟩

theorem holds_update {f : σ → σ} (h : ∀ a, M.safe a → M.step a (f a)) :
    M.frame.Holds (update f) :=
  Frame.holds_update fun s hs => .of_step (h s.state hs)

/-- A run over a part of the state belongs to a system if the run over that part belongs to one
whose steps are steps of the whole. -/
theorem ends_focus {get : σ → τ} {put : τ → σ → σ} {act : Run τ α} {s : Logged σ}
    (hact : N.frame.Ends { state := get s.state, log := s.log }
      (act { state := get s.state, log := s.log }))
    (hsafe : N.safe (get s.state)) (hput : put (get s.state) s.state = s.state)
    (hstep : ∀ a b, N.safe a → N.step a b → M.step (put a s.state) (put b s.state))
    (hleft : ∀ a b, N.left a b → M.left (put a s.state) (put b s.state)) :
    M.frame.Ends s (focus get put act s) := by
  have hpath {u : Logged τ} (hu : N.Path { state := get s.state, log := s.log } u) :
      M.Path s { state := put u.state s.state, log := u.log } := by
    have hmap := hu.map (f := fun a => put a s.state) hstep hsafe
    simp only [hput] at hmap
    exact hmap
  unfold focus
  cases ha : act { state := get s.state, log := s.log } with
  | ok a t =>
    rw [ha] at hact
    exact fun _ => hpath (hact hsafe)
  | error x t =>
    rw [ha] at hact
    obtain ⟨u, hu, hstops⟩ := hact hsafe
    exact fun _ => ⟨_, hpath hu, hleft _ _ hstops.state, hstops.log⟩

end System

end Run

end Cartridge
