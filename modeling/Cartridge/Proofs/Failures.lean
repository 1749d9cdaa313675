import Cartridge.Proofs.Course
import Cartridge.Proofs.Limits

/-!
# Failures

A compilation goes on after a recoverable error until the limit is reached, and is abandoned by a
fatal one. So at most the last entry of its log is fatal, and that entry tells whether the
compilation was abandoned.

Main definitions:

- `Failure.Shaped`: what the log of a compilation without an image looks like.
- `Log.growing`: the log of a run, compared with itself.

Main results:

- Theorem `Program.failure_shaped`: how the log of a compilation ends.
-/

namespace Cartridge

open Run

namespace Failure

/-- What the log of a compilation without an image looks like. Only the last entry may be fatal, and
it is if the compilation was abandoned. The errors are all the entries but the one that closes the
log, and they are at most as many as the limit allows. -/
structure Shaped (limit : Nat) (abandoned : Prop) (f : Failure) : Prop where
  soft : ∀ d ∈ f.diagnostics.dropLast, d.fatal = false
  errors : f.errors = if f.isClosed then f.diagnostics.length - 1 else f.diagnostics.length
  errors_pos : 1 ≤ f.errors
  errors_le : f.errors ≤ limit
  abandoned : abandoned ↔ f.diagnostics.getLast?.any Diagnostic.fatal = true

variable {f : Failure} {limit : Nat} {abandoned : Prop}

/-- A log that ends with an entry that says whether the compilation was abandoned. -/
theorem Shaped.of_last {first : List Diagnostic} {last : Diagnostic}
    (h : f.diagnostics = first ++ [last]) (hsoft : ∀ d ∈ first, d.fatal = false)
    (herrors : f.errors = if last.isClosing then first.length else first.length + 1)
    (hpos : 1 ≤ f.errors) (hle : f.errors ≤ limit) (hlast : abandoned ↔ last.fatal = true) :
    f.Shaped limit abandoned where
  soft := by
    rw [h, List.dropLast_concat]
    exact hsoft
  errors := by
    have hclosed : f.isClosed = last.isClosing := by
      unfold isClosed
      rw [h, List.getLast?_concat, Option.any_some]
    rw [hclosed, herrors, h, List.length_append]
    rfl
  errors_pos := hpos
  errors_le := hle
  abandoned := by
    rw [h, List.getLast?_concat, Option.any_some]
    exact hlast

end Failure

/-! ## Logs -/

namespace Log

variable {a : Log}

/-- An entry with a position does not close a log. -/
theorem isClosing_of_located {d : Diagnostic} (h : d.pos.isSome = true) : d.isClosing = false := by
  unfold Diagnostic.isClosing
  rw [Option.isNone_eq_false_iff.2 h, Bool.false_and]

/-- A run that has reported something and has finished was not abandoned. -/
theorem Open.shaped (h : a.Open) (hpos : 1 ≤ a.count) :
    (Program.ofRun.failure a).Shaped a.limit False := by
  have hne : a.entries ≠ [] := List.length_pos_iff.1 (h.length ▸ hpos)
  have hsplit : a.entries = a.entries.dropLast ++ [a.entries.getLast hne] :=
    (List.dropLast_concat_getLast hne).symm
  have hmem := List.getLast_mem hne
  refine .of_last hsplit (fun d hd => h.soft d (List.dropLast_subset _ hd)) ?_ hpos
    (Nat.le_of_lt h.room) ?_
  · rw [isClosing_of_located (h.located _ hmem), List.length_dropLast, h.length]
    exact (Nat.sub_add_cancel hpos).symm
  · rw [h.soft _ hmem]
    exact ⟨False.elim, nofun⟩

/-- A fatal error is the last entry. -/
theorem Open.shaped_fatal (h : a.Open) (e : Error) (pos : Position) :
    (Program.ofRun.failure (a.fatal e pos)).Shaped a.limit True :=
  .of_last rfl h.soft (congrArg (· + 1) h.length.symm) (Nat.succ_pos _) h.room
    (iff_of_true trivial rfl)

/-- The error with which the limit is reached is followed by the closing entry. -/
theorem Open.shaped_giveUp (h : a.Open) (e : Error) (pos : Position) :
    (Program.ofRun.failure (a.soft e pos).giveUp).Shaped a.limit True :=
  .of_last rfl (h.soft_append e pos) (h.length_append false e pos).symm (Nat.succ_pos _) h.room
    (iff_of_true trivial rfl)

/-- The log of a run, compared with itself: it stays below its limit and without fatal errors as
long as the run goes on. -/
def growing (limit : Nat) : Coupling where
  rel a b := b = a ∧ a.limit = limit ∧ a.Open
  abort a _ := (Program.ofRun.failure a).Shaped limit True
  early _ _ := False
  soft := by
    rintro a b _ _ e pos ⟨rfl, rfl⟩ ⟨rfl, rfl, ha⟩ hroom
    exact ⟨hroom, rfl, rfl, hroom, ha.length_append false e pos, ha.soft_append e pos,
      located_append ha.located _ _ _⟩
  full := by
    rintro a b _ _ e pos ⟨rfl, rfl⟩ ⟨rfl, rfl, ha⟩ - -
    exact ha.shaped_giveUp e pos
  leave := by
    rintro a b _ _ e pos ⟨rfl, rfl⟩ ⟨rfl, rfl, -⟩ hfull hroom
    exact Nat.not_le.2 hroom hfull
  fatal := by
    rintro a b _ _ e pos ⟨rfl, rfl⟩ ⟨rfl, rfl, ha⟩
    exact ha.shaped_fatal e pos
  early_soft _ _ h := h
  early_full _ _ h := h.elim
  early_fatal _ _ h := h.elim

end Log

/-! ## Programs -/

namespace Program

theorem meet_growing (files : Files) (config : Config) (program : Program) :
    Meet (Log.growing (max config.errorLimit 1)) (Context.Alike .same)
      (program.passes files (start config)) (program.passes files (start config)) :=
  meet_passes (.self program.block (Atlas.sends_same _)) rfl ⟨rfl, rfl, Log.open_empty _⟩

/-- A compilation that finishes stays below its limit, without fatal errors. -/
theorem open_of_passes {files : Files} {config : Config} {program : Program} {image : List UInt8}
    {s : Logged Context} (h : program.passes files (start config) = .ok image s) :
    s.log.limit = max config.errorLimit 1 ∧ s.log.Open := by
  have hmeet := meet_growing files config program
  rw [h] at hmeet
  exact hmeet.2.2.2

/-- The log of a compilation that is abandoned ends with a fatal error. -/
theorem shaped_of_abort {files : Files} {config : Config} {program : Program} {x : Abort}
    {s : Logged Context} (h : program.passes files (start config) = .error x s) :
    (ofRun.failure s.log).Shaped (max config.errorLimit 1) True := by
  have hmeet := meet_growing files config program
  rw [h] at hmeet
  exact hmeet

/-- There is an image exactly if the passes finish and nothing at all was reported. Otherwise at
most the last entry of the log is fatal, which it is exactly if the passes were abandoned. The
errors are all the entries but the closing one, at least one and at most as many as the limit
allows. Once a visit of any of the passes is abandoned nothing more is reported. -/
theorem failure_shaped (files : Files) (config : Config) (program : Program) :
    (∀ image, (program.compile files config).result = .ok image ↔
        ∃ s, program.passes files (start config) = .ok image s ∧ s.log.entries = []) ∧
      ∀ f, (program.compile files config).result = .error f →
        f.Shaped (max config.errorLimit 1)
            (∃ x s, program.passes files (start config) = .error x s) ∧
          ∀ phase, ∀ v ∈ program.course files config phase, ∀ x s,
            v.result = .error x s → f.diagnostics = s.log.entries := by
  constructor
  · intro image
    rw [compile, result_ofRun]
    refine exists_congr fun s => and_congr_right fun hs => ?_
    rw [← List.length_eq_zero_iff, (open_of_passes hs).2.length]
    exact beq_iff_eq
  · intro f hf
    obtain ⟨s, rfl, hs⟩ := failure_of_result hf
    constructor
    · rcases hs with ⟨image, hs⟩ | ⟨x, hs⟩
      · obtain ⟨hlimit, hopen⟩ := open_of_passes hs
        have hdirty : ¬s.log.isClean = true := by
          intro hclean
          have hok := result_ofRun.2 ⟨s, hs, hclean⟩
          rw [compile, hok] at hf
          cases hf
        have hnone : ¬∃ x s, program.passes files (start config) = .error x s := by
          rintro ⟨x, t, ht⟩
          cases hs.symm.trans ht
        rw [← hlimit, eq_false hnone]
        exact hopen.shaped (Nat.pos_of_ne_zero fun h => hdirty (beq_iff_eq.2 h))
      · have hsome : ∃ x s, program.passes files (start config) = .error x s := ⟨x, s, hs⟩
        rw [eq_true hsome]
        exact shaped_of_abort hs
    · intro phase v hv x t hresult
      have hleaves : Leaves t.log v.result := by
        rw [hresult]
        rfl
      have hend := ends_of_course hv hleaves
      rcases hs with ⟨image, hs⟩ | ⟨y, hs⟩
      · rw [hs] at hend
        exact hend.elim
      · rw [hs] at hend
        exact congrArg Log.entries hend

/-- Two redefinitions are reported, and the missing header abandons the first pass. -/
theorem failure_shaped_redefined :
    ∃ f x s, (redefined.compile (fun _ => .error .notFound) { errorLimit := 5 }).result = .error f ∧
      f.errors = 3 ∧
      f.Shaped 5 (∃ x s, redefined.passes (fun _ => .error .notFound)
        (start { errorLimit := 5 }) = .error x s) ∧
      redefined.block.gather .top (start { errorLimit := 5 }) = .error x s ∧
      f.diagnostics = s.log.entries := by
  have hresult : (redefined.compile (fun _ => .error .notFound) { errorLimit := 5 }).result =
    .error _ := rfl
  obtain ⟨x, s, hvisit⟩ :
      ∃ x s, redefined.block.gather .top (start { errorLimit := 5 }) = .error x s :=
    exists_of_not_finishes rfl
  have hmem : Walk.gathering.toStatement .top redefined.block (start { errorLimit := 5 }) ∈
      redefined.course (fun _ => .error .notFound) { errorLimit := 5 } .gathering :=
    List.mem_cons_self
  have hshaped := (failure_shaped _ _ redefined).2 _ hresult
  exact ⟨_, x, s, hresult, rfl, hshaped.1, hvisit, hshaped.2 .gathering _ hmem x s hvisit⟩

end Program

end Cartridge
