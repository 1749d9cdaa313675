import Cartridge.Compile.Basic
import Cartridge.Proofs.Visits

/-!
# The course of a compilation

The three passes visit the tree one after the other. The pass that gathers declarations goes through
a block in two rounds: it visits the constants first, and then the rom of the block is started and
everything else is visited. Once a visit is abandoned there is nothing more in the log than what was
there at that moment.

Main definitions:

- `Statement.declarations`: the visits of the pass that gathers declarations.
- `Program.course`: the visits of a pass of a compilation.

Main results:

- Theorem `Program.ends_of_course`: a visit that is abandoned ends the compilation.
-/

namespace Cartridge

open Run

/-! ## The visits of the first pass -/

/-- The pass that gathers declarations. -/
def Walk.gathering : Walk where
  statement location stmt := stmt.gather location
  command _ _ _ _ := pure ()

/-- The context inside a block whose scope was just opened. -/
def Context.opened (location : Location) (scope : ScopeId) (ctx : Context) : Context :=
  { ctx with scopes := ctx.scopes.set location (some scope) }.enter scope

namespace Statement

/-- The visits to the constants among the statements of a block, from the one with the given index
on. -/
def constantDeclarations (location : Location) :
    Nat → List Statement → Logged Context → List Visit
  | _, [], _ => []
  | index, .constant name value :: rest, s =>
    Walk.gathering.toStatement (location.child index) (.constant name value) s ::
      Walk.next (value.declare name s) (constantDeclarations location (index + 1) rest)
  | index, _ :: rest, s => constantDeclarations location (index + 1) rest s

mutual

/-- The visits to everything inside a statement. -/
def declarationsInside (location : Location) : Statement → Logged Context → List Visit
  | .block kind statements pos, s =>
    match kind.openScope s with
    | .error _ _ => []
    | .ok scope t =>
      constantDeclarations location 0 statements
          { t with state := t.state.opened location scope } ++
        Walk.next (gatherConstants statements { t with state := t.state.opened location scope })
          fun u => Walk.next (kind.startRom location statements pos u)
            (otherDeclarations location 0 statements)
  | .command _, _ | .header _, _ | .relocation _ _, _ | .label _, _ | .constant _ _, _
  | .storage _, _ | .data _, _ | .branch _, _ | .embed _ _, _ => []

/-- The visits to the statements of a block that are neither constants nor headers, from the one
with the given index on, and to everything inside them. -/
def otherDeclarations (location : Location) :
    Nat → List Statement → Logged Context → List Visit
  | _, [], _ => []
  | index, stmt :: rest, s =>
    if stmt.isConstant || stmt.isHeader then otherDeclarations location (index + 1) rest s
    else
      Walk.gathering.toStatement (location.child index) stmt s ::
        (stmt.declarationsInside (location.child index) s ++
          Walk.next (stmt.gather (location.child index) s)
            (otherDeclarations location (index + 1) rest))

end

/-- The visits to a statement and to everything inside it. -/
def declarations (location : Location) (stmt : Statement) (s : Logged Context) : List Visit :=
  Walk.gathering.toStatement location stmt s :: stmt.declarationsInside location s

end Statement

/-- The passes of a compilation. -/
inductive Phase where
  | gathering
  | layout
  | emission
deriving DecidableEq, Repr

/-- The visits of a pass of a compilation. There are none if the compilation was abandoned
before. -/
def Program.course (files : Files) (config : Config) (program : Program) : Phase → List Visit
  | .gathering => program.block.declarations .top (start config)
  | .layout => Walk.next (program.gather (start config)) (program.block.visits (.layout files) .top)
  | .emission =>
    Walk.next (program.gather (start config)) fun s =>
      Walk.next (program.layOut files s) fun t =>
        Walk.next (program.rewind t) (program.block.visits .emission .top)

/-! ## Abandoned visits -/

namespace Run

variable {σ α β : Type} {log : Log}

/-- A run was abandoned, and has left a log. -/
def Leaves (log : Log) : EStateM.Result Abort (Logged σ) α → Prop
  | .ok _ _ => False
  | .error _ t => t.log = log

theorem Leaves.bind {act : Run σ α} {s : Logged σ} (h : Leaves log (act s))
    (next : α → Run σ β) : Leaves log ((act >>= next) s) := by
  cases ha : act s with
  | ok a t =>
    rw [ha] at h
    exact h.elim
  | error x t =>
    rw [bind_apply_of_error ha]
    rw [ha] at h
    exact h

theorem Leaves.bind_of_ok {act : Run σ α} {next : α → Run σ β} {s t : Logged σ} {a : α}
    (ha : act s = .ok a t) (h : Leaves log (next a t)) : Leaves log ((act >>= next) s) := by
  rw [bind_apply_of_ok ha]
  exact h

theorem Leaves.within {act : Pass α} {scope : ScopeId} {s : Logged Context}
    (h : Leaves log (act { s with state := s.state.enter scope })) :
    Leaves log (Pass.within scope act s) := by
  unfold Pass.within
  cases ha : act { s with state := s.state.enter scope } with
  | ok a t =>
    rw [ha] at h
    exact h.elim
  | error x t =>
    rw [ha] at h
    exact h

end Run

namespace Statement

variable {log : Log} {v : Visit}

/-- A pass is abandoned where a visit is. -/
theorem leaves_visits {w : Walk} (hw : w.Lawful) (stmt : Statement) {location : Location}
    {s : Logged Context} (hv : v ∈ stmt.visits w location s) (h : Leaves log v.result) :
    Leaves log (w.statement location stmt s) := by
  have hcomes := comes_of_mem_visits stmt hv
  clear hv
  induction hcomes with
  | here visit =>
    rw [visit] at h
    exact h
  | command reached visit =>
    rw [visit] at h
    have hcommand : Leaves log (w.command _ _ _ _ _) := h
    rw [hw.command, Walk.commands_append]
    refine .bind_of_ok reached ?_
    rw [Nat.zero_add]
    exact hcommand.bind _
  | block entered reached _ ih =>
    rw [hw.block, Walk.statements_append]
    refine .bind_of_ok (Pass.scopeOf_eq_ok.2 ⟨entered, rfl⟩) (.within (.bind_of_ok reached ?_))
    rw [Nat.zero_add]
    exact ih.bind _

theorem leaves_constantDeclarations {location : Location} {statements : List Statement}
    {index : Nat} {s : Logged Context}
    (hv : v ∈ constantDeclarations location index statements s) (h : Leaves log v.result) :
    Leaves log (gatherConstants statements s) := by
  induction statements generalizing index s with
  | nil => exact absurd hv List.not_mem_nil
  | cons stmt rest ih =>
    cases stmt with
    | constant name value =>
      rcases List.mem_cons.1 hv with rfl | hv
      · have hdeclare : Leaves log (value.declare name s) := h
        exact hdeclare.bind _
      · obtain ⟨t, ht, hv⟩ := Walk.mem_next.1 hv
        exact .bind_of_ok ht (ih hv)
    | _ => exact ih hv

mutual

theorem leaves_declarationsInside (h : Leaves log v.result) :
    ∀ (stmt : Statement) {location : Location} {s : Logged Context},
      v ∈ stmt.declarationsInside location s → Leaves log (stmt.gather location s)
  | .block kind statements pos, location, s, hv => by
    simp only [declarationsInside] at hv
    cases hscope : kind.openScope s with
    | error x t =>
      rw [hscope] at hv
      exact absurd hv List.not_mem_nil
    | ok scope t =>
      rw [hscope] at hv
      simp only [gather]
      refine .bind_of_ok hscope (.bind_of_ok rfl (.within ?_))
      rcases List.mem_append.1 hv with hv | hv
      · exact (leaves_constantDeclarations hv h).bind _
      · obtain ⟨u, hu, hv⟩ := Walk.mem_next.1 hv
        obtain ⟨w, hw, hv⟩ := Walk.mem_next.1 hv
        exact .bind_of_ok hu (.bind_of_ok hw (leaves_otherDeclarations h statements hv))
  | .command _, _, _, hv => absurd hv List.not_mem_nil
  | .header _, _, _, hv => absurd hv List.not_mem_nil
  | .relocation _ _, _, _, hv => absurd hv List.not_mem_nil
  | .label _, _, _, hv => absurd hv List.not_mem_nil
  | .constant _ _, _, _, hv => absurd hv List.not_mem_nil
  | .storage _, _, _, hv => absurd hv List.not_mem_nil
  | .data _, _, _, hv => absurd hv List.not_mem_nil
  | .branch _, _, _, hv => absurd hv List.not_mem_nil
  | .embed _ _, _, _, hv => absurd hv List.not_mem_nil

theorem leaves_otherDeclarations (h : Leaves log v.result) :
    ∀ (statements : List Statement) {location : Location} {index : Nat} {s : Logged Context},
      v ∈ otherDeclarations location index statements s →
      Leaves log (gatherOthers location index statements s)
  | [], _, _, _, hv => absurd hv List.not_mem_nil
  | stmt :: rest, location, index, s, hv => by
    rw [otherDeclarations] at hv
    rw [gatherOthers]
    split at hv
    · rename_i hskip
      rw [if_pos hskip]
      exact .bind_of_ok rfl (leaves_otherDeclarations h rest hv)
    · rename_i hskip
      rw [if_neg hskip]
      rcases List.mem_cons.1 hv with rfl | hv
      · have hgather : Leaves log (stmt.gather (location.child index) s) := h
        exact hgather.bind _
      · rcases List.mem_append.1 hv with hv | hv
        · exact (leaves_declarationsInside h stmt hv).bind _
        · obtain ⟨t, ht, hv⟩ := Walk.mem_next.1 hv
          exact .bind_of_ok ht (leaves_otherDeclarations h rest hv)

end

/-- The first pass is abandoned where a visit is. -/
theorem leaves_declarations (stmt : Statement) {location : Location} {s : Logged Context}
    (hv : v ∈ stmt.declarations location s) (h : Leaves log v.result) :
    Leaves log (stmt.gather location s) := by
  rcases List.mem_cons.1 hv with rfl | hv
  · exact h
  · exact leaves_declarationsInside h stmt hv

end Statement

namespace Program

/-- A visit that is abandoned ends the compilation. -/
theorem ends_of_course {files : Files} {config : Config} {program : Program} {phase : Phase}
    {v : Visit} (hv : v ∈ program.course files config phase) {log : Log}
    (h : Leaves log v.result) : Leaves log (program.passes files (start config)) := by
  cases phase with
  | gathering =>
    exact ((Statement.leaves_declarations program.block hv h).bind _).bind _
  | layout =>
    obtain ⟨s, hs, hv⟩ := Walk.mem_next.1 hv
    have hend := Statement.leaves_visits (Walk.lawful_layout files) program.block hv h
    exact .bind_of_ok hs ((hend.bind _).bind _)
  | emission =>
    obtain ⟨s, hs, hv⟩ := Walk.mem_next.1 hv
    obtain ⟨t, ht, hv⟩ := Walk.mem_next.1 hv
    obtain ⟨u, hu, hv⟩ := Walk.mem_next.1 hv
    have hend := Statement.leaves_visits Walk.lawful_emission program.block hv h
    exact .bind_of_ok hs (.bind_of_ok ht (.bind_of_ok hu (hend.bind _)))

end Program

end Cartridge
