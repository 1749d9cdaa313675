import Cartridge.Proofs.Remembered
import Cartridge.Proofs.Waiting
import Mathlib.Logic.Relation

/-!
# What an expression amounts to

The result of an expression, without a memo and without a limit on how deeply constants are nested.
If it is a value then it is the one that the expression denotes; but an expression may also amount
to something invalid, or to nothing yet. A fold that finishes comes to it, and so does every node on
the way. Hence a memo in which folds have left their results is well-grounded: a node that has a
result has the one it amounts to, and all that it waits for has a result as well, as far as it
amounts to one.

Main definitions:

- `SymbolTable.Amounts`: what an expression amounts to.
- `SymbolTable.Expressions.Finished`: all that a node waits for has its result.
- `SymbolTable.Expressions.Grounded`: every node with a result is finished.

Main results:

- Theorem `SymbolTable.Amounts.unique`: an expression amounts to one result at most.
- Theorem `SymbolTable.amounts_value_iff`: the values among these results are what is denoted.
- Theorem `SymbolTable.Folds.unchanged`: a fold changes nothing but what its node waits for.
- Theorem `SymbolTable.Folds.grounded`: a fold that finishes comes to what its expression amounts
  to, and keeps the memo well-grounded.
-/

namespace Cartridge

namespace SymbolTable

variable {t : SymbolTable} {demand : Demand} {scope : ScopeId} {site : Site} {e : Expr}
  {folded : Folded}

/-- What an expression amounts to in a scope, however deeply constants are nested. -/
inductive Amounts (t : SymbolTable) (demand : Demand) : ScopeId → Expr → Folded → Prop
  | own {scope e verdict} (finding : t.finding demand scope e = .own verdict) :
      Amounts t demand scope e verdict.folded
  | constant {scope e id value inner folded}
      (finding : t.finding demand scope e = .constant id value inner)
      (inside : Amounts t demand inner value folded) : Amounts t demand scope e folded
  | operation {scope e op a b l r} (finding : t.finding demand scope e = .operation op a b)
      (left : Amounts t demand scope a l) (right : Amounts t demand scope b r) :
      Amounts t demand scope e (op.verdict e.pos l r).folded

/-- An expression amounts to one result at most. -/
theorem Amounts.unique {folded' : Folded} (h : t.Amounts demand scope e folded)
    (h' : t.Amounts demand scope e folded') : folded = folded' := by
  induction h generalizing folded' with
  | own finding =>
    cases h' with
    | own finding' =>
      cases finding.symm.trans finding'
      rfl
    | constant finding' | operation finding' => cases finding.symm.trans finding'
  | constant finding inside ih =>
    cases h' with
    | constant finding' inside' =>
      cases finding.symm.trans finding'
      exact ih inside'
    | own finding' | operation finding' => cases finding.symm.trans finding'
  | operation finding left right ihl ihr =>
    cases h' with
    | operation finding' left' right' =>
      cases finding.symm.trans finding'
      rw [ihl left', ihr right']
    | own finding' | constant finding' => cases finding.symm.trans finding'

/-- An expression that amounts to a value denotes it. -/
theorem Amounts.denotes {v : UInt16} (h : t.Amounts demand scope e (.value v)) :
    t.Denotes scope e v := by
  have hsettled {scope : ScopeId} {e : Expr} {v : UInt16} :
      Settles t .empty { anchor := .detached 0 } scope e v ↔ t.Denotes scope e v :=
    settles_empty_iff
  generalize hfolded : Folded.value v = folded at h
  induction h generalizing v with
  | own finding => exact hsettled.1 ((settles_iff_of_own rfl finding).2 hfolded.symm)
  | constant finding _ ih =>
    refine hsettled.1 ((settles_iff_of_constant rfl finding).2 ?_)
    exact settles_empty_iff.2 (ih hfolded)
  | operation finding _ _ ihl ihr =>
    obtain ⟨a, b, rfl, rfl, happly⟩ := BinaryOp.folded_verdict_eq_value.1 hfolded.symm
    refine hsettled.1 ((settles_iff_of_operation rfl finding).2 ⟨a, b, ?_, ?_, happly⟩)
    · exact settles_empty_iff.2 (ihl rfl)
    · exact settles_empty_iff.2 (ihr rfl)

/-- An expression amounts to the value that it denotes, whatever is demanded. -/
theorem Denotes.amounts {v : UInt16} (h : t.Denotes scope e v) (demand : Demand) :
    t.Amounts demand scope e (.value v) := by
  have hreference {scope : ScopeId} {path : List Name} {pos : Position} {id : DefId}
      {address : UInt16} (target : t.target? scope path = some id)
      (h : t.usage demand path pos id = .own (.result (.value address))) :
      t.Amounts demand scope (.reference path pos) (.value address) := by
    have hfinding : t.finding demand scope (.reference path pos) =
        .own (.result (.value address)) := by
      show t.referent demand scope path pos = _
      unfold referent
      rw [search_eq_some.2 target]
      exact h
    exact .own hfinding
  induction h with
  | @number scope v pos =>
    have hfinding : t.finding demand scope (.number v pos) = .own (.result (.value v)) := rfl
    exact .own hfinding
  | storage target meaning => exact hreference target (by simp only [usage, meaning])
  | label target meaning => exact hreference target (by simp only [usage, meaning])
  | constant target meaning _ ih =>
    exact .constant (finding_eq_constant.2 ⟨_, _, rfl, target, meaning⟩) ih
  | @operation scope op a b pos l r v _ _ apply ihl ihr =>
    have hoperation := Amounts.operation (e := .operation op a b pos) rfl ihl ihr
    rwa [BinaryOp.folded_verdict_eq_value.2 ⟨l, r, rfl, rfl, apply⟩] at hoperation

/-- The values among the results of expressions are what they denote. -/
theorem amounts_value_iff {v : UInt16} :
    t.Amounts demand scope e (.value v) ↔ t.Denotes scope e v :=
  ⟨Amounts.denotes, fun h => h.amounts demand⟩

namespace Expressions

variable {x : Expressions t} {memo memo' : Memo}

/-- All that a node waits for has its result, as far as it amounts to one. -/
def Finished (x : Expressions t) (demand : Demand) (memo : Memo) (site : Site) : Prop :=
  ∀ q scope e folded, Relation.ReflTransGen x.Needs site q → x.Node q scope e →
    t.Amounts demand scope e folded → folded ≠ .pending → memo.result q = folded

/-- Every node with a result has the one it amounts to, and is finished. -/
def Grounded (x : Expressions t) (demand : Demand) (memo : Memo) : Prop :=
  ∀ site scope e, x.Node site scope e → memo.result site ≠ .pending →
    t.Amounts demand scope e (memo.result site) ∧ x.Finished demand memo site

theorem Finished.mono (h : x.Finished demand memo site) (hle : memo.Le memo') :
    x.Finished demand memo' site := by
  intro q scope e folded hreach hnode hamounts hne
  have hq := h q scope e folded hreach hnode hamounts hne
  rw [hle q (hq ▸ hne), hq]

/-- Where nothing is known there is nothing to ground. -/
theorem grounded_of_pending (h : ∀ site, memo.result site = .pending) : x.Grounded demand memo :=
  fun site _ _ _ hne => absurd (h site) hne

/-- The result of a node whose parts are finished may be added. -/
theorem Grounded.set (h : x.Grounded demand memo) (hnode : x.Node site scope e)
    (hfresh : memo.result site = .pending) (hamounts : t.Amounts demand scope e folded)
    (hparts : ∀ q, x.Needs site q → x.Finished demand memo q) :
    x.Grounded demand (memo.set site folded) ∧
      x.Finished demand (memo.set site folded) site := by
  have hle : memo.Le (memo.set site folded) := (Memo.Le.refl memo).set hfresh
  have hsite : x.Finished demand (memo.set site folded) site := by
    intro q scope' e' folded' hreach hq hamounts' hne
    rcases hreach.cases_head with rfl | ⟨p, hneeds, hreach⟩
    · obtain ⟨rfl, rfl⟩ := hnode.unique hq
      rw [Memo.set_self]
      exact hamounts.unique hamounts'
    · exact (hparts p hneeds).mono hle q scope' e' folded' hreach hq hamounts' hne
  refine ⟨fun other scope' e' hother hne => ?_, hsite⟩
  by_cases heq : other = site
  · subst heq
    obtain ⟨rfl, rfl⟩ := hnode.unique hother
    rw [Memo.set_self]
    exact ⟨hamounts, hsite⟩
  · rw [Memo.set_of_ne heq] at hne ⊢
    exact (h other scope' e' hother hne).imp_right fun hfinished => hfinished.mono hle

/-- What a node waits for is a node. -/
theorem Needs.exists_node {other : Site} (h : x.Needs site other) :
    ∃ scope e, x.Node other scope e := by
  cases h with
  | left whole => exact ⟨_, _, .left whole⟩
  | right whole => exact ⟨_, _, .right whole⟩
  | constant node target meaning => exact ⟨_, _, .root (x.constants meaning)⟩

theorem exists_node_of_reaches {other : Site} (hnode : x.Node site scope e)
    (h : Relation.ReflTransGen x.Needs site other) : ∃ scope e, x.Node other scope e := by
  rcases h.cases_tail with rfl | ⟨_, -, hneeds⟩
  · exact ⟨scope, e, hnode⟩
  · exact hneeds.exists_node

end Expressions

variable {x : Expressions t} {chain : List DefId} {s u : Logged Memo} {events : List Event}
  {r : Outcome}

/-- A fold changes nothing but what its node waits for. -/
theorem Folds.unchanged (h : t.Folds demand chain scope site e s events r)
    (hnode : x.Node site scope e) {q : Site} (hq : ¬ Relation.ReflTransGen x.Needs site q) :
    (Run.ending r).state.result q = s.state.result q := by
  have hne : ∀ {p}, ¬ Relation.ReflTransGen x.Needs p q → q ≠ p := by
    rintro p hp rfl
    exact hp .refl
  induction h with
  | known known => rfl
  | own fresh finding concludes => exact concludes.result_of_ne (hne hq)
  | constant fresh finding room inside ih =>
    obtain ⟨hneeds, hinner⟩ := Expressions.needs_constant hnode finding
    exact (Memo.set_of_ne (hne hq)).trans (ih hinner fun h => hq (.head hneeds h))
  | constantAborts fresh finding room inside ih =>
    obtain ⟨hneeds, hinner⟩ := Expressions.needs_constant hnode finding
    exact ih hinner fun h => hq (.head hneeds h)
  | tooDeep fresh finding full => rfl
  | leftAborts fresh finding left ih =>
    obtain ⟨hneeds, ha⟩ := Expressions.needs_left hnode finding
    exact ih ha fun h => hq (.head hneeds h)
  | rightAborts fresh finding left right ihl ihr =>
    obtain ⟨hneedsl, ha⟩ := Expressions.needs_left hnode finding
    obtain ⟨hneedsr, hb⟩ := Expressions.needs_right hnode finding
    exact (ihr hb fun h => hq (.head hneedsr h)).trans (ihl ha fun h => hq (.head hneedsl h))
  | operation fresh finding left right concludes ihl ihr =>
    obtain ⟨hneedsl, ha⟩ := Expressions.needs_left hnode finding
    obtain ⟨hneedsr, hb⟩ := Expressions.needs_right hnode finding
    exact (concludes.result_of_ne (hne hq)).trans
      ((ihr hb fun h => hq (.head hneedsr h)).trans (ihl ha fun h => hq (.head hneedsl h)))

/-- A fold that finishes comes to what its expression amounts to, and keeps the memo
well-grounded. -/
theorem Folds.grounded (h : t.Folds demand chain scope site e s events (.ok folded u))
    (hnode : x.Node site scope e) (hs : x.Grounded demand s.state) :
    t.Amounts demand scope e folded ∧ x.Grounded demand u.state ∧
      x.Finished demand u.state site := by
  generalize hr : (EStateM.Result.ok folded u : Outcome) = r at h
  induction h generalizing folded u with
  | known known =>
    cases hr
    obtain ⟨hamounts, hfinished⟩ := hs _ _ _ hnode known
    exact ⟨hamounts, hs, hfinished⟩
  | own fresh finding concludes =>
    cases hr
    obtain ⟨rfl, hu⟩ := concludes.folded_eq
    rw [hu]
    refine ⟨.own finding, hs.set hnode fresh (.own finding) fun q hneeds => ?_⟩
    rcases hneeds.cases_finding hnode demand with ⟨_, _, _, hf, -⟩ | ⟨_, _, _, hf, -⟩ <;>
      cases finding.symm.trans hf
  | constant fresh finding room inside ih =>
    cases hr
    obtain ⟨hneeds, hinner⟩ := Expressions.needs_constant hnode finding
    obtain ⟨hamounts, hu, hfinished⟩ := ih hinner hs rfl
    have hfresh := inside.fresh_inside hinner hneeds fresh
    refine ⟨.constant finding hamounts, hu.set hnode hfresh (.constant finding hamounts) ?_⟩
    intro q hq
    rcases hq.cases_finding hnode demand with ⟨_, _, _, hf, -⟩ | ⟨_, _, _, hf, rfl⟩ <;>
      cases finding.symm.trans hf
    exact hfinished
  | constantAborts | tooDeep | leftAborts | rightAborts => cases hr
  | operation fresh finding left right concludes ihl ihr =>
    cases hr
    obtain ⟨hneedsl, ha⟩ := Expressions.needs_left hnode finding
    obtain ⟨hneedsr, hb⟩ := Expressions.needs_right hnode finding
    obtain ⟨hamountsl, hv, hfinishedl⟩ := ihl ha hs rfl
    obtain ⟨hamountsr, hw, hfinishedr⟩ := ihr hb hv rfl
    have hfresh := right.fresh_inside hb hneedsr (left.fresh_inside ha hneedsl fresh)
    obtain ⟨rfl, hu⟩ := concludes.folded_eq
    rw [hu]
    have hamounts := Amounts.operation finding hamountsl hamountsr
    refine ⟨hamounts, hw.set hnode hfresh hamounts fun q hq => ?_⟩
    rcases hq.cases_finding hnode demand with ⟨_, _, _, hf, rfl | rfl⟩ | ⟨_, _, _, hf, -⟩
    · exact hfinishedl.mono right.le
    · exact hfinishedr
    · cases finding.symm.trans hf

end SymbolTable

end Cartridge
