import Cartridge.Proofs.Derivation
import Cartridge.Proofs.Evaluation

/-!
# Nodes that wait for others

A node of an expression has to wait for its operands, or for the constant that it stands for. Nodes
that wait for one another stay without a result, however many folds are tried: the fold of such a
node can only be abandoned. The same argument shows that no node is asked for its own result while
it is being folded, unless the fold is abandoned.

Main definitions:

- `SymbolTable.Expressions.Needs`: a node has to wait for another one.
- `SymbolTable.Expressions.Stuck`: a set of nodes each of which waits for another one of the set.

Main results:

- Theorem `SymbolTable.Folds.stays_pending`: a fold leaves nodes that wait for one another, or for
  the node that is being folded, without a result, and does not come to a result for one of them.
- Theorem `SymbolTable.Folds.fresh_inside`: a node has no result before its parts have one.
-/

namespace Cartridge

namespace SymbolTable

variable {t : SymbolTable}

namespace Expressions

/-- The same expressions and one more, if nothing else hangs from its anchor. -/
def including (x : Expressions t) (anchor : Anchor) (scope : ScopeId) (e : Expr)
    (h : ∀ found, x.at? anchor = some found → found = (scope, e)) : Expressions t where
  at? other := if other = anchor then some (scope, e) else x.at? other
  constants hm := by
    split
    · rename_i heq
      exact congrArg some (h _ (heq ▸ x.constants hm)).symm
    · exact x.constants hm

theorem Node.including {x : Expressions t} {site : Site} {scope : ScopeId} {e : Expr}
    {anchor : Anchor} {scope' : ScopeId} {e' : Expr}
    {hfree : ∀ found, x.at? anchor = some found → found = (scope', e')}
    (h : x.Node site scope e) : (x.including anchor scope' e' hfree).Node site scope e := by
  induction h with
  | @root other scope e hangs =>
    refine .root ?_
    show (if other = anchor then some (scope', e') else x.at? other) = _
    split
    · rename_i heq
      exact congrArg some (hfree _ (heq ▸ hangs)).symm
    · exact hangs
  | left _ ih => exact .left ih
  | right _ ih => exact .right ih

/-- An expression and those of the constants. If it is that of a constant then it is folded where
the constant was declared. -/
def around (t : SymbolTable) (anchor : Anchor) (scope : ScopeId) (e : Expr)
    (h : ∀ id, anchor = .constant id → t.meaning? id = some (.constant e scope)) :
    Expressions t :=
  (single t scope e).including anchor scope e fun found hfound => by
    cases anchor with
    | constant id =>
      rw [(single t scope e).constants (h id rfl)] at hfound
      exact (Option.some.inj hfound).symm
    | tree location => cases hfound
    | detached n =>
      cases n with
      | zero => exact (Option.some.inj hfound).symm
      | succ n => cases hfound

theorem node_around {anchor : Anchor} {scope : ScopeId} {e : Expr}
    (h : ∀ id, anchor = .constant id → t.meaning? id = some (.constant e scope)) :
    (around t anchor scope e h).Node { anchor } scope e :=
  .root (if_pos rfl)

/-- A node has to wait for another one: for its operands, or for the constant that it stands for. -/
inductive Needs (x : Expressions t) : Site → Site → Prop
  | left {site scope op a b pos} (whole : x.Node site scope (.operation op a b pos)) :
      Needs x site (site.child .left)
  | right {site scope op a b pos} (whole : x.Node site scope (.operation op a b pos)) :
      Needs x site (site.child .right)
  | constant {site scope path pos id value inner}
      (node : x.Node site scope (.reference path pos)) (target : t.target? scope path = some id)
      (meaning : t.meaning? id = some (.constant value inner)) :
      Needs x site { anchor := .constant id }

variable {x : Expressions t} {demand : Demand} {site other : Site} {scope : ScopeId} {e : Expr}

theorem needs_left {op : BinaryOp} {a b : Expr} (hnode : x.Node site scope e)
    (h : t.finding demand scope e = .operation op a b) :
    x.Needs site (site.child .left) ∧ x.Node (site.child .left) scope a := by
  obtain ⟨pos, rfl⟩ := finding_eq_operation.1 h
  exact ⟨.left hnode, .left hnode⟩

theorem needs_right {op : BinaryOp} {a b : Expr} (hnode : x.Node site scope e)
    (h : t.finding demand scope e = .operation op a b) :
    x.Needs site (site.child .right) ∧ x.Node (site.child .right) scope b := by
  obtain ⟨pos, rfl⟩ := finding_eq_operation.1 h
  exact ⟨.right hnode, .right hnode⟩

theorem needs_constant {id : DefId} {value : Expr} {inner : ScopeId}
    (hnode : x.Node site scope e) (h : t.finding demand scope e = .constant id value inner) :
    x.Needs site { anchor := .constant id } ∧ x.Node { anchor := .constant id } inner value := by
  obtain ⟨path, pos, rfl, htarget, hm⟩ := finding_eq_constant.1 h
  exact ⟨.constant hnode htarget hm, .root (x.constants hm)⟩

/-- What a node waits for, by what there is to do at it. -/
theorem Needs.cases_finding (h : x.Needs site other) (hnode : x.Node site scope e)
    (demand : Demand) :
    (∃ op a b, t.finding demand scope e = .operation op a b ∧
      (other = site.child .left ∨ other = site.child .right)) ∨
    ∃ id value inner, t.finding demand scope e = .constant id value inner ∧
      other = { anchor := .constant id } := by
  cases h with
  | left whole =>
    obtain ⟨rfl, rfl⟩ := hnode.unique whole
    exact .inl ⟨_, _, _, rfl, .inl rfl⟩
  | right whole =>
    obtain ⟨rfl, rfl⟩ := hnode.unique whole
    exact .inl ⟨_, _, _, rfl, .inr rfl⟩
  | constant node target meaning =>
    obtain ⟨rfl, rfl⟩ := hnode.unique node
    exact .inr ⟨_, _, _, finding_eq_constant.2 ⟨_, _, rfl, target, meaning⟩, rfl⟩

/-- Each node of a set waits for another one of the set, or for the given node. -/
def Stuck (x : Expressions t) (P : Site → Prop) (site : Site) : Prop :=
  ∀ q, P q → ∃ q', x.Needs q q' ∧ (P q' ∨ q' = site)

/-- Seen from a node that the given one waits for, the given one belongs to the set. -/
theorem Stuck.descend {P : Site → Prop} (h : x.Stuck P site) (hneeds : x.Needs site other) :
    x.Stuck (fun q => P q ∨ q = site) other := by
  rintro q (hq | rfl)
  · obtain ⟨q', hneeds', hq'⟩ := h q hq
    exact ⟨q', hneeds', .inl hq'⟩
  · exact ⟨other, hneeds, .inr rfl⟩

theorem pending_descend {P : Site → Prop} {memo : Memo} (hP : ∀ q, P q → memo.result q = .pending)
    (hfresh : memo.result site = .pending) : ∀ q, P q ∨ q = site → memo.result q = .pending := by
  rintro q (hq | rfl)
  · exact hP q hq
  · exact hfresh

/-- A node with a result of its own waits for nothing. -/
theorem Stuck.not_own {P : Site → Prop} {verdict : Verdict} (h : x.Stuck P site)
    (hnode : x.Node site scope e) (hfinding : t.finding demand scope e = .own verdict) :
    ¬ P site := by
  intro hsite
  obtain ⟨q, hneeds, -⟩ := h site hsite
  rcases hneeds.cases_finding hnode demand with ⟨op, a, b, hf, -⟩ | ⟨id, value, inner, hf, -⟩ <;>
    cases hfinding.symm.trans hf

/-- What stands for a constant waits for this constant. -/
theorem Stuck.of_constant {P : Site → Prop} {id : DefId} {value : Expr} {inner : ScopeId}
    (h : x.Stuck P site) (hnode : x.Node site scope e)
    (hfinding : t.finding demand scope e = .constant id value inner) (hsite : P site) :
    P { anchor := .constant id } ∨ ({ anchor := .constant id } : Site) = site := by
  obtain ⟨q, hneeds, hq⟩ := h site hsite
  rcases hneeds.cases_finding hnode demand with ⟨op, a, b, hf, -⟩ | ⟨id', value', inner', hf, rfl⟩
  · cases hfinding.symm.trans hf
  · cases hfinding.symm.trans hf
    exact hq

/-- An operation waits for one of its operands. -/
theorem Stuck.of_operation {P : Site → Prop} {op : BinaryOp} {a b : Expr} (h : x.Stuck P site)
    (hnode : x.Node site scope e) (hfinding : t.finding demand scope e = .operation op a b)
    (hsite : P site) :
    (P (site.child .left) ∨ site.child .left = site) ∨
      (P (site.child .right) ∨ site.child .right = site) := by
  obtain ⟨q, hneeds, hq⟩ := h site hsite
  rcases hneeds.cases_finding hnode demand with ⟨op, a, b, -, rfl | rfl⟩ | ⟨id, value, inner, hf, -⟩
  · exact .inl hq
  · exact .inr hq
  · cases hfinding.symm.trans hf

end Expressions

variable {x : Expressions t} {demand : Demand} {chain : List DefId} {scope : ScopeId} {site : Site}
  {e : Expr} {s : Logged Memo} {events : List Event} {r : Outcome}

/-- A fold leaves nodes that wait for one another, or for the node that is being folded, without a
result. If that node is one of them then its fold is abandoned. -/
theorem Folds.stays_pending (h : t.Folds demand chain scope site e s events r)
    (hnode : x.Node site scope e) {P : Site → Prop} (hstuck : x.Stuck P site)
    (hP : ∀ q, P q → s.state.result q = .pending) :
    (∀ q, P q → (Run.ending r).state.result q = .pending) ∧
      (P site → ∃ sign u, r = .error sign u) := by
  -- For the parts of a node the set is larger by the node itself, which is not finished yet.
  induction h generalizing P with
  | known known => exact ⟨hP, fun hsite => absurd (hP _ hsite) known⟩
  | own fresh finding concludes =>
    have hsite : ¬ P _ := fun h => hstuck.not_own hnode finding h
    refine ⟨fun q hq => ?_, fun h => absurd h hsite⟩
    rw [concludes.result_of_ne (fun heq => hsite (heq ▸ hq))]
    exact hP q hq
  | @constant _ _ site _ _ _ _ _ _ _ _ fresh finding room inside ih =>
    obtain ⟨hneeds, hinner⟩ := Expressions.needs_constant hnode finding
    obtain ⟨hpending, habort⟩ :=
      ih hinner (hstuck.descend hneeds) (Expressions.pending_descend hP fresh)
    have hsite : ¬ P _ := fun h => by
      obtain ⟨_, _, hr⟩ := habort (hstuck.of_constant hnode finding h)
      cases hr
    refine ⟨fun q hq => ?_, fun h => absurd h hsite⟩
    have hne : q ≠ site := by
      rintro rfl
      exact hsite hq
    exact (Memo.set_of_ne hne).trans (hpending q (.inl hq))
  | constantAborts fresh finding room inside ih =>
    obtain ⟨hneeds, hinner⟩ := Expressions.needs_constant hnode finding
    have hinside := ih hinner (hstuck.descend hneeds) (Expressions.pending_descend hP fresh)
    exact ⟨fun q hq => hinside.1 q (.inl hq), fun _ => ⟨_, _, rfl⟩⟩
  | tooDeep fresh finding full => exact ⟨hP, fun _ => ⟨_, _, rfl⟩⟩
  | leftAborts fresh finding left ih =>
    obtain ⟨hneeds, ha⟩ := Expressions.needs_left hnode finding
    have hleft := ih ha (hstuck.descend hneeds) (Expressions.pending_descend hP fresh)
    exact ⟨fun q hq => hleft.1 q (.inl hq), fun _ => ⟨_, _, rfl⟩⟩
  | rightAborts fresh finding left right ihl ihr =>
    obtain ⟨hneedsl, ha⟩ := Expressions.needs_left hnode finding
    obtain ⟨hneedsr, hb⟩ := Expressions.needs_right hnode finding
    have hleft := ihl ha (hstuck.descend hneedsl) (Expressions.pending_descend hP fresh)
    have hright := ihr hb (hstuck.descend hneedsr) hleft.1
    exact ⟨fun q hq => hright.1 q (.inl hq), fun _ => ⟨_, _, rfl⟩⟩
  | operation fresh finding left right concludes ihl ihr =>
    obtain ⟨hneedsl, ha⟩ := Expressions.needs_left hnode finding
    obtain ⟨hneedsr, hb⟩ := Expressions.needs_right hnode finding
    have hleft := ihl ha (hstuck.descend hneedsl) (Expressions.pending_descend hP fresh)
    have hright := ihr hb (hstuck.descend hneedsr) hleft.1
    have hsite : ¬ P _ := fun h => by
      rcases hstuck.of_operation hnode finding h with hl | hr
      · obtain ⟨_, _, habort⟩ := hleft.2 hl
        cases habort
      · obtain ⟨_, _, habort⟩ := hright.2 hr
        cases habort
    refine ⟨fun q hq => ?_, fun h => absurd h hsite⟩
    rw [concludes.result_of_ne (fun heq => hsite (heq ▸ hq))]
    exact hright.1 q (.inl hq)

/-- The parts of a node come to no result for the node itself. -/
theorem Folds.fresh_inside {part : Site} (hnode : x.Node part scope e)
    (h : t.Folds demand chain scope part e s events r) (hneeds : x.Needs site part)
    (hfresh : s.state.result site = .pending) :
    (Run.ending r).state.result site = .pending := by
  have hstuck : x.Stuck (· = site) part := by
    rintro q rfl
    exact ⟨part, hneeds, .inr rfl⟩
  refine (h.stays_pending hnode hstuck ?_).1 site rfl
  rintro q rfl
  exact hfresh

end SymbolTable

end Cartridge
