import Cartridge.Proofs.Denotation
import Cartridge.Proofs.Session

/-!
# Folds that start with a memo

What a fold comes to when some results are remembered already, in whatever order the expressions are
folded. A fold that finishes comes to a value exactly if its expression settles to this value, and
it leaves a memo behind for which the same is true of the next fold.

Main definitions:

- `SymbolTable.Exact`: a memo in which exactly those results are values that have to be.
- `Log.isCutShort`: the last entry of a log says that a run was cut short.

Main results:

- Theorem `SymbolTable.Folds.exact`: what a fold comes to, and what it leaves behind.
- Theorem `SymbolTable.Folds.isCutShort`: a fold that is abandoned was cut short.
- Theorem `SymbolTable.gains_fold`: what a fold reports.
-/

namespace Cartridge

/-! ## Runs that are cut short -/

/-- Whether a cause ends a run before everything was looked at: too many errors, or constants that
are nested too deeply. -/
def Error.cutsShort : Error → Bool
  | tooManyErrors _ | tooManyExpansions _ _ => true
  | _ => false

/-- Whether the last entry says that a run was cut short. -/
def Log.isCutShort (log : Log) : Bool :=
  log.entries.getLast?.any fun d => d.error.cutsShort

theorem Log.isCutShort_giveUp (log : Log) : log.giveUp.isCutShort = true := by
  unfold isCutShort giveUp
  rw [List.getLast?_concat]
  rfl

theorem Log.isCutShort_fatal (log : Log) (e : Error) (pos : Position) :
    (log.fatal e pos).isCutShort = e.cutsShort := by
  unfold isCutShort fatal
  rw [List.getLast?_concat]
  rfl

/-! ## What an operation comes to -/

/-- An operation has a value exactly if its operands have values to which it can be applied. -/
theorem BinaryOp.folded_verdict_eq_value {op : BinaryOp} {pos : Position} {l r : Folded}
    {v : UInt16} :
    (op.verdict pos l r).folded = .value v ↔
      ∃ a b, l = .value a ∧ r = .value b ∧ op.apply a b = .ok v := by
  constructor
  · intro h
    rcases l with _ | a | _ <;> rcases r with _ | b | _ <;> try cases h
    refine ⟨a, b, rfl, rfl, ?_⟩
    simp only [verdict] at h
    cases happly : op.apply a b with
    | ok w =>
      rw [happly] at h
      cases h
      rfl
    | error e =>
      rw [happly] at h
      cases h
  · rintro ⟨a, b, rfl, rfl, happly⟩
    simp only [verdict, happly, Verdict.folded]

namespace SymbolTable

variable {t : SymbolTable} {tree : Location → ScopeId → Expr → Prop} {first memo : Memo}
  {demand : Demand} {site : Site} {scope : ScopeId} {e : Expr} {v : UInt16}

/-! ## What nodes settle to -/

/-- What was found to be invalid settles to no value. -/
theorem Settles.ne_invalid (h : Settles t memo site scope e v) : memo.result site ≠ .invalid := by
  intro hinvalid
  cases h with
  | known known => cases known.symm.trans hinvalid
  | number fresh => cases fresh.symm.trans hinvalid
  | storage fresh _ _ => cases fresh.symm.trans hinvalid
  | label fresh _ _ => cases fresh.symm.trans hinvalid
  | constant fresh _ _ _ => cases fresh.symm.trans hinvalid
  | operation fresh _ _ _ => cases fresh.symm.trans hinvalid

/-- What a node with a result of its own settles to. -/
theorem settles_iff_of_own {verdict : Verdict} (hfresh : memo.result site = .pending)
    (hfinding : t.finding demand scope e = .own verdict) :
    Settles t memo site scope e v ↔ verdict.folded = .value v := by
  cases e with
  | number n pos =>
    cases hfinding
    constructor
    · intro h
      cases h with
      | known known => cases hfresh.symm.trans known
      | number _ => rfl
    · intro h
      cases h
      exact .number hfresh
  | operation op a b pos => cases hfinding
  | reference path pos =>
    have hreferent : t.referent demand scope path pos = .own verdict := hfinding
    unfold referent at hreferent
    constructor
    · intro h
      obtain ⟨id, htarget, hm⟩ := h.reference_of_pending hfresh
      rw [search_eq_some.2 htarget] at hreferent
      rcases hm with hm | hm | ⟨value, inner, hm, -⟩ <;> simp only [usage, hm] at hreferent <;>
        cases hreferent <;> rfl
    · intro h
      have hawaiting : ¬ (awaiting demand path pos).folded = .value v := by
        unfold awaiting
        split <;> exact Folded.noConfusion
      split at hreferent
      · cases hreferent
        cases h
      · cases hreferent
        exact absurd h hawaiting
      · rename_i id hsearch
        have htarget := search_eq_some.1 hsearch
        rcases hm : t.meaning? id with _ | ⟨b⟩ | ⟨value, inner⟩ | ⟨_ | a⟩ | ⟨a⟩ | ⟨inner⟩ <;>
          simp only [usage, hm] at hreferent <;> cases hreferent
        · exact absurd h hawaiting
        · cases h
        · exact absurd h hawaiting
        · cases h
          exact .label hfresh htarget hm
        · cases h
          exact .storage hfresh htarget hm
        · cases h

/-- What stands for a constant settles to what the constant settles to. -/
theorem settles_iff_of_constant {id : DefId} {value : Expr} {inner : ScopeId}
    (hfresh : memo.result site = .pending)
    (hfinding : t.finding demand scope e = .constant id value inner) :
    Settles t memo site scope e v ↔
      Settles t memo { anchor := .constant id } inner value v := by
  obtain ⟨path, pos, rfl, htarget, hm⟩ := finding_eq_constant.1 hfinding
  constructor
  · intro h
    obtain ⟨id', htarget', hm'⟩ := h.reference_of_pending hfresh
    cases htarget.symm.trans htarget'
    rcases hm' with hm' | hm' | ⟨value', inner', hm', hvalue⟩ <;> cases hm.symm.trans hm'
    exact hvalue
  · exact .constant hfresh htarget hm

/-- What an operation settles to. -/
theorem settles_iff_of_operation {op : BinaryOp} {a b : Expr}
    (hfresh : memo.result site = .pending)
    (hfinding : t.finding demand scope e = .operation op a b) :
    Settles t memo site scope e v ↔
      ∃ l r, Settles t memo (site.child .left) scope a l ∧
        Settles t memo (site.child .right) scope b r ∧ op.apply l r = .ok v := by
  obtain ⟨pos, rfl⟩ := finding_eq_operation.1 hfinding
  constructor
  · intro h
    cases h with
    | known known => cases hfresh.symm.trans known
    | operation _ left right apply => exact ⟨_, _, left, right, apply⟩
  · rintro ⟨l, r, left, right, apply⟩
    exact .operation hfresh left right apply

/-- The operands of an operation stand where it leads to. -/
theorem Stands.operands {op : BinaryOp} {a b : Expr} (h : Stands t tree site scope e)
    (hfinding : t.finding demand scope e = .operation op a b) :
    Stands t tree (site.child .left) scope a ∧ Stands t tree (site.child .right) scope b := by
  obtain ⟨pos, rfl⟩ := finding_eq_operation.1 hfinding
  exact ⟨h.left, h.right⟩

/-! ## Exact memos -/

/-- Nothing of an earlier memo is forgotten, and every result in the memo is a value exactly if its
expression settles to this value. -/
structure Exact (t : SymbolTable) (tree : Location → ScopeId → Expr → Prop) (first memo : Memo) :
    Prop where
  le : first.Le memo
  value_iff : ∀ {site scope e}, Stands t tree site scope e → memo.result site ≠ .pending → ∀ v,
    memo.result site = .value v ↔ Settles t first site scope e v

namespace Exact

theorem refl (t : SymbolTable) (tree : Location → ScopeId → Expr → Prop) (first : Memo) :
    Exact t tree first first := by
  refine ⟨.refl first, fun {site scope e} _ hknown v => ⟨.known, fun hsettles => ?_⟩⟩
  cases hresult : first.result site with
  | pending => exact absurd hresult hknown
  | value w => rw [hsettles.eq_of_known hresult]
  | invalid => exact absurd hresult hsettles.ne_invalid

/-- The result of a node may be added, if it is a value exactly when the node settles to it. -/
theorem set (h : Exact t tree first memo) (hunique : SingleRooted tree)
    (hstands : Stands t tree site scope e) (hfresh : first.result site = .pending)
    {folded : Folded} (hfolded : ∀ v, folded = .value v ↔ Settles t first site scope e v) :
    Exact t tree first (memo.set site folded) := by
  refine ⟨h.le.set hfresh, fun {other scope' e'} hother hknown v => ?_⟩
  by_cases heq : other = site
  · subst heq
    obtain ⟨rfl, rfl⟩ := hstands.unique (hunique.rooted t) hother
    rw [Memo.set_self]
    exact hfolded v
  · rw [Memo.set_of_ne heq] at hknown ⊢
    exact h.value_iff hother hknown v

end Exact

/-! ## Folding -/

/-- A fold that finishes comes to a value exactly if its node settles to it, and it leaves an exact
memo behind. -/
theorem Folds.exact {chain : List DefId} {s u : Logged Memo} {events : List Event} {folded : Folded}
    (h : t.Folds demand chain scope site e s events (.ok folded u)) (hunique : SingleRooted tree)
    (hstands : Stands t tree site scope e) (hs : Exact t tree first s.state) :
    Exact t tree first u.state ∧ ∀ v, folded = .value v ↔ Settles t first site scope e v := by
  generalize hr : (EStateM.Result.ok folded u : Outcome) = r at h
  induction h generalizing folded u with
  | known known =>
    cases hr
    exact ⟨hs, hs.value_iff hstands known⟩
  | own fresh finding concludes =>
    cases hr
    obtain ⟨rfl, hu⟩ := concludes.folded_eq
    have hfresh := hs.le.pending fresh
    have hvalue := fun v => (settles_iff_of_own (v := v) hfresh finding).symm
    rw [hu]
    exact ⟨hs.set hunique hstands hfresh hvalue, hvalue⟩
  | constant fresh finding room inside ih =>
    cases hr
    obtain ⟨path, pos, -, -, hm⟩ := finding_eq_constant.1 finding
    have hfresh := hs.le.pending fresh
    obtain ⟨hu, hinside⟩ := ih (.root (.constant hm)) hs rfl
    have hvalue := fun v => (hinside v).trans (settles_iff_of_constant hfresh finding).symm
    exact ⟨hu.set hunique hstands hfresh hvalue, hvalue⟩
  | constantAborts | tooDeep | leftAborts | rightAborts => cases hr
  | @operation _ scope site e _ op a b _ _ _ l _ r _ _ fresh finding left right concludes ihl ihr =>
    cases hr
    have hfresh := hs.le.pending fresh
    obtain ⟨hleft, hright⟩ := hstands.operands finding
    obtain ⟨hv, hl⟩ := ihl hleft hs rfl
    obtain ⟨hw, hr⟩ := ihr hright hv rfl
    obtain ⟨rfl, hu⟩ := concludes.folded_eq
    have hvalue : ∀ v, (op.verdict e.pos l r).folded = .value v ↔
        Settles t first site scope e v := by
      intro v
      rw [BinaryOp.folded_verdict_eq_value, settles_iff_of_operation hfresh finding]
      simp only [hl, hr]
    rw [hu]
    exact ⟨hw.set hunique hstands hfresh hvalue, hvalue⟩

/-- A fold that is abandoned was cut short. -/
theorem Folds.isCutShort {chain : List DefId} {s u : Logged Memo} {events : List Event} {x : Abort}
    (h : t.Folds demand chain scope site e s events (.error x u)) : u.log.isCutShort = true := by
  have hconcludes : ∀ {site verdict s events u},
      Concludes site verdict s events (.error x u) → u.log.isCutShort = true := by
    intro site verdict s events u h
    cases h
    exact Log.isCutShort_giveUp _
  generalize hr : (EStateM.Result.error x u : Outcome) = r at h
  induction h with
  | known | constant => cases hr
  | own fresh finding concludes => exact hconcludes (hr ▸ concludes)
  | constantAborts fresh finding room inside ih => exact ih hr
  | tooDeep fresh finding full =>
    cases hr
    exact Log.isCutShort_fatal _ _ _
  | leftAborts fresh finding left ih => exact ih hr
  | rightAborts fresh finding left right ihl ihr => exact ihr hr
  | operation fresh finding left right concludes ihl ihr => exact hconcludes (hr ▸ concludes)

/-- What a fold that finishes has reported. -/
theorem gains_fold {anchor : Anchor} {s u : Logged Memo} {folded : Folded}
    (h : t.fold demand scope anchor e s = .ok folded u) :
    s.log.Gains (fun d => d.error.ofFolding = true) u.log := by
  let F : Run.Frame Memo := .finishing
    (fun s u => s.log.Gains (fun d => d.error.ofFolding = true) u.log) (fun s => .refl _ s.log)
    .trans
  have hreports : ∀ e : Error, e.ofFolding = true → F.Reports e := fun e he =>
    ⟨fun s pos => .entry (Nat.le_succ _) rfl he, fun _ _ => trivial, fun _ _ => trivial⟩
  have hholds : F.Holds (t.fold demand scope anchor e) :=
    holds_fold (S := fun _ => True) hreports (fun _ _ _ _ _ _ h => h) (fun _ _ _ => trivial)
      (fun _ => trivial) trivial scope e
  exact hholds.rel_of_ok h

end SymbolTable

end Cartridge
