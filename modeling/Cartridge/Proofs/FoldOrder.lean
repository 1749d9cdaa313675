import Cartridge.Proofs.Amounts
import Cartridge.Proofs.Cycles

/-!
# The order of folds

What was folded before does not matter for what an expression comes to, with one exception. A
constant that has a result is not expanded any more. So an expression whose constants are nested too
deeply, and which is abandoned if it is folded first, may come to a result if some of these
constants were folded before. It never goes the other way round: whatever comes to a result if it is
folded first comes to the same result later.

Main definitions:

- `Outcome.GaveUp`: a fold was abandoned because there were too many errors.
- `Memo.LeOn`: one memo knows at least what another one knows about certain nodes.

Main results:

- Theorem `SymbolTable.Folds.again`: a fold that finishes does so with every memo that is
  well-grounded and knows at least as much.
- Theorem `SymbolTable.Folds.cause_of_error`: a fold is abandoned because of too many errors, or of
  constants that are nested too deeply.
- Theorem `SymbolTable.fold_after_fold`: what a fold comes to, after another one and without it.
-/

namespace Cartridge

namespace Outcome

/-- What a fold comes to, unless it is abandoned. -/
def folded? : Outcome → Option Folded
  | .ok folded _ => some folded
  | .error _ _ => none

/-- A fold was abandoned because there were too many errors. -/
def GaveUp : Outcome → Prop
  | .ok _ _ => False
  | .error _ u => ∃ log : Log, u.log = log.giveUp

variable {r : Outcome} {folded : Folded}

theorem eq_ok_of_folded? (h : folded? r = some folded) : r = .ok folded (Run.ending r) := by
  cases r with
  | ok folded' u =>
    cases h
    rfl
  | error sign u => cases h

theorem not_gaveUp_of_folded? (h : folded? r = some folded) : ¬ GaveUp r := by
  rw [eq_ok_of_folded? h]
  exact id

end Outcome

/-- One memo knows at least what another one knows about certain nodes. -/
def Memo.LeOn (R : Site → Prop) (m n : Memo) : Prop :=
  ∀ site, R site → m.result site ≠ .pending → n.result site = m.result site

theorem Memo.LeOn.set {R : Site → Prop} {m n : Memo} (h : m.LeOn R n) (site : Site)
    (folded : Folded) : (m.set site folded).LeOn R (n.set site folded) := by
  intro other hother hne
  by_cases heq : other = site
  · subst heq
    rw [set_self, set_self]
  · rw [set_of_ne heq] at hne
    rw [set_of_ne heq, set_of_ne heq]
    exact h other hother hne

/-- A fold comes to the given result with a memo that knows at least what the given one knows about
certain nodes, unless there are too many errors. -/
def Outcome.Repeats (R : Site → Prop) (folded : Folded) (u : Logged Memo) : Outcome → Prop
  | .ok folded' u' => folded' = folded ∧ u.state.LeOn R u'.state
  | .error x u' => GaveUp (.error x u')

namespace Concludes

variable {site : Site} {verdict : Verdict} {s u : Logged Memo} {events : List Event}

theorem gaveUp_of_error {x : Abort} (h : Concludes site verdict s events (.error x u)) :
    Outcome.GaveUp (.error x u) := by
  cases h
  exact ⟨_, rfl⟩

/-- A verdict comes to the same result with another memo. -/
theorem again {R : Site → Prop} {folded : Folded}
    (h : Concludes site verdict s events (.ok folded u)) {s' : Logged Memo}
    (hle : s.state.LeOn R s'.state) :
    ∃ events' r', Concludes site verdict s' events' r' ∧ Outcome.Repeats R folded u r' := by
  obtain ⟨events', r', h'⟩ := exists_concludes site verdict s'
  refine ⟨events', r', h', ?_⟩
  cases r' with
  | ok folded' u' =>
    obtain ⟨rfl, hu⟩ := h.folded_eq
    obtain ⟨rfl, hu'⟩ := h'.folded_eq
    refine ⟨rfl, ?_⟩
    rw [hu, hu']
    exact hle.set site _
  | error x u' => exact h'.gaveUp_of_error

end Concludes

namespace SymbolTable

variable {t : SymbolTable} {x : Expressions t} {demand : Demand} {chain : List DefId}
  {scope : ScopeId} {site : Site} {e : Expr} {s s' u : Logged Memo} {events : List Event}
  {folded : Folded}

namespace Folds

/-- A node that has a result in another memo comes to it at once, and there is nothing on the way
that this memo does not know. -/
theorem again_of_known {R : Site → Prop}
    (h : t.Folds demand chain scope site e s events (.ok folded u)) (hnode : x.Node site scope e)
    (hs : x.Grounded demand s.state) (hs' : x.Grounded demand s'.state)
    (hle : s.state.LeOn R s'.state) (hknown : s'.state.result site ≠ .pending) :
    ∃ events' r', t.Folds demand chain scope site e s' events' r' ∧
      Outcome.Repeats R folded u r' := by
  obtain ⟨hamounts, hu, -⟩ := h.grounded hnode hs
  obtain ⟨hamounts', hfinished⟩ := hs' site scope e hnode hknown
  refine ⟨_, _, .known hknown, hamounts'.unique hamounts, fun q hq hne => ?_⟩
  by_cases hold : s.state.result q = .pending
  · by_cases hreach : Relation.ReflTransGen x.Needs site q
    · obtain ⟨scope', e', hnode'⟩ := Expressions.exists_node_of_reaches hnode hreach
      exact hfinished q scope' e' _ hreach hnode' (hu q scope' e' hnode' hne).1 hne
    · exact absurd ((h.unchanged hnode hreach).trans hold) hne
  · rw [hle q hq hold]
    exact (h.le q hold).symm

/-- A fold that finishes does so with every memo that is well-grounded and knows at least as much
about the nodes that matter, and comes to the same result. Only the errors may be too many. -/
theorem again {R : Site → Prop} (hR : ∀ p q, R p → x.Needs p q → R q)
    (h : t.Folds demand chain scope site e s events (.ok folded u)) (hnode : x.Node site scope e)
    (hsite : R site) (hs : x.Grounded demand s.state) (hs' : x.Grounded demand s'.state)
    (hle : s.state.LeOn R s'.state) :
    ∃ events' r', t.Folds demand chain scope site e s' events' r' ∧
      Outcome.Repeats R folded u r' := by
  -- A node that has no result in the other memo either is folded there by the same rule.
  generalize hr : (EStateM.Result.ok folded u : Outcome) = r at h
  induction h generalizing folded u s' with
  | @known _ _ site _ s known =>
    cases hr
    refine (Folds.known known).again_of_known hnode hs hs' hle ?_
    rw [hle site hsite known]
    exact known
  | @own _ _ site _ s _ _ _ fresh finding concludes =>
    cases hr
    by_cases hfresh : s'.state.result site = .pending
    · obtain ⟨_, r', hconcludes, hr'⟩ := concludes.again hle
      exact ⟨_, r', .own hfresh finding hconcludes, hr'⟩
    · exact (own fresh finding concludes).again_of_known hnode hs hs' hle hfresh
  | @constant _ _ site _ s _ _ _ _ _ _ fresh finding room inside ih =>
    cases hr
    by_cases hfresh : s'.state.result site = .pending
    · obtain ⟨hneeds, hinner⟩ := Expressions.needs_constant hnode finding
      obtain ⟨_, r', hinside, hr'⟩ := ih hinner (hR _ _ hsite hneeds) hs hs' hle rfl
      cases r' with
      | error sign u' => exact ⟨_, _, .constantAborts hfresh finding room hinside, hr'⟩
      | ok folded' u' =>
        obtain ⟨rfl, hu⟩ := hr'
        exact ⟨_, _, .constant hfresh finding room hinside, rfl, hu.set site _⟩
    · exact (constant fresh finding room inside).again_of_known hnode hs hs' hle hfresh
  | constantAborts | tooDeep | leftAborts | rightAborts => cases hr
  | @operation _ _ site _ s _ _ _ _ _ _ _ _ _ _ _ fresh finding left right concludes ihl ihr =>
    cases hr
    by_cases hfresh : s'.state.result site = .pending
    · obtain ⟨hneedsl, ha⟩ := Expressions.needs_left hnode finding
      obtain ⟨hneedsr, hb⟩ := Expressions.needs_right hnode finding
      obtain ⟨_, r', hleft, hr'⟩ := ihl ha (hR _ _ hsite hneedsl) hs hs' hle rfl
      cases r' with
      | error sign v' => exact ⟨_, _, .leftAborts hfresh finding hleft, hr'⟩
      | ok l' v' =>
        obtain ⟨rfl, hv⟩ := hr'
        obtain ⟨_, r', hright, hr'⟩ := ihr hb (hR _ _ hsite hneedsr) (left.grounded ha hs).2.1
          (hleft.grounded ha hs').2.1 hv rfl
        cases r' with
        | error sign w' => exact ⟨_, _, .rightAborts hfresh finding hleft hright, hr'⟩
        | ok r w' =>
          obtain ⟨rfl, hw⟩ := hr'
          obtain ⟨_, r', hconcludes, hr'⟩ := concludes.again hw
          exact ⟨_, r', .operation hfresh finding hleft hright hconcludes, hr'⟩
    · exact (operation fresh finding left right concludes).again_of_known hnode hs hs' hle hfresh

/-- A fold is abandoned because of too many errors, or of constants that are nested too deeply. -/
theorem cause_of_error {sign : Abort}
    (h : t.Folds demand chain scope site e s events (.error sign u))
    (hroom : chain.length ≤ maxExpansions) :
    Outcome.GaveUp (.error sign u) ∨ ∃ text, t.Overflows chain scope e text := by
  generalize hr : (EStateM.Result.error sign u : Outcome) = r at h
  induction h with
  | known | constant => cases hr
  | own fresh finding concludes =>
    subst hr
    exact .inl concludes.gaveUp_of_error
  | constantAborts fresh finding room inside ih =>
    exact (ih (length_chain_of_room room _) hr).imp_right fun ⟨text, h⟩ =>
      ⟨text, h.constant finding⟩
  | tooDeep fresh finding full => exact .inr ⟨_, .of_full finding hroom full⟩
  | leftAborts fresh finding left ih =>
    exact (ih hroom hr).imp_right fun ⟨text, h⟩ => ⟨text, h.left finding⟩
  | rightAborts fresh finding left right ihl ihr =>
    exact (ihr hroom hr).imp_right fun ⟨text, h⟩ => ⟨text, h.right finding⟩
  | operation fresh finding left right concludes ihl ihr =>
    subst hr
    exact .inl concludes.gaveUp_of_error

end Folds

variable {scope' : ScopeId} {anchor anchor' : Anchor} {e' : Expr}

/-- A fold that finishes comes to the same result with a memo that knows at least as much about all
that its node waits for. -/
theorem folded?_fold_eq (hangs : x.at? anchor = some (scope, e))
    (hfold : t.fold demand scope anchor e s = .ok folded u) (hs : x.Grounded demand s.state)
    (hs' : x.Grounded demand s'.state)
    (hle : s.state.LeOn (Relation.ReflTransGen x.Needs { anchor }) s'.state)
    (hgiven : ¬ Outcome.GaveUp (t.fold demand scope anchor e s')) :
    Outcome.folded? (t.fold demand scope anchor e s') = some folded := by
  obtain ⟨events, hfolds⟩ := fold_iff.2 hfold.symm
  obtain ⟨events', r', hfolds', hr'⟩ :=
    hfolds.again (fun _ _ hp hneeds => hp.tail hneeds) (.root hangs) .refl hs hs' hle
  rw [← fold_iff.1 ⟨events', hfolds'⟩] at hgiven ⊢
  cases r' with
  | ok folded' u' => exact congrArg some hr'.1
  | error sign u' => exact absurd hr' hgiven

/-- If nothing is known, and the errors do not become too many, then a fold comes to the same after
another fold with the same demands that has finished, with one exception. A fold that is abandoned
because seventeen constants are nested may come to what its expression amounts to, if something that
it waits for has been folded by the other one. -/
theorem fold_after_fold (hs : ∀ site, s.state.result site = .pending)
    (hangs : x.at? anchor = some (scope, e)) (hangs' : x.at? anchor' = some (scope', e'))
    (hfold : t.fold demand scope anchor e s = .ok folded u)
    (hdirect : ¬ Outcome.GaveUp (t.fold demand scope' anchor' e' s))
    (hafter : ¬ Outcome.GaveUp (t.fold demand scope' anchor' e' u)) :
    Outcome.folded? (t.fold demand scope' anchor' e' u) =
      Outcome.folded? (t.fold demand scope' anchor' e' s) ∨
    Outcome.folded? (t.fold demand scope' anchor' e' s) = none ∧
      (∃ ids, t.Chained scope' e' ids ∧ ids.length = maxExpansions + 1) ∧
      (∃ q, Relation.ReflTransGen x.Needs { anchor := anchor' } q ∧ u.state.result q ≠ .pending) ∧
      ∃ result, Outcome.folded? (t.fold demand scope' anchor' e' u) = some result ∧
        t.Amounts demand scope' e' result := by
  have hground : x.Grounded demand s.state := Expressions.grounded_of_pending hs
  obtain ⟨events, hfirst⟩ := fold_iff.2 hfold.symm
  have hu := (hfirst.grounded (.root hangs) hground).2.1
  cases hd : t.fold demand scope' anchor' e' s with
  | ok result v =>
    refine .inl (folded?_fold_eq hangs' hd hground hu (fun q _ hne => ?_) hafter)
    exact absurd (hs q) hne
  | error sign v =>
    cases ha : t.fold demand scope' anchor' e' u with
    | error sign' w => exact .inl rfl
    | ok result w =>
      obtain ⟨_, hfolds⟩ := fold_iff.2 hd.symm
      obtain ⟨_, hfolds'⟩ := fold_iff.2 ha.symm
      have hoverflows := (hfolds.cause_of_error (Nat.zero_le _)).resolve_left (hd ▸ hdirect)
      obtain ⟨text, ids, hchained, hlength, -⟩ := hoverflows
      rw [List.length_nil, Nat.zero_add] at hlength
      refine .inr ⟨rfl, ⟨ids, hchained, hlength⟩, ?_, result, rfl,
        (hfolds'.grounded (.root hangs') hu).1⟩
      -- If nothing were known that the node waits for, then the first fold would have done as well.
      by_cases hknown : ∃ q, Relation.ReflTransGen x.Needs { anchor := anchor' } q ∧
          u.state.result q ≠ .pending
      · exact hknown
      · have hsame := folded?_fold_eq hangs' ha hu hground
          (fun q hq hne => absurd ⟨q, hq, hne⟩ hknown) hdirect
        rw [hd] at hsame
        cases hsame

/-- Names for constants, of which the first one stands for the given expression and each other one
for the one before it. -/
def climb (value : Expr) : List String → SymbolTable → SymbolTable
  | [], t => t
  | name :: rest, t =>
    climb (.reference [{ text := name }] {}) rest
      (t.define { name, meaning := .constant value root, owner := root })

/-- Seventeen constants that stand for one another. -/
def ladder : SymbolTable :=
  climb (.number 7 {})
    ["c1", "c2", "c3", "c4", "c5", "c6", "c7", "c8", "c9", "c10", "c11", "c12", "c13", "c14", "c15",
      "c16", "c17"] .empty

/-- Folds a reference to a constant of the ladder as the expression with the given number. -/
def foldRung (name : String) (number : Nat) (s : Logged Memo) : Outcome :=
  ladder.fold .final root (.detached number) (.reference [{ text := name }] {}) s

/-- A constant in the middle of the ladder has its value before and after another one. -/
theorem fold_after_fold_ladder :
    let start : Logged Memo := { state := .empty, log := .empty 5 }
    ∃ u, foldRung "c5" 0 start = .ok (.value 7) u ∧
      Outcome.folded? (foldRung "c8" 1 u) = Outcome.folded? (foldRung "c8" 1 start) := by
  intro start
  let x := (Expressions.single ladder root (.reference [{ text := "c5" }] {})).including
    (.detached 1) root (.reference [{ text := "c8" }] {}) fun _ h => by cases h
  have hfirst : Outcome.folded? (foldRung "c5" 0 start) = some (.value 7) := by decide +kernel
  have hdirect : Outcome.folded? (foldRung "c8" 1 start) = some (.value 7) := by decide +kernel
  have hafter : Outcome.folded? (foldRung "c8" 1 (Run.ending (foldRung "c5" 0 start))) =
      some (.value 7) := by decide +kernel
  have hfold := Outcome.eq_ok_of_folded? hfirst
  refine ⟨_, hfold, ?_⟩
  rcases fold_after_fold (x := x) (fun _ => rfl) rfl rfl hfold
    (Outcome.not_gaveUp_of_folded? hdirect) (Outcome.not_gaveUp_of_folded? hafter) with h | h
  · exact h
  · cases h.1.symm.trans hdirect

/-- The order matters for the top of the ladder: it is abandoned if it is folded first, and has a
value if the constant below it was folded before. -/
theorem ladder_top_after_fold :
    let start : Logged Memo := { state := .empty, log := .empty 5 }
    let first := foldRung "c16" 0 start
    Outcome.folded? first = some (.value 7) ∧
      Outcome.folded? (foldRung "c17" 1 start) = none ∧
      (Run.ending (foldRung "c17" 1 start)).log.count = 1 ∧
      Outcome.folded? (foldRung "c17" 1 (Run.ending first)) = some (.value 7) := by
  decide +kernel

end SymbolTable

end Cartridge
