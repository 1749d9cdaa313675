import Cartridge.Proofs.Renaming
import Cartridge.Proofs.Waiting
import Mathlib.Logic.Relation

/-!
# Cyclic constants

The constants of a table may be defined by one another, through any scopes and packages. If this
goes round in a circle then there is no value, and folding has to end nevertheless. It ends because
only so many constants are expanded inside one another. Here it is shown that this is all that is
ever taken for a circle, and that no circle is missed, whatever was folded before: an abandoned fold
leaves results behind, but none at a node that leads into a circle.

Main definitions:

- `SymbolTable.Refers`: an expression mentions a constant.
- `SymbolTable.ReachesCycle`: the constants of an expression lead into a circle.
- `SymbolTable.Chained`: constants that are nested inside one another, starting at an expression.
- `SymbolTable.Overflows`: more constants are nested inside a chain than there is room for.
- `SymbolTable.History`: what was folded so far, and which labels were placed.

Main results:

- Theorem `SymbolTable.Folds.overflows`: constants are found to be nested too deeply only if they
  are.
- Theorem `SymbolTable.History.pending`: nodes that lead into a circle stay without a result.
- Theorem `SymbolTable.History.cycles_abort`: every fold ends, circles are always caught, and
  nothing but constants that are nested too deeply is taken for one.
-/

namespace Cartridge

namespace SymbolTable

variable {t : SymbolTable}

/-! ## Constants that mention constants -/

/-- An expression in a scope mentions a constant. -/
inductive Refers (t : SymbolTable) : ScopeId → Expr → DefId → Prop
  | here {scope path pos id value inner} (target : t.target? scope path = some id)
      (meaning : t.meaning? id = some (.constant value inner)) :
      Refers t scope (.reference path pos) id
  | left {scope op a b pos id} (operand : Refers t scope a id) :
      Refers t scope (.operation op a b pos) id
  | right {scope op a b pos id} (operand : Refers t scope b id) :
      Refers t scope (.operation op a b pos) id

/-- The expression of a constant mentions another one. -/
def Uses (t : SymbolTable) (id other : DefId) : Prop :=
  ∃ value inner, t.meaning? id = some (.constant value inner) ∧ t.Refers inner value other

/-- The constants that an expression mentions lead into a circle. -/
def ReachesCycle (t : SymbolTable) (scope : ScopeId) (e : Expr) : Prop :=
  ∃ id turning, t.Refers scope e id ∧ Relation.ReflTransGen t.Uses id turning ∧
    Relation.TransGen t.Uses turning turning

/-- Constants that are nested inside one another: the expression mentions the first one, and the
expression of each one mentions the next. -/
inductive Chained (t : SymbolTable) : ScopeId → Expr → List DefId → Prop
  | nil {scope e} : Chained t scope e []
  | cons {scope e id value inner ids} (refers : t.Refers scope e id)
      (meaning : t.meaning? id = some (.constant value inner)) (rest : Chained t inner value ids) :
      Chained t scope e (id :: ids)

variable {demand : Demand} {scope : ScopeId} {e : Expr}

/-- Constants that are nested in the left operand are nested in the operation. -/
theorem Chained.left {op : BinaryOp} {a b : Expr} {ids : List DefId}
    (hfinding : t.finding demand scope e = .operation op a b) (h : t.Chained scope a ids) :
    t.Chained scope e ids := by
  obtain ⟨pos, rfl⟩ := finding_eq_operation.1 hfinding
  cases h with
  | nil => exact .nil
  | cons refers meaning rest => exact .cons (.left refers) meaning rest

/-- Constants that are nested in the right operand are nested in the operation. -/
theorem Chained.right {op : BinaryOp} {a b : Expr} {ids : List DefId}
    (hfinding : t.finding demand scope e = .operation op a b) (h : t.Chained scope b ids) :
    t.Chained scope e ids := by
  obtain ⟨pos, rfl⟩ := finding_eq_operation.1 hfinding
  cases h with
  | nil => exact .nil
  | cons refers meaning rest => exact .cons (.right refers) meaning rest

/-- A reference to a constant puts it in front of those that its expression nests. -/
theorem Chained.constant {id : DefId} {value : Expr} {inner : ScopeId} {ids : List DefId}
    (hfinding : t.finding demand scope e = .constant id value inner)
    (h : t.Chained inner value ids) : t.Chained scope e (id :: ids) := by
  obtain ⟨path, pos, rfl, htarget, hm⟩ := finding_eq_constant.1 hfinding
  exact .cons (.here htarget hm) hm h

/-! ## What is taken for a circle -/

/-- So many constants are nested, the given ones and then others that start at an expression, that
there is no room for all of them. -/
def Overflows (t : SymbolTable) (chain : List DefId) (scope : ScopeId) (e : Expr) (text : String) :
    Prop :=
  ∃ ids, t.Chained scope e ids ∧ chain.length + ids.length = maxExpansions + 1 ∧
    text = t.chainText (chain ++ ids)

/-- What overflows inside a constant overflows at the reference to it. -/
theorem Overflows.constant {chain : List DefId} {id : DefId} {value : Expr} {inner : ScopeId}
    {text : String} (hfinding : t.finding demand scope e = .constant id value inner)
    (h : t.Overflows (chain ++ [id]) inner value text) : t.Overflows chain scope e text := by
  obtain ⟨ids, hchained, hlength, htext⟩ := h
  rw [List.append_assoc] at htext
  rw [List.length_append, List.length_singleton] at hlength
  refine ⟨id :: ids, .constant hfinding hchained, ?_, htext⟩
  rw [List.length_cons]
  omega

/-- What overflows in the left operand overflows in the operation. -/
theorem Overflows.left {chain : List DefId} {op : BinaryOp} {a b : Expr} {text : String}
    (hfinding : t.finding demand scope e = .operation op a b) (h : t.Overflows chain scope a text) :
    t.Overflows chain scope e text := by
  obtain ⟨ids, hchained, h⟩ := h
  exact ⟨ids, hchained.left hfinding, h⟩

/-- What overflows in the right operand overflows in the operation. -/
theorem Overflows.right {chain : List DefId} {op : BinaryOp} {a b : Expr} {text : String}
    (hfinding : t.finding demand scope e = .operation op a b) (h : t.Overflows chain scope b text) :
    t.Overflows chain scope e text := by
  obtain ⟨ids, hchained, h⟩ := h
  exact ⟨ids, hchained.right hfinding, h⟩

/-- A constant for which there is no room. -/
theorem Overflows.of_full {chain : List DefId} {id : DefId} {value : Expr} {inner : ScopeId}
    (hfinding : t.finding demand scope e = .constant id value inner)
    (hroom : chain.length ≤ maxExpansions) (hfull : maxExpansions ≤ chain.length) :
    t.Overflows chain scope e (t.chainText (chain ++ [id])) := by
  refine ⟨[id], .constant hfinding .nil, ?_, rfl⟩
  rw [List.length_singleton]
  omega

variable {chain : List DefId} {site : Site} {s : Logged Memo} {events : List Event} {r : Outcome}

theorem length_chain_of_room (hroom : chain.length < maxExpansions) (id : DefId) :
    (chain ++ [id]).length ≤ maxExpansions := by
  rw [List.length_append, List.length_singleton]
  exact hroom

/-- Constants are found to be nested too deeply only if they are. The report lists all of them. -/
theorem Folds.overflows (h : t.Folds demand chain scope site e s events r)
    (hroom : chain.length ≤ maxExpansions) {source : Option Site} {entry : Diagnostic} {depth : Nat}
    {text : String} (hmem : .reported source entry ∈ events)
    (herror : entry.error = .tooManyExpansions depth text) :
    depth = maxExpansions ∧ t.Overflows chain scope e text := by
  -- No verdict says so.
  have hverdict : ∀ {site verdict s events r}, Concludes site verdict s events r →
      (∀ {cause pos}, verdict = .wrong cause pos → cause ≠ .tooManyExpansions depth text) →
      .reported source entry ∉ events := by
    intro site verdict s events r hconcludes hne hmem
    rcases hconcludes.cause_of_mem hmem with ⟨pos, hwrong⟩ | ⟨count, hcount⟩
    · exact hne hwrong herror
    · cases hcount.symm.trans herror
  have hcall : ∀ {site events}, .reported source entry ∈ Event.called site :: events →
      .reported source entry ∈ events :=
    fun hmem => (List.mem_cons.1 hmem).resolve_left Event.noConfusion
  induction h with
  | known known => exact absurd (List.mem_singleton.1 (hcall hmem)) Event.noConfusion
  | own fresh finding concludes =>
    refine absurd (hcall hmem) (hverdict concludes ?_)
    rintro cause pos rfl
    exact plain_of_finding finding depth text
  | constant fresh finding room inside ih =>
    have hinside := (List.mem_append.1 (hcall hmem)).resolve_right fun h =>
      Event.noConfusion (List.mem_singleton.1 h)
    exact (ih (length_chain_of_room room _) hinside).imp_right (.constant finding)
  | constantAborts fresh finding room inside ih =>
    exact (ih (length_chain_of_room room _) (hcall hmem)).imp_right (.constant finding)
  | tooDeep fresh finding full =>
    cases List.mem_singleton.1 (hcall hmem)
    cases herror
    exact ⟨rfl, .of_full finding hroom full⟩
  | leftAborts fresh finding left ih => exact (ih hroom (hcall hmem)).imp_right (.left finding)
  | rightAborts fresh finding left right ihl ihr =>
    rcases List.mem_append.1 (hcall hmem) with hmem | hmem
    · exact (ihl hroom hmem).imp_right (.left finding)
    · exact (ihr hroom hmem).imp_right (.right finding)
  | operation fresh finding left right concludes ihl ihr =>
    rcases List.mem_append.1 (hcall hmem) with hmem | hmem
    · rcases List.mem_append.1 hmem with hmem | hmem
      · exact (ihl hroom hmem).imp_right (.left finding)
      · exact (ihr hroom hmem).imp_right (.right finding)
    · exact absurd hmem (hverdict concludes fun hwrong =>
        BinaryOp.ne_tooManyExpansions_of_verdict hwrong depth text)

/-! ## Circles -/

/-- What leads into a circle waits for something that leads into a circle. -/
theorem ReachesCycle.next {x : Expressions t} (h : t.ReachesCycle scope e)
    (hnode : x.Node site scope e) :
    ∃ other inner value, x.Needs site other ∧ x.Node other inner value ∧
      t.ReachesCycle inner value := by
  obtain ⟨id, turning, hrefers, hpath, hcycle⟩ := h
  cases hrefers with
  | left operand => exact ⟨_, _, _, .left hnode, .left hnode, id, turning, operand, hpath, hcycle⟩
  | right operand =>
    exact ⟨_, _, _, .right hnode, .right hnode, id, turning, operand, hpath, hcycle⟩
  | here target meaning =>
    refine ⟨_, _, _, .constant hnode target meaning, .root (x.constants meaning), ?_⟩
    -- The way into the circle goes on from the constant, if only round the circle.
    have hgo : ∃ next, t.Uses id next ∧ Relation.ReflTransGen t.Uses next turning := by
      rcases Relation.ReflTransGen.cases_head hpath with rfl | hstep
      · exact Relation.TransGen.head'_iff.1 hcycle
      · exact hstep
    obtain ⟨next, ⟨value', inner', hm, hrefers⟩, hpath⟩ := hgo
    cases meaning.symm.trans hm
    exact ⟨next, turning, hrefers, hpath, hcycle⟩

/-- The nodes that lead into a circle. -/
def Expressions.Circular (x : Expressions t) (site : Site) : Prop :=
  ∃ scope e, x.Node site scope e ∧ t.ReachesCycle scope e

/-- The nodes that lead into a circle wait for one another. -/
theorem Expressions.stuck_circular (x : Expressions t) (site : Site) :
    x.Stuck x.Circular site := by
  rintro q ⟨scope, e, hnode, hcycle⟩
  obtain ⟨other, inner, value, hneeds, hother, hcycle⟩ := hcycle.next hnode
  exact ⟨other, hneeds, .inl ⟨inner, value, hother, hcycle⟩⟩

/-! ## Histories -/

/-- Placing a label changes nothing but the addresses of labels. -/
theorem relabels_placeLabel (t : SymbolTable) (id : DefId) (address : UInt16) :
    t.Relabels (t.placeLabel id address) where
  scopes := rfl
  meaning other := by
    unfold meaning?
    rw [definition?_placeLabel]
    by_cases ho : other = id
    · rw [if_pos ho]
      cases hd : t.definition? other with
      | none => exact .inl rfl
      | some d =>
        cases hm : d.meaning with
        | label before =>
          exact .inr ⟨before, some address, by simp [hm], by simp [Definition.placed, hm]⟩
        | _ => exact .inl (by simp [Definition.placed, hm])
    · rw [if_neg ho]
      exact .inl rfl

namespace Expressions

/-- The same expressions after a label was placed. -/
def place (x : Expressions t) (id : DefId) (address : UInt16) :
    Expressions (t.placeLabel id address) where
  at? := x.at?
  constants h :=
    x.constants (((t.relabels_placeLabel id address).meaning_iff fun _ => Meaning.noConfusion).1 h)

/-- Nodes that are stuck stay stuck when another expression is added. -/
theorem Stuck.including {x : Expressions t} {anchor : Anchor} {scope' : ScopeId} {e' : Expr}
    {hfree : ∀ found, x.at? anchor = some found → found = (scope', e')} {P : Site → Prop}
    (h : x.Stuck P site) : (x.including anchor scope' e' hfree).Stuck P site := by
  intro q hq
  obtain ⟨q', hneeds, hq'⟩ := h q hq
  refine ⟨q', ?_, hq'⟩
  cases hneeds with
  | left whole => exact .left whole.including
  | right whole => exact .right whole.including
  | constant node target meaning => exact .constant node.including target meaning

/-- Placing a label does not change which expressions there are. -/
theorem node_of_place {x : Expressions t} {id : DefId} {address : UInt16}
    (h : (x.place id address).Node site scope e) : x.Node site scope e := by
  induction h with
  | root hangs => exact .root hangs
  | left _ ih => exact .left ih
  | right _ ih => exact .right ih

end Expressions

/-- Which constants an expression mentions does not depend on the addresses of labels. -/
theorem refers_of_relabels {u : SymbolTable} (h : t.Relabels u) {id : DefId}
    (hrefers : u.Refers scope e id) : t.Refers scope e id := by
  induction hrefers with
  | here target meaning =>
    exact .here ((h.target? _ _).symm.trans target)
      ((h.meaning_iff fun _ => Meaning.noConfusion).1 meaning)
  | left _ ih => exact .left ih
  | right _ ih => exact .right ih

/-- Which constants use each other does not depend on the addresses of labels. -/
theorem uses_of_relabels {u : SymbolTable} (h : t.Relabels u) {id other : DefId}
    (huses : u.Uses id other) : t.Uses id other := by
  obtain ⟨value, inner, hm, hrefers⟩ := huses
  exact ⟨value, inner, (h.meaning_iff fun _ => Meaning.noConfusion).1 hm,
    refers_of_relabels h hrefers⟩

/-- No circle appears when labels are placed. -/
theorem reachesCycle_of_relabels {u : SymbolTable} (h : t.Relabels u)
    (hcycle : u.ReachesCycle scope e) : t.ReachesCycle scope e := by
  obtain ⟨id, turning, hrefers, hpath, hcycle⟩ := hcycle
  have huses : ∀ a b, u.Uses a b → t.Uses a b := fun _ _ => uses_of_relabels h
  exact ⟨id, turning, refers_of_relabels h hrefers, Relation.ReflTransGen.mono huses _ _ hpath,
    Relation.TransGen.mono huses _ _ hcycle⟩

/-- What may have happened so far: expressions were folded, with any demand and from nothing known
on, and labels were placed. A fold may have been abandoned. The given expressions were folded in
their own scopes, all others anywhere. -/
inductive History : (t : SymbolTable) → Expressions t → Memo → Prop
  | start {t : SymbolTable} (x : Expressions t) : History t x .empty
  | placed {t : SymbolTable} {x : Expressions t} {memo : Memo} (id : DefId) (address : UInt16)
      (before : History t x memo) : History (t.placeLabel id address) (x.place id address) memo
  | folded {t : SymbolTable} {x : Expressions t} {memo : Memo} (demand : Demand) (scope : ScopeId)
      (anchor : Anchor) (e : Expr) (log : Log) (before : History t x memo)
      (stands : ∀ found, x.at? anchor = some found → found = (scope, e)) :
      History t x (Run.ending (t.fold demand scope anchor e { state := memo, log })).state

/-- The nodes that lead into a circle stay without a result. -/
theorem History.pending {x : Expressions t} {memo : Memo} (h : History t x memo) {q : Site}
    (hq : x.Circular q) : memo.result q = .pending := by
  induction h generalizing q with
  | start x => rfl
  | placed id address before ih =>
    obtain ⟨scope, e, hnode, hcycle⟩ := hq
    exact ih ⟨scope, e, Expressions.node_of_place hnode,
      reachesCycle_of_relabels (relabels_placeLabel _ _ _) hcycle⟩
  | @folded t x memo demand scope anchor e log before stands ih =>
    obtain ⟨events, hfolds⟩ := t.folds_fold demand scope anchor e ⟨memo, log⟩
    have hnode : (x.including anchor scope e stands).Node { anchor } scope e := .root (if_pos rfl)
    exact (hfolds.stays_pending hnode (x.stuck_circular _).including fun _ => ih).1 q hq

/-- Every fold comes to an end by the rules, in the one way that the fold has. If the constants of
an expression lead into a circle then it is abandoned, whatever was folded before; and constants
are reported as nested too deeply only if seventeen of them are nested inside one another. -/
theorem History.cycles_abort {x : Expressions t} {memo : Memo} (h : History t x memo)
    (anchor : Anchor) (hangs : x.at? anchor = some (scope, e)) (demand : Demand) (log : Log) :
    (∀ r, (∃ events, t.Folds demand [] scope { anchor } e { state := memo, log } events r) ↔
      r = t.fold demand scope anchor e { state := memo, log }) ∧
    (t.ReachesCycle scope e → ∃ u,
      t.fold demand scope anchor e { state := memo, log } = .error .abort u) ∧
    ∀ added entry depth text,
      (Run.ending (t.fold demand scope anchor e { state := memo, log })).log.entries =
        log.entries ++ added → entry ∈ added → entry.error = .tooManyExpansions depth text →
      depth = maxExpansions ∧ ∃ ids : List DefId, ids.length = maxExpansions + 1 ∧
        t.Chained scope e ids ∧ text = t.chainText ids := by
  obtain ⟨events, hfolds⟩ := t.folds_fold demand scope anchor e { state := memo, log }
  refine ⟨fun r => fold_iff, fun hcycle => ?_, ?_⟩
  · have hcircular : x.Circular { anchor } := ⟨scope, e, .root hangs, hcycle⟩
    obtain ⟨_, u, hr⟩ := (hfolds.stays_pending (.root hangs) (x.stuck_circular _)
      fun _ => h.pending).2 hcircular
    exact ⟨u, hr⟩
  · intro added entry depth text hentries hmem herror
    rw [hfolds.entries] at hentries
    obtain rfl := List.append_cancel_left hentries
    obtain ⟨source, hreported⟩ := Event.exists_of_mem_entries hmem
    obtain ⟨hdepth, ids, hchained, hlength, htext⟩ :=
      hfolds.overflows (Nat.zero_le _) hreported herror
    rw [List.length_nil, Nat.zero_add] at hlength
    exact ⟨hdepth, ids, hlength, hchained, htext⟩

/-- A label and two constants that are defined by each other. -/
def circle : SymbolTable :=
  let use (text : String) : Expr := .reference [{ text }] {}
  let define (t : SymbolTable) (name : String) (meaning : Meaning) : SymbolTable :=
    t.define { name, meaning, owner := root }
  let first := define .empty "start" (.label none)
  let second := define first "width"
    (.constant (.operation .add (use "start") (use "height") {}) root)
  define second "height" (.constant (use "width") root)

/-- The circle is caught again after a fold of it was abandoned and its label was placed. -/
theorem History.cycles_abort_circle :
    let width : Expr := .reference [{ text := "width" }] {}
    let x := Expressions.single circle root width
    let placed := circle.placeLabel ⟨11⟩ 0x8000
    ∃ memo, History placed (x.place ⟨11⟩ 0x8000) memo ∧ placed.ReachesCycle root width ∧
      ∃ u, placed.fold ⟨true, true⟩ root (.detached 0) width ⟨memo, .empty 1⟩ =
        .error .abort u := by
  intro width x placed
  have hhistory := History.placed ⟨11⟩ 0x8000
    (.folded ⟨false, false⟩ root (.detached 0) width (.empty 1) (.start x)
      fun _ h => (Option.some.inj h).symm)
  have hwidth : placed.Uses ⟨13⟩ ⟨12⟩ := ⟨width, root, rfl, .here rfl rfl⟩
  have hheight : placed.Uses ⟨12⟩ ⟨13⟩ := ⟨_, root, rfl, .right (.here rfl rfl)⟩
  have hcycle : placed.ReachesCycle root width :=
    ⟨⟨12⟩, ⟨12⟩, .here rfl rfl, .refl, .tail (.single hheight) hwidth⟩
  exact ⟨_, hhistory, hcycle,
    (hhistory.cycles_abort (.detached 0) rfl ⟨true, true⟩ (.empty 1)).2.1 hcycle⟩

end SymbolTable

end Cartridge
