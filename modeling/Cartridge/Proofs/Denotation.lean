import Cartridge.Proofs.Fold

/-!
# What expressions denote

The value of an expression is what its definitions say, without a memo and without an order of
folding. What is remembered from an earlier table may be something else. Here it is said which
values there are in a later table when some results are remembered already: those that are
remembered stay, and all others follow from the later table. The values are described in two more
ways, by the rules of lexical scoping (`hasValue_iff_denotes`) and as one of the results that
folding may come to (`amounts_value_iff`).

Main definitions:

- `SymbolTable.Denotes`: the value of an expression in a scope.
- `SymbolTable.Settles`: the value that an expression takes when some results are remembered.
- `SymbolTable.Hangs`: the expression at a site, and the scope in which it is folded.
- `SymbolTable.Rooted`: one expression hangs from each anchor, and from a constant its own.
- `SymbolTable.Relabels`: a table with other addresses for its labels.
- `SymbolTable.Precedes`: a table in which some labels of a later one are not placed yet.

Main results:

- Theorems `Denotes.unique` and `Settles.unique`: there is at most one value.
- Theorem `settles_empty_iff`: if nothing is remembered then values are settled as they are denoted.
- Theorem `Hangs.unique`: one expression stands at each site.
- Theorem `Settles.denotes`: if what is remembered is right, then so is everything else.
- Theorem `Relabels.target?`: placing labels does not change what a path stands for.
-/

namespace Cartridge

/-- Different operands have different sites. -/
theorem Site.child_inj {s s' : Site} {turn turn' : Turn} :
    s.child turn = s'.child turn' ↔ s = s' ∧ turn = turn' := by
  cases s
  cases s'
  simp only [child, mk.injEq, Nat.add_right_cancel_iff, List.cons.injEq]
  constructor
  · rintro ⟨hd, ha, ht, hs⟩
    exact ⟨⟨hd, ha, hs⟩, ht⟩
  · rintro ⟨⟨hd, ha, hs⟩, ht⟩
    exact ⟨hd, ha, ht, hs⟩

namespace SymbolTable

/-! ## Values -/

/-- The value of an expression in a scope. A path is followed from the scope, and a constant has the
value of its expression in the scope of its declaration. -/
inductive Denotes (t : SymbolTable) : ScopeId → Expr → UInt16 → Prop
  | number {scope : ScopeId} {v : UInt16} {pos : Position} : Denotes t scope (.number v pos) v
  | storage {scope : ScopeId} {path : List Name} {pos : Position} {id : DefId} {address : UInt16}
      (target : t.target? scope path = some id)
      (meaning : t.meaning? id = some (.storage address)) :
      Denotes t scope (.reference path pos) address
  | label {scope : ScopeId} {path : List Name} {pos : Position} {id : DefId} {address : UInt16}
      (target : t.target? scope path = some id)
      (meaning : t.meaning? id = some (.label (some address))) :
      Denotes t scope (.reference path pos) address
  | constant {scope inner : ScopeId} {path : List Name} {pos : Position} {id : DefId} {e : Expr}
      {v : UInt16} (target : t.target? scope path = some id)
      (meaning : t.meaning? id = some (.constant e inner)) (value : Denotes t inner e v) :
      Denotes t scope (.reference path pos) v
  | operation {scope : ScopeId} {op : BinaryOp} {a b : Expr} {pos : Position} {l r v : UInt16}
      (left : Denotes t scope a l) (right : Denotes t scope b r) (apply : op.apply l r = .ok v) :
      Denotes t scope (.operation op a b pos) v

/-- The value that the expression at a site takes when some results are remembered: a remembered one
stays, and what is not remembered follows from the table. -/
inductive Settles (t : SymbolTable) (memo : Memo) : Site → ScopeId → Expr → UInt16 → Prop
  | known {site : Site} {scope : ScopeId} {e : Expr} {v : UInt16}
      (known : memo.result site = .value v) : Settles t memo site scope e v
  | number {site : Site} {scope : ScopeId} {v : UInt16} {pos : Position}
      (fresh : memo.result site = .pending) : Settles t memo site scope (.number v pos) v
  | storage {site : Site} {scope : ScopeId} {path : List Name} {pos : Position} {id : DefId}
      {address : UInt16} (fresh : memo.result site = .pending)
      (target : t.target? scope path = some id)
      (meaning : t.meaning? id = some (.storage address)) :
      Settles t memo site scope (.reference path pos) address
  | label {site : Site} {scope : ScopeId} {path : List Name} {pos : Position} {id : DefId}
      {address : UInt16} (fresh : memo.result site = .pending)
      (target : t.target? scope path = some id)
      (meaning : t.meaning? id = some (.label (some address))) :
      Settles t memo site scope (.reference path pos) address
  | constant {site : Site} {scope inner : ScopeId} {path : List Name} {pos : Position} {id : DefId}
      {e : Expr} {v : UInt16} (fresh : memo.result site = .pending)
      (target : t.target? scope path = some id)
      (meaning : t.meaning? id = some (.constant e inner))
      (value : Settles t memo { anchor := .constant id } inner e v) :
      Settles t memo site scope (.reference path pos) v
  | operation {site : Site} {scope : ScopeId} {op : BinaryOp} {a b : Expr} {pos : Position}
      {l r v : UInt16} (fresh : memo.result site = .pending)
      (left : Settles t memo (site.child .left) scope a l)
      (right : Settles t memo (site.child .right) scope b r) (apply : op.apply l r = .ok v) :
      Settles t memo site scope (.operation op a b pos) v

section

variable {t : SymbolTable} {memo : Memo} {site : Site} {scope : ScopeId} {e : Expr} {v w : UInt16}

/-- What is remembered at a site is what its expression settles to. -/
theorem Settles.eq_of_known (h : Settles t memo site scope e v) (hw : memo.result site = .value w) :
    v = w := by
  cases h with
  | known known => exact Folded.value.inj (known.symm.trans hw)
  | number fresh => cases fresh.symm.trans hw
  | storage fresh _ _ => cases fresh.symm.trans hw
  | label fresh _ _ => cases fresh.symm.trans hw
  | constant fresh _ _ _ => cases fresh.symm.trans hw
  | operation fresh _ _ _ => cases fresh.symm.trans hw

/-- A reference of which nothing is remembered settles to what its definition says. -/
theorem Settles.reference_of_pending {path : List Name} {pos : Position}
    (h : Settles t memo site scope (.reference path pos) v)
    (hp : memo.result site = .pending) :
    ∃ id, t.target? scope path = some id ∧
      (t.meaning? id = some (.storage v) ∨ t.meaning? id = some (.label (some v)) ∨
        ∃ e inner, t.meaning? id = some (.constant e inner) ∧
          Settles t memo { anchor := .constant id } inner e v) := by
  cases h with
  | known known => cases hp.symm.trans known
  | storage _ target meaning => exact ⟨_, target, Or.inl meaning⟩
  | label _ target meaning => exact ⟨_, target, Or.inr (Or.inl meaning)⟩
  | constant _ target meaning value => exact ⟨_, target, Or.inr (Or.inr ⟨_, _, meaning, value⟩)⟩

/-- An expression settles to at most one value. -/
theorem Settles.unique (hv : Settles t memo site scope e v) (hw : Settles t memo site scope e w) :
    v = w := by
  induction hv generalizing w with
  | known known => exact (hw.eq_of_known known).symm
  | number fresh =>
    cases hw with
    | known known => cases fresh.symm.trans known
    | number _ => rfl
  | storage fresh target meaning =>
    obtain ⟨id, target', h | h | ⟨e, inner, h, _⟩⟩ := hw.reference_of_pending fresh
    all_goals
      cases target.symm.trans target'
      cases meaning.symm.trans h
      try rfl
  | label fresh target meaning =>
    obtain ⟨id, target', h | h | ⟨e, inner, h, _⟩⟩ := hw.reference_of_pending fresh
    all_goals
      cases target.symm.trans target'
      cases meaning.symm.trans h
      try rfl
  | constant fresh target meaning _ ih =>
    obtain ⟨id, target', h | h | ⟨e, inner, h, value⟩⟩ := hw.reference_of_pending fresh
    all_goals
      cases target.symm.trans target'
      cases meaning.symm.trans h
    exact ih value
  | operation fresh _ _ apply ihl ihr =>
    cases hw with
    | known known => cases fresh.symm.trans known
    | operation _ left' right' apply' =>
      cases ihl left'
      cases ihr right'
      exact Except.ok.inj (apply.symm.trans apply')

/-- If nothing is remembered then an expression settles to what it denotes. -/
theorem settles_empty_iff : Settles t .empty site scope e v ↔ Denotes t scope e v := by
  constructor
  · intro h
    generalize hmemo : Memo.empty = memo at h
    induction h with
    | known known =>
      subst hmemo
      cases known
    | number _ => exact .number
    | storage _ target meaning => exact .storage target meaning
    | label _ target meaning => exact .label target meaning
    | constant _ target meaning _ ih => exact .constant target meaning ih
    | operation _ _ _ apply ihl ihr => exact .operation ihl ihr apply
  · intro h
    induction h generalizing site with
    | number => exact .number rfl
    | storage target meaning => exact .storage rfl target meaning
    | label target meaning => exact .label rfl target meaning
    | constant target meaning _ ih => exact .constant rfl target meaning ih
    | operation _ _ apply ihl ihr => exact .operation rfl ihl ihr apply

/-- An expression has at most one value. -/
theorem Denotes.unique (hv : Denotes t scope e v) (hw : Denotes t scope e w) : v = w := by
  have hsettles : Settles t .empty { anchor := .detached 0 } scope e v := settles_empty_iff.2 hv
  exact hsettles.unique (settles_empty_iff.2 hw)

end

/-! ## Expressions and their sites -/

/-- The expression at a site and the scope in which it is folded, given those that hang from the
anchors. -/
inductive Hangs (roots : Anchor → ScopeId → Expr → Prop) : Site → ScopeId → Expr → Prop
  | root {anchor : Anchor} {scope : ScopeId} {e : Expr} (hangs : roots anchor scope e) :
      Hangs roots { anchor } scope e
  | left {site : Site} {scope : ScopeId} {op : BinaryOp} {a b : Expr} {pos : Position}
      (whole : Hangs roots site scope (.operation op a b pos)) :
      Hangs roots (site.child .left) scope a
  | right {site : Site} {scope : ScopeId} {op : BinaryOp} {a b : Expr} {pos : Position}
      (whole : Hangs roots site scope (.operation op a b pos)) :
      Hangs roots (site.child .right) scope b

/-- At most one expression hangs from each anchor, and from the anchor of a constant hangs its
expression, which is folded in the scope of the declaration. -/
structure Rooted (t : SymbolTable) (roots : Anchor → ScopeId → Expr → Prop) : Prop where
  unique : ∀ {anchor scope scope' e e'}, roots anchor scope e → roots anchor scope' e' →
    scope = scope' ∧ e = e'
  constants : ∀ {id e scope}, t.meaning? id = some (.constant e scope) →
    roots (.constant id) scope e

section

variable {t : SymbolTable} {roots : Anchor → ScopeId → Expr → Prop} {site : Site}
  {scope scope' : ScopeId} {e e' : Expr}

/-- If one expression hangs from each anchor, then one stands at each site. -/
theorem Hangs.unique (hroots : t.Rooted roots) (h : Hangs roots site scope e)
    (h' : Hangs roots site scope' e') : scope = scope' ∧ e = e' := by
  -- The turns of a site say how its expression was reached.
  generalize hsite : site = other at h'
  induction h generalizing other scope' e' with
  | root hangs =>
    cases h' with
    | root hangs' =>
      cases hsite
      exact hroots.unique hangs hangs'
    | left _ => cases hsite
    | right _ => cases hsite
  | left _ ih =>
    cases h' with
    | root _ => cases hsite
    | left whole' =>
      obtain ⟨rfl, heq⟩ := ih _ (Site.child_inj.1 hsite).1 whole'
      cases heq
      exact ⟨rfl, rfl⟩
    | right _ => cases (Site.child_inj.1 hsite).2
  | right _ ih =>
    cases h' with
    | root _ => cases hsite
    | left _ => cases (Site.child_inj.1 hsite).2
    | right whole' =>
      obtain ⟨rfl, heq⟩ := ih _ (Site.child_inj.1 hsite).1 whole'
      cases heq
      exact ⟨rfl, rfl⟩

/-- If every value that is remembered is right, then so is every value that is settled. -/
theorem Settles.denotes {memo : Memo} {v : UInt16} (hroots : t.Rooted roots)
    (hright : ∀ site scope e v, Hangs roots site scope e → memo.result site = .value v →
      Denotes t scope e v)
    (h : Settles t memo site scope e v) (hstands : Hangs roots site scope e) :
    Denotes t scope e v := by
  induction h with
  | known known => exact hright _ _ _ _ hstands known
  | number _ => exact .number
  | storage _ target meaning => exact .storage target meaning
  | label _ target meaning => exact .label target meaning
  | constant _ target meaning _ ih =>
    exact .constant target meaning (ih (.root (hroots.constants meaning)))
  | operation _ _ _ apply ihl ihr => exact .operation (ihl hstands.left) (ihr hstands.right) apply

end

/-! ### Expressions of a tree -/

/-- What hangs from the anchors: certain expressions from the locations of the tree, and from every
constant its own. -/
inductive Roots (t : SymbolTable) (tree : Location → ScopeId → Expr → Prop) :
    Anchor → ScopeId → Expr → Prop
  | tree {m : Location} {scope : ScopeId} {e : Expr} (root : tree m scope e) :
      Roots t tree (.tree m) scope e
  | constant {id : DefId} {scope : ScopeId} {e : Expr}
      (root : t.meaning? id = some (.constant e scope)) : Roots t tree (.constant id) scope e

/-- The expression at a site and the scope in which it is folded, given those that hang from the
locations of the tree. A constant is folded in the scope of its declaration. -/
abbrev Stands (t : SymbolTable) (tree : Location → ScopeId → Expr → Prop) :
    Site → ScopeId → Expr → Prop :=
  Hangs (t.Roots tree)

/-- At most one expression hangs from each location. -/
def SingleRooted (tree : Location → ScopeId → Expr → Prop) : Prop :=
  ∀ m scope scope' e e', tree m scope e → tree m scope' e' → scope = scope' ∧ e = e'

/-- What hangs from a location of the tree stands at its site. -/
theorem Stands.tree {t : SymbolTable} {tree : Location → ScopeId → Expr → Prop} {m : Location}
    {scope : ScopeId} {e : Expr} (root : tree m scope e) :
    t.Stands tree { anchor := .tree m } scope e :=
  .root (.tree root)

/-- So does the expression of a constant. -/
theorem Stands.constant {t : SymbolTable} {tree : Location → ScopeId → Expr → Prop} {id : DefId}
    {scope : ScopeId} {e : Expr} (root : t.meaning? id = some (.constant e scope)) :
    t.Stands tree { anchor := .constant id } scope e :=
  .root (.constant root)

/-- If one expression hangs from each location, then one hangs from each anchor. -/
theorem SingleRooted.rooted {tree : Location → ScopeId → Expr → Prop} (h : SingleRooted tree)
    (t : SymbolTable) : t.Rooted (t.Roots tree) where
  unique := by
    rintro _ scope scope' e e' (root | root) (root' | root')
    · exact h _ _ _ _ _ root root'
    · cases root.symm.trans root'
      exact ⟨rfl, rfl⟩
  constants := .constant

/-! ## Tables in which labels are placed -/

/-- A table differs from another one only in the addresses of labels. -/
structure Relabels (t u : SymbolTable) : Prop where
  scopes : u.scopes = t.scopes
  meaning : ∀ id, u.meaning? id = t.meaning? id ∨
    ∃ before after, t.meaning? id = some (.label before) ∧ u.meaning? id = some (.label after)

namespace Relabels

variable {t u : SymbolTable}

/-- Everything but a label is the same. -/
theorem meaning_iff (h : t.Relabels u) {id : DefId} {m : Meaning} (hne : ∀ a, m ≠ .label a) :
    u.meaning? id = some m ↔ t.meaning? id = some m := by
  rcases h.meaning id with heq | ⟨before, after, ht, hu⟩
  · rw [heq]
  · rw [ht, hu]
    exact ⟨fun h => absurd (Option.some.inj h).symm (hne after),
      fun h => absurd (Option.some.inj h).symm (hne before)⟩

theorem binding? (h : t.Relabels u) (scope : ScopeId) (name : String) :
    u.binding? scope name = t.binding? scope name := by
  unfold SymbolTable.binding? SymbolTable.scope
  rw [h.scopes]

theorem chainUpTo (h : t.Relabels u) (n : Nat) (scope : ScopeId) :
    u.chainUpTo n scope = t.chainUpTo n scope := by
  induction n generalizing scope with
  | zero => rfl
  | succ n ih =>
    unfold SymbolTable.chainUpTo SymbolTable.scope
    rw [h.scopes]
    split
    · rw [ih]
    · rfl

theorem lookup (h : t.Relabels u) (scope : ScopeId) (name : String) (inherit : Bool) :
    u.lookup scope name inherit = t.lookup scope name inherit := by
  unfold SymbolTable.lookup SymbolTable.chain
  rw [h.chainUpTo, h.binding?]
  simp only [h.binding?]

theorem follow? (h : t.Relabels u) (inherit : Bool) (scope : ScopeId) (path : List Name) :
    u.follow? inherit scope path = t.follow? inherit scope path := by
  induction path generalizing inherit scope with
  | nil => rfl
  | cons piece rest ih =>
    cases rest with
    | nil => exact h.lookup _ _ _
    | cons next rest =>
      unfold SymbolTable.follow?
      rw [h.lookup]
      cases t.lookup scope piece.text inherit with
      | none => rfl
      | some id =>
        have hpackage : ∀ inner, u.meaning? id = some (.package inner) ↔
            t.meaning? id = some (.package inner) :=
          fun inner => h.meaning_iff fun _ => Meaning.noConfusion
        by_cases hm : ∃ inner, t.meaning? id = some (.package inner)
        · obtain ⟨inner, hm⟩ := hm
          have hu := (hpackage inner).2 hm
          simp only [hm, hu, ih]
        · have ht := not_exists.1 hm
          dsimp only
          split
          · rename_i inner heq
            exact absurd ((hpackage inner).1 heq) (ht inner)
          · rfl

/-- A path stands for the same definition. -/
theorem target? (h : t.Relabels u) (scope : ScopeId) (path : List Name) :
    u.target? scope path = t.target? scope path :=
  h.follow? _ _ _

end Relabels

/-- A table differs from a later one only in labels that it has not placed. -/
structure Precedes (t u : SymbolTable) : Prop where
  scopes : u.scopes = t.scopes
  meaning : ∀ id, u.meaning? id = t.meaning? id ∨
    t.meaning? id = some (.label none) ∧ ∃ address, u.meaning? id = some (.label address)

namespace Precedes

variable {t u : SymbolTable}

theorem refl (t : SymbolTable) : t.Precedes t :=
  ⟨rfl, fun _ => Or.inl rfl⟩

theorem relabels (h : t.Precedes u) : t.Relabels u where
  scopes := h.scopes
  meaning id := (h.meaning id).imp_right fun ⟨ht, address, hu⟩ => ⟨none, address, ht, hu⟩

/-- Everything but a label that is not placed is what it will be. -/
theorem meaning_of_ne (h : t.Precedes u) {id : DefId} {m : Meaning} (hm : t.meaning? id = some m)
    (hne : m ≠ .label none) : u.meaning? id = some m := by
  rcases h.meaning id with heq | ⟨hlabel, -⟩
  · exact heq.trans hm
  · cases hm.symm.trans hlabel
    exact absurd rfl hne

/-- What will be a label is one. -/
theorem label_of_label (h : t.Precedes u) {id : DefId} {after : Option UInt16}
    (hu : u.meaning? id = some (.label after)) :
    ∃ d before, t.definition? id = some d ∧ d.meaning = .label before := by
  have hbefore : ∃ before, t.meaning? id = some (.label before) := by
    rcases h.meaning id with heq | ⟨hnone, -⟩
    · exact ⟨after, heq.symm.trans hu⟩
    · exact ⟨none, hnone⟩
  obtain ⟨before, hbefore⟩ := hbefore
  obtain ⟨d, hd, hmeaning⟩ := Option.map_eq_some_iff.1 hbefore
  exact ⟨d, before, hd, hmeaning⟩

/-- A path stands for the same definition. -/
theorem target? (h : t.Precedes u) (scope : ScopeId) (path : List Name) :
    u.target? scope path = t.target? scope path :=
  h.relabels.target? scope path

end Precedes

end SymbolTable

end Cartridge
