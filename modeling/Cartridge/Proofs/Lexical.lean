import Cartridge.Proofs.Declarations
import Cartridge.Proofs.Resolution

/-!
# Lexical scoping

What a name stands for is said here by rules, without a search: a name is looked for in its own
scope, and where that does not bind it in the scope around. A dotted path goes on inside the
packages that its pieces name.

A scope is always put inside one that is there already. So the way outwards ends, and the search for
a name finds what the rules say.

Main definitions:

- `SymbolTable.Visible`, `SymbolTable.Inside` and `SymbolTable.Leads`: what a name, a path inside a
  package and a path stand for.
- `SymbolTable.Built`: the tables that the operations on tables make.
- `SymbolTable.Nested`: every scope is inside an older one.

Main results:

- Theorem `SymbolTable.Built.nested`: this is so in every table that can be made.
- Theorem `SymbolTable.Nested.target?_eq_some_iff`: a path is found to stand for what it leads to.
-/

namespace Cartridge

namespace SymbolTable

/-! ## The rules -/

/-- What a name stands for in a scope: what the scope binds it to, or else what it stands for in the
scope around. -/
inductive Visible (t : SymbolTable) (name : String) : ScopeId → DefId → Prop
  | here {scope : ScopeId} {id : DefId} (binding : t.binding? scope name = some id) :
      Visible t name scope id
  | outwards {scope outer : ScopeId} {id : DefId} (free : t.binding? scope name = none)
      (parent : (t.scope scope).parent = some outer) (visible : Visible t name outer id) :
      Visible t name scope id

/-- What a path stands for inside the scope of a package. Nothing is looked for outside of it. -/
inductive Inside (t : SymbolTable) : ScopeId → List Name → DefId → Prop
  | last {scope : ScopeId} {piece : Name} {id : DefId}
      (binding : t.binding? scope piece.text = some id) : Inside t scope [piece] id
  | through {scope inner : ScopeId} {piece : Name} {rest : List Name} {package id : DefId}
      (binding : t.binding? scope piece.text = some package)
      (meaning : t.meaning? package = some (.package inner)) (inside : Inside t inner rest id) :
      Inside t scope (piece :: rest) id

/-- What a path stands for in a scope. -/
inductive Leads (t : SymbolTable) : ScopeId → List Name → DefId → Prop
  | name {scope : ScopeId} {piece : Name} {id : DefId} (visible : t.Visible piece.text scope id) :
      Leads t scope [piece] id
  | through {scope inner : ScopeId} {piece : Name} {rest : List Name} {package id : DefId}
      (visible : t.Visible piece.text scope package)
      (meaning : t.meaning? package = some (.package inner)) (inside : t.Inside inner rest id) :
      Leads t scope (piece :: rest) id

/-! ## Tables that can be made -/

/-- The tables that the operations on tables make. A scope that is entered, or that another one is
put into, is one of the table. -/
inductive Built : SymbolTable → Prop
  | empty : Built .empty
  | enter {t : SymbolTable} {scope : ScopeId} (built : Built t)
      (known : scope.index < t.scopes.size) : Built (t.enter scope)
  | exit {t : SymbolTable} (built : Built t) : Built t.exit
  | addScope {t : SymbolTable} {parent : ScopeId} (built : Built t)
      (known : parent.index < t.scopes.size) : Built (t.addScope parent)
  | put {t : SymbolTable} (built : Built t) (name : String) (pos : Option Position)
      (meaning : Meaning) : Built (t.define { name, pos, meaning, owner := t.current })
  | withPackage {t : SymbolTable} (built : Built t) (name : Name) : Built (t.withPackage name)
  | placeLabel {t : SymbolTable} (built : Built t) (id : DefId) (address : UInt16) :
      Built (t.placeLabel id address)

/-- Every scope is inside an older one. -/
def Nested (t : SymbolTable) : Prop :=
  ∀ scope outer, (t.scope scope).parent = some outer → outer.index < scope.index

/-- Every scope that is entered is one of the table, and so is the root. -/
structure Entered (t : SymbolTable) : Prop where
  root : 0 < t.scopes.size
  stack : ∀ scope ∈ t.stack, scope.index < t.scopes.size

variable {t u : SymbolTable}

/-- So the current scope is one of the table. -/
theorem Entered.current (h : t.Entered) : t.current.index < t.scopes.size := by
  unfold SymbolTable.current
  cases hs : t.stack with
  | nil => exact h.root
  | cons scope rest => exact h.stack scope (hs ▸ List.mem_cons_self)

theorem Entered.mono (h : t.Entered) (hsize : t.scopes.size ≤ u.scopes.size)
    (hstack : ∀ scope ∈ u.stack, scope ∈ t.stack) : u.Entered where
  root := Nat.lt_of_lt_of_le h.root hsize
  stack scope hscope := Nat.lt_of_lt_of_le (h.stack scope (hstack scope hscope)) hsize

/-- Scopes stay inside older ones if none is moved. -/
theorem Nested.mono (h : t.Nested)
    (hparent : ∀ scope, (u.scope scope).parent = (t.scope scope).parent) : u.Nested := by
  intro scope outer hu
  exact h scope outer ((hparent scope).symm.trans hu)

/-- A scope may be put inside one that is there. -/
theorem Nested.addScope (h : t.Nested) {parent : ScopeId} (hp : parent.index < t.scopes.size) :
    (t.addScope parent).Nested := by
  intro scope outer hs
  rcases Nat.lt_trichotomy scope.index t.scopes.size with hlt | heq | hgt
  · rw [(t.retains_addScope parent).parent scope hlt] at hs
    exact h scope outer hs
  · obtain rfl : scope = t.nextScope := congrArg ScopeId.mk heq
    rw [parent_addScope] at hs
    cases hs
    exact hp
  · have hlt := lt_size_of_parent hs
    have hsize : (t.addScope parent).scopes.size = t.scopes.size + 1 := Array.size_push _
    omega

/-- In a table that can be made every scope is inside an older one, and the scopes that are entered
are scopes of the table. -/
theorem Built.nested_and_entered (h : t.Built) : t.Nested ∧ t.Entered := by
  induction h with
  | empty =>
    refine ⟨fun scope outer hs => ?_, by decide, fun _ h => absurd h List.not_mem_nil⟩
    have hlt := lt_size_of_parent hs
    have hsize : SymbolTable.empty.scopes.size = 1 := rfl
    obtain rfl : scope = root := congrArg ScopeId.mk (by omega)
    cases hs
  | enter _ known ih =>
    refine ⟨ih.1, ih.2.root, fun other hother => ?_⟩
    rcases List.mem_cons.1 hother with rfl | hother
    · exact known
    · exact ih.2.stack other hother
  | exit _ ih => exact ⟨ih.1, ih.2.mono (Nat.le_refl _) fun _ h => List.mem_of_mem_tail h⟩
  | addScope _ known ih =>
    exact ⟨ih.1.addScope known, ih.2.mono (retains_addScope _ _).size fun _ h => h⟩
  | put _ name pos meaning ih =>
    exact ⟨ih.1.mono (parent_define _ _), ih.2.mono (Nat.le_of_eq Array.size_modify.symm)
      fun _ h => h⟩
  | @withPackage t _ name ih =>
    have hadd := ih.1.addScope ih.2.current
    refine ⟨hadd.mono fun scope => ?_, ih.2.mono ?_ fun _ h => h⟩
    · exact (scope_setPackage _ _ _ _).1.trans (parent_define _ _ _)
    · refine Nat.le_trans (t.retains_addScope t.current).size (Nat.le_of_eq ?_)
      unfold SymbolTable.withPackage setPackage define
      rw [Array.size_modify, Array.size_modify]
  | placeLabel _ id address ih => exact ⟨ih.1, ih.2.root, ih.2.stack⟩

/-- In a table that can be made every scope is inside an older one. -/
theorem Built.nested (h : t.Built) : t.Nested :=
  h.nested_and_entered.1

/-! ## The search -/

/-- The search outwards finds what a name stands for, if it may go far enough. -/
theorem Nested.findSome?_chainUpTo (h : t.Nested) (name : String) {n : Nat} {scope : ScopeId}
    (hn : scope.index < n) {id : DefId} :
    (t.chainUpTo n scope).findSome? (fun outer => t.binding? outer name) = some id ↔
      t.Visible name scope id := by
  induction n generalizing scope with
  | zero => exact absurd hn (Nat.not_lt_zero _)
  | succ n ih =>
    unfold chainUpTo
    rw [List.findSome?_cons]
    cases hb : t.binding? scope name with
    | some found =>
      constructor
      · rintro ⟨⟩
        exact .here hb
      · rintro (⟨binding⟩ | ⟨free, _, _⟩)
        · exact hb.symm.trans binding
        · cases hb.symm.trans free
    | none =>
      cases hp : (t.scope scope).parent with
      | none =>
        constructor
        · rintro ⟨⟩
        · rintro (⟨binding⟩ | ⟨_, parent, _⟩)
          · cases hb.symm.trans binding
          · cases hp.symm.trans parent
      | some outer =>
        have hlt : outer.index < n := Nat.lt_of_lt_of_le (h scope outer hp) (Nat.le_of_lt_succ hn)
        have hrest := ih hlt
        constructor
        · intro hfound
          exact .outwards hb hp (hrest.1 hfound)
        · rintro (⟨binding⟩ | ⟨_, parent, visible⟩)
          · cases hb.symm.trans binding
          · cases hp.symm.trans parent
            exact hrest.2 visible

/-- A name is found to stand for what the rules say. -/
theorem Nested.lookup_eq_some_iff (h : t.Nested) {scope : ScopeId} {name : String} {id : DefId} :
    t.lookup scope name true = some id ↔ t.Visible name scope id := by
  unfold lookup chain
  rw [if_pos rfl]
  exact h.findSome?_chainUpTo name (Nat.lt_succ_self _)

/-- A path inside a package is found to stand for what the rules say. -/
theorem follow?_eq_some_iff {scope : ScopeId} {path : List Name} {id : DefId} :
    t.follow? false scope path = some id ↔ t.Inside scope path id := by
  induction path generalizing scope with
  | nil =>
    constructor
    · rintro ⟨⟩
    · rintro ⟨⟩
  | cons piece rest ih =>
    cases rest with
    | nil =>
      constructor
      · exact fun hb => .last hb
      · rintro (⟨binding⟩ | ⟨_, _, inside⟩)
        · exact binding
        · cases inside
    | cons next rest =>
      unfold follow?
      constructor
      · intro hf
        cases hb : t.lookup scope piece.text false with
        | none =>
          rw [hb] at hf
          cases hf
        | some package =>
          simp only [hb] at hf
          split at hf
          · rename_i inner hm
            exact .through hb hm (ih.1 hf)
          · cases hf
      · rintro (_ | ⟨binding, meaning, inside⟩)
        have hb : t.lookup scope piece.text false = _ := binding
        simp only [hb, meaning]
        exact ih.2 inside

/-- A path is found to stand for what it leads to. -/
theorem Nested.target?_eq_some_iff (h : t.Nested) {scope : ScopeId} {path : List Name}
    {id : DefId} : t.target? scope path = some id ↔ t.Leads scope path id := by
  unfold target?
  cases path with
  | nil =>
    constructor
    · rintro ⟨⟩
    · rintro ⟨⟩
  | cons piece rest =>
    cases rest with
    | nil =>
      constructor
      · exact fun hl => .name (h.lookup_eq_some_iff.1 hl)
      · rintro (⟨visible⟩ | ⟨_, _, inside⟩)
        · exact h.lookup_eq_some_iff.2 visible
        · cases inside
    | cons next rest =>
      unfold follow?
      constructor
      · intro hf
        cases hl : t.lookup scope piece.text true with
        | none =>
          rw [hl] at hf
          cases hf
        | some package =>
          simp only [hl] at hf
          split at hf
          · rename_i inner hm
            exact .through (h.lookup_eq_some_iff.1 hl) hm (follow?_eq_some_iff.1 hf)
          · cases hf
      · rintro (_ | ⟨visible, meaning, inside⟩)
        simp only [h.lookup_eq_some_iff.2 visible, meaning]
        exact follow?_eq_some_iff.2 inside

end SymbolTable

end Cartridge
