import Cartridge.Proofs.Coupling
import Cartridge.Proofs.Declarations
import Cartridge.Proofs.Fold

/-!
# Renamings

Two symbol tables can hold the same definitions under different numbers, and two memos the same
results at different sites. Nothing that a program can see depends on these numbers and sites: names
lead to the same definitions, and folds of the same expression are coupled.

Main definitions:

- `SymbolTable.Renames`: the definitions of a table have other numbers in another one.
- `Site.map`: the site of the same expression, when its anchor has moved.
- `Memo.Twin`: two memos have the same results.

Main results:

- Theorems `SymbolTable.Renames.define`, `SymbolTable.Renames.addScope`,
  `SymbolTable.Renames.setPackage` and `SymbolTable.Renames.placeLabel`: the operations on tables
  keep a renaming.
- Theorem `SymbolTable.Renames.couples_fold`: folds of one expression are coupled.
-/

namespace Cartridge

/-! ## Operations on tables -/

/-- A definition whose label got an address. -/
def Definition.placed (address : UInt16) (d : Definition) : Definition :=
  match d.meaning with
  | .label _ => { d with meaning := .label (some address) }
  | _ => d

namespace SymbolTable

theorem size_define (t : SymbolTable) (d : Definition) : (t.define d).size = t.size + 1 :=
  Array.size_push d

theorem nextDef_define (t : SymbolTable) (d : Definition) : (t.define d).nextDef = ⟨t.size + 1⟩ :=
  congrArg DefId.mk (t.size_define d)

theorem scopes_define (t : SymbolTable) (d : Definition) :
    (t.define d).scopes.size = t.scopes.size :=
  Array.size_modify

/-- A new definition is found under the next number, and all others stay where they are. -/
theorem definition?_define (t : SymbolTable) (d : Definition) (id : DefId) :
    (t.define d).definition? id = if id = t.nextDef then some d else t.definition? id := by
  split
  · subst id
    exact t.definition?_define_self d
  · rename_i hne
    have hindex : id.index ≠ t.definitions.size := fun heq => hne (congrArg DefId.mk heq)
    exact (Array.getElem?_push ..).trans (if_neg hindex)

/-- A new definition binds its name in its scope, if that exists, and nothing else. -/
theorem binding?_define (t : SymbolTable) (d : Definition) (id : ScopeId) (name : String) :
    (t.define d).binding? id name =
      if (id = d.owner ∧ d.owner.index < t.scopes.size) ∧ name = d.name then some t.nextDef
      else t.binding? id name := by
  unfold binding?
  rw [scope_define]
  by_cases ho : id = d.owner ∧ d.owner.index < t.scopes.size
  · rw [if_pos ho, List.lookup_cons]
    by_cases hn : name = d.name
    · rw [if_pos ⟨ho, hn⟩, beq_iff_eq.2 hn]
    · rw [if_neg fun h => hn h.2, beq_eq_false_iff_ne.2 hn]
  · rw [if_neg ho, if_neg fun h => ho h.1]

/-- A new scope is inside the given one, and belongs to no package. -/
theorem scope_addScope (t : SymbolTable) (parent id : ScopeId) :
    (t.addScope parent).scope id =
      if id = t.nextScope then { parent := some parent } else t.scope id := by
  unfold SymbolTable.scope addScope
  rw [Array.getD_eq_getD_getElem?, Array.getD_eq_getD_getElem?, Array.getElem?_push]
  by_cases h : id = t.nextScope
  · have hindex : id.index = t.scopes.size := congrArg ScopeId.index h
    rw [if_pos hindex, if_pos h]
    rfl
  · rw [if_neg fun heq => h (congrArg ScopeId.mk heq), if_neg h]

/-- Only the scope that is given a package gets one. -/
theorem package_setPackage (t : SymbolTable) (scope id : ScopeId) (package : DefId) :
    ((t.setPackage scope package).scope id).package =
      if id = scope ∧ scope.index < t.scopes.size then some package else (t.scope id).package := by
  unfold SymbolTable.scope setPackage
  rw [Array.getD_eq_getD_getElem?, Array.getD_eq_getD_getElem?, Array.getElem?_modify]
  by_cases h : id = scope
  · subst h
    rw [if_pos rfl]
    rcases Nat.lt_or_ge id.index t.scopes.size with hlt | hge
    · rw [if_pos ⟨rfl, hlt⟩, Array.getElem?_eq_getElem hlt]
      rfl
    · rw [if_neg fun h => absurd h.2 (Nat.not_lt.2 hge), Array.getElem?_eq_none hge]
      rfl
  · rw [if_neg fun heq => h (congrArg ScopeId.mk heq.symm), if_neg fun heq => h heq.1]

/-- Placing a label touches one definition. -/
theorem definition?_placeLabel (t : SymbolTable) (id other : DefId) (address : UInt16) :
    (t.placeLabel id address).definition? other =
      if other = id then (t.definition? other).map (Definition.placed address)
      else t.definition? other := by
  unfold definition? placeLabel
  rw [Array.getElem?_modify]
  by_cases h : other = id
  · subst h
    rw [if_pos rfl, if_pos rfl]
    rfl
  · rw [if_neg fun heq => h (congrArg DefId.mk heq.symm), if_neg h]

/-! ## Renamed tables -/

/-- The definitions of a table have other numbers in another one. Only numbers that are in use may
be changed. -/
structure Renames (ρ : DefId → DefId) (t t' : SymbolTable) : Prop where
  injective : ∀ {i j}, ρ i = ρ j → i = j
  fixed : ∀ id, t.size ≤ id.index → ρ id = id
  size : t'.size = t.size
  scopes : t'.scopes.size = t.scopes.size
  stack : t'.stack = t.stack
  definition : ∀ id, t'.definition? (ρ id) = t.definition? id
  parent : ∀ scope, (t'.scope scope).parent = (t.scope scope).parent
  package : ∀ scope, (t'.scope scope).package = (t.scope scope).package.map ρ
  binding : ∀ scope name, t'.binding? scope name = (t.binding? scope name).map ρ
  bound : ∀ scope name id, t.binding? scope name = some id → id.index < t.size
  owned : ∀ scope id, (t.scope scope).package = some id → id.index < t.size

namespace Renames

variable {ρ : DefId → DefId} {t t' : SymbolTable}

/-- Scopes are not renumbered, so the same one is entered. -/
theorem current (h : Renames ρ t t') : t'.current = t.current := by
  unfold SymbolTable.current
  rw [h.stack]

/-- Renamed tables have the same size, so their next definitions get one number. -/
theorem nextDef (h : Renames ρ t t') : t'.nextDef = t.nextDef :=
  congrArg DefId.mk h.size

/-- Renamed tables have the same number of scopes. -/
theorem nextScope (h : Renames ρ t t') : t'.nextScope = t.nextScope :=
  congrArg ScopeId.mk h.scopes

/-- A number that is still free is not renamed. -/
theorem map_nextDef (h : Renames ρ t t') : ρ t.nextDef = t.nextDef :=
  h.fixed _ (Nat.le_refl _)

/-- A definition means the same under its new number. -/
theorem meaning (h : Renames ρ t t') (id : DefId) : t'.meaning? (ρ id) = t.meaning? id := by
  unfold meaning?
  rw [h.definition]

/-- A definition has the same name under its new number. -/
theorem nameOf (h : Renames ρ t t') (id : DefId) : t'.nameOf (ρ id) = t.nameOf id := by
  unfold SymbolTable.nameOf
  rw [h.definition]

/-- A definition is said to stand at the same place under its new number. -/
theorem placeOf (h : Renames ρ t t') (id : DefId) : t'.placeOf (ρ id) = t.placeOf id := by
  unfold SymbolTable.placeOf
  rw [h.definition]

/-- The scopes around a scope are the same, since only definitions are renumbered. -/
theorem chainUpTo (h : Renames ρ t t') (n : Nat) (scope : ScopeId) :
    t'.chainUpTo n scope = t.chainUpTo n scope := by
  induction n generalizing scope with
  | zero => rfl
  | succ n ih =>
    unfold SymbolTable.chainUpTo
    rw [h.parent]
    cases (t.scope scope).parent with
    | none => rfl
    | some outer => simp only [ih outer]

/-- A name is found to be the renamed definition, or not found in either table. -/
theorem lookup (h : Renames ρ t t') (scope : ScopeId) (name : String) (inherit : Bool) :
    t'.lookup scope name inherit = (t.lookup scope name inherit).map ρ := by
  unfold SymbolTable.lookup SymbolTable.chain
  cases inherit with
  | false => exact h.binding scope name
  | true =>
    rw [h.chainUpTo]
    simp only [if_true, h.binding]
    exact (List.map_findSome? ..).symm

/-- The qualified name of a definition does not tell its number. -/
theorem qualifiedName (h : Renames ρ t t') (id : DefId) :
    t'.qualifiedName (ρ id) = t.qualifiedName id := by
  unfold SymbolTable.qualifiedName qualifiedPieces SymbolTable.chain
  rw [h.definition]
  cases t.definition? id with
  | none => rfl
  | some d =>
    simp only [h.chainUpTo, h.package]
    rw [← List.map_filterMap, List.map_map]
    simp only [Function.comp_def, h.nameOf]

/-- A chain of constants is told in the same words under the new numbers. -/
theorem chainText (h : Renames ρ t t') (chain : List DefId) :
    t'.chainText (chain.map ρ) = t.chainText chain := by
  unfold SymbolTable.chainText
  rw [List.map_map]
  simp only [Function.comp_def, h.nameOf, h.definition]

/-- Definitions may be added to both tables. -/
theorem define (h : Renames ρ t t') (d : Definition) : Renames ρ (t.define d) (t'.define d) where
  injective := h.injective
  fixed id hid := by
    rw [size_define] at hid
    exact h.fixed id (Nat.le_of_succ_le hid)
  size := by
    rw [size_define, size_define, h.size]
  scopes := by
    rw [scopes_define, scopes_define, h.scopes]
  stack := h.stack
  definition id := by
    rw [definition?_define, definition?_define, h.nextDef, h.definition]
    refine ite_congr (propext ⟨fun heq => ?_, fun heq => ?_⟩) (fun _ => rfl) fun _ => rfl
    · exact h.injective (heq.trans h.map_nextDef.symm)
    · rw [heq, h.map_nextDef]
  parent scope := by
    rw [parent_define, parent_define]
    exact h.parent scope
  package scope := by
    rw [package_define, package_define]
    exact h.package scope
  binding scope name := by
    rw [binding?_define, binding?_define, h.scopes, h.nextDef]
    split
    · rw [Option.map_some, h.map_nextDef]
    · exact h.binding scope name
  bound scope name id hid := by
    rw [binding?_define] at hid
    rw [size_define]
    split at hid
    · cases hid
      exact Nat.lt_succ_self _
    · exact Nat.lt_succ_of_lt (h.bound scope name id hid)
  owned scope id hid := by
    rw [package_define] at hid
    rw [size_define]
    exact Nat.lt_succ_of_lt (h.owned scope id hid)

/-- A scope may be added to both tables. -/
theorem addScope (h : Renames ρ t t') (parent : ScopeId) :
    Renames ρ (t.addScope parent) (t'.addScope parent) where
  injective := h.injective
  fixed := h.fixed
  size := h.size
  scopes := by
    unfold SymbolTable.addScope
    rw [Array.size_push, Array.size_push, h.scopes]
  stack := h.stack
  definition := h.definition
  parent scope := by
    rw [scope_addScope, scope_addScope, h.nextScope]
    split
    · rfl
    · exact h.parent scope
  package scope := by
    rw [scope_addScope, scope_addScope, h.nextScope]
    split
    · rfl
    · exact h.package scope
  binding scope name := by
    rw [binding?_addScope, binding?_addScope]
    exact h.binding scope name
  bound scope name id hid := by
    rw [binding?_addScope] at hid
    exact h.bound scope name id hid
  owned scope id hid := by
    rw [scope_addScope] at hid
    split at hid
    · cases hid
    · exact h.owned scope id hid

/-- A scope of both tables may be given to a package. -/
theorem setPackage (h : Renames ρ t t') (scope : ScopeId) {package : DefId}
    (hp : package.index < t.size) :
    Renames ρ (t.setPackage scope package) (t'.setPackage scope (ρ package)) where
  injective := h.injective
  fixed := h.fixed
  size := h.size
  scopes := by
    unfold SymbolTable.setPackage
    rw [Array.size_modify, Array.size_modify]
    exact h.scopes
  stack := h.stack
  definition := h.definition
  parent id := by
    rw [(scope_setPackage _ _ _ _).1, (scope_setPackage _ _ _ _).1]
    exact h.parent id
  package id := by
    rw [package_setPackage, package_setPackage, h.scopes]
    split
    · rfl
    · exact h.package id
  binding id name := by
    unfold binding?
    rw [(scope_setPackage _ _ _ _).2, (scope_setPackage _ _ _ _).2]
    exact h.binding id name
  bound id name other hid := by
    unfold binding? at hid
    rw [(scope_setPackage _ _ _ _).2] at hid
    exact h.bound id name other hid
  owned id other hid := by
    rw [package_setPackage] at hid
    split at hid
    · cases hid
      exact hp
    · exact h.owned id other hid

/-- A label of both tables may get an address. -/
theorem placeLabel (h : Renames ρ t t') (id : DefId) (address : UInt16) :
    Renames ρ (t.placeLabel id address) (t'.placeLabel (ρ id) address) where
  injective := h.injective
  fixed other hother := h.fixed other (Nat.le_trans (Nat.le_of_eq Array.size_modify.symm) hother)
  size := (Array.size_modify.trans h.size).trans Array.size_modify.symm
  scopes := h.scopes
  stack := h.stack
  definition other := by
    rw [definition?_placeLabel, definition?_placeLabel, h.definition]
    exact ite_congr (propext ⟨h.injective, congrArg ρ⟩) (fun _ => rfl) fun _ => rfl
  parent := h.parent
  package := h.package
  binding := h.binding
  bound scope name other hother :=
    Nat.lt_of_lt_of_le (h.bound scope name other hother) (Nat.le_of_eq Array.size_modify.symm)
  owned scope other hother :=
    Nat.lt_of_lt_of_le (h.owned scope other hother) (Nat.le_of_eq Array.size_modify.symm)

/-- The same scope may be entered. -/
theorem enter (h : Renames ρ t t') (scope : ScopeId) : Renames ρ (t.enter scope) (t'.enter scope) :=
  { h with stack := congrArg (scope :: ·) h.stack }

theorem exit (h : Renames ρ t t') : Renames ρ t.exit t'.exit :=
  { h with stack := congrArg List.tail h.stack }

/-- The table of an empty program is renamed to itself. -/
theorem empty : Renames id .empty .empty where
  injective := id
  fixed _ _ := rfl
  size := rfl
  scopes := rfl
  stack := rfl
  definition _ := rfl
  parent _ := rfl
  package _ := Option.map_id'.symm
  binding _ _ := Option.map_id'.symm
  bound scope name id hid := by
    have hnames : ∀ entry ∈ (SymbolTable.empty.scope root).names,
        entry.2.index < SymbolTable.empty.size := by
      decide
    obtain ⟨index⟩ := scope
    cases index with
    | zero =>
      obtain ⟨before, after, heq, -⟩ := List.lookup_eq_some_iff.1 hid
      exact hnames (name, id) (heq ▸ List.mem_append_right _ List.mem_cons_self)
    | succ n => cases hid
  owned scope id hid := by
    obtain ⟨index⟩ := scope
    cases index <;> cases hid

end Renames

end SymbolTable

/-! ## Memos -/

/-- Where an anchor has moved. -/
def Anchor.map (g : Location → Location) (ρ : DefId → DefId) : Anchor → Anchor
  | tree location => .tree (g location)
  | constant id => .constant (ρ id)
  | detached number => .detached number

/-- The site of the same expression, when its anchor has moved. -/
def Site.map (g : Location → Location) (ρ : DefId → DefId) (site : Site) : Site :=
  { site with anchor := site.anchor.map g ρ }

/-- Different sites stay different if locations and numbers do. -/
theorem Site.map_inj {g : Location → Location} {ρ : DefId → DefId}
    (hg : ∀ {l m}, g l = g m → l = m) (hρ : ∀ {i j}, ρ i = ρ j → i = j) {a b : Site}
    (h : a.map g ρ = b.map g ρ) : a = b := by
  obtain ⟨da, anchor, ta⟩ := a
  obtain ⟨db, anchor', tb⟩ := b
  have hanchor : anchor = anchor' := by
    have ha : anchor.map g ρ = anchor'.map g ρ := congrArg Site.anchor h
    cases anchor with
    | tree l =>
      cases anchor' with
      | tree m => exact congrArg _ (hg (Anchor.tree.inj ha))
      | constant _ => cases ha
      | detached _ => cases ha
    | constant i =>
      cases anchor' with
      | tree _ => cases ha
      | constant j => exact congrArg _ (hρ (Anchor.constant.inj ha))
      | detached _ => cases ha
    | detached n =>
      cases anchor' with
      | tree _ => cases ha
      | constant _ => cases ha
      | detached m => exact ha
  have hdepth : da = db := congrArg Site.depth h
  have hturns : ta = tb := congrArg Site.turns h
  rw [hdepth, hanchor, hturns]

/-- Two memos have the same results, at sites that may have moved. There are none for constants that
are still to be declared. -/
structure Memo.Twin (g : Location → Location) (ρ : DefId → DefId) (size : Nat)
    (memo memo' : Memo) : Prop where
  result : ∀ site, memo'.result (site.map g ρ) = memo.result site
  fresh : ∀ site id, site.anchor = .constant id → size ≤ id.index → memo.result site = .pending

/-- A site that hangs from a constant hangs from one that is declared. -/
def Site.Declared (size : Nat) (site : Site) : Prop :=
  ∀ id, site.anchor = .constant id → id.index < size

namespace Memo.Twin

variable {g : Location → Location} {ρ : DefId → DefId} {size : Nat} {memo memo' : Memo}

/-- The same result may be added to both memos. -/
theorem set (h : Twin g ρ size memo memo') (hg : ∀ {l m}, g l = g m → l = m)
    (hρ : ∀ {i j}, ρ i = ρ j → i = j) {site : Site} (hsite : site.Declared size) (folded : Folded) :
    Twin g ρ size (memo.set site folded) (memo'.set (site.map g ρ) folded) where
  result other := by
    by_cases ho : other = site
    · subst ho
      rw [set_self, set_self]
    · rw [set_of_ne ho, set_of_ne fun heq => ho (Site.map_inj hg hρ heq)]
      exact h.result other
  fresh other id ha hid := by
    by_cases ho : other = site
    · subst ho
      exact absurd (hsite id ha) (Nat.not_lt.2 hid)
    · rw [set_of_ne ho]
      exact h.fresh other id ha hid

/-- The value at a location is found at the moved one. -/
theorem value? (h : Twin g ρ size memo memo') (location : Location) :
    memo'.value? (.tree (g location)) = memo.value? (.tree location) :=
  congrArg Folded.value? (h.result { anchor := .tree location })

end Memo.Twin

/-! ## Folding -/

namespace SymbolTable

open Run

variable {C : Log.Coupling} {g : Location → Location} {ρ : DefId → DefId} {t t' : SymbolTable}
  {demand : Demand}

/-- What is remembered is coupled if the computations are. -/
theorem couples_remember {size : Nat} (hg : ∀ {l m}, g l = g m → l = m)
    (hρ : ∀ {i j}, ρ i = ρ j → i = j) {site : Site} (hsite : site.Declared size)
    {compute compute' : Run Memo Folded} (h : Couples C (Memo.Twin g ρ size) compute compute') :
    Couples C (Memo.Twin g ρ size) (remember site compute)
      (remember (site.map g ρ) compute') where
  both s u hs hl := by
    have hresult := hs.result site
    by_cases hp : s.state.result site = .pending
    · rw [remember_of_pending hp, remember_of_pending (hresult.trans hp)]
      refine (h.bind fun folded => ?_).both s u hs hl
      exact (Couples.update fun _ _ hm => hm.set hg hρ hsite folded).bind fun _ => .pure _
    · rw [remember_of_ne hp, remember_of_ne (hresult ▸ hp), hresult]
      exact ⟨rfl, hs, hl⟩
  alone := holds_remember (fun _ _ _ _ h => h) h.alone

/-- A path that is not resolved is reported in the same words. -/
theorem couples_unresolved {S : Memo → Memo → Prop} (path : List Name) (pos : Position) :
    Couples C S (unresolved demand path pos) (unresolved demand path pos) := by
  unfold unresolved
  split
  · exact (Couples.error _ _).bind fun _ => .pure _
  · exact .pure _

/-- Combining results does not look at the memo. -/
theorem couples_combine {S : Memo → Memo → Prop} (op : BinaryOp) (pos : Position)
    (l r : Folded) : Couples C S (combine op pos l r) (combine op pos l r) := by
  unfold combine
  split
  · split
    · exact .pure _
    · exact (Couples.error _ _).bind fun _ => .pure _
  · exact .pure _
  · exact .pure _
  · exact .pure _

namespace Renames

/-- Paths lead to the same definitions. What follows may depend on what was found. -/
theorem couples_resolvePieces {σ σ' α : Type} {S : σ → σ' → Prop} (h : Renames ρ t t')
    {forbid : Bool} {wanted : String} {next : Lookup → Run σ α} {next' : Lookup → Run σ' α}
    (hfound : ∀ id, Couples C S (next (.found id)) (next' (.found (ρ id))))
    (hmissing : Couples C S (next .missing) (next' .missing))
    (hfailed : Couples C S (next .failed) (next' .failed)) (before : List Name) (scope : ScopeId)
    (pieces : List Name) :
    Couples C S (t.resolvePieces forbid wanted before scope pieces >>= next)
      (t'.resolvePieces forbid wanted before scope pieces >>= next') := by
  have hreport (e : Error) (pos : Position) :
      Couples C S ((do Run.error e pos; return .failed) >>= next)
        ((do Run.error e pos; return .failed) >>= next') := by
    rw [bind_assoc, bind_assoc]
    exact (Couples.error e pos).bind fun _ => hfailed
  induction pieces generalizing before scope with
  | nil => exact hmissing
  | cons piece rest ih =>
    unfold resolvePieces
    rw [h.lookup]
    cases t.lookup scope piece.text before.isEmpty with
    | none =>
      cases rest with
      | nil =>
        simp only [Option.map_none]
        split
        · exact hreport _ _
        · exact hmissing
      | cons second rest => exact hreport _ _
    | some id =>
      cases rest with
      | nil => exact hfound id
      | cons second rest =>
        simp only [Option.map_some, h.meaning]
        split
        · exact ih _ _
        · exact hreport _ _

/-- A reference leads to renamed definitions, so folding it is coupled if the expansion of constants
is. -/
theorem couples_foldReference (h : Renames ρ t t') {S : Memo → Memo → Prop}
    {expand expand' : Expansion}
    (he : ∀ id value inner pos, t.meaning? id = some (.constant value inner) →
      Couples C S (expand id value inner pos) (expand' (ρ id) value inner pos))
    (scope : ScopeId) (path : List Name) (pos : Position) :
    Couples C S (t.foldReference demand expand scope path pos)
      (t'.foldReference demand expand' scope path pos) := by
  unfold foldReference resolve
  refine h.couples_resolvePieces ?_ ?_ ?_ _ _ _
  · intro id
    simp only [h.meaning, h.qualifiedName]
    split
    · exact (Couples.error _ _).bind fun _ => .pure _
    · exact (Couples.error _ _).bind fun _ => .pure _
    · exact .pure _
    · exact .pure _
    · rename_i hm
      exact he id _ _ pos hm
    · exact couples_unresolved _ _
    · exact couples_unresolved _ _
  · exact couples_unresolved _ _
  · exact .pure _

/-- Folding an expression is coupled if the expansion of constants is, by induction on the
expression. Its site must not hang from a constant that is still to be declared. -/
theorem couples_foldWith (h : Renames ρ t t') (hg : ∀ {l m}, g l = g m → l = m)
    {expand expand' : Expansion}
    (he : ∀ id value inner pos, t.meaning? id = some (.constant value inner) →
      Couples C (Memo.Twin g ρ t.size) (expand id value inner pos)
        (expand' (ρ id) value inner pos))
    (scope : ScopeId) {site : Site} (hsite : site.Declared t.size) (e : Expr) :
    Couples C (Memo.Twin g ρ t.size) (t.foldWith demand expand scope site e)
      (t'.foldWith demand expand' scope (site.map g ρ) e) := by
  induction e generalizing site with
  | number v pos =>
    unfold foldWith
    exact couples_remember hg h.injective hsite (.pure _)
  | reference path pos =>
    unfold foldWith
    exact couples_remember hg h.injective hsite (h.couples_foldReference he scope path pos)
  | operation op left right pos ihl ihr =>
    unfold foldWith
    refine couples_remember hg h.injective hsite ?_
    have hleft : (site.child .left).Declared t.size := hsite
    have hright : (site.child .right).Declared t.size := hsite
    exact (ihl hleft).bind fun l => (ihr hright).bind fun r => couples_combine op pos l r

/-- The expansion of renamed constants is coupled, by induction on the room that is left. -/
theorem couples_expandUpTo (h : Renames ρ t t') (hg : ∀ {l m}, g l = g m → l = m) (room : Nat)
    (chain : List DefId) (id : DefId) (value : Expr) (inner : ScopeId) (pos : Position)
    (hm : t.meaning? id = some (.constant value inner)) :
    Couples C (Memo.Twin g ρ t.size) (t.expandUpTo demand room chain id value inner pos)
      (t'.expandUpTo demand room (chain.map ρ) (ρ id) value inner pos) := by
  induction room generalizing chain id value inner pos with
  | zero =>
    unfold expandUpTo
    rw [← List.map_singleton, ← List.map_append, h.chainText]
    exact .fatal _ _
  | succ room ih =>
    unfold expandUpTo
    rw [← List.map_singleton, ← List.map_append]
    have hsite : Site.Declared t.size { anchor := .constant id } := by
      intro other ho
      cases ho
      obtain ⟨d, hd, -⟩ := Option.map_eq_some_iff.1 hm
      exact (Array.getElem?_eq_some_iff.1 hd).1
    exact h.couples_foldWith hg (ih _) inner hsite value

/-- Folds of one expression are coupled. -/
theorem couples_fold (h : Renames ρ t t') (hg : ∀ {l m}, g l = g m → l = m) (demand : Demand)
    (scope : ScopeId) (location : Location) (e : Expr) :
    Couples C (Memo.Twin g ρ t.size) (t.fold demand scope (.tree location) e)
      (t'.fold demand scope (.tree (g location)) e) := by
  have hsite : Site.Declared t.size { anchor := .tree location } := nofun
  exact h.couples_foldWith hg (h.couples_expandUpTo hg maxExpansions []) scope hsite e

end Renames

end SymbolTable

end Cartridge
