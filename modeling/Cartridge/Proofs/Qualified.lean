import Cartridge.Proofs.History

/-!
# Qualified names

The qualified name of a definition is found by going outwards: it collects the packages that the
scopes on the way belong to. A path is resolved by going inwards, from package to package. The two
ways meet because the links of a package agree with each other: its scope knows its definition, the
definition knows the scope, and the scope is inside the one into which the definition was put.

Main definitions:

- `SymbolTable.Wired`: the links of every package agree with each other.
- `SymbolTable.Descends`: packages inside of each other lead from a scope to another one.
- `SymbolTable.Current`: a definition was not replaced by another one of its name.
- `SymbolTable.Sees`: from a scope outwards, a name is not bound before a certain scope.

Main results:

- Theorem `SymbolTable.Built.wired`: this is so in every table that can be made.
- Theorem `SymbolTable.Descends.packages_chain`: the packages that are passed on the way outwards.
- Theorem `SymbolTable.Descends.inside`: the names of packages and definition lead inwards.
- Theorem `SymbolTable.Recorded.resolve_qualified`: a qualified name is resolved to its definition.
-/

namespace Cartridge

namespace SymbolTable

variable {t : SymbolTable}

/-! ## The links of packages -/

/-- The links of every package agree with each other. -/
def Wired (t : SymbolTable) : Prop :=
  ∀ scope package, (t.scope scope).package = some package →
    ∃ d, t.definition? package = some d ∧ d.meaning = .package scope ∧
      (t.scope scope).parent = some d.owner

namespace Wired

/-- At first there is no package. -/
theorem empty : SymbolTable.empty.Wired := by
  intro scope package hp
  unfold SymbolTable.scope at hp
  rw [Array.getD_eq_getD_getElem?] at hp
  cases hs : SymbolTable.empty.scopes[scope.index]? with
  | none =>
    rw [hs] at hp
    cases hp
  | some s =>
    have hmem : s ∈ SymbolTable.empty.scopes := Array.mem_of_getElem? hs
    rw [hs, List.mem_singleton.1 (List.mem_toArray.1 hmem)] at hp
    cases hp

/-- A new scope belongs to no package. -/
theorem addScope (h : t.Wired) (parent : ScopeId) : (t.addScope parent).Wired := by
  intro scope package hp
  rw [scope_addScope] at hp ⊢
  split at hp
  · cases hp
  · rename_i hne
    rw [if_neg hne]
    exact h scope package hp

/-- Definitions that are there stay where they are. -/
theorem define (h : t.Wired) (d : Definition) : (t.define d).Wired := by
  intro scope package hp
  rw [package_define] at hp
  rw [parent_define]
  obtain ⟨old, hold, hlinks⟩ := h scope package hp
  exact ⟨old, definition?_define_of_some hold, hlinks⟩

/-- A package gets a scope of its own, and is put where this scope is. -/
theorem withPackage (h : t.Wired) (hcurrent : t.current.index < t.scopes.size) (name : Name) :
    (t.withPackage name).Wired := by
  intro scope package hp
  by_cases hnew : scope = t.nextScope
  · subst hnew
    have hsize : t.nextScope.index < ((t.addScope t.current).define
        { name := name.text, pos := some name.pos, meaning := .package t.nextScope,
          owner := t.current }).scopes.size := by
      rw [scopes_define]
      exact Nat.lt_of_lt_of_eq (Nat.lt_succ_self _) (Array.size_push _).symm
    unfold SymbolTable.withPackage at hp
    rw [package_setPackage, if_pos ⟨rfl, hsize⟩] at hp
    cases hp
    exact ⟨_, definition?_withPackage t name, rfl, parent_withPackage t name hcurrent⟩
  · unfold SymbolTable.withPackage at hp ⊢
    rw [package_setPackage, if_neg fun heq => hnew heq.1] at hp
    rw [(scope_setPackage _ _ _ _).1]
    exact (h.addScope t.current).define _ scope package hp

/-- A label is not a package. -/
theorem placeLabel (h : t.Wired) (id : DefId) (address : UInt16) :
    (t.placeLabel id address).Wired := by
  intro scope package hp
  obtain ⟨d, hd, hmeaning, hparent⟩ := h scope package hp
  rw [definition?_placeLabel]
  split
  · refine ⟨d.placed address, by rw [hd, Option.map_some], ?_, ?_⟩
    · unfold Definition.placed
      simp only [hmeaning]
    · unfold Definition.placed
      simp only [hmeaning]
      exact hparent
  · exact ⟨d, hd, hmeaning, hparent⟩

end Wired

/-- In every table that can be made the links of packages agree with each other. -/
theorem Built.wired (h : t.Built) : t.Wired := by
  induction h with
  | empty => exact .empty
  | enter _ _ ih => exact ih
  | exit _ ih => exact ih
  | addScope _ _ ih => exact ih.addScope _
  | put _ _ _ _ ih => exact ih.define _
  | withPackage built name ih => exact ih.withPackage built.nested_and_entered.2.current name
  | placeLabel _ id address ih => exact ih.placeLabel id address

/-! ## Ways through the scopes -/

/-- A scope is around another one, or is this scope. -/
inductive Around (t : SymbolTable) (outer : ScopeId) : ScopeId → Prop
  | self : Around t outer outer
  | step {scope parent : ScopeId} (inside : (t.scope scope).parent = some parent)
      (around : Around t outer parent) : Around t outer scope

/-- Packages inside of each other lead from a scope to another one, the outermost first. -/
inductive Descends (t : SymbolTable) : ScopeId → List DefId → ScopeId → Prop
  | here (scope : ScopeId) : Descends t scope [] scope
  | into {outer inner scope : ScopeId} {package : DefId} {packages : List DefId}
      (parent : (t.scope inner).parent = some outer)
      (belongs : (t.scope inner).package = some package)
      (rest : Descends t inner packages scope) : Descends t outer (package :: packages) scope

/-- A definition is what its name is bound to in the scope that it was put into. -/
def Current (t : SymbolTable) (id : DefId) : Prop :=
  ∃ d, t.definition? id = some d ∧ t.binding? d.owner d.name = some id

/-- From a scope outwards, a name is not bound before a certain scope is reached. -/
inductive Sees (t : SymbolTable) (name : String) (top : ScopeId) : ScopeId → Prop
  | self : Sees t name top top
  | step {scope parent : ScopeId} (free : t.binding? scope name = none)
      (inside : (t.scope scope).parent = some parent) (sees : Sees t name top parent) :
      Sees t name top scope

/-! ## Outwards -/

/-- The way outwards does not depend on how far it may go, if that is far enough. -/
theorem Nested.chainUpTo_eq (h : t.Nested) {scope : ScopeId} {n m : Nat} (hn : scope.index < n)
    (hm : scope.index < m) : t.chainUpTo n scope = t.chainUpTo m scope := by
  induction n generalizing scope m with
  | zero => exact absurd hn (Nat.not_lt_zero _)
  | succ n ih =>
    cases m with
    | zero => exact absurd hm (Nat.not_lt_zero _)
    | succ m =>
      unfold chainUpTo
      cases hp : (t.scope scope).parent with
      | none => rfl
      | some outer =>
        have hlt := h scope outer hp
        have heq := @ih outer m (by omega) (by omega)
        simp only [heq]

/-- The way outwards goes on with the way from the parent. -/
theorem Nested.chain_of_parent (h : t.Nested) {scope outer : ScopeId}
    (hp : (t.scope scope).parent = some outer) : t.chain scope = scope :: t.chain outer := by
  have hlt := h scope outer hp
  have hfar := h.chainUpTo_eq hlt (Nat.lt_succ_self outer.index)
  unfold chain
  rw [chainUpTo]
  simp only [hp, hfar]

/-- The way outwards passes scopes that are around. -/
theorem around_of_mem_chain {scope outer : ScopeId} (h : outer ∈ t.chain scope) :
    t.Around outer scope := by
  unfold chain at h
  generalize scope.index + 1 = n at h
  induction n generalizing scope with
  | zero => exact absurd h List.not_mem_nil
  | succ n ih =>
    unfold chainUpTo at h
    rcases List.mem_cons.1 h with rfl | h
    · exact .self
    · cases hp : (t.scope scope).parent with
      | none =>
        rw [hp] at h
        exact absurd h List.not_mem_nil
      | some parent =>
        rw [hp] at h
        exact .step hp (ih h)

/-- The packages that are passed on the way outwards: those that lead to the scope, the innermost
first, and then those around. -/
theorem Descends.packages_chain (hn : t.Nested) {top scope : ScopeId} {packages : List DefId}
    (h : t.Descends top packages scope) :
    (t.chain scope).filterMap (fun s => (t.scope s).package) =
      packages.reverse ++ (t.chain top).filterMap fun s => (t.scope s).package := by
  induction h with
  | here scope => rfl
  | @into outer inner scope package packages parent belongs _ ih =>
    have hstep : (inner :: t.chain outer).filterMap (fun s => (t.scope s).package) =
        package :: (t.chain outer).filterMap fun s => (t.scope s).package :=
      List.filterMap_cons_some belongs
    rw [ih, hn.chain_of_parent parent, hstep, List.reverse_cons, List.append_assoc,
      List.singleton_append]

theorem nameOf_of_definition? {id : DefId} {d : Definition} (hd : t.definition? id = some d) :
    t.nameOf id = d.name := by
  unfold nameOf
  rw [hd]
  rfl

/-- If there is no package around, a qualified name lists the packages that lead to the scope of the
definition, and then the definition. -/
theorem Descends.qualifiedPieces_eq (hn : t.Nested) {top : ScopeId} {packages : List DefId}
    {id : DefId} {d : Definition} (hd : t.definition? id = some d)
    (h : t.Descends top packages d.owner)
    (houter : ∀ outer, t.Around outer top → (t.scope outer).package = none) :
    t.qualifiedPieces id = (packages ++ [id]).map t.nameOf := by
  have hnone : (t.chain top).filterMap (fun s => (t.scope s).package) = [] :=
    List.filterMap_eq_nil_iff.2 fun outer ho => houter outer (around_of_mem_chain ho)
  unfold qualifiedPieces
  simp only [hd, h.packages_chain hn, hnone, List.append_nil, List.map_reverse,
    List.reverse_reverse]
  rw [List.map_append, List.map_singleton, nameOf_of_definition? hd]

/-! ## Inwards -/

/-- The names of packages that lead to a scope, and of a definition in this scope, lead to the
definition. -/
theorem Descends.inside (hw : t.Wired) {top : ScopeId} {packages : List DefId} {id : DefId}
    {d : Definition} (hd : t.definition? id = some d) (h : t.Descends top packages d.owner)
    (hcurrent : ∀ x ∈ packages ++ [id], t.Current x) {path : List Name}
    (hpath : path.map Name.text = (packages ++ [id]).map t.nameOf) : t.Inside top path id := by
  generalize hs : d.owner = scope at h
  induction h generalizing path with
  | here scope =>
    obtain ⟨piece, rfl, hpiece⟩ := List.map_eq_singleton_iff.1 hpath
    obtain ⟨d', hd', hbinding⟩ := hcurrent id List.mem_cons_self
    cases hd.symm.trans hd'
    rw [nameOf_of_definition? hd] at hpiece
    refine .last ?_
    rw [hpiece, ← hs]
    exact hbinding
  | @into outer inner scope package packages parent belongs _ ih =>
    obtain ⟨piece, rest, rfl, hpiece, hrest⟩ := List.map_eq_cons_iff.1 hpath
    obtain ⟨p, hp, hbinding⟩ := hcurrent package List.mem_cons_self
    obtain ⟨p', hp', hmeaning, hparent⟩ := hw inner package belongs
    cases hp.symm.trans hp'
    cases parent.symm.trans hparent
    rw [nameOf_of_definition? hp] at hpiece
    have hfound : t.binding? p.owner piece.text = some package := by
      rw [hpiece]
      exact hbinding
    have hinner : t.meaning? package = some (.package inner) := by
      unfold meaning?
      rw [hp, Option.map_some, hmeaning]
    have hmore : ∀ x ∈ packages ++ [id], t.Current x := fun x hx =>
      hcurrent x (List.mem_cons_of_mem _ hx)
    exact .through hfound hinner (ih hmore hrest hs)

/-- What a name stands for in a scope is seen from scopes inside of it. -/
theorem Sees.visible {name : String} {top scope : ScopeId} {id : DefId}
    (h : t.Sees name top scope) (hv : t.Visible name top id) : t.Visible name scope id := by
  induction h with
  | self => exact hv
  | step free inside _ ih => exact .outwards free inside ih

/-- A path that leads somewhere from a scope does so from scopes inside that see its first piece. -/
theorem Inside.leads {top scope : ScopeId} {piece : Name} {rest : List Name} {id : DefId}
    (h : t.Inside top (piece :: rest) id) (hsees : t.Sees piece.text top scope) :
    t.Leads scope (piece :: rest) id := by
  cases h with
  | last binding => exact .name (hsees.visible (.here binding))
  | through binding meaning inside => exact .through (hsees.visible (.here binding)) meaning inside

/-! ## Resolution -/

/-- A qualified name is resolved to its definition. In every table that operations make, let
packages lead from a scope that no package is around to the scope of a definition, and let neither
they nor the definition have been replaced. Then the qualified name lists the packages, from the
outside in, and the definition, and from the outer scope, and from every scope inside of it that
sees the first piece, this path is found to be the definition, whatever was reported before, and
nothing more is reported. -/
theorem Recorded.resolve_qualified {h : History} (hr : Recorded t h) {top : ScopeId}
    {packages : List DefId} {id : DefId} {d : Definition} (hd : t.definition? id = some d)
    (hdescends : t.Descends top packages d.owner)
    (houter : ∀ outer, t.Around outer top → (t.scope outer).package = none)
    (hcurrent : ∀ x ∈ packages ++ [id], t.Current x) :
    t.qualifiedPieces id = (packages ++ [id]).map t.nameOf ∧
      t.qualifiedName id = ".".intercalate ((packages ++ [id]).map t.nameOf) ∧
      ∀ {σ : Type} (s : Logged σ) (piece : Name) (rest : List Name) (scope : ScopeId)
        (forbid : Bool), (piece :: rest).map Name.text = t.qualifiedPieces id →
        t.Sees piece.text top scope →
        t.resolve scope (piece :: rest) forbid s = .ok (.found id) s := by
  have hnested := hr.built.nested
  have hpieces := hdescends.qualifiedPieces_eq hnested hd houter
  refine ⟨hpieces, congrArg (String.intercalate ".") hpieces, ?_⟩
  intro σ s piece rest scope forbid hpath hsees
  have hinside := hdescends.inside hr.built.wired hd hcurrent (hpath.trans hpieces)
  exact resolve_of_target? (hnested.target?_eq_some_iff.2 (hinside.leads hsees)) forbid s

/-- A label that was put twice into a package inside of a package, and was placed, seen from a scope
inside of both. -/
theorem resolve_qualified_redefined : ∃ t h, Recorded t h ∧
    t.qualifiedPieces ⟨14⟩ = ["audio", "noise", "period"] ∧
    t.qualifiedName ⟨14⟩ = "audio.noise.period" ∧
    t.resolve ⟨3⟩ [{ text := "audio" }, { text := "noise" }, { text := "period" }] true
      ⟨(), { limit := 2 }⟩ = .ok (.found ⟨14⟩) ⟨(), { limit := 2 }⟩ := by
  have audio := @Recorded.createPackage _ _ { limit := 2 } { text := "audio" } _ _ .empty rfl
  have outer := @Recorded.enter _ _ ⟨1⟩ audio (by decide)
  have noise := @Recorded.createPackage _ _ { limit := 2 } { text := "noise" } _ _ outer rfl
  have inner := @Recorded.enter _ _ ⟨2⟩ noise (by decide)
  have first := @Recorded.put _ _ { limit := 2 } "period" none (.storage 5) _ _ inner rfl
  have second := @Recorded.put _ _ { limit := 2 } "period" none (.label none) _ _ first rfl
  have inside := @Recorded.createScope _ _ { limit := 2 } ⟨2⟩ _ _ second (by decide) rfl
  have placed := inside.placeLabel ⟨14⟩ 7
  obtain ⟨hpieces, hname, hresolve⟩ :=
    @Recorded.resolve_qualified _ _ placed ⟨0⟩ [⟨11⟩, ⟨12⟩] ⟨14⟩ _ rfl
      (.into rfl rfl (.into rfl rfl (.here ⟨2⟩)))
      (by
        intro outer ho
        cases ho with
        | self => rfl
        | step inside _ => cases inside)
      (List.forall_mem_cons.2 ⟨⟨_, rfl, rfl⟩, List.forall_mem_cons.2 ⟨⟨_, rfl, rfl⟩,
        List.forall_mem_singleton.2 ⟨_, rfl, rfl⟩⟩⟩)
  exact ⟨_, _, placed, hpieces, hname, hresolve ⟨(), { limit := 2 }⟩ _ _ ⟨3⟩ true rfl
    (.step rfl rfl (.step rfl rfl (.step rfl rfl .self)))⟩

end SymbolTable

end Cartridge
