import Cartridge.Proofs.GatherFrame

/-!
# Declarations

While declarations are gathered, the table only grows. A definition keeps its number, and a scope
its place among the others. If nothing is reported, then no name is declared twice in a scope, so
that what a name stands for in a scope stays the same as well.

Main definitions:

- `SymbolTable.Retains`: what stays in a table in which no name is declared twice.
- `Context.Extends`: what stays while declarations are gathered.
- `Context.Waiting`: labels have definitions of their own, without addresses.
- `Gathering.Gains`: what stays if nothing is reported.

Main results:

- Theorem `Gathering.allows_gaining`: the primitives of the gathering keep all this.
-/

namespace Cartridge

/-! ## Definitions that are added -/

namespace SymbolTable

variable {t : SymbolTable} {id : DefId} {d : Definition}

/-- A definition keeps its number when another one is added. -/
theorem definition?_define_of_some {d' : Definition} (h : t.definition? id = some d) :
    (t.define d').definition? id = some d := by
  unfold definition? at h ⊢
  have hlt : id.index < t.definitions.size := (Array.getElem?_eq_some_iff.1 h).1
  exact (Array.getElem?_push_lt hlt).trans ((Array.getElem?_eq_getElem hlt).symm.trans h)

/-- The next number is not taken. -/
theorem definition?_nextDef (t : SymbolTable) : t.definition? t.nextDef = none :=
  Array.getElem?_eq_none (Nat.le_refl _)

/-- The next number is that of the definition which is added. -/
theorem definition?_define_self (t : SymbolTable) (d : Definition) :
    (t.define d).definition? t.nextDef = some d :=
  Array.getElem?_push_size

end SymbolTable

/-! ## Names that are bound -/

namespace SymbolTable

variable {t u : SymbolTable} {d : Definition}

/-- A definition changes only the scope that owns it. -/
theorem scope_define_of_ne {id : ScopeId} (h : id ≠ d.owner) :
    (t.define d).scope id = t.scope id := by
  have hne : d.owner.index ≠ id.index := fun heq => h (congrArg ScopeId.mk heq.symm)
  unfold scope define
  rw [Array.getD_eq_getD_getElem?, Array.getD_eq_getD_getElem?, Array.getElem?_modify, if_neg hne]

/-- The scope that owns a definition gets one more name, in front of the others. -/
theorem scope_define_self (h : d.owner.index < t.scopes.size) :
    (t.define d).scope d.owner =
      { t.scope d.owner with names := (d.name, t.nextDef) :: (t.scope d.owner).names } := by
  unfold scope define
  rw [Array.getD_eq_getD_getElem?, Array.getD_eq_getD_getElem?, Array.getElem?_modify, if_pos rfl,
    Array.getElem?_eq_getElem h]
  rfl

/-- A definition is seen in its own scope only, if that is one of the table. -/
theorem scope_define (t : SymbolTable) (d : Definition) (id : ScopeId) :
    (t.define d).scope id =
      if id = d.owner ∧ d.owner.index < t.scopes.size then
        { t.scope id with names := (d.name, t.nextDef) :: (t.scope id).names }
      else t.scope id := by
  by_cases ho : id = d.owner
  · subst ho
    rcases Nat.lt_or_ge d.owner.index t.scopes.size with hlt | hge
    · rw [scope_define_self hlt, if_pos ⟨rfl, hlt⟩]
    · rw [if_neg fun h => absurd h.2 (Nat.not_lt.2 hge)]
      unfold SymbolTable.scope define
      rw [Array.getD_eq_getD_getElem?, Array.getD_eq_getD_getElem?, Array.getElem?_modify,
        Array.getElem?_eq_none hge]
      split <;> rfl
  · rw [scope_define_of_ne ho, if_neg fun h => ho h.1]

/-- A definition changes nothing about what a scope is inside of. -/
theorem parent_define (t : SymbolTable) (d : Definition) (id : ScopeId) :
    ((t.define d).scope id).parent = (t.scope id).parent := by
  rw [scope_define]
  split <;> rfl

/-- A definition changes nothing about the package of a scope. -/
theorem package_define (t : SymbolTable) (d : Definition) (id : ScopeId) :
    ((t.define d).scope id).package = (t.scope id).package := by
  rw [scope_define]
  split <;> rfl

/-- A definition is found under its name. -/
theorem binding?_define_self (h : d.owner.index < t.scopes.size) :
    (t.define d).binding? d.owner d.name = some t.nextDef := by
  unfold binding?
  rw [scope_define_self h, List.lookup_cons_self]

/-- A scope that is not there binds nothing. -/
theorem lt_size_of_binding? {scope : ScopeId} {name : String} {id : DefId}
    (h : t.binding? scope name = some id) : scope.index < t.scopes.size := by
  by_cases hlt : scope.index < t.scopes.size
  · exact hlt
  · unfold binding? SymbolTable.scope at h
    rw [Array.getD_eq_getD_getElem?, Array.getElem?_eq_none (Nat.not_lt.1 hlt)] at h
    cases h

/-- Neither is it inside another one. -/
theorem lt_size_of_parent {scope outer : ScopeId} (h : (t.scope scope).parent = some outer) :
    scope.index < t.scopes.size := by
  by_cases hlt : scope.index < t.scopes.size
  · exact hlt
  · unfold SymbolTable.scope at h
    rw [Array.getD_eq_getD_getElem?, Array.getElem?_eq_none (Nat.not_lt.1 hlt)] at h
    cases h

/-- What stays in a table in which no name is declared twice: what the scopes are inside of, and
what their names stand for. -/
structure Retains (t u : SymbolTable) : Prop where
  size : t.scopes.size ≤ u.scopes.size
  parent : ∀ id : ScopeId, id.index < t.scopes.size → (u.scope id).parent = (t.scope id).parent
  binding : ∀ scope name id, t.binding? scope name = some id → u.binding? scope name = some id

theorem Retains.refl (t : SymbolTable) : t.Retains t :=
  ⟨Nat.le_refl _, fun _ _ => rfl, fun _ _ _ h => h⟩

theorem Retains.trans {v : SymbolTable} (htu : t.Retains u) (huv : u.Retains v) : t.Retains v where
  size := Nat.le_trans htu.size huv.size
  parent id hid := (huv.parent id (Nat.lt_of_lt_of_le hid htu.size)).trans (htu.parent id hid)
  binding scope name id h := huv.binding scope name id (htu.binding scope name id h)

/-- A name that is new in its scope may be declared. -/
theorem retains_define (h : t.binding? d.owner d.name = none) : t.Retains (t.define d) where
  size := Nat.le_of_eq Array.size_modify.symm
  parent id hid := by
    by_cases ho : id = d.owner
    · subst ho
      rw [scope_define_self hid]
    · rw [scope_define_of_ne ho]
  binding scope name id hb := by
    by_cases ho : scope = d.owner
    · subst ho
      have hne : name ≠ d.name := by
        rintro rfl
        cases h.symm.trans hb
      unfold binding? at hb ⊢
      rw [scope_define_self (lt_size_of_binding? hb), List.lookup_cons, beq_false_of_ne hne]
      exact hb
    · unfold binding? at hb ⊢
      rw [scope_define_of_ne ho]
      exact hb

/-- A new scope does not touch the others. -/
theorem retains_addScope (t : SymbolTable) (parent : ScopeId) : t.Retains (t.addScope parent) where
  size := Nat.le_trans (Nat.le_succ _) (Nat.le_of_eq (Array.size_push _).symm)
  parent id hid := by
    unfold scope addScope
    rw [Array.getD_eq_getD_getElem?, Array.getD_eq_getD_getElem?, Array.getElem?_push_lt hid,
      Array.getElem?_eq_getElem hid]
  binding scope name id h := (t.binding?_addScope parent scope name).trans h

/-- The new scope is inside its parent. -/
theorem parent_addScope (t : SymbolTable) (parent : ScopeId) :
    ((t.addScope parent).scope t.nextScope).parent = some parent := by
  unfold scope addScope nextScope
  rw [Array.getD_eq_getD_getElem?, Array.getElem?_push_size]
  rfl

/-- Saying which package a scope belongs to leaves its parent and its names. -/
theorem scope_setPackage (t : SymbolTable) (scope id : ScopeId) (package : DefId) :
    ((t.setPackage scope package).scope id).parent = (t.scope id).parent ∧
      ((t.setPackage scope package).scope id).names = (t.scope id).names := by
  unfold SymbolTable.scope setPackage
  rw [Array.getD_eq_getD_getElem?, Array.getD_eq_getD_getElem?, Array.getElem?_modify]
  split
  · cases t.scopes[id.index]? <;> exact ⟨rfl, rfl⟩
  · exact ⟨rfl, rfl⟩

/-- Saying which package a scope belongs to changes no name. -/
theorem retains_setPackage (t : SymbolTable) (scope : ScopeId) (package : DefId) :
    t.Retains (t.setPackage scope package) where
  size := Nat.le_of_eq Array.size_modify.symm
  parent id _ := (t.scope_setPackage scope id package).1
  binding other name id h := by
    unfold binding? at h ⊢
    rw [(t.scope_setPackage scope other package).2]
    exact h

section

variable (t : SymbolTable) (name : Name)

/-- The scope of a package is inside the current one. -/
theorem parent_withPackage (h : t.current.index < t.scopes.size) :
    ((t.withPackage name).scope t.nextScope).parent = some t.current := by
  have hne : t.nextScope ≠ t.current := fun heq => absurd (congrArg ScopeId.index heq)
    (Nat.ne_of_gt h)
  unfold withPackage
  rw [(scope_setPackage _ _ _ _).1, scope_define_of_ne hne, parent_addScope]

/-- The name of a new package is bound in the current scope. -/
theorem binding?_withPackage (h : t.current.index < t.scopes.size) :
    (t.withPackage name).binding? t.current name.text = some t.nextDef := by
  have hlt : t.current.index < (t.addScope t.current).scopes.size :=
    Nat.lt_of_lt_of_le h (t.retains_addScope t.current).size
  unfold withPackage binding?
  rw [(scope_setPackage _ _ _ _).2]
  exact binding?_define_self (t := t.addScope t.current)
    (d := { name := name.text, pos := some name.pos, meaning := .package t.nextScope,
            owner := t.current }) hlt

/-- The next number stands for the new package. -/
theorem definition?_withPackage :
    (t.withPackage name).definition? t.nextDef = some
      { name := name.text, pos := some name.pos, meaning := .package t.nextScope,
        owner := t.current } :=
  definition?_define_self (t.addScope t.current) _

end

/-- The name of a package that is new in its scope may be declared. -/
theorem retains_withPackage {name : Name} (h : t.binding? t.current name.text = none) :
    t.Retains (t.withPackage name) :=
  ((t.retains_addScope t.current).trans
    (retains_define ((t.binding?_addScope t.current t.current name.text).trans h))).trans
    (retains_setPackage _ _ _)

end SymbolTable

/-! ## What stays -/

namespace Context

/-- What stays while declarations are gathered: the scopes that are entered, what is known of
expressions, the definitions, and what is recorded at the locations in `K`. -/
structure Extends (K : Location → Prop) (s t : Context) : Prop where
  stack : t.symbols.stack = s.symbols.stack
  memo : s.memo.Le t.memo
  definition : ∀ id d, s.symbols.definition? id = some d → t.symbols.definition? id = some d
  labels : ∀ m, K m → t.labels.at? m = s.labels.at? m
  scopes : ∀ m, K m → t.scopes.at? m = s.scopes.at? m

theorem Extends.refl (K : Location → Prop) (s : Context) : s.Extends K s :=
  ⟨rfl, .refl _, fun _ _ h => h, fun _ _ => rfl, fun _ _ => rfl⟩

theorem Extends.trans {K : Location → Prop} {s t u : Context} (hst : s.Extends K t)
    (htu : t.Extends K u) : s.Extends K u where
  stack := htu.stack.trans hst.stack
  memo := hst.memo.trans htu.memo
  definition id d h := htu.definition id d (hst.definition id d h)
  labels m hm := (htu.labels m hm).trans (hst.labels m hm)
  scopes m hm := (htu.scopes m hm).trans (hst.scopes m hm)

/-- The same scopes are entered, so the innermost one is the same. -/
theorem Extends.current {K : Location → Prop} {s t : Context} (h : s.Extends K t) :
    t.symbols.current = s.symbols.current := by
  unfold SymbolTable.current
  rw [h.stack]

/-- Every label that is recorded has a definition of its own, which has no address yet. -/
structure Waiting (ctx : Context) : Prop where
  unplaced : ∀ m id, ctx.labels.at? m = some id → ctx.symbols.meaning? id = some (.label none)
  unique : ∀ m n id, ctx.labels.at? m = some id → ctx.labels.at? n = some id → m = n

/-- Labels keep waiting while definitions are added. -/
theorem Waiting.of_definitions {s t : Context} (h : s.Waiting) (hlabels : t.labels = s.labels)
    (hdef : ∀ id d, s.symbols.definition? id = some d → t.symbols.definition? id = some d) :
    t.Waiting := by
  constructor
  · intro m id hm
    rw [hlabels] at hm
    obtain ⟨d, hd, hmeaning⟩ := Option.map_eq_some_iff.1 (h.unplaced m id hm)
    exact Option.map_eq_some_iff.2 ⟨d, hdef id d hd, hmeaning⟩
  · rw [hlabels]
    exact h.unique

/-- A label that is declared waits. -/
theorem Waiting.declare {s : Context} (h : s.Waiting) (location : Location) {d : Definition}
    (hd : d.meaning = .label none) :
    ({ s with
      symbols := s.symbols.define d
      labels := s.labels.set location (some s.symbols.nextDef) } : Context).Waiting := by
  have hnew : ∀ m, s.labels.at? m ≠ some s.symbols.nextDef := by
    intro m hm
    have hmeaning := h.unplaced m _ hm
    rw [SymbolTable.meaning?, SymbolTable.definition?_nextDef] at hmeaning
    cases hmeaning
  have hold := h.of_definitions (t := { s with symbols := s.symbols.define d }) rfl
    fun _ _ hid => SymbolTable.definition?_define_of_some hid
  constructor
  · intro m id hm
    by_cases hml : m = location
    · subst hml
      rw [Record.set_self] at hm
      cases hm
      exact Option.map_eq_some_iff.2 ⟨d, SymbolTable.definition?_define_self _ _, hd⟩
    · rw [Record.set_of_ne hml] at hm
      exact hold.unplaced m id hm
  · intro m n id hm hn
    by_cases hml : m = location <;> by_cases hnl : n = location
    · exact hml.trans hnl.symm
    · subst hml
      rw [Record.set_self] at hm
      rw [Record.set_of_ne hnl] at hn
      cases hm
      exact absurd hn (hnew n)
    · subst hnl
      rw [Record.set_self] at hn
      rw [Record.set_of_ne hml] at hm
      cases hn
      exact absurd hm (hnew m)
    · rw [Record.set_of_ne hml] at hm
      rw [Record.set_of_ne hnl] at hn
      exact h.unique m n id hm hn

end Context

namespace Gathering

/-- The frame of what stays while declarations are gathered. -/
def extending (K : Location → Prop) : Run.Frame Context :=
  .finishing (fun s t => s.state.Extends K t.state ∧ (s.state.Waiting → t.state.Waiting))
    (fun s => ⟨.refl K s.state, fun h => h⟩)
    fun hst htu => ⟨hst.1.trans htu.1, fun h => htu.2 (hst.2 h)⟩

/-- What leaves the declarations alone stays in the frame. -/
theorem extending_of_eq {K : Location → Prop} {s t : Logged Context}
    (hsymbols : t.state.symbols = s.state.symbols) (hmemo : s.state.memo.Le t.state.memo)
    (hlabels : t.state.labels = s.state.labels) (hscopes : t.state.scopes = s.state.scopes) :
    (extending K).rel s t := by
  refine ⟨⟨?_, hmemo, fun id d h => ?_, fun m _ => ?_, fun m _ => ?_⟩, fun h =>
    h.of_definitions hlabels fun id d hd => ?_⟩
  · rw [hsymbols]
  · rw [hsymbols]
    exact h
  · rw [hlabels]
  · rw [hscopes]
  · rw [hsymbols]
    exact hd

/-- A table with more definitions stays in the frame. -/
theorem extending_onSymbols {α : Type} {K : Location → Prop} {act : Run SymbolTable α}
    (h : ∀ s a t, act s = .ok a t → t.state.stack = s.state.stack ∧
      ∀ id d, s.state.definition? id = some d → t.state.definition? id = some d) :
    (extending K).Holds (Pass.onSymbols act) := by
  refine Run.Frame.holds_of_ok (fun _ _ => trivial) fun s a t hok => ?_
  obtain ⟨u, hu, rfl⟩ := onSymbols_eq_ok.1 hok
  obtain ⟨hstack, hdef⟩ := h _ _ _ hu
  exact ⟨⟨hstack, .refl _, hdef, fun _ _ => rfl, fun _ _ => rfl⟩, fun hs =>
    hs.of_definitions rfl hdef⟩

/-- A new name takes a number that was free, so the definitions stay. -/
theorem extending_put {K : Location → Prop} (name : String) (pos : Option Position)
    (meaning : Meaning) :
    (extending K).Holds (Pass.onSymbols (SymbolTable.put name pos meaning)) := by
  refine extending_onSymbols fun s _ t h => ?_
  obtain ⟨-, hstate, -⟩ := SymbolTable.put_of_ok h
  rw [hstate]
  exact ⟨rfl, fun _ _ hd => SymbolTable.definition?_define_of_some hd⟩

/-- The steps of gathering keep what is there, apart from records outside `K`. -/
theorem allows_extending (K : Location → Prop) :
    Allows (extending K) (fun m => ¬ K m) fun _ _ => True where
  reports e _ := Run.Frame.reports_of_log (fun _ _ => extending_of_eq rfl (.refl _) rfl rfl)
    (fun _ _ => trivial) e
  scopes :=
    { rel scope s t h := by
        obtain ⟨hextends, hwaiting⟩ := h
        refine ⟨⟨?_, hextends.memo, hextends.definition, hextends.labels, hextends.scopes⟩,
          fun hs => ?_⟩
        · show t.state.symbols.stack.tail = s.state.symbols.stack
          rw [hextends.stack]
          rfl
        · have ht : t.state.Waiting := hwaiting (hs.of_definitions rfl fun _ _ hd => hd)
          exact ht.of_definitions rfl fun _ _ hd => hd
      abort _ _ _ _ := trivial }
  fold m e _ := Run.Frame.holds_fold (fun t scope => SymbolTable.holds_growing scope _ e)
    (fun _ _ h => extending_of_eq rfl h.1 rfl rfl) fun _ _ _ => trivial
  note n := Run.Frame.holds_update fun _ => extending_of_eq rfl (.refl _) rfl rfl
  openScope kind := by
    have hscope : ∀ parent,
        (extending K).Holds (Pass.onSymbols (SymbolTable.createScope parent)) := by
      refine fun parent => extending_onSymbols fun s _ t h => ?_
      cases h
      exact ⟨rfl, fun _ _ hd => hd⟩
    cases kind with
    | main => exact Run.Frame.holds_read_bind fun _ => hscope _
    | scope => exact Run.Frame.holds_read_bind fun _ => hscope _
    | package name =>
      refine extending_onSymbols fun s _ t h => ?_
      obtain ⟨-, hstate, -⟩ := SymbolTable.createPackage_of_ok h
      rw [hstate]
      exact ⟨rfl, fun _ _ hd =>
        SymbolTable.definition?_define_of_some (t := s.state.addScope s.state.current) hd⟩
  record m scope hm := Run.Frame.holds_update fun s =>
    ⟨⟨rfl, .refl _, fun _ _ h => h, fun _ _ => rfl, fun k hk =>
      Record.set_of_ne fun heq => hm (heq ▸ hk)⟩, fun hs => hs.of_definitions rfl fun _ _ hd => hd⟩
  constant name value := by
    unfold Expr.declare
    refine Run.Frame.holds_read_bind fun _ => ?_
    exact Run.Frame.holds_bind (extending_put _ _ _) fun _ => Run.Frame.holds_pure _ _
  label m name hm := by
    refine Run.Frame.holds_of_ok (fun _ _ => trivial) fun s _ t h => ?_
    unfold Name.declareLabel at h
    obtain ⟨id, u, hput, hset⟩ := Run.bind_eq_ok.1 h
    obtain ⟨v, hv, rfl⟩ := onSymbols_eq_ok.1 hput
    obtain ⟨rfl, hstate, -⟩ := SymbolTable.put_of_ok hv
    cases hset
    simp only [hstate]
    refine ⟨⟨rfl, .refl _, fun _ _ hd => SymbolTable.definition?_define_of_some hd, fun k hk => ?_,
      fun _ _ => rfl⟩, fun hs => hs.declare m rfl⟩
    exact Record.set_of_ne fun heq => hm (heq ▸ hk)
  allocate size pos _ _ := by
    refine Run.Frame.holds_of_ok (fun _ _ => trivial) fun s _ t h => ?_
    obtain ⟨rom, counter, -, -, -, -, rfl⟩ := allocate_eq_ok.1 h
    exact extending_of_eq rfl (.refl _) rfl rfl
  storage name pos address := extending_put _ _ _
  moveRam address pos := by
    refine Run.Frame.holds_of_ok (fun _ _ => trivial) fun s _ t h => ?_
    obtain ⟨rom, u, -, hu, rfl⟩ := Pass.onRom_eq_ok.1 h
    exact extending_of_eq rfl (.refl _) rfl rfl
  startRom settings := Run.Frame.holds_update fun _ => extending_of_eq rfl (.refl _) rfl rfl

/-- The frame of tables in which names stay what they are unless that is reported. -/
def retaining : Run.Frame Context :=
  .finishing (fun s t => s.log.count ≤ t.log.count ∧
      (t.log.count = 0 → s.state.symbols.Retains t.state.symbols))
    (fun _ => ⟨Nat.le_refl _, fun _ => .refl _⟩)
    fun hst htu => ⟨Nat.le_trans hst.1 htu.1, fun hu =>
      (hst.2 (Nat.eq_zero_of_le_zero (hu ▸ htu.1))).trans (htu.2 hu)⟩

/-- Where the symbol table is the same, every name stays what it is. -/
theorem retaining_of_eq {s t : Logged Context} (hlog : s.log.count ≤ t.log.count)
    (hsymbols : t.state.symbols = s.state.symbols) : retaining.rel s t :=
  ⟨hlog, fun _ => hsymbols ▸ .refl _⟩

/-- A table that retains its names unless that is reported stays in the frame. -/
theorem retaining_onSymbols {α : Type} {act : Run SymbolTable α}
    (h : ∀ s a t, act s = .ok a t →
      t.log = s.log ∧ s.state.Retains t.state ∨ ∃ e place, t.log = s.log.soft e place) :
    retaining.Holds (Pass.onSymbols act) := by
  refine Run.Frame.holds_of_ok (fun _ _ => trivial) fun s a t hok => ?_
  obtain ⟨u, hu, rfl⟩ := onSymbols_eq_ok.1 hok
  rcases h _ _ _ hu with ⟨hlog, hretains⟩ | ⟨e, place, hlog⟩
  · exact ⟨Nat.le_of_eq (congrArg Log.count hlog.symm), fun _ => hretains⟩
  · have hcount : u.log.count = s.log.count + 1 := congrArg Log.count hlog
    exact ⟨hcount ▸ Nat.le_succ _, fun hzero => absurd (hcount.symm.trans hzero)
      (Nat.succ_ne_zero _)⟩

/-- A name that is put into a scope again would hide an older one, but this is reported. -/
theorem retaining_put (name : String) (pos : Option Position) (meaning : Meaning) :
    retaining.Holds (Pass.onSymbols (SymbolTable.put name pos meaning)) := by
  refine retaining_onSymbols fun s _ t h => ?_
  obtain ⟨-, hstate, hlog⟩ := SymbolTable.put_of_ok h
  rw [hstate]
  exact hlog.imp_left fun ⟨heq, hnew⟩ => ⟨heq, SymbolTable.retains_define hnew⟩

/-- No step of gathering hides a name without a report. -/
theorem allows_retaining (P : Location → Prop) : Allows retaining P fun _ _ => True where
  reports e _ :=
    { soft _ _ := ⟨Nat.le_succ _, fun h => absurd h (Nat.succ_ne_zero _)⟩
      giveUp _ _ := trivial
      fatal _ _ := trivial }
  scopes :=
    { rel scope s t h := by
        refine ⟨h.1, fun hclean => ?_⟩
        obtain ⟨hsize, hparent, hbinding⟩ := h.2 hclean
        exact ⟨hsize, hparent, hbinding⟩
      abort _ _ _ _ := trivial }
  fold m e _ := Run.Frame.holds_fold (fun t scope => SymbolTable.counting_fold scope _ e)
    (fun _ _ h => retaining_of_eq h rfl) fun _ _ _ => trivial
  note n := Run.Frame.holds_update fun _ => retaining_of_eq (Nat.le_refl _) rfl
  openScope kind := by
    have hscope : ∀ parent, retaining.Holds (Pass.onSymbols (SymbolTable.createScope parent)) := by
      refine fun parent => retaining_onSymbols fun s _ t h => ?_
      cases h
      exact Or.inl ⟨rfl, s.state.retains_addScope parent⟩
    cases kind with
    | main => exact Run.Frame.holds_read_bind fun _ => hscope _
    | scope => exact Run.Frame.holds_read_bind fun _ => hscope _
    | package name =>
      refine retaining_onSymbols fun s _ t h => ?_
      obtain ⟨-, hstate, hlog⟩ := SymbolTable.createPackage_of_ok h
      rw [hstate]
      exact hlog.imp_left fun ⟨heq, hnew⟩ => ⟨heq, SymbolTable.retains_withPackage hnew⟩
  record m scope _ := Run.Frame.holds_update fun _ => retaining_of_eq (Nat.le_refl _) rfl
  constant name value := by
    unfold Expr.declare
    refine Run.Frame.holds_read_bind fun _ => ?_
    exact Run.Frame.holds_bind (retaining_put _ _ _) fun _ => Run.Frame.holds_pure _ _
  label m name _ := by
    unfold Name.declareLabel
    exact Run.Frame.holds_bind (retaining_put _ _ _) fun _ => Run.Frame.holds_update fun _ =>
      retaining_of_eq (Nat.le_refl _) rfl
  allocate size pos _ _ := by
    refine Run.Frame.holds_of_ok (fun _ _ => trivial) fun s _ t h => ?_
    obtain ⟨rom, counter, -, -, -, -, rfl⟩ := allocate_eq_ok.1 h
    exact retaining_of_eq (Nat.le_refl _) rfl
  storage name pos address := retaining_put _ _ _
  moveRam address pos := by
    refine Run.Frame.holds_of_ok (fun _ _ => trivial) fun s _ t h => ?_
    obtain ⟨rom, u, -, hu, rfl⟩ := Pass.onRom_eq_ok.1 h
    cases hu
    exact retaining_of_eq (Nat.le_refl _) rfl
  startRom settings := Run.Frame.holds_update fun _ => retaining_of_eq (Nat.le_refl _) rfl

/-! ## What stays if nothing is reported -/

/-- The frame of what stays, in which nothing is invalid and no name is declared twice unless it is
reported. -/
def gaining (K : Location → Prop) : Run.Frame Context :=
  ((extending K).both retaining).both (.onMemo SymbolTable.trusting)

/-- The steps of gathering keep the frames that this one is made of. -/
theorem allows_gaining (K : Location → Prop) :
    Allows (gaining K) (fun m => ¬ K m) fun _ _ => True :=
  ((allows_extending K).both (allows_retaining _)).both <|
    allows_onMemo _ SymbolTable.reports_trusting (fun _ _ => trivial)
      fun _ scope _ e _ => SymbolTable.trusting_fold scope _ e

/-- What stays while declarations are gathered, and what else stays if nothing is reported. -/
structure Gains (K : Location → Prop) (s t : Logged Context) : Prop where
  stays : s.state.Extends K t.state
  count : s.log.count ≤ t.log.count
  retains : t.log.count = 0 → s.state.symbols.Retains t.state.symbols
  honest : t.log.count = 0 → s.state.memo.Honest → t.state.memo.Honest

/-- The three frames together say what stays while declarations are gathered. -/
theorem gains_of_rel {K : Location → Prop} {s t : Logged Context} (h : (gaining K).rel s t) :
    Gains K s t :=
  ⟨h.1.1.1, h.1.2.1, h.1.2.2, h.2.2⟩

/-- What was clean at the end was clean before. -/
theorem Gains.clean {K : Location → Prop} {s t : Logged Context} (h : Gains K s t)
    (hclean : t.log.count = 0) : s.log.count = 0 :=
  Nat.eq_zero_of_le_zero (hclean ▸ h.count)

/-- The current scope is there if it was there before. -/
theorem Gains.current_lt {K : Location → Prop} {s t : Logged Context} (h : Gains K s t)
    (hclean : t.log.count = 0)
    (hs : s.state.symbols.current.index < s.state.symbols.scopes.size) :
    t.state.symbols.current.index < t.state.symbols.scopes.size := by
  rw [h.stays.current]
  exact Nat.lt_of_lt_of_le hs (h.retains hclean).size

end Gathering

end Cartridge
