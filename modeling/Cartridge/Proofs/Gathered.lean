import Cartridge.Proofs.Headers

/-!
# What the gathering leaves behind

If nothing was reported by the gathering, then the table shows the tree: every block has a scope
inside that of the block around it, every name that a statement declares is bound there to what the
statement says, and every expression that had to be folded early has a value.

Main definitions:

- `Statement.names`: the names that a statement declares.
- `Context.Gathered`: what is known of a statement when it was gathered.

Main results:

- Theorem `Gathering.gathered_gather`: every statement inside a gathered one was gathered.
- Theorem `Gathering.untouched_gather`: nothing but early expressions and constants was folded.
-/

namespace Cartridge

/-! ## Names and their scopes -/

/-- The names that a statement declares in the scope of its block. -/
def Statement.names : Statement → List Name
  | .constant name _ | .label name | .block (.package name) _ _ => [name]
  | .storage v => v.names
  | _ => []

namespace Context

/-- A name is bound in a scope to a definition of its own. -/
structure Declares (ctx : Context) (scope : ScopeId) (name : Name) (id : DefId)
    (meaning : Meaning) : Prop where
  binding : ctx.symbols.binding? scope name.text = some id
  definition : ctx.symbols.definition? id = some
    { name := name.text, pos := some name.pos, meaning, owner := scope }

/-- What a statement says that its names stand for. A constant is looked up in the scope of its
block, a label is recorded at its location, and a package stands for the scope of the block. -/
inductive Means (ctx : Context) (m : Location) (scope : ScopeId) (id : DefId) :
    Statement → Meaning → Prop
  | constant {name : Name} {value : Expr} :
      Means ctx m scope id (.constant name value) (.constant value scope)
  | label {name : Name} {address : Option UInt16} (recorded : ctx.labels.at? m = some id) :
      Means ctx m scope id (.label name) (.label address)
  | storage {v : Variables} {address : UInt16} :
      Means ctx m scope id (.storage v) (.storage address)
  | package {kind : BlockKind} {statements : List Statement} {pos : Position} {inner : ScopeId}
      (recorded : ctx.scopes.at? m = some inner) :
      Means ctx m scope id (.block kind statements pos) (.package inner)

/-- What is known of a statement when it was gathered: its early expressions have values, its names
are bound in the scope of its block, and if it is a block itself then its scope is inside that
one. -/
structure Gathered (ctx : Context) (m : Location) (stmt : Statement) : Prop where
  early : ∀ x ∈ stmt.early, ∃ v, ctx.memo.value? (.tree (m.child x.1)) = some v
  names : ∀ name ∈ stmt.names, ∃ scope id meaning, ctx.scopes.at? m.parent = some scope ∧
    ctx.Declares scope name id meaning ∧ ctx.Means m scope id stmt meaning
  inner : ∀ kind statements pos, stmt = .block kind statements pos →
    ∃ inner outer, ctx.scopes.at? m = some inner ∧ (ctx.symbols.scope inner).parent = some outer ∧
      (m ≠ .top → ctx.scopes.at? m.parent = some outer)

variable {s t : Context}

theorem Declares.mono {scope : ScopeId} {name : Name} {id : DefId} {meaning : Meaning}
    (h : s.Declares scope name id meaning)
    (hdef : ∀ id d, s.symbols.definition? id = some d → t.symbols.definition? id = some d)
    (hretains : s.symbols.Retains t.symbols) : t.Declares scope name id meaning :=
  ⟨hretains.binding _ _ _ h.binding, hdef _ _ h.definition⟩

theorem Means.mono {m : Location} {scope : ScopeId} {id : DefId} {stmt : Statement}
    {meaning : Meaning} (h : s.Means m scope id stmt meaning)
    (hlabels : t.labels.at? m = s.labels.at? m) (hscopes : t.scopes.at? m = s.scopes.at? m) :
    t.Means m scope id stmt meaning := by
  cases h with
  | constant => exact .constant
  | label recorded => exact .label (hlabels.trans recorded)
  | storage => exact .storage
  | package recorded => exact .package (hscopes.trans recorded)

/-- What is known of a statement stays. -/
theorem Gathered.mono {m : Location} {stmt : Statement} (h : s.Gathered m stmt)
    (hmemo : s.memo.Le t.memo)
    (hdef : ∀ id d, s.symbols.definition? id = some d → t.symbols.definition? id = some d)
    (hretains : s.symbols.Retains t.symbols) (hlabels : t.labels.at? m = s.labels.at? m)
    (hscopes : t.scopes.at? m = s.scopes.at? m)
    (hparent : t.scopes.at? m.parent = s.scopes.at? m.parent) : t.Gathered m stmt where
  early x hx := by
    obtain ⟨v, hv⟩ := h.early x hx
    exact ⟨v, hmemo.value? hv⟩
  names name hname := by
    obtain ⟨scope, id, meaning, hscope, hdeclares, hmeans⟩ := h.names name hname
    exact ⟨scope, id, meaning, hparent.trans hscope, hdeclares.mono hdef hretains,
      hmeans.mono hlabels hscopes⟩
  inner kind statements pos hstmt := by
    obtain ⟨inner, outer, hinner, houter, hm⟩ := h.inner kind statements pos hstmt
    refine ⟨inner, outer, hscopes.trans hinner, ?_, fun hne => hparent.trans (hm hne)⟩
    rw [hretains.parent inner (SymbolTable.lt_size_of_parent houter), houter]

/-- There is nothing to know of most statements. -/
theorem gathered_of_nil (ctx : Context) (m : Location) {stmt : Statement} (hearly : stmt.early = [])
    (hnames : stmt.names = []) (hblock : ∀ kind statements pos, stmt ≠ .block kind statements pos) :
    ctx.Gathered m stmt where
  early x hx := by
    rw [hearly] at hx
    cases hx
  names name hname := by
    rw [hnames] at hname
    cases hname
  inner kind statements pos hstmt := absurd hstmt (hblock kind statements pos)

end Context

namespace Gathering

/-! ## Declarations -/

/-- A name that was put into the table is bound in the current scope. -/
theorem declares_put {name : Name} {meaning : Meaning} {s t : Logged Context} {id : DefId}
    (h : Pass.onSymbols (SymbolTable.put name.text (some name.pos) meaning) s = .ok id t)
    (hvalid : s.state.symbols.current.index < s.state.symbols.scopes.size) :
    t.state.Declares s.state.symbols.current name id meaning := by
  obtain ⟨u, hu, rfl⟩ := onSymbols_eq_ok.1 h
  obtain ⟨rfl, hstate, -⟩ := SymbolTable.put_of_ok hu
  constructor
  · rw [hstate]
    exact SymbolTable.binding?_define_self hvalid
  · rw [hstate]
    exact SymbolTable.definition?_define_self _ _

/-- A declaration stays. -/
theorem Gains.declares {K : Location → Prop} {s t : Logged Context} (h : Gains K s t)
    (hclean : t.log.count = 0) {scope : ScopeId} {name : Name} {id : DefId} {meaning : Meaning}
    (hs : s.state.Declares scope name id meaning) : t.state.Declares scope name id meaning :=
  hs.mono h.stays.definition (h.retains hclean)

/-- The constants of a block are declared in its scope. -/
theorem declares_gatherConstants {statements : List Statement} {s t : Logged Context}
    (h : Statement.gatherConstants statements s = .ok () t) (hclean : t.log.count = 0)
    (hvalid : s.state.symbols.current.index < s.state.symbols.scopes.size) :
    ∀ name value, Statement.constant name value ∈ statements →
      ∃ id, t.state.Declares s.state.symbols.current name id
        (.constant value s.state.symbols.current) := by
  induction statements generalizing s with
  | nil => exact fun _ _ hmem => absurd hmem List.not_mem_nil
  | cons stmt rest ih =>
    have hskip : Statement.gatherConstants rest s = .ok () t →
        (∀ name value, stmt ≠ .constant name value) → ∀ name value,
        Statement.constant name value ∈ stmt :: rest → ∃ id,
          t.state.Declares s.state.symbols.current name id
            (.constant value s.state.symbols.current) := by
      intro hrest hne name value hmem
      rcases List.mem_cons.1 hmem with rfl | hmem
      · exact absurd rfl (hne name value)
      · exact ih hrest hvalid name value hmem
    cases stmt with
    | constant first e =>
      unfold Statement.gatherConstants at h
      obtain ⟨_, u, hu, hrest⟩ := Run.bind_eq_ok.1 h
      have hfirst := gains_of_rel (((allows_gaining fun _ => True).constant first e).rel_of_ok hu)
      have hlast := gains_of_rel
        (((allows_gaining fun _ => True).holds_constants rest).rel_of_ok hrest)
      have hu' := hlast.clean hclean
      intro name value hmem
      rcases List.mem_cons.1 hmem with heq | hmem
      · cases heq
        unfold Expr.declare at hu
        rw [Run.read_bind_apply] at hu
        obtain ⟨id, v, hput, hret⟩ := Run.bind_eq_ok.1 hu
        cases hret
        exact ⟨id, hlast.declares hclean (declares_put hput hvalid)⟩
      · rw [← hfirst.stays.current]
        exact ih hrest (hfirst.current_lt hu' hvalid) name value hmem
    | _ => exact hskip h fun _ _ => Statement.noConfusion

/-- Variables are declared in the current scope. -/
theorem declares_declareAll {size : Nat} {names : List Name} {s t : Logged Context}
    (h : Variables.declareAll size names s = .ok () t) (hpos : 0 < size) (hlt : size < 0x20000)
    (hclean : t.log.count = 0)
    (hvalid : s.state.symbols.current.index < s.state.symbols.scopes.size) :
    ∀ name ∈ names, ∃ id address,
      t.state.Declares s.state.symbols.current name id (.storage address) := by
  induction names generalizing s with
  | nil => exact fun _ hmem => absurd hmem List.not_mem_nil
  | cons first rest ih =>
    unfold Variables.declareAll at h
    obtain ⟨address, u, hu, hnext⟩ := Run.bind_eq_ok.1 h
    obtain ⟨id, v, hv, hrest⟩ := Run.bind_eq_ok.1 hnext
    obtain ⟨rom, counter, -, -, -, -, rfl⟩ := allocate_eq_ok.1 hu
    have hfirst := gains_of_rel (((allows_gaining fun _ => True).storage _ _ _).rel_of_ok hv)
    have hlast := gains_of_rel
      (((allows_gaining fun _ => True).holds_variables hpos hlt rest).rel_of_ok hrest)
    have hv' := hlast.clean hclean
    intro name hmem
    rcases List.mem_cons.1 hmem with rfl | hmem
    · have hdeclares := declares_put hv hvalid
      exact ⟨id, address, hlast.declares hclean hdeclares⟩
    · have hrec := ih hrest (hfirst.current_lt hv' hvalid) name hmem
      rw [hfirst.stays.current] at hrec
      exact hrec

/-- A block gets a scope inside the current one, and a package is declared there. -/
theorem openScope_of_ok {kind : BlockKind} {s t : Logged Context} {scope : ScopeId}
    (h : kind.openScope s = .ok scope t)
    (hvalid : s.state.symbols.current.index < s.state.symbols.scopes.size) :
    scope.index < t.state.symbols.scopes.size ∧
      (t.state.symbols.scope scope).parent = some s.state.symbols.current ∧
      ∀ name, kind = .package name →
        ∃ id, t.state.Declares s.state.symbols.current name id (.package scope) := by
  have hscope : ∀ {s t : Logged Context},
      Pass.onSymbols (SymbolTable.createScope s.state.symbols.current) s = .ok scope t →
      scope.index < t.state.symbols.scopes.size ∧
        (t.state.symbols.scope scope).parent = some s.state.symbols.current := by
    intro s t hcreate
    obtain ⟨u, hu, rfl⟩ := onSymbols_eq_ok.1 hcreate
    cases hu
    have hparent := s.state.symbols.parent_addScope s.state.symbols.current
    exact ⟨SymbolTable.lt_size_of_parent hparent, hparent⟩
  cases kind with
  | main =>
    obtain ⟨hlt, hparent⟩ := hscope h
    exact ⟨hlt, hparent, nofun⟩
  | scope =>
    obtain ⟨hlt, hparent⟩ := hscope h
    exact ⟨hlt, hparent, nofun⟩
  | package name =>
    obtain ⟨u, hu, rfl⟩ := onSymbols_eq_ok.1 h
    obtain ⟨rfl, hstate, -⟩ := SymbolTable.createPackage_of_ok hu
    simp only [hstate]
    have hparent := s.state.symbols.parent_withPackage name hvalid
    refine ⟨SymbolTable.lt_size_of_parent hparent, hparent, fun other hother => ?_⟩
    cases hother
    exact ⟨_, s.state.symbols.binding?_withPackage name hvalid,
      s.state.symbols.definition?_withPackage name⟩

/-! ## Statements -/

/-- What is known of a statement stays while others are gathered. -/
theorem Gains.gathered {K : Location → Prop} {s t : Logged Context} (h : Gains K s t)
    (hclean : t.log.count = 0) {m : Location} {stmt : Statement} (hs : s.state.Gathered m stmt)
    (hm : K m) (hparent : K m.parent) : t.state.Gathered m stmt :=
  hs.mono h.stays.memo h.stays.definition (h.retains hclean) (h.stays.labels m hm)
    (h.stays.scopes m hm) (h.stays.scopes m.parent hparent)

theorem gathered_label {location : Location} {name : Name} {s t : Logged Context}
    (h : name.declareLabel location s = .ok () t)
    (hvalid : s.state.symbols.current.index < s.state.symbols.scopes.size)
    (hhome : s.state.scopes.at? location.parent = some s.state.symbols.current) :
    t.state.Gathered location (.label name) := by
  unfold Name.declareLabel at h
  obtain ⟨id, u, hput, hset⟩ := Run.bind_eq_ok.1 h
  have hdeclares := declares_put hput hvalid
  have hscopes : u.state.scopes = s.state.scopes := by
    obtain ⟨v, -, rfl⟩ := onSymbols_eq_ok.1 hput
    rfl
  cases hset
  refine ⟨fun _ hx => absurd hx List.not_mem_nil, fun other hother => ?_,
    fun _ _ _ hb => by cases hb⟩
  cases List.mem_singleton.1 hother
  exact ⟨_, id, _, (congrArg (·.at? location.parent) hscopes).trans hhome,
    ⟨hdeclares.binding, hdeclares.definition⟩, .label (Record.set_self _ _ _)⟩

/-- If nothing was reported then the number of units is known. -/
theorem count_of_ok {location : Location} {v : Variables} {s t : Logged Context}
    {count : Option Nat} (h : v.count? location s = .ok count t) (hclean : t.log.count = 0)
    (hhonest : s.state.memo.Honest) :
    (∃ n, count = some n) ∧ ∀ x ∈ (Statement.storage v).early,
      ∃ a, t.state.memo.value? (.tree (location.child x.1)) = some a := by
  unfold Variables.count? at h
  have hexprs : (Statement.storage v).early = v.arraySize.toList.map fun e => (0, e) := rfl
  rw [hexprs]
  cases hsize : v.arraySize with
  | none =>
    simp only [hsize] at h
    cases h
    exact ⟨⟨1, rfl⟩, fun x hx => absurd hx List.not_mem_nil⟩
  | some e =>
    simp only [hsize] at h
    obtain ⟨n, u, hfold, hcheck⟩ := Run.bind_eq_ok.1 h
    obtain ⟨-, -, -, hn, hvalue⟩ := Pass.fold_of_ok hfold
    cases n with
    | none =>
      cases hcheck
      cases (hvalue hclean hhonest).2 rfl
    | some n =>
      dsimp only at hcheck
      split at hcheck
      · obtain ⟨_, w, hw, hret⟩ := Run.bind_eq_ok.1 hcheck
        obtain ⟨-, rfl⟩ := Run.error_eq_ok.1 hw
        cases hret
        cases hclean
      · cases hcheck
        refine ⟨⟨_, rfl⟩, fun x hx => ?_⟩
        cases List.mem_singleton.1 hx
        exact ⟨n, hn.symm⟩

theorem gathered_storage {location : Location} {v : Variables} {s t : Logged Context}
    (h : v.declare location s = .ok () t) (hclean : t.log.count = 0)
    (hhonest : s.state.memo.Honest)
    (hvalid : s.state.symbols.current.index < s.state.symbols.scopes.size)
    (htop : location = .top → v.names = [])
    (hhome : location ≠ .top →
      s.state.scopes.at? location.parent = some s.state.symbols.current) :
    t.state.Gathered location (.storage v) := by
  unfold Variables.declare at h
  obtain ⟨count, u, hcount, hdeclare⟩ := Run.bind_eq_ok.1 h
  have hfirst := gains_of_rel (((allows_gaining fun _ => True).holds_count v
    fun _ _ => trivial).rel_of_ok hcount)
  cases count with
  | none =>
    cases hdeclare
    obtain ⟨⟨n, hn⟩, -⟩ := count_of_ok hcount hclean hhonest
    cases hn
  | some n =>
    obtain ⟨hpos, hlt⟩ := size_lt hcount
    have hlast := gains_of_rel
      (((allows_gaining fun _ => True).holds_variables hpos hlt _).rel_of_ok hdeclare)
    have hu := hlast.clean hclean
    obtain ⟨-, hearly⟩ := count_of_ok hcount hu hhonest
    refine ⟨fun x hx => ?_, fun name hname => ?_, fun _ _ _ hb => by cases hb⟩
    · obtain ⟨a, ha⟩ := hearly x hx
      exact ⟨a, hlast.stays.memo.value? ha⟩
    · obtain ⟨id, address, hdeclares⟩ :=
        declares_declareAll hdeclare hpos hlt hclean (hfirst.current_lt hu hvalid) name hname
      rw [hfirst.stays.current] at hdeclares
      refine ⟨_, id, _, ?_, hdeclares, .storage⟩
      rw [hlast.stays.scopes _ trivial, hfirst.stays.scopes _ trivial]
      refine hhome fun heq => ?_
      rw [Statement.names, htop heq] at hname
      cases hname

theorem gathered_relocation {location : Location} {target : Relocation} {pos : Position}
    {s t : Logged Context} (h : target.gather location pos s = .ok () t) :
    t.state.Gathered location (.relocation target pos) := by
  cases target with
  | rom bank dest =>
    exact t.state.gathered_of_nil location rfl rfl nofun
  | ram dest =>
    refine ⟨fun x hx => ?_, fun _ hname => absurd hname List.not_mem_nil, nofun⟩
    cases List.mem_singleton.1 hx
    unfold Relocation.gather at h
    obtain ⟨v, u, hfold, hmove⟩ := Run.bind_eq_ok.1 h
    obtain ⟨-, -, -, hv, -⟩ := Pass.fold_of_ok hfold
    cases v with
    | none => cases hmove
    | some address =>
      obtain ⟨_, w, hw, hnote⟩ := Run.bind_eq_ok.1 hmove
      obtain ⟨rom, x, -, -, rfl⟩ := Pass.onRom_eq_ok.1 hw
      cases hnote
      exact ⟨address, hv.symm⟩

/-- The headers of a block have been resolved when its statements are gathered. -/
theorem known_of_startRom {kind : BlockKind} {location : Location} {statements : List Statement}
    {pos : Position} {s t : Logged Context}
    (h : kind.startRom location statements pos s = .ok () t) :
    ∀ i header, (i, header) ∈ Header.indexed 0 statements →
      ∀ x ∈ (Statement.header header).early,
        ∃ v, t.state.memo.value? (.tree ((location.child i).child x.1)) = some v := by
  intro i header hmem
  cases kind with
  | main =>
    obtain ⟨index, only, settings, u, hindexed, -, hresolve, rfl⟩ := install_of_ok h
    rw [hindexed] at hmem
    cases List.mem_singleton.1 hmem
    intro x hx
    obtain ⟨⟨setting, k⟩, hk, rfl⟩ := List.mem_map.1 hx
    obtain ⟨rule, v, -, hv, -⟩ :=
      (resolve_of_ok hresolve).admitted k setting (List.mk_mem_zipIdx_iff_getElem?.1 hk)
    exact ⟨v, hv⟩
  | scope =>
    rw [(refuse_of_ok h).1] at hmem
    cases hmem
  | package name =>
    rw [(refuse_of_ok h).1] at hmem
    cases hmem

/-- A block was gathered when its scope was recorded. -/
theorem gathered_block {kind : BlockKind} {statements : List Statement} {pos : Position}
    {location : Location} {s t : Logged Context} {scope : ScopeId}
    (h : kind.openScope s = .ok scope t)
    (hvalid : s.state.symbols.current.index < s.state.symbols.scopes.size)
    (htop : location = .top → (Statement.block kind statements pos).names = [])
    (hhome : location ≠ .top →
      s.state.scopes.at? location.parent = some s.state.symbols.current) :
    ({ t.state with scopes := t.state.scopes.set location (some scope) } : Context).Gathered
      location (.block kind statements pos) := by
  obtain ⟨-, hparent, hpackage⟩ := openScope_of_ok h hvalid
  have hgains := gains_of_rel (((allows_gaining fun _ => True).openScope kind).rel_of_ok h)
  have houter : location ≠ .top → (t.state.scopes.set location (some scope)).at? location.parent =
      some s.state.symbols.current := by
    intro hne
    rw [Record.set_of_ne (Location.parent_ne hne), hgains.stays.scopes _ trivial]
    exact hhome hne
  refine ⟨fun _ hx => absurd hx List.not_mem_nil, fun name hname => ?_, fun _ _ _ _ =>
    ⟨scope, _, Record.set_self _ _ _, hparent, houter⟩⟩
  have hne : location ≠ .top := by
    intro heq
    rw [htop heq] at hname
    cases hname
  cases kind with
  | main => cases hname
  | scope => cases hname
  | package package =>
    cases List.mem_singleton.1 hname
    obtain ⟨id, hdeclares⟩ := hpackage name rfl
    exact ⟨_, id, _, houter hne, ⟨hdeclares.binding, hdeclares.definition⟩,
      .package (Record.set_self _ _ _)⟩

mutual

/-- If nothing was reported then every statement inside a gathered one was gathered. -/
theorem gathered_gather :
    ∀ (stmt : Statement) {location : Location} {s t : Logged Context}, stmt.isHeader = false →
      stmt.isConstant = false → stmt.gather location s = .ok () t → t.log.count = 0 →
      s.state.memo.Honest → s.state.symbols.current.index < s.state.symbols.scopes.size →
      (location = .top → stmt.names = []) →
      (location ≠ .top → s.state.scopes.at? location.parent = some s.state.symbols.current) →
      ∀ m inner, (m, Node.statement inner) ∈ stmt.places location → t.state.Gathered m inner
  | .block kind statements pos, location, s, t, _, _, h, hclean, hhonest, hvalid, htop, hhome, m,
      inner, hmem => by
    obtain ⟨scope, a, d, e, f, ha, hd, he, hothers, rfl⟩ := gather_block_of_ok h
    have hopen := gains_of_rel (((allows_gaining fun _ => True).openScope kind).rel_of_ok ha)
    have hconstants := gains_of_rel
      (((allows_gaining fun _ => True).holds_constants statements).rel_of_ok hd)
    have hstart := gains_of_rel (((allows_gaining fun _ => True).nests.holds_startRom statements pos
      (Statement.covers_true _ _) kind).rel_of_ok he)
    have hlast := gains_of_rel (((allows_gaining fun m => ∀ i, ¬ (location.child i).Under m
      ).nests.holds_gatherOthers statements location 0 (fun _ i _ hm hnot => hnot i hm)
      (Statement.covers_true _ _)).rel_of_ok hothers)
    have heclean := hlast.clean hclean
    have hdclean := hstart.clean heclean
    have haclean : a.log.count = 0 := hconstants.clean hdclean
    have hinner : scope.index < a.state.symbols.scopes.size := (openScope_of_ok ha hvalid).1
    have hdvalid : d.state.symbols.current.index < d.state.symbols.scopes.size :=
      hconstants.current_lt hdclean hinner
    have hstays : f.state.Gathered m inner → f.state.exit.Gathered m inner := fun hgathered =>
      hgathered.mono (.refl _) (fun _ _ h => h) ⟨Nat.le_refl _, fun _ _ => rfl, fun _ _ _ h => h⟩
        rfl rfl rfl
    apply hstays
    rcases List.mem_cons.1 hmem with heq | hinside
    · cases heq
      have hblock := gathered_block ha hvalid htop hhome
      have hunder : ∀ i, ¬ (location.child i).Under location := location.not_under_child
      have hparent : ∀ i, ¬ (location.child i).Under location.parent := fun i hi =>
        hunder i (hi.trans location.under_parent)
      have hentered := hblock.mono (t := { a.state with
        symbols := a.state.symbols.enter scope
        scopes := a.state.scopes.set location (some scope) }) (.refl _) (fun _ _ h => h)
        ⟨Nat.le_refl _, fun _ _ => rfl, fun _ _ _ h => h⟩ rfl rfl rfl
      exact hlast.gathered hclean (hstart.gathered heclean
        (hconstants.gathered hdclean hentered trivial trivial) trivial trivial) hunder hparent
    · have hcurrent : e.state.symbols.current = scope :=
        hstart.stays.current.trans hconstants.stays.current
      refine gathered_gatherOthers statements hothers hclean ?_ ?_ ?_ (known_of_startRom he) ?_ m
        inner hinside
      · exact hstart.honest heclean (hconstants.honest hdclean (hopen.honest haclean hhonest))
      · exact hstart.current_lt heclean hdvalid
      · rw [hcurrent, hstart.stays.scopes _ trivial, hconstants.stays.scopes _ trivial]
        exact Record.set_self _ _ _
      · intro name value hmem
        obtain ⟨id, hdeclares⟩ := declares_gatherConstants hd hdclean hinner name value hmem
        rw [hcurrent]
        exact ⟨id, hstart.declares heclean hdeclares⟩
  | .label name, location, s, t, _, _, h, _, _, hvalid, htop, hhome, m, inner, hmem => by
    unfold Statement.gather at h
    cases List.mem_singleton.1 hmem
    exact gathered_label h hvalid (hhome fun heq => absurd (htop heq) (List.cons_ne_nil _ _))
  | .storage v, location, s, t, _, _, h, hclean, hhonest, hvalid, htop, hhome, m, inner, hmem => by
    unfold Statement.gather at h
    cases List.mem_singleton.1 hmem
    exact gathered_storage h hclean hhonest hvalid htop hhome
  | .relocation target pos, location, s, t, _, _, h, _, _, _, _, _, m, inner, hmem => by
    unfold Statement.gather at h
    cases List.mem_singleton.1 hmem
    exact gathered_relocation h
  | .command c, location, s, t, _, _, _, _, _, _, _, _, m, inner, hmem => by
    rcases List.mem_cons.1 hmem with heq | hinside
    · cases heq
      exact t.state.gathered_of_nil _ rfl rfl nofun
    · obtain ⟨k, d, -, -, heq⟩ := Statement.mem_placesOfCommands hinside
      cases heq
  | .header _, _, _, _, hheader, _, _, _, _, _, _, _, _, _, _ => by cases hheader
  | .constant _ _, _, _, _, _, hconstant, _, _, _, _, _, _, _, _, _ => by cases hconstant
  | .data _, _, _, t, _, _, _, _, _, _, _, _, m, inner, hmem => by
    cases List.mem_singleton.1 hmem
    exact t.state.gathered_of_nil _ rfl rfl nofun
  | .branch _, _, _, t, _, _, _, _, _, _, _, _, m, inner, hmem => by
    cases List.mem_singleton.1 hmem
    exact t.state.gathered_of_nil _ rfl rfl nofun
  | .embed _ _, _, _, t, _, _, _, _, _, _, _, _, m, inner, hmem => by
    cases List.mem_singleton.1 hmem
    exact t.state.gathered_of_nil _ rfl rfl nofun

/-- So were the statements of a block, if the settings of its headers are known and its constants
are declared. -/
theorem gathered_gatherOthers :
    ∀ (statements : List Statement) {location : Location} {index : Nat} {s t : Logged Context},
      Statement.gatherOthers location index statements s = .ok () t → t.log.count = 0 →
      s.state.memo.Honest → s.state.symbols.current.index < s.state.symbols.scopes.size →
      s.state.scopes.at? location = some s.state.symbols.current →
      (∀ i header, (i, header) ∈ Header.indexed index statements →
        ∀ x ∈ (Statement.header header).early,
          ∃ v, s.state.memo.value? (.tree ((location.child i).child x.1)) = some v) →
      (∀ name value, Statement.constant name value ∈ statements →
        ∃ id, s.state.Declares s.state.symbols.current name id
          (.constant value s.state.symbols.current)) →
      ∀ m inner, (m, Node.statement inner) ∈ Statement.placesAll location index statements →
        t.state.Gathered m inner
  | [], _, _, _, _, _, _, _, _, _, _, _, _, _, hmem => by cases hmem
  | stmt :: rest, location, index, s, t, h, hclean, hhonest, hvalid, hhome, hknown, hconstants, m,
      inner, hmem => by
    unfold Statement.gatherOthers at h
    obtain ⟨_, u, hu, hrest⟩ := Run.bind_eq_ok.1 h
    have hfirst : Gains (fun m => ¬ (location.child index).Under m) s u := by
      refine gains_of_rel (Run.Frame.Holds.rel_of_ok ?_ hu)
      split
      · exact Run.Frame.holds_pure _ _
      · exact (allows_gaining _).nests.holds_gather stmt _ (fun _ hm hnot => hnot hm)
          (Statement.covers_true _ _)
    have hlast : Gains (fun m => ∀ i, index + 1 ≤ i → ¬ (location.child i).Under m) u t :=
      gains_of_rel (((allows_gaining _).nests.holds_gatherOthers rest location (index + 1)
        (fun _ i hi hm hnot => hnot i hi hm) (Statement.covers_true _ _)).rel_of_ok hrest)
    have huclean := hlast.clean hclean
    rcases List.mem_append.1 hmem with hstmt | hmem
    · have hunder : (location.child index).Under m := Statement.under_of_mem_places hstmt
      -- What comes later stands below other children.
      have hkeep : ∀ i, index + 1 ≤ i → ¬ (location.child i).Under m := by
        intro i hi hm
        have heq := hm.child_unique hunder
        omega
      have hgathered : u.state.Gathered m inner := by
        cases hc : stmt.isConstant || stmt.isHeader with
        | false =>
          simp only [hc] at hu
          exact gathered_gather stmt (Bool.or_eq_false_iff.1 hc).2 (Bool.or_eq_false_iff.1 hc).1 hu
            huclean hhonest hvalid (fun htop => absurd htop (Location.child_ne_top _ _))
            (fun _ => hhome) m inner hstmt
        | true =>
          simp only [hc] at hu
          cases hu
          cases stmt with
          | constant name value =>
            cases List.mem_singleton.1 hstmt
            refine ⟨fun _ hx => absurd hx List.not_mem_nil, fun other hother => ?_, nofun⟩
            cases List.mem_singleton.1 hother
            obtain ⟨id, hdeclares⟩ := hconstants name value List.mem_cons_self
            exact ⟨_, id, _, hhome, hdeclares, .constant⟩
          | header header =>
            cases List.mem_singleton.1 hstmt
            exact ⟨hknown index header List.mem_cons_self,
              fun _ hname => absurd hname List.not_mem_nil, nofun⟩
          | _ => cases hc
      refine hlast.gathered hclean hgathered hkeep fun i hi hm => hkeep i hi ?_
      exact hm.trans (Location.under_parent m)
    · refine gathered_gatherOthers rest hrest hclean (hfirst.honest huclean hhonest)
        (hfirst.current_lt huclean hvalid) ?_ ?_ ?_ m inner hmem
      · rw [hfirst.stays.current, hfirst.stays.scopes location (Location.not_under_child _ _)]
        exact hhome
      · intro i header hi x hx
        have hmem : (i, header) ∈ Header.indexed index (stmt :: rest) := by
          cases stmt with
          | header first => exact List.mem_cons_of_mem _ hi
          | _ => exact hi
        obtain ⟨v, hv⟩ := hknown i header hmem x hx
        exact ⟨v, hfirst.stays.memo.value? hv⟩
      · intro name value hconstant
        obtain ⟨id, hdeclares⟩ := hconstants name value (List.mem_cons_of_mem _ hconstant)
        rw [hfirst.stays.current]
        exact ⟨id, hfirst.declares huclean hdeclares⟩

end

/-- The frame of memos that keep what they say of the expression at a location allows folds of all
other ones. -/
theorem allows_untouched (m : Location) :
    Allows (.onMemo (SymbolTable.growing fun site => site.anchor ≠ .tree m)) (fun _ => True)
      fun m' _ => m' ≠ m := by
  refine allows_onMemo _ (SymbolTable.reports_growing _) (fun _ _ => trivial)
    fun t scope m' e hm' => SymbolTable.growing_mono ?_ (SymbolTable.holds_growing scope _ e)
  rintro other (hother | ⟨id, hother⟩) heq
  · rw [hother] at heq
    exact hm' (Anchor.tree.inj heq)
  · rw [hother] at heq
    cases heq

/-- The gathering folds early expressions and constants only. -/
theorem untouched_gather {stmt : Statement} {location m : Location} {s t : Logged Context}
    (h : stmt.gather location s = .ok () t)
    (hm : ∀ place inner j e, (place, Node.statement inner) ∈ stmt.places location →
      (j, e) ∈ inner.early → m ≠ place.child j)
    {site : Site} (hsite : site.anchor = .tree m) :
    t.state.memo.result site = s.state.memo.result site := by
  have hframe := ((allows_untouched m).nests.holds_gather stmt location (fun _ _ => trivial)
    fun place inner hmem x hx heq => hm place inner x.1 x.2 hmem hx heq.symm).rel_of_ok h
  exact hframe.2 site fun hne => hne hsite

/-- The gathering of the statements of a block folds no expression outside of their subtrees. -/
theorem untouched_gatherOthers {statements : List Statement} {location m : Location} {index : Nat}
    {s t : Logged Context} (h : Statement.gatherOthers location index statements s = .ok () t)
    (hm : ∀ i, index ≤ i → ¬ (location.child i).Under m) {site : Site}
    (hsite : site.anchor = .tree m) :
    t.state.memo.result site = s.state.memo.result site := by
  have hframe := ((allows_untouched m).nests.holds_gatherOthers statements location index
    (fun _ _ _ _ => trivial) fun place inner hmem x _ heq => ?_).rel_of_ok h
  · exact hframe.2 site fun hne => hne hsite
  · obtain ⟨i, hi, hunder⟩ := Statement.under_of_mem_placesAll _ hmem
    exact hm i hi (heq ▸ hunder.trans (Location.under_child place x.1))

end Gathering

end Cartridge
