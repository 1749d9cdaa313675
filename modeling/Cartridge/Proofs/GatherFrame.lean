import Cartridge.Compile.Gather
import Cartridge.Proofs.Passes

/-!
# Frames of the gathering

The gathering of a statement is built from a few primitives. A frame that allows each of them is
kept by the whole gathering.

Main definitions:

- `Gathering.Opens`: a frame allows what comes before there is a rom.
- `Gathering.Steps`: a frame allows what the gathering does at a single statement.
- `Gathering.Nests`: a frame also allows the gathering of blocks.
- `Gathering.Allows`: a frame allows the primitives of the gathering.

Main results:

- Theorem `Gathering.Nests.holds_gather`: a frame that allows statements and blocks holds of the
  gathering of a statement.
- Theorem `Gathering.Allows.nests`: a frame that allows the primitives allows statements and blocks.
- Theorem `Gathering.gather_block_of_ok`: what the gathering of a block consists of.
-/

namespace Cartridge

/-! ## The headers among statements -/

namespace Header

/-- The headers of a list are those of its parts, with the indices of the second part moved on. -/
theorem indexed_append (i : Nat) (l r : List Statement) :
    indexed i (l ++ r) = indexed i l ++ indexed (i + l.length) r := by
  induction l generalizing i with
  | nil => rfl
  | cons s l ih =>
    have hlength : i + (s :: l).length = i + 1 + l.length := by
      rw [List.length_cons]
      omega
    cases s with
    | header h =>
      rw [hlength]
      exact congrArg ((i, h) :: ·) (ih (i + 1))
    | _ =>
      rw [hlength]
      exact ih (i + 1)

theorem indexed_eq_nil {s : Statement} (h : s.isHeader = false) (i : Nat) : indexed i [s] = [] := by
  cases s with
  | header header => cases h
  | _ => rfl

/-- The indices of the headers among statements. -/
theorem getElem?_of_mem_indexed {i : Nat} {l : List Statement} {entry : Nat × Header}
    (h : entry ∈ indexed i l) : i ≤ entry.1 ∧ l[entry.1 - i]? = some (.header entry.2) := by
  induction l generalizing i with
  | nil => cases h
  | cons s l ih =>
    have htail (h : entry ∈ indexed (i + 1) l) :
        i ≤ entry.1 ∧ (s :: l)[entry.1 - i]? = some (.header entry.2) := by
      obtain ⟨hle, hget⟩ := ih h
      have hindex : entry.1 - i = entry.1 - (i + 1) + 1 := by omega
      exact ⟨Nat.le_of_succ_le hle, hindex ▸ hget⟩
    cases s with
    | header header =>
      rcases List.mem_cons.1 h with rfl | h
      · exact ⟨Nat.le_refl _, by rw [Nat.sub_self]; rfl⟩
      · exact htail h
    | _ => exact htail h

end Header

/-! ## Frames -/

namespace Gathering

/-- A frame allows what comes before there is a rom: the constants of a block and the settings of
its header, with folds of the expressions in `E`. -/
structure Opens (F : Run.Frame Context) (E : Location → Expr → Prop) : Prop where
  reports : ∀ e : Error, e.isInternal = false → F.Reports e
  fold : ∀ m e, E m e → F.Holds (Pass.fold .early m e)
  note : ∀ n, F.Holds (Pass.note n)
  constant : ∀ name value, F.Holds (Expr.declare name value)

/-- A frame allows what the gathering does at a statement that is not a block: records at the
locations in `P`, and folds of the expressions in `E`. No variable takes more than 65535 words. -/
structure Steps (F : Run.Frame Context) (P : Location → Prop) (E : Location → Expr → Prop) : Prop
    extends Opens F E where
  label : ∀ m name, P m → F.Holds (Name.declareLabel m name)
  allocate : ∀ size pos, 0 < size → size < 0x20000 → F.Holds (Variables.allocate size pos)
  storage : ∀ name pos address,
    F.Holds (Pass.onSymbols (SymbolTable.put name pos (.storage address)))
  moveRam : ∀ address pos, F.Holds (Pass.onRom pos (Run.update (Rom.moveRam address)))

/-- A frame allows statements, and blocks of what it allows. -/
structure Nests (F : Run.Frame Context) (P : Location → Prop) (E : Location → Expr → Prop) : Prop
    extends Steps F P E where
  block : ∀ (kind : BlockKind) m (act : Pass Unit), P m → F.Holds act → F.Holds (do
    let scope ← kind.openScope
    Run.update fun ctx => { ctx with scopes := ctx.scopes.set m (some scope) }
    Pass.within scope act)
  startRom : ∀ settings,
    F.Holds (Run.update fun ctx => { ctx with rom := some (Rom.empty settings) })

/-- A frame allows the primitives of the gathering. -/
structure Allows (F : Run.Frame Context) (P : Location → Prop) (E : Location → Expr → Prop) : Prop
    extends Steps F P E where
  scopes : F.Scoped
  openScope : ∀ kind : BlockKind, F.Holds kind.openScope
  record : ∀ m scope, P m →
    F.Holds (Run.update fun ctx => { ctx with scopes := ctx.scopes.set m (some scope) })
  startRom : ∀ settings,
    F.Holds (Run.update fun ctx => { ctx with rom := some (Rom.empty settings) })

/-- The headers of a block are among its places. -/
theorem mem_placesAll_of_indexed {location : Location} {statements : List Statement} {index i : Nat}
    {header : Header} (h : (i, header) ∈ Header.indexed index statements) :
    (location.child i, Node.statement (.header header)) ∈
      Statement.placesAll location index statements := by
  induction statements generalizing index with
  | nil => cases h
  | cons stmt rest ih =>
    unfold Statement.placesAll
    cases stmt with
    | header found =>
      rcases List.mem_cons.1 h with heq | hrest
      · cases heq
        exact List.mem_append_left _ List.mem_cons_self
      · exact List.mem_append_right _ (ih hrest)
    | _ => exact List.mem_append_right _ (ih h)

/-- The number of units of a variable fits into a word, and is not zero. -/
theorem units_le {location : Location} {v : Variables} {s t : Logged Context} {count : Nat}
    (h : v.count? location s = .ok (some count) t) : 0 < count ∧ count ≤ 65535 := by
  unfold Variables.count? at h
  cases hsize : v.arraySize with
  | none =>
    simp only [hsize] at h
    cases h
    exact ⟨Nat.one_pos, by decide⟩
  | some e =>
    simp only [hsize] at h
    obtain ⟨n, u, -, hcheck⟩ := Run.bind_eq_ok.1 h
    cases n with
    | none => cases hcheck
    | some n =>
      dsimp only at hcheck
      split at hcheck
      · obtain ⟨_, w, -, hret⟩ := Run.bind_eq_ok.1 hcheck
        cases hret
      · rename_i hn
        cases hcheck
        have hpos : n.toNat ≠ 0 := fun hzero => hn (UInt16.toNat_inj.1 hzero)
        exact ⟨Nat.pos_of_ne_zero hpos, Nat.le_of_lt_succ n.toNat_lt⟩

/-- So a variable is not empty, and not much larger than the address space. -/
theorem size_lt {location : Location} {v : Variables} {s t : Logged Context} {count : Nat}
    (h : v.count? location s = .ok (some count) t) :
    0 < v.width.bytes * count ∧ v.width.bytes * count < 0x20000 := by
  obtain ⟨hpos, hle⟩ := units_le h
  have hwidth : 0 < v.width.bytes ∧ v.width.bytes ≤ 2 := by
    cases v.width <;> decide
  have hsize := Nat.mul_le_mul hwidth.2 hle
  exact ⟨Nat.mul_pos hwidth.1 hpos, Nat.lt_of_le_of_lt hsize (by decide)⟩

variable {F : Run.Frame Context} {P : Location → Prop} {E : Location → Expr → Prop}

namespace Opens

variable (h : Opens F E)

include h

/-- Reading a setting folds its value and reports; a frame that allows for the fold is kept. -/
theorem holds_setting {location : Location} (setting : Setting) (tally : Tally)
    (hE : E location setting.value) : F.Holds (Header.readSetting location setting tally) := by
  unfold Header.readSetting
  dsimp only
  split
  · exact Run.Frame.holds_bind ((h.reports _ rfl).holds_error _) fun _ => F.holds_pure _
  · split
    · exact Run.Frame.holds_bind ((h.reports _ rfl).holds_error _) fun _ => F.holds_pure _
    · refine Run.Frame.holds_bind (h.fold _ _ hE) fun v => ?_
      split
      · exact F.holds_pure _
      · split
        · exact F.holds_pure _
        · exact Run.Frame.holds_bind ((h.reports _ rfl).holds_error _) fun _ => F.holds_pure _

/-- Reading the settings of a header keeps a frame that allows for folding their values. -/
theorem holds_settings {location : Location} (settings : List Setting) (index : Nat) (tally : Tally)
    (hE : ∀ k setting, settings[k]? = some setting → E (location.child (index + k)) setting.value) :
    F.Holds (Header.readSettings location index settings tally) := by
  induction settings generalizing index tally with
  | nil => exact F.holds_pure _
  | cons setting rest ih =>
    unfold Header.readSettings
    refine Run.Frame.holds_bind (h.holds_setting setting tally (hE 0 setting rfl)) fun _ => ?_
    refine ih _ _ fun k other hk => ?_
    rw [Nat.add_right_comm index 1 k]
    exact hE (k + 1) other hk

/-- Looking for settings that are missing does nothing but report. -/
theorem holds_missing (pos : Position) (rules : List SettingRule) (tally : Tally) :
    F.Holds (Header.reportMissing pos rules tally) := by
  induction rules generalizing tally with
  | nil => exact F.holds_pure _
  | cons rule rest ih =>
    unfold Header.reportMissing
    split
    · exact Run.Frame.holds_bind ((h.reports _ rfl).holds_error _) fun _ => ih _
    · exact ih _

/-- A header is resolved within a frame that allows for folding its settings. -/
theorem holds_resolve {location : Location} (header : Header)
    (hE : ∀ x ∈ (Statement.header header).early, E (location.child x.1) x.2) :
    F.Holds (header.resolve location) := by
  unfold Header.resolve
  refine Run.Frame.holds_bind (h.holds_settings _ _ _ fun k setting hk => ?_) fun tally => ?_
  · rw [Nat.zero_add]
    exact hE (k, setting.value) (Statement.mem_early_setting hk)
  · refine Run.Frame.holds_bind (h.holds_missing _ _ _) fun tally => ?_
    split
    · exact F.holds_pure _
    · exact (h.reports _ rfl).holds_fatal _

/-- Constants are declared, and nothing is folded. -/
theorem holds_constants (statements : List Statement) :
    F.Holds (Statement.gatherConstants statements) := by
  induction statements with
  | nil => exact F.holds_pure _
  | cons stmt rest ih =>
    unfold Statement.gatherConstants
    split
    · exact F.holds_pure _
    · rename_i heq
      cases heq
      exact Run.Frame.holds_bind (h.constant _ _) fun _ => ih
    · rename_i heq
      cases heq
      exact ih

/-- A header is installed within a frame that allows for folding its settings and for a new rom. -/
theorem holds_install
    (hstart : ∀ settings,
      F.Holds (Run.update fun ctx => { ctx with rom := some (Rom.empty settings) }))
    {location : Location} (statements : List Statement) (pos : Position)
    (hE : Statement.Covers Statement.early E (Statement.placesAll location 0 statements)) :
    F.Holds (Header.install location statements pos) := by
  unfold Header.install
  split
  · exact (h.reports _ rfl).holds_fatal _
  · exact (h.reports _ rfl).holds_fatal _
  · rename_i index header hindexed
    split
    · exact (h.reports _ rfl).holds_fatal _
    · refine Run.Frame.holds_bind (h.holds_resolve header ?_) fun settings => ?_
      · refine hE _ _ (mem_placesAll_of_indexed ?_)
        rw [hindexed]
        exact List.mem_singleton_self _
      · exact Run.Frame.holds_bind (h.note _) fun _ => hstart settings

end Opens

namespace Steps

variable (h : Steps F P E)

include h

/-- A relocation of the ram folds its destination and moves the counter. -/
theorem holds_relocation {location : Location} (pos : Position) (target : Relocation)
    (hE : ∀ x ∈ (Statement.relocation target pos).early, E (location.child x.1) x.2) :
    F.Holds (target.gather location pos) := by
  cases target with
  | rom bank dest => exact F.holds_pure _
  | ram dest =>
    unfold Relocation.gather
    refine Run.Frame.holds_bind (h.fold _ _ (hE (1, dest) List.mem_cons_self)) fun v => ?_
    cases v with
    | none => exact (h.reports _ rfl).holds_fatal _
    | some address => exact Run.Frame.holds_bind (h.moveRam _ _) fun _ => h.note _

/-- The number of variables is known after one fold, or reported to be wrong. -/
theorem holds_count {location : Location} (v : Variables)
    (hE : ∀ x ∈ (Statement.storage v).early, E (location.child x.1) x.2) :
    F.Holds (v.count? location) := by
  unfold Variables.count?
  split
  · exact F.holds_pure _
  · rename_i e he
    refine Run.Frame.holds_bind (h.fold _ _ (hE (0, e) (Statement.mem_early_size he))) fun n => ?_
    split
    · exact F.holds_pure _
    · split
      · exact Run.Frame.holds_bind ((h.reports _ rfl).holds_error _) fun _ => F.holds_pure _
      · exact F.holds_pure _

/-- Each variable takes its addresses and is then put into the table. -/
theorem holds_variables {size : Nat} (hpos : 0 < size) (hlt : size < 0x20000)
    (names : List Name) : F.Holds (Variables.declareAll size names) := by
  induction names with
  | nil => exact F.holds_pure _
  | cons name rest ih =>
    unfold Variables.declareAll
    refine Run.Frame.holds_bind (h.allocate _ _ hpos hlt) fun address => ?_
    exact Run.Frame.holds_bind (h.storage _ _ _) fun _ => ih

/-- A declaration of variables: an array has at most 65535 units of two bytes, so the bound of the
frame is met. -/
theorem holds_storage {location : Location} (v : Variables)
    (hE : ∀ x ∈ (Statement.storage v).early, E (location.child x.1) x.2) :
    F.Holds (v.declare location) := by
  intro s
  unfold Variables.declare
  refine Run.Frame.ends_bind (h.holds_count v hE s) fun count t hcount => ?_
  cases count with
  | none => exact F.refl t
  | some count =>
    obtain ⟨hpos, hlt⟩ := size_lt hcount
    exact h.holds_variables hpos hlt _ t

/-- The gathering of a statement that is not a block. -/
theorem holds_single {stmt : Statement} (location : Location) (hP : P location)
    (hE : ∀ x ∈ stmt.early, E (location.child x.1) x.2)
    (hblock : ∀ kind statements pos, stmt ≠ .block kind statements pos) :
    F.Holds (stmt.gather location) := by
  unfold Statement.gather
  cases stmt with
  | block kind statements pos => exact absurd rfl (hblock kind statements pos)
  | relocation target pos => exact h.holds_relocation pos target hE
  | label name => exact h.label _ _ hP
  | constant name value => exact h.constant _ _
  | storage v => exact h.holds_storage v hE
  | _ => exact F.holds_pure _

end Steps

namespace Nests

/-- A block starts a rom only if it is the outermost one; others merely look for headers. -/
theorem holds_startRom (h : Nests F P E) {location : Location} (statements : List Statement)
    (pos : Position)
    (hE : Statement.Covers Statement.early E (Statement.placesAll location 0 statements))
    (kind : BlockKind) : F.Holds (kind.startRom location statements pos) := by
  have hrefuse : F.Holds (Header.refuse statements) := by
    unfold Header.refuse
    split
    · exact F.holds_pure _
    · exact (h.reports _ rfl).holds_fatal _
  cases kind with
  | main => exact h.holds_install h.startRom statements pos hE
  | scope => exact hrefuse
  | package name => exact hrefuse

mutual

/-- A frame that allows statements and blocks holds of the gathering of a statement. -/
theorem holds_gather (h : Nests F P E) :
    ∀ (stmt : Statement) (location : Location), (∀ m, location.Under m → P m) →
      Statement.Covers Statement.early E (stmt.places location) → F.Holds (stmt.gather location)
  | .block kind statements pos, location, hP, hE => by
    unfold Statement.gather
    refine h.block kind location _ (hP _ (.refl _)) ?_
    refine Run.Frame.holds_bind (h.holds_constants statements) fun _ => ?_
    refine Run.Frame.holds_bind (h.holds_startRom statements pos hE.block kind) fun _ => ?_
    exact holds_gatherOthers h statements location 0 (fun m _ _ hm => hP m hm.of_child) hE.block
  | .relocation _ _, location, hP, hE => h.holds_single location (hP _ (.refl _)) hE.self nofun
  | .label _, location, hP, hE => h.holds_single location (hP _ (.refl _)) hE.self nofun
  | .constant _ _, location, hP, hE => h.holds_single location (hP _ (.refl _)) hE.self nofun
  | .storage _, location, hP, hE => h.holds_single location (hP _ (.refl _)) hE.self nofun
  | .header _, location, hP, hE => h.holds_single location (hP _ (.refl _)) hE.self nofun
  | .data _, location, hP, hE => h.holds_single location (hP _ (.refl _)) hE.self nofun
  | .command _, location, hP, hE => h.holds_single location (hP _ (.refl _)) hE.self nofun
  | .branch _, location, hP, hE => h.holds_single location (hP _ (.refl _)) hE.self nofun
  | .embed _ _, location, hP, hE => h.holds_single location (hP _ (.refl _)) hE.self nofun

/-- A frame that allows statements and blocks holds of the gathering of the statements of a block,
where only the subtrees from an index on matter. -/
theorem holds_gatherOthers (h : Nests F P E) :
    ∀ (statements : List Statement) (location : Location) (index : Nat),
      (∀ m i, index ≤ i → (location.child i).Under m → P m) →
      Statement.Covers Statement.early E (Statement.placesAll location index statements) →
      F.Holds (Statement.gatherOthers location index statements)
  | [], _, _, _, _ => F.holds_pure _
  | stmt :: rest, location, index, hP, hE => by
    unfold Statement.gatherOthers
    refine Run.Frame.holds_bind ?_ fun _ => holds_gatherOthers h rest location (index + 1)
      (fun m i hi hm => hP m i (Nat.le_of_succ_le hi) hm) hE.tail
    split
    · exact F.holds_pure _
    · exact holds_gather h stmt (location.child index)
        (fun m hm => hP m index (Nat.le_refl _) hm) hE.head

end

end Nests

namespace Allows

/-- A frame that allows the primitives allows statements and blocks. -/
theorem nests (h : Allows F P E) : Nests F P E where
  toSteps := h.toSteps
  block kind m act hm hact := by
    refine Run.Frame.holds_bind (h.openScope kind) fun scope => ?_
    exact Run.Frame.holds_bind (h.record m scope hm) fun _ => h.scopes.holds_within hact
  startRom := h.startRom

/-- What two frames allow is allowed by both of them together. -/
theorem both {G : Run.Frame Context} (h : Allows F P E) (hG : Allows G P E) :
    Allows (F.both G) P E where
  reports e he := (h.reports e he).both (hG.reports e he)
  scopes :=
    ⟨fun scope s t hst => ⟨h.scopes.rel scope s t hst.1, hG.scopes.rel scope s t hst.2⟩,
      fun scope s t hst => ⟨h.scopes.abort scope s t hst.1, hG.scopes.abort scope s t hst.2⟩⟩
  fold m e hE := (h.fold m e hE).both (hG.fold m e hE)
  note n := (h.note n).both (hG.note n)
  openScope kind := (h.openScope kind).both (hG.openScope kind)
  record m scope hm := (h.record m scope hm).both (hG.record m scope hm)
  constant name value := (h.constant name value).both (hG.constant name value)
  label m name hm := (h.label m name hm).both (hG.label m name hm)
  allocate size pos hpos hlt := (h.allocate size pos hpos hlt).both (hG.allocate size pos hpos hlt)
  storage name pos address := (h.storage name pos address).both (hG.storage name pos address)
  moveRam address pos := (h.moveRam address pos).both (hG.moveRam address pos)
  startRom settings := (h.startRom settings).both (hG.startRom settings)

end Allows

end Gathering

/-! ## The symbol table -/

namespace SymbolTable

/-- What becomes of the table when a name was put into it. A name that is bound already is
reported. -/
theorem put_of_ok {name : String} {pos : Option Position} {meaning : Meaning}
    {s t : Logged SymbolTable} {id : DefId} (h : put name pos meaning s = .ok id t) :
    id = s.state.nextDef ∧
      t.state = s.state.define { name, pos, meaning, owner := s.state.current } ∧
      (t.log = s.log ∧ s.state.binding? s.state.current name = none ∨
        ∃ e place, t.log = s.log.soft e place) := by
  unfold put at h
  obtain ⟨_, u, hreport, hnext⟩ := Run.bind_eq_ok.1 h
  rw [Run.read_bind_apply, Run.update_bind_apply] at hnext
  cases hnext
  unfold reportRedefinition at hreport
  rw [Run.read_bind_apply] at hreport
  cases hb : s.state.binding? s.state.current name with
  | none =>
    simp only [hb] at hreport
    cases hreport
    exact ⟨rfl, rfl, Or.inl ⟨rfl, rfl⟩⟩
  | some previous =>
    simp only [hb] at hreport
    obtain ⟨-, rfl⟩ := Run.error_eq_ok.1 hreport
    exact ⟨rfl, rfl, Or.inr ⟨_, _, rfl⟩⟩

/-- A new scope binds no name. -/
theorem binding?_addScope (t : SymbolTable) (parent scope : ScopeId) (name : String) :
    (t.addScope parent).binding? scope name = t.binding? scope name := by
  unfold binding? SymbolTable.scope addScope
  rw [Array.getD_eq_getD_getElem?, Array.getD_eq_getD_getElem?, Array.getElem?_push]
  split
  · rename_i heq
    rw [heq, Array.getElem?_eq_none (Nat.le_refl _)]
    rfl
  · rfl

/-- The table with the scope of a package, and the name of the package in the current scope. -/
def withPackage (t : SymbolTable) (name : Name) : SymbolTable :=
  ((t.addScope t.current).define
    { name := name.text
      pos := some name.pos
      meaning := .package t.nextScope
      owner := t.current }).setPackage t.nextScope t.nextDef

/-- What becomes of the table when a package was opened. -/
theorem createPackage_of_ok {name : Name} {s t : Logged SymbolTable} {scope : ScopeId}
    (h : createPackage name s = .ok scope t) :
    scope = s.state.nextScope ∧ t.state = s.state.withPackage name ∧
      (t.log = s.log ∧ s.state.binding? s.state.current name.text = none ∨
        ∃ e place, t.log = s.log.soft e place) := by
  unfold createPackage at h
  rw [Run.read_bind_apply] at h
  obtain ⟨_, u, hscope, hnext⟩ := Run.bind_eq_ok.1 h
  cases hscope
  obtain ⟨id, v, hput, hset⟩ := Run.bind_eq_ok.1 hnext
  obtain ⟨rfl, hstate, hlog⟩ := put_of_ok hput
  rw [Run.update_bind_apply] at hset
  cases hset
  rw [binding?_addScope] at hlog
  refine ⟨rfl, ?_, hlog⟩
  rw [hstate]
  rfl

end SymbolTable

namespace Run.Frame

section Symbols

variable {F : Run.Frame SymbolTable}
  (hr : ∀ name previous, F.Reports (.redefinition name previous))
  (hu : ∀ (s : Logged SymbolTable) t, t.stack = s.state.stack → F.rel s { s with state := t })

include hu

/-- A frame that allows all changes but those of the entered scopes allows declarations. -/
theorem holds_createScope (parent : ScopeId) : F.Holds (SymbolTable.createScope parent) :=
  holds_read_bind fun _ => holds_bind (holds_update fun s => hu s _ rfl) fun _ => F.holds_pure _

include hr

/-- A name is put into the table within a frame that allows for the report and the new
definition. -/
theorem holds_put (name : String) (pos : Option Position) (meaning : Meaning) :
    F.Holds (SymbolTable.put name pos meaning) := by
  refine holds_bind ?_ fun _ => holds_read_bind fun _ =>
    holds_bind (holds_update fun s => hu s _ rfl) fun _ => F.holds_pure _
  refine holds_read_bind fun t => ?_
  split
  · exact F.holds_pure _
  · exact (hr _ _).holds_error _

/-- A package is a scope and a name, with the link from one to the other. -/
theorem holds_createPackage (name : Name) : F.Holds (SymbolTable.createPackage name) :=
  holds_read_bind fun _ => holds_bind (holds_createScope hu _) fun _ =>
    holds_bind (holds_put hr hu _ _ _) fun _ =>
      holds_bind (holds_update fun s => hu s _ rfl) fun _ => F.holds_pure _

end Symbols

section Declarations

variable {F : Run.Frame Context}

/-- Declaring a constant is no more than putting its name into the table. -/
theorem holds_declare
    (hput : ∀ name pos meaning, F.Holds (Pass.onSymbols (SymbolTable.put name pos meaning)))
    (name : Name) (value : Expr) : F.Holds (value.declare name) := by
  unfold Expr.declare
  exact holds_read_bind fun _ => holds_bind (hput _ _ _) fun _ => F.holds_pure _

/-- Declaring a label puts its name into the table and records the definition. -/
theorem holds_declareLabel
    (hput : ∀ name pos meaning, F.Holds (Pass.onSymbols (SymbolTable.put name pos meaning)))
    {m : Location}
    (hlabels : ∀ id, F.Holds (Run.update fun ctx => { ctx with
      labels := ctx.labels.set m (some id) }))
    (name : Name) : F.Holds (name.declareLabel m) := by
  unfold Name.declareLabel
  exact holds_bind (hput _ _ _) fun id => hlabels id

/-- A block opens a plain scope or that of a package. -/
theorem holds_openScope
    (hscope : ∀ parent, F.Holds (Pass.onSymbols (SymbolTable.createScope parent)))
    (hpackage : ∀ name, F.Holds (Pass.onSymbols (SymbolTable.createPackage name)))
    (kind : BlockKind) : F.Holds kind.openScope := by
  cases kind with
  | main => exact holds_read_bind fun _ => hscope _
  | scope => exact holds_read_bind fun _ => hscope _
  | package name => exact hpackage name

end Declarations

end Run.Frame

namespace Gathering

/-- A run over the symbol table finishes with the context around the new table. -/
theorem onSymbols_eq_ok {α : Type} {act : Run SymbolTable α} {s t : Logged Context} {a : α} :
    Pass.onSymbols act s = .ok a t ↔
      ∃ u, act { state := s.state.symbols, log := s.log } = .ok a u ∧
        t = { state := { s.state with symbols := u.state }, log := u.log } :=
  Run.focus_eq_ok

/-- Variables take their addresses from the ram counter. -/
theorem allocate_eq_ok {size : Nat} {pos : Position} {s t : Logged Context} {address : UInt16} :
    Variables.allocate size pos s = .ok address t ↔
      ∃ rom counter, s.state.rom = some rom ∧ rom.ram = some counter ∧
        (counter + size) % 0x100000000 ≤ addressSpace ∧ address = UInt16.ofNat counter ∧
        t = { s with state := { s.state with
          rom := some { rom with ram := some ((counter + size) % 0x100000000) } } } := by
  unfold Variables.allocate
  rw [Pass.onRom_eq_ok]
  constructor
  · rintro ⟨rom, u, hrom, hu, rfl⟩
    rw [Run.read_bind_apply] at hu
    cases hr : rom.ram with
    | none =>
      simp only [hr] at hu
      cases hu
    | some counter =>
      simp only [hr] at hu
      obtain ⟨_, v, hv, hret⟩ := Run.bind_eq_ok.1 hu
      obtain ⟨counter', hc, hle, rfl⟩ := Rom.expandRam_eq_ok.1 hv
      obtain rfl : counter = counter' := Option.some.inj (hr.symm.trans hc)
      cases hret
      exact ⟨rom, counter, hrom, hr, hle, rfl, rfl⟩
  · rintro ⟨rom, counter, hrom, hr, hle, rfl, rfl⟩
    refine ⟨rom,
      { state := { rom with ram := some ((counter + size) % 0x100000000) }, log := s.log },
      hrom, ?_, rfl⟩
    rw [Run.read_bind_apply]
    simp only [hr]
    exact Run.bind_eq_ok.2 ⟨(), _, Rom.expandRam_eq_ok.2 ⟨counter, hr, hle, rfl⟩, rfl⟩

/-- A frame that sees the memo and the log only allows the gathering if it allows its folds. -/
theorem allows_onMemo {G : Run.Frame Memo} {E : Location → Expr → Prop} (P : Location → Prop)
    (hreports : ∀ e, G.Reports e) (habort : ∀ s t, G.abort s t)
    (hfold : ∀ (t : SymbolTable) scope m e, E m e → G.Holds (t.fold .early scope (.tree m) e)) :
    Allows (Run.Frame.onMemo G) P E := by
  have hkeep : ∀ {α : Type} {act : Pass α}, (∀ s a t, act s = .ok a t →
      t.state.memo = s.state.memo ∧ (t.log = s.log ∨ ∃ e pos, t.log = s.log.soft e pos)) →
      (Run.Frame.onMemo G).Holds act := Run.Frame.holds_onMemo hreports habort
  have hput : ∀ name pos meaning,
      (Run.Frame.onMemo G).Holds (Pass.onSymbols (SymbolTable.put name pos meaning)) := by
    refine fun name pos meaning => hkeep fun s _ t h => ?_
    obtain ⟨u, hu, rfl⟩ := onSymbols_eq_ok.1 h
    exact ⟨rfl, (SymbolTable.put_of_ok hu).2.2.imp_left And.left⟩
  have hscope : ∀ parent,
      (Run.Frame.onMemo G).Holds (Pass.onSymbols (SymbolTable.createScope parent)) := by
    refine fun parent => hkeep fun s _ t h => ?_
    obtain ⟨u, hu, rfl⟩ := onSymbols_eq_ok.1 h
    cases hu
    exact ⟨rfl, Or.inl rfl⟩
  have hpackage : ∀ name,
      (Run.Frame.onMemo G).Holds (Pass.onSymbols (SymbolTable.createPackage name)) := by
    refine fun name => hkeep fun s _ t h => ?_
    obtain ⟨u, hu, rfl⟩ := onSymbols_eq_ok.1 h
    exact ⟨rfl, (SymbolTable.createPackage_of_ok hu).2.2.imp_left And.left⟩
  have hupdate : ∀ f : Context → Context, (∀ ctx, (f ctx).memo = ctx.memo) →
      (Run.Frame.onMemo G).Holds (Run.update f) := by
    refine fun f hf => hkeep fun s _ t h => ?_
    cases h
    exact ⟨hf _, Or.inl rfl⟩
  refine
    { reports := fun e _ => (hreports e).onMemo
      scopes := Run.Frame.scoped_onMemo G
      fold := fun m e hE => Run.Frame.holds_fold (fun t scope => hfold t scope m e hE)
        (fun _ _ h => h) fun _ _ h => h
      note := fun _ => hupdate _ fun _ => rfl
      openScope := Run.Frame.holds_openScope hscope hpackage
      record := fun _ _ _ => hupdate _ fun _ => rfl
      constant := Run.Frame.holds_declare hput
      label := fun _ name _ =>
        Run.Frame.holds_declareLabel hput (fun _ => hupdate _ fun _ => rfl) name
      allocate := fun size pos _ _ => hkeep fun s _ t h => ?_
      storage := fun _ _ _ => hput _ _ _
      moveRam := fun address pos => hkeep fun s _ t h => ?_
      startRom := fun _ => hupdate _ fun _ => rfl }
  · obtain ⟨rom, counter, -, -, -, -, rfl⟩ := allocate_eq_ok.1 h
    exact ⟨rfl, Or.inl rfl⟩
  · obtain ⟨rom, u, -, hu, rfl⟩ := Pass.onRom_eq_ok.1 h
    cases hu
    exact ⟨rfl, Or.inl rfl⟩

/-! ## Nothing is placed -/

/-- A property of contexts that sees neither the symbols, nor what is known of expressions, nor the
labels, nor the notes, and that stays when a scope is recorded. -/
structure Blind (Q : Context → Prop) : Prop where
  symbols : ∀ ctx symbols, Q ctx → Q { ctx with symbols }
  memo : ∀ ctx memo, Q ctx → Q { ctx with memo }
  scopes : ∀ ctx m scope, Q ctx → Q { ctx with scopes := ctx.scopes.set m (some scope) }
  labels : ∀ ctx labels, Q ctx → Q { ctx with labels }
  notes : ∀ ctx notes, Q ctx → Q { ctx with notes }

/-- Such a property is kept if it is kept by what happens to the rom. -/
theorem Blind.allows {Q : Context → Prop} (h : Blind Q) (P : Location → Prop)
    (hram : ∀ ctx rom ram, ctx.rom = some rom → Q ctx →
      Q { ctx with rom := some { rom with ram } })
    (hstart : ∀ ctx settings, Q ctx → Q { ctx with rom := some (Rom.empty settings) }) :
    Allows (Run.Frame.invariant fun s => Q s.state) P fun _ _ => True := by
  have hsymbols : ∀ {α : Type} (act : Run SymbolTable α),
      (Run.Frame.invariant fun s : Logged Context => Q s.state).Holds (Pass.onSymbols act) := by
    intro α act
    refine Run.Frame.holds_of_ok (fun _ _ => trivial) fun s _ t hok hs => ?_
    obtain ⟨u, -, rfl⟩ := onSymbols_eq_ok.1 hok
    exact h.symbols _ _ hs
  refine
    { reports := fun e _ => Run.Frame.reports_of_log (fun _ _ hs => hs) (fun _ _ => trivial) e
      scopes := ⟨fun scope s t hst hs => ?_, fun _ _ _ _ => trivial⟩
      fold := fun m e _ => Run.Frame.holds_fold_of_blind (fun s memo _ hs => h.memo _ memo hs)
        (fun _ _ _ => trivial) _ _ _
      note := fun n => Run.Frame.holds_update fun s hs => h.notes _ _ hs
      openScope := Run.Frame.holds_openScope (fun _ => hsymbols _) fun _ => hsymbols _
      record := fun m scope _ => Run.Frame.holds_update fun s hs => h.scopes _ m scope hs
      constant := Run.Frame.holds_declare fun _ _ _ => hsymbols _
      label := fun m name _ => Run.Frame.holds_declareLabel (fun _ _ _ => hsymbols _)
        (fun _ => Run.Frame.holds_update fun s hs => h.labels _ _ hs) name
      allocate := fun size pos _ _ => ?_
      storage := fun name pos address => hsymbols _
      moveRam := fun address pos => ?_
      startRom := fun settings => Run.Frame.holds_update fun s hs => hstart _ settings hs }
  · refine Run.Frame.holds_of_ok (fun _ _ => trivial) fun s _ t hok hs => ?_
    obtain ⟨rom, counter, hrom, -, -, -, rfl⟩ := allocate_eq_ok.1 hok
    exact hram _ rom _ hrom hs
  · refine Run.Frame.holds_of_ok (fun _ _ => trivial) fun s _ t hok hs => ?_
    obtain ⟨rom, u, hrom, hu, rfl⟩ := Pass.onRom_eq_ok.1 hok
    cases hu
    exact hram _ rom _ hrom hs
  · exact h.symbols _ _ (hst (h.symbols _ _ hs))

end Gathering

namespace Context

/-- Nothing is placed in the rom yet, and nothing is recorded of its contents. -/
structure Blank (ctx : Context) : Prop where
  active : ctx.active? = none
  bank : ∀ i, ctx.bank i = {}
  contents : ∀ m, ctx.contents.at? m = none
  /-- The rom has the number of banks that its settings ask for. -/
  size : ∀ rom, ctx.rom = some rom → rom.banks.size = rom.settings.bankCount

end Context

namespace Gathering

/-- Whether the rom is blank does not depend on symbols, labels and notes. -/
theorem blind_blank : Blind Context.Blank where
  symbols _ _ h := ⟨h.active, h.bank, h.contents, h.size⟩
  memo _ _ h := ⟨h.active, h.bank, h.contents, h.size⟩
  scopes _ _ _ h := ⟨h.active, h.bank, h.contents, h.size⟩
  labels _ _ h := ⟨h.active, h.bank, h.contents, h.size⟩
  notes _ _ h := ⟨h.active, h.bank, h.contents, h.size⟩

/-- Whether there is a rom does not depend on symbols, labels and notes. -/
theorem blind_isSome : Blind fun ctx => ctx.rom.isSome = true :=
  ⟨fun _ _ h => h, fun _ _ h => h, fun _ _ _ h => h, fun _ _ h => h, fun _ _ h => h⟩

/-- The gathering of a statement places nothing. -/
theorem blank_gather {stmt : Statement} {location : Location} {s t : Logged Context}
    (h : stmt.gather location s = .ok () t) (hs : s.state.Blank) : t.state.Blank := by
  refine ((blind_blank.allows (fun _ => True) ?_ ?_).nests.holds_gather stmt location
    (fun _ _ => trivial) (Statement.covers_true _ _)).rel_of_ok h hs
  · rintro ctx rom ram hrom ⟨hactive, hbank, hcontents, hsize⟩
    refine ⟨?_, fun i => ?_, hcontents, fun _ h => ?_⟩
    · simpa [Context.active?, hrom] using hactive
    · simpa [Context.bank, hrom, Rom.bank] using hbank i
    · cases h
      exact hsize rom hrom
  · rintro ctx settings ⟨-, -, hcontents, -⟩
    refine ⟨rfl, Rom.bank_empty settings, hcontents, fun _ h => ?_⟩
    cases h
    exact Rom.size_empty settings

/-- The one header of a program starts the rom that it describes. -/
theorem install_of_ok {location : Location} {statements : List Statement} {pos : Position}
    {s t : Logged Context} (h : Header.install location statements pos s = .ok () t) :
    ∃ index header settings u, Header.indexed 0 statements = [(index, header)] ∧
      (∀ stmt ∈ statements.take index, stmt.isConstant = true) ∧
      header.resolve (location.child index) s = .ok settings u ∧
      t = { u with state := { u.state with
        notes := u.state.notes ++ [.header settings]
        rom := some (Rom.empty settings) } } := by
  unfold Header.install at h
  rcases hi : Header.indexed 0 statements with _ | ⟨⟨index, header⟩, _ | ⟨⟨_, second⟩, rest⟩⟩ <;>
    simp only [hi] at h
  · cases h
  · cases he : (statements.take index).find? fun stmt => !stmt.isConstant with
    | some early =>
      simp only [he] at h
      cases h
    | none =>
      simp only [he] at h
      obtain ⟨settings, u, hresolve, hnote⟩ := Run.bind_eq_ok.1 h
      obtain ⟨_, v, hv, hstart⟩ := Run.bind_eq_ok.1 hnote
      cases hv
      cases hstart
      have hconstants : ∀ stmt ∈ statements.take index, stmt.isConstant = true := by
        simpa using List.find?_eq_none.1 he
      exact ⟨index, header, settings, u, rfl, hconstants, hresolve, rfl⟩
  · cases h

/-- A block that starts no rom has no header, and nothing is done for it. -/
theorem refuse_of_ok {statements : List Statement} {s t : Logged Context}
    (h : Header.refuse statements s = .ok () t) : Header.indexed 0 statements = [] ∧ t = s := by
  unfold Header.refuse at h
  cases hi : Header.indexed 0 statements with
  | nil =>
    simp only [hi] at h
    cases h
    exact ⟨rfl, rfl⟩
  | cons first rest =>
    simp only [hi] at h
    cases h

/-- The gathering of a block opens its scope, and inside of it declares the constants, starts the
rom and gathers the other statements. -/
theorem gather_block_of_ok {kind : BlockKind} {statements : List Statement} {pos : Position}
    {location : Location} {s t : Logged Context}
    (h : (Statement.block kind statements pos).gather location s = .ok () t) :
    ∃ scope opened declared started last, kind.openScope s = .ok scope opened ∧
      Statement.gatherConstants statements { opened with
        state := ({ opened.state with
          scopes := opened.state.scopes.set location (some scope) } : Context).enter scope } =
        .ok () declared ∧
      kind.startRom location statements pos declared = .ok () started ∧
      Statement.gatherOthers location 0 statements started = .ok () last ∧
      t = { last with state := last.state.exit } := by
  unfold Statement.gather at h
  obtain ⟨scope, opened, hopen, hupdate⟩ := Run.bind_eq_ok.1 h
  rw [Run.update_bind_apply] at hupdate
  obtain ⟨last, hinside, rfl⟩ := Pass.within_eq_ok.1 hupdate
  obtain ⟨_, declared, hconstants, hrest⟩ := Run.bind_eq_ok.1 hinside
  obtain ⟨_, started, hstart, hothers⟩ := Run.bind_eq_ok.1 hrest
  exact ⟨scope, opened, declared, started, last, hopen, hconstants, hstart, hothers, rfl⟩

/-- The gathering of a whole program starts a rom. -/
theorem isSome_gather {statements : List Statement} {pos : Position} {location : Location}
    {s t : Logged Context}
    (h : (Statement.block .main statements pos).gather location s = .ok () t) :
    t.state.rom.isSome = true := by
  obtain ⟨_, _, _, _, last, -, -, hstart, hothers, rfl⟩ := gather_block_of_ok h
  obtain ⟨_, _, settings, u, -, -, -, rfl⟩ := install_of_ok hstart
  have hkeeps := blind_isSome.allows (fun _ => True) (fun _ _ _ _ _ => rfl) fun _ _ _ => rfl
  have hlast : last.state.rom.isSome = true :=
    (hkeeps.nests.holds_gatherOthers statements location 0 (fun _ _ _ _ => trivial)
      (Statement.covers_true _ _)).rel_of_ok hothers rfl
  exact hlast

end Gathering

end Cartridge
