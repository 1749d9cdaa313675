import Cartridge.Proofs.Image
import Cartridge.Proofs.Values

/-!
# Where headers stand

Every block that starts a rom has one header of its own, and only constants stand before it there.
Other blocks have none. A block that starts a rom may stand inside another one; then it replaces the
rom that was started before. So the rom is the one that the last of these blocks describes, and if
only the outermost block starts a rom then its header is the only one of the program.

Main definitions:

- `BlockKind.HasHeader`: the statements of a block have the headers that its kind asks for.
- `Program.mains` and `Program.headers`: the blocks of a program that start roms, and its headers.
- `Context.Headed`: the rom is the one that the header of a block describes.

Main results:

- Theorem `Gathering.governed_gather`: the last block that starts a rom decides about the settings.
- Theorem `Program.headers_decide_rom`: where the headers of a program stand, and which of them the
  image shows.
-/

namespace Cartridge

open Run

/-! ## Blocks and headers -/

/-- The statements of a block that starts a rom. -/
def Node.main? : Node → Option (List Statement)
  | .statement (.block .main statements _) => some statements
  | _ => none

def Node.header? : Node → Option Header
  | .statement (.header header) => some header
  | _ => none

/-- The statements of a block have the headers that its kind asks for: a single one after constants
only, or none. -/
def BlockKind.HasHeader (statements : List Statement) : BlockKind → Prop
  | .main => ∃ before header after, statements = before ++ .header header :: after ∧
      (∀ stmt ∈ before, stmt.isConstant = true) ∧ ∀ stmt ∈ after, stmt.isHeader = false
  | .scope | .package _ => ∀ stmt ∈ statements, stmt.isHeader = false

namespace Statement

/-- The blocks among places that start a rom. -/
def mainsOf (places : List (Location × Node)) : List (Location × List Statement) :=
  places.filterMap fun p => p.2.main?.map fun statements => (p.1, statements)

/-- The headers among places. -/
def headersOf (places : List (Location × Node)) : List (Location × Header) :=
  places.filterMap fun p => p.2.header?.map fun header => (p.1, header)

/-- Every block among places has the headers that its kind asks for. -/
def HeadersPlaced (places : List (Location × Node)) : Prop :=
  ∀ m kind statements pos, (m, Node.statement (.block kind statements pos)) ∈ places →
    kind.HasHeader statements

theorem mainsOf_append (p q : List (Location × Node)) : mainsOf (p ++ q) = mainsOf p ++ mainsOf q :=
  List.filterMap_append

theorem headersOf_append (p q : List (Location × Node)) :
    headersOf (p ++ q) = headersOf p ++ headersOf q :=
  List.filterMap_append

theorem mainsOf_commands (location : Location) (receiver : Operand) (index : Nat)
    (commands : List Command) :
    mainsOf (placesOfCommands location receiver index commands) = [] := by
  induction commands generalizing index with
  | nil => rfl
  | cons c rest ih => exact ih (index + 1)

theorem headersOf_commands (location : Location) (receiver : Operand) (index : Nat)
    (commands : List Command) :
    headersOf (placesOfCommands location receiver index commands) = [] := by
  induction commands generalizing index with
  | nil => rfl
  | cons c rest ih => exact ih (index + 1)

/-- A statement that is not a block starts no rom. -/
theorem mainsOf_single {stmt : Statement} (location : Location)
    (h : ∀ kind statements pos, stmt ≠ .block kind statements pos) :
    mainsOf (stmt.places location) = [] := by
  cases stmt with
  | block kind statements pos => exact absurd rfl (h kind statements pos)
  | command c => exact mainsOf_commands location c.receiver 0 c.commands
  | _ => rfl

/-- Places in two parts are fine if each part is. -/
theorem HeadersPlaced.append {p q : List (Location × Node)} (hp : HeadersPlaced p)
    (hq : HeadersPlaced q) : HeadersPlaced (p ++ q) := by
  intro m kind statements pos hmem
  rcases List.mem_append.1 hmem with hmem | hmem
  · exact hp m kind statements pos hmem
  · exact hq m kind statements pos hmem

/-- A statement that is no block has no block inside, so there is no place to check. -/
theorem headersPlaced_single {stmt : Statement} (location : Location)
    (h : ∀ kind statements pos, stmt ≠ .block kind statements pos) :
    HeadersPlaced (stmt.places location) := by
  intro m kind statements pos hmem
  rcases List.mem_cons.1 hmem with heq | hmem
  · cases heq
    exact absurd rfl (h kind statements pos)
  · cases stmt with
    | block kind statements pos => exact absurd rfl (h kind statements pos)
    | command c =>
      obtain ⟨k, d, -, -, heq⟩ := mem_placesOfCommands hmem
      cases heq
    | _ => cases hmem

/-! ## As many headers as blocks that start a rom -/

theorem countP_isHeader_of_none {statements : List Statement}
    (h : ∀ stmt ∈ statements, stmt.isHeader = false) : statements.countP isHeader = 0 :=
  List.countP_eq_zero.2 fun stmt hstmt => by
    rw [h stmt hstmt]
    exact Bool.false_ne_true

/-- A block that starts a rom has one header. -/
theorem countP_isHeader_of_main {statements : List Statement}
    (h : BlockKind.main.HasHeader statements) : statements.countP isHeader = 1 := by
  obtain ⟨before, header, after, rfl, hbefore, hafter⟩ := h
  have hnone : ∀ stmt ∈ before, stmt.isHeader = false := by
    intro stmt hstmt
    have hconstant := hbefore stmt hstmt
    cases stmt with
    | constant name value => rfl
    | _ => cases hconstant
  rw [List.countP_append, countP_isHeader_of_none hnone,
    List.countP_cons_of_pos (p := isHeader) rfl, countP_isHeader_of_none hafter]

mutual

/-- A statement has as many headers inside it as there are blocks that start a rom. -/
theorem length_headersOf :
    ∀ (stmt : Statement) {location : Location}, HeadersPlaced (stmt.places location) →
      (headersOf (stmt.places location)).length =
        stmt.isHeader.toNat + (mainsOf (stmt.places location)).length
  | .block kind statements pos, location, h => by
    have hinside := length_headersOfAll statements fun m kind statements pos hmem =>
      h m kind statements pos (List.mem_cons_of_mem _ hmem)
    have hkind := h location kind statements pos List.mem_cons_self
    cases kind with
    | main =>
      rw [countP_isHeader_of_main hkind] at hinside
      exact hinside.trans (by rw [Nat.add_comm]; exact (Nat.zero_add _).symm)
    | scope =>
      rw [countP_isHeader_of_none hkind] at hinside
      exact hinside
    | package name =>
      rw [countP_isHeader_of_none hkind] at hinside
      exact hinside
  | .command c, location, _ => by
    have hnone := headersOf_commands location c.receiver 0 c.commands
    have hnone' := mainsOf_commands location c.receiver 0 c.commands
    exact (congrArg List.length hnone).trans (congrArg List.length hnone').symm |>.trans
      (Nat.zero_add _).symm
  | .header _, _, _ => rfl
  | .relocation _ _, _, _ => rfl
  | .label _, _, _ => rfl
  | .constant _ _, _, _ => rfl
  | .storage _, _, _ => rfl
  | .data _, _, _ => rfl
  | .branch _, _, _ => rfl
  | .embed _ _, _, _ => rfl

/-- Among the places of a list the headers are those of the list itself and one for each block that
starts a rom. -/
theorem length_headersOfAll :
    ∀ (statements : List Statement) {location : Location} {index : Nat},
      HeadersPlaced (placesAll location index statements) →
      (headersOf (placesAll location index statements)).length =
        statements.countP isHeader + (mainsOf (placesAll location index statements)).length
  | [], _, _, _ => rfl
  | stmt :: rest, location, index, h => by
    rw [placesAll_cons] at h ⊢
    have hstmt : HeadersPlaced (stmt.places (location.child index)) :=
      fun m kind statements pos hmem => h m kind statements pos (List.mem_append_left _ hmem)
    have hrest : HeadersPlaced (placesAll location (index + 1) rest) :=
      fun m kind statements pos hmem => h m kind statements pos (List.mem_append_right _ hmem)
    rw [headersOf_append, mainsOf_append, List.length_append, List.length_append,
      length_headersOf stmt hstmt, length_headersOfAll rest hrest, List.countP_cons]
    cases stmt.isHeader <;> simp only [Bool.toNat_true, Bool.toNat_false, Bool.false_eq_true,
      ↓reduceIte] <;> omega

end

end Statement

/-! ## What the gathering accepts -/

namespace Header

/-- Statements among which no header is found have none. -/
theorem isHeader_of_indexed_eq_nil {statements : List Statement} {index : Nat}
    (h : indexed index statements = []) : ∀ stmt ∈ statements, stmt.isHeader = false := by
  induction statements generalizing index with
  | nil => exact fun _ hstmt => absurd hstmt List.not_mem_nil
  | cons first rest ih =>
    intro stmt hstmt
    cases first with
    | header header => cases h
    | _ =>
      rcases List.mem_cons.1 hstmt with rfl | hstmt
      · rfl
      · exact ih h stmt hstmt

/-- The only header among statements splits them. -/
theorem split_of_indexed {statements : List Statement} {index : Nat} {header : Header}
    (h : indexed 0 statements = [(index, header)]) :
    ∃ after, statements = statements.take index ++ .header header :: after ∧
      (statements.take index).length = index ∧ ∀ stmt ∈ after, stmt.isHeader = false := by
  obtain ⟨-, hget⟩ := getElem?_of_mem_indexed (h ▸ List.mem_cons_self)
  obtain ⟨hlt, heq⟩ := List.getElem?_eq_some_iff.1 hget
  rw [Nat.sub_zero] at hlt
  have hlength : (statements.take index).length = index := List.length_take_of_le (Nat.le_of_lt hlt)
  have hsplit : statements = statements.take index ++ .header header ::
      statements.drop (index + 1) := by
    simp only [Nat.sub_zero] at heq
    rw [← heq, ← List.drop_eq_getElem_cons hlt, List.take_append_drop]
  refine ⟨statements.drop (index + 1), hsplit, hlength, ?_⟩
  -- A second header would be found behind the first one.
  have hindexed := h
  rw [hsplit, indexed_append] at hindexed
  have hnil :
      indexed (0 + (statements.take index).length + 1) (statements.drop (index + 1)) = [] := by
    have hlengths := congrArg List.length hindexed
    simp only [indexed, List.length_append, List.length_cons, List.length_nil] at hlengths
    exact List.length_eq_zero_iff.1 (by omega)
  exact isHeader_of_indexed_eq_nil hnil

end Header

namespace Context

/-- The rom is the one that the header of a block describes. -/
def Headed (ctx : Context) (m : Location) (statements : List Statement) : Prop :=
  ∃ before header after settings, statements = before ++ .header header :: after ∧
    (∀ stmt ∈ before, stmt.isConstant = true) ∧ ctx.rom.map Rom.settings = some settings ∧
    header.Describes
      (fun i => ctx.memo.value? (.tree ((m.child before.length).child i))) settings

/-- The last of some blocks decides about the settings of the rom. Without one they stay as they
were. -/
def Governed (mains : List (Location × List Statement)) (s t : Context) : Prop :=
  s.memo.Le t.memo ∧ mains.getLast?.elim (t.rom.map Rom.settings = s.rom.map Rom.settings)
    fun p => t.Headed p.1 p.2

variable {s t u : Context} {m : Location} {statements : List Statement}

/-- The rom is the one that a header describes as long as its settings and the values stay. -/
theorem Headed.mono (h : s.Headed m statements) (hmemo : s.memo.Le t.memo)
    (hrom : t.rom.map Rom.settings = s.rom.map Rom.settings) : t.Headed m statements := by
  obtain ⟨before, header, after, settings, hsplit, hbefore, hsettings, hdescribes⟩ := h
  exact ⟨before, header, after, settings, hsplit, hbefore, hrom.trans hsettings,
    hdescribes.mono fun i v hv => hmemo.value? hv⟩

/-- Where no rom is started its settings stay. -/
theorem governed_of_same (hmemo : s.memo.Le t.memo)
    (hrom : t.rom.map Rom.settings = s.rom.map Rom.settings) : s.Governed [] t :=
  ⟨hmemo, hrom⟩

/-- The last block of the second part decides, and if there is none, that of the first part. -/
theorem Governed.trans {first second : List (Location × List Statement)}
    (hst : s.Governed first t) (htu : t.Governed second u) : s.Governed (first ++ second) u := by
  refine ⟨hst.1.trans htu.1, ?_⟩
  have hlast := htu.2
  rw [List.getLast?_append]
  cases hsecond : second.getLast? with
  | some p =>
    rw [hsecond] at hlast
    exact hlast
  | none =>
    rw [hsecond] at hlast
    have hfirst := hst.2
    rw [Option.none_or]
    cases hp : first.getLast? with
    | some p =>
      rw [hp] at hfirst
      exact hfirst.mono htu.1 hlast
    | none =>
      rw [hp] at hfirst
      exact hlast.trans hfirst

end Context

namespace Gathering

/-- The frame of the settings of the rom. -/
def settled : Run.Frame Context :=
  .finishing (fun s t => t.state.rom.map Rom.settings = s.state.rom.map Rom.settings)
    (fun _ => rfl) fun hst htu => htu.trans hst

/-- A statement that is not a block leaves the settings of the rom alone. -/
theorem steps_settled (P : Location → Prop) : Steps settled P fun _ _ => True := by
  have hsymbols : ∀ {α : Type} (act : Run SymbolTable α),
      settled.Holds (Pass.onSymbols act) := by
    refine fun act => Run.Frame.holds_of_ok (fun _ _ => trivial) fun s _ t hok => ?_
    obtain ⟨u, -, rfl⟩ := onSymbols_eq_ok.1 hok
    rfl
  refine
    { reports := fun e _ => Run.Frame.reports_of_log (fun _ _ => rfl) (fun _ _ => trivial) e
      fold := fun m e _ =>
        Run.Frame.holds_fold_of_blind (fun _ _ _ => rfl) (fun _ _ _ => trivial) _ _ _
      note := fun _ => Run.Frame.holds_update fun _ => rfl
      constant := fun name value => ?_
      label := fun m name _ => ?_
      allocate := fun size pos _ _ => ?_
      storage := fun _ _ _ => hsymbols _
      moveRam := fun address pos => ?_ }
  · exact Run.Frame.holds_read_bind fun _ => Run.Frame.holds_bind (hsymbols _) fun _ =>
      Run.Frame.holds_pure _ _
  · exact Run.Frame.holds_bind (hsymbols _) fun _ => Run.Frame.holds_update fun _ => rfl
  · refine Run.Frame.holds_of_ok (fun _ _ => trivial) fun s _ t hok => ?_
    obtain ⟨rom, counter, hrom, -, -, -, rfl⟩ := allocate_eq_ok.1 hok
    exact (congrArg (Option.map Rom.settings) hrom).symm
  · refine Run.Frame.holds_of_ok (fun _ _ => trivial) fun s _ t hok => ?_
    obtain ⟨rom, u, hrom, hu, rfl⟩ := Pass.onRom_eq_ok.1 hok
    cases hu
    exact (congrArg (Option.map Rom.settings) hrom).symm

/-- Opening a scope leaves the rom and what is known of expressions alone. -/
theorem openScope_keeps {kind : BlockKind} {s t : Logged Context} {scope : ScopeId}
    (h : kind.openScope s = .ok scope t) :
    t.state.memo = s.state.memo ∧ t.state.rom = s.state.rom := by
  have hkeep : ∀ act : Run SymbolTable ScopeId, Pass.onSymbols act s = .ok scope t →
      t.state.memo = s.state.memo ∧ t.state.rom = s.state.rom := by
    intro act hact
    obtain ⟨u, -, rfl⟩ := onSymbols_eq_ok.1 hact
    exact ⟨rfl, rfl⟩
  cases kind with
  | main => exact hkeep (SymbolTable.createScope s.state.symbols.current) h
  | scope => exact hkeep (SymbolTable.createScope s.state.symbols.current) h
  | package name => exact hkeep (SymbolTable.createPackage name) h

/-- A block that starts a rom decides about the settings, and has a header. -/
theorem governed_startRom {kind : BlockKind} {location : Location} {statements : List Statement}
    {pos : Position} {s t : Logged Context}
    (h : kind.startRom location statements pos s = .ok () t) :
    kind.HasHeader statements ∧ s.state.Governed
      (Statement.mainsOf [(location, Node.statement (.block kind statements pos))]) t.state := by
  have hmemo := (((allows_extending fun _ => True).nests.holds_startRom statements pos
    (Statement.covers_true _ _) kind).rel_of_ok h).1.memo
  cases kind with
  | main =>
    obtain ⟨index, header, settings, u, hindexed, hconstants, hresolve, rfl⟩ := install_of_ok h
    obtain ⟨after, hsplit, hlength, hafter⟩ := Header.split_of_indexed hindexed
    refine ⟨⟨_, header, after, hsplit, hconstants, hafter⟩, hmemo, ?_⟩
    have hdescribes := resolve_of_ok hresolve
    rw [← hlength] at hdescribes
    exact ⟨statements.take index, header, after, settings, hsplit, hconstants, rfl, hdescribes⟩
  | scope =>
    obtain ⟨hnone, rfl⟩ := refuse_of_ok h
    exact ⟨Header.isHeader_of_indexed_eq_nil hnone, hmemo, rfl⟩
  | package name =>
    obtain ⟨hnone, rfl⟩ := refuse_of_ok h
    exact ⟨Header.isHeader_of_indexed_eq_nil hnone, hmemo, rfl⟩

/-- The gathering of a statement that is not a block starts no rom. -/
theorem governed_single {stmt : Statement} {location : Location} {s t : Logged Context}
    (h : stmt.gather location s = .ok () t)
    (hblock : ∀ kind statements pos, stmt ≠ .block kind statements pos) :
    Statement.HeadersPlaced (stmt.places location) ∧
      s.state.Governed (Statement.mainsOf (stmt.places location)) t.state := by
  refine ⟨Statement.headersPlaced_single location hblock, ?_⟩
  rw [Statement.mainsOf_single location hblock]
  exact Context.governed_of_same
    (((allows_extending fun _ => False).nests.holds_gather stmt location (fun _ _ => id)
      (Statement.covers_true _ _)).rel_of_ok h).1.memo
    (((steps_settled fun _ => True).holds_single location trivial (fun _ _ => trivial)
      hblock).rel_of_ok h)

mutual

/-- Blocks whose gathering finishes have the headers that their kinds ask for, and the last one that
starts a rom decides about the settings. -/
theorem governed_gather :
    ∀ (stmt : Statement) {location : Location} {s t : Logged Context},
      stmt.gather location s = .ok () t →
      Statement.HeadersPlaced (stmt.places location) ∧
        s.state.Governed (Statement.mainsOf (stmt.places location)) t.state
  | .block kind statements pos, location, s, t, h => by
    obtain ⟨scope, a, d, e, f, ha, hd, he, hothers, rfl⟩ := gather_block_of_ok h
    obtain ⟨hmemo, hrom⟩ := openScope_keeps ha
    have hconstants : s.state.Governed [] d.state := by
      have hframe := (((allows_extending fun _ => True).holds_constants statements).rel_of_ok hd).1
      have hsettled := ((steps_settled fun _ => True).holds_constants statements).rel_of_ok hd
      refine Context.governed_of_same ?_ (hsettled.trans (congrArg _ hrom))
      exact hmemo ▸ hframe.memo
    obtain ⟨hheader, hstart⟩ := governed_startRom he
    obtain ⟨hplaced, hinside⟩ := governed_gatherOthers statements hothers
    refine ⟨?_, ?_⟩
    · refine Statement.HeadersPlaced.append (p := [(location, _)]) ?_ hplaced
      intro m kind statements pos hmem
      cases List.mem_singleton.1 hmem
      exact hheader
    · have hall := (hconstants.trans hstart).trans hinside
      rw [List.nil_append, ← Statement.mainsOf_append] at hall
      exact hall
  | .relocation _ _, _, _, _, h => governed_single h nofun
  | .label _, _, _, _, h => governed_single h nofun
  | .constant _ _, _, _, _, h => governed_single h nofun
  | .storage _, _, _, _, h => governed_single h nofun
  | .header _, _, _, _, h => governed_single h nofun
  | .data _, _, _, _, h => governed_single h nofun
  | .command _, _, _, _, h => governed_single h nofun
  | .branch _, _, _, _, h => governed_single h nofun
  | .embed _ _, _, _, _, h => governed_single h nofun

/-- A list of statements that is gathered has its headers in place, and the last rom that is started
in it counts. -/
theorem governed_gatherOthers :
    ∀ (statements : List Statement) {location : Location} {index : Nat} {s t : Logged Context},
      Statement.gatherOthers location index statements s = .ok () t →
      Statement.HeadersPlaced (Statement.placesAll location index statements) ∧
        s.state.Governed (Statement.mainsOf (Statement.placesAll location index statements)) t.state
  | [], _, _, s, t, h => by
    cases h
    exact ⟨nofun, .refl _, rfl⟩
  | stmt :: rest, location, index, s, t, h => by
    unfold Statement.gatherOthers at h
    obtain ⟨_, u, hu, hrest⟩ := Run.bind_eq_ok.1 h
    obtain ⟨hplaced, hgoverned⟩ := governed_gatherOthers rest hrest
    have hstmt : Statement.HeadersPlaced (stmt.places (location.child index)) ∧
        s.state.Governed (Statement.mainsOf (stmt.places (location.child index))) u.state := by
      split at hu
      · rename_i hskip
        have hblock : ∀ kind statements pos, stmt ≠ .block kind statements pos := by
          rintro kind statements pos rfl
          cases hskip
        cases hu
        refine ⟨Statement.headersPlaced_single _ hblock, ?_⟩
        rw [Statement.mainsOf_single _ hblock]
        exact ⟨.refl _, rfl⟩
      · exact governed_gather stmt hu
    rw [Statement.placesAll_cons, Statement.mainsOf_append]
    exact ⟨hstmt.1.append hplaced, hstmt.2.trans hgoverned⟩

end

end Gathering

/-! ## Numbers -/

/-- What is known of the numbers among some expressions is what they say. -/
def Memo.Literal (E : Location → Expr → Prop) (memo : Memo) : Prop :=
  ∀ m n pos, E m (.number n pos) → ∀ v, memo.value? (.tree m) = some v → v = n

/-- The frame of what is known of numbers. -/
def Run.Frame.literal (E : Location → Expr → Prop) : Run.Frame Memo :=
  .invariant fun s => s.state.Literal E

/-- Folding an expression finds the numbers that are written. -/
theorem SymbolTable.literal_fold {E : Location → Expr → Prop}
    (hunique : ∀ m e e', E m e → E m e' → e = e') {table : SymbolTable} {demand : Demand}
    {scope : ScopeId} {m : Location} {e : Expr} (hE : E m e) :
    (Run.Frame.literal E).Holds (table.fold demand scope (.tree m) e) := by
  refine Run.Frame.holds_of_ok (fun _ _ => trivial) fun s folded u hok hs m' n pos hE' v hv => ?_
  by_cases hm : m' = m
  · subst hm
    cases hunique m' e _ hE hE'
    unfold fold foldWith at hok
    by_cases hp : s.state.result { anchor := .tree m' } = .pending
    · rw [remember_of_pending hp] at hok
      cases hok
      rw [Memo.value?, Memo.set_self] at hv
      exact (Option.some.inj hv).symm
    · rw [remember_of_ne hp] at hok
      cases hok
      exact hs m' n pos hE' v hv
  · have hsame := ((holds_growing (t := table) scope (.tree m) e).rel_of_ok hok).2
      { anchor := .tree m' } ?_
    · rw [Memo.value?, hsame] at hv
      exact hs m' n pos hE' v hv
    · rintro (heq | ⟨id, heq⟩)
      · cases heq
        exact hm rfl
      · cases heq

/-! ## Programs -/

namespace Statement

mutual

/-- The places of a block inside a statement are among those of the statement. -/
theorem placesAll_subset_places :
    ∀ (stmt : Statement) {location m : Location} {kind : BlockKind} {statements : List Statement}
      {pos : Position}, (m, Node.statement (.block kind statements pos)) ∈ stmt.places location →
      placesAll m 0 statements ⊆ stmt.places location
  | .block _ inner _, _, _, _, _, _, h => by
    rcases List.mem_cons.1 h with heq | h
    · cases heq
      exact List.subset_cons_self _ _
    · exact List.Subset.trans (placesAll_subset_placesAll inner h) (List.subset_cons_self _ _)
  | .command c, _, _, _, _, _, h => by
    rcases List.mem_cons.1 h with heq | h
    · cases heq
    · obtain ⟨k, d, -, -, heq⟩ := mem_placesOfCommands h
      cases heq
  | .header _, _, _, _, _, _, h | .relocation _ _, _, _, _, _, _, h | .label _, _, _, _, _, _, h
  | .constant _ _, _, _, _, _, _, h | .storage _, _, _, _, _, _, h | .data _, _, _, _, _, _, h
  | .branch _, _, _, _, _, _, h | .embed _ _, _, _, _, _, _, h => by
    cases List.mem_singleton.1 h

/-- The places of a block are among those of the list in which the block stands. -/
theorem placesAll_subset_placesAll :
    ∀ (outer : List Statement) {location m : Location} {index : Nat} {kind : BlockKind}
      {statements : List Statement} {pos : Position},
      (m, Node.statement (.block kind statements pos)) ∈ placesAll location index outer →
      placesAll m 0 statements ⊆ placesAll location index outer
  | [], _, _, _, _, _, _, h => by cases h
  | stmt :: rest, location, _, index, _, _, _, h => by
    rcases List.mem_append.1 h with h | h
    · exact List.Subset.trans (placesAll_subset_places stmt h) (List.subset_append_left _ _)
    · exact List.Subset.trans (placesAll_subset_placesAll rest h) (List.subset_append_right _ _)

end

end Statement

namespace Program

/-- The blocks of a program that start a rom, with their locations, in the order of the text. The
first one is the whole program. -/
def mains (program : Program) : List (Location × List Statement) :=
  Statement.mainsOf (program.block.places .top)

/-- The headers of a program, with their locations, in the order of the text. -/
def headers (program : Program) : List (Location × Header) :=
  Statement.headersOf (program.block.places .top)

variable {program : Program} {files : Files} {config : Config} {g l t : Logged Context}

/-- The header of a block that starts a rom is one of the places of the program. -/
theorem header_of_mains {m : Location} {before after : List Statement} {header : Header}
    (h : (m, before ++ .header header :: after) ∈ program.mains) :
    (m.child before.length, Node.statement (.header header)) ∈ program.block.places .top := by
  obtain ⟨⟨m', n⟩, hmem, hmain⟩ := List.mem_filterMap.1 h
  obtain ⟨statements, hstatements, heq⟩ := Option.map_eq_some_iff.1 hmain
  cases heq
  cases n with
  | command receiver receiverAt c => cases hstatements
  | statement stmt =>
    cases stmt with
    | block kind inner pos =>
      cases kind with
      | main =>
        cases hstatements
        refine Statement.placesAll_subset_places program.block hmem ?_
        refine Gathering.mem_placesAll_of_indexed ?_
        rw [Header.indexed_append, Nat.zero_add]
        exact List.mem_append_right _ List.mem_cons_self
      | scope => cases hstatements
      | package name => cases hstatements
    | _ => cases hstatements

/-- What the gathering remembers of numbers is what they say. -/
theorem literal_of_gather (hg : program.gather (start config) = .ok () g) {place : Location}
    {stmt : Statement} (hmem : (place, Node.statement stmt) ∈ program.block.places .top) {j : Nat}
    {n : UInt16} {pos : Position} (hj : (j, Expr.number n pos) ∈ stmt.early) {v : UInt16}
    (hv : g.state.memo.value? (.tree (place.child j)) = some v) : v = n := by
  obtain ⟨_, u, hu, hnote⟩ := Run.bind_eq_ok.1 hg
  cases hnote
  have hunique : ∀ m e e',
      (∃ place stmt j, (place, Node.statement stmt) ∈ program.block.places .top ∧
        (j, e) ∈ stmt.early ∧ m = place.child j) →
      (∃ place stmt j, (place, Node.statement stmt) ∈ program.block.places .top ∧
        (j, e') ∈ stmt.early ∧ m = place.child j) → e = e' := by
    rintro m e e' ⟨place, stmt, j, hmem, he, rfl⟩ ⟨place', stmt', j', hmem', he', heq⟩
    obtain ⟨rfl, rfl⟩ := Location.child_inj.1 heq
    cases statement_unique hmem hmem'
    exact Statement.expr_unique (List.mem_append_left _ he) (List.mem_append_left _ he')
  have hframe := ((Gathering.allows_onMemo (G := .literal _) (fun _ => True)
    (Run.Frame.reports_of_log (fun _ _ h => h) fun _ _ => trivial) (fun _ _ => trivial)
    fun table scope m e hE => SymbolTable.literal_fold hunique hE).nests.holds_gather program.block
      .top (fun _ _ => trivial) fun m inner hmem x hx =>
        ⟨m, inner, x.1, hmem, hx, rfl⟩).rel_of_ok hu
  have hliteral := hframe fun _ _ _ _ _ hv => (nomatch hv)
  exact hliteral _ n pos ⟨place, stmt, j, hmem, hj, rfl⟩ v hv

/-- If a program has an image, then every block that starts a rom has one header of its own, with
only constants before it, and no other block has a header. The header of the last of these blocks
describes the settings that the image shows, and the number of its banks. If only the outermost
block starts a rom then its header is the only one of the program. -/
theorem headers_decide_rom (program : Program) (files : Files) (config : Config)
    {image : List UInt8} (h : (program.compile files config).result = .ok image) :
    ∃ g l e t : Logged Context,
      program.gather (start config) = .ok () g ∧ program.layOut files g = .ok () l ∧
      program.rewind l = .ok () e ∧ program.emit e = .ok () t ∧
      Statement.HeadersPlaced (program.block.places .top) ∧
      program.headers.length = program.mains.length ∧
      ∃ m statements before header after settings,
        program.mains.getLast? = some (m, statements) ∧
        statements = before ++ .header header :: after ∧
        (∀ stmt ∈ before, stmt.isConstant = true) ∧
        header.Describes
          (fun i => t.state.memo.value? (.tree ((m.child before.length).child i))) settings ∧
        (∀ i s n pos, header.settings[i]? = some s → s.value = .number n pos →
          t.state.memo.value? (.tree ((m.child before.length).child i)) = some n) ∧
        image.take 16 = settings.header ∧
        image.length = 16 + bankSize * settings.bankCount ∧
        (program.mains.length = 1 → m = .top ∧ statements = program.statements ∧
          program.headers = [(m.child before.length, header)]) := by
  obtain ⟨g, l, t, rom, hg, hl, hrewind, ht, -, hrom, rfl⟩ := exists_of_compile h
  obtain ⟨hmemo, hsettings⟩ := settings_of_emit hg hl ht
  obtain ⟨_, u, hu, hnote⟩ := Run.bind_eq_ok.1 hg
  cases hnote
  obtain ⟨hplaced, -, hlast⟩ := Gathering.governed_gather program.block hu
  have hcount : program.headers.length = program.mains.length :=
    (Statement.length_headersOf program.block hplaced).trans (Nat.zero_add _)
  cases hmains : program.mains.getLast? with
  | none => cases List.getLast?_eq_none_iff.1 hmains
  | some p =>
    obtain ⟨m, statements⟩ := p
    have hgoverns : program.mains.getLast?.elim _ _ := hlast
    rw [hmains] at hgoverns
    obtain ⟨before, header, after, settings, rfl, hbefore, hstart, hdescribes⟩ := hgoverns
    have hfinal := hdescribes.mono fun i v hv => hmemo.value? hv
    have hplace := header_of_mains (List.mem_of_getLast? hmains)
    obtain rfl : rom.settings = settings := by
      rw [hrom] at hsettings
      exact Option.some.inj (hsettings.trans hstart)
    refine ⟨_, l, _, t, hg, hl, hrewind, ht, hplaced, hcount, m, _, before, header, after,
      rom.settings, rfl, rfl, hbefore, hfinal, fun i s n pos hs hn => ?_, ?_, ?_, fun hone => ?_⟩
    · obtain ⟨-, v, -, hv, -⟩ := hdescribes.admitted i s hs
      have hearly : (i, Expr.number n pos) ∈ (Statement.header header).early :=
        hn ▸ Statement.mem_early_setting hs
      rw [← literal_of_gather hg hplace hearly hv]
      exact hmemo.value? hv
    · rw [Rom.toBytes]
      exact List.take_left' rom.settings.length_header
    · rw [rom.length_toBytes, bankCount_of_emit hg hl ht hrom]
    · have hmain : program.mains = [(.top, program.statements)] := by
        have hrest := List.length_eq_zero_iff.1 (Nat.succ.inj hone)
        exact congrArg ((Location.top, program.statements) :: ·) hrest
      rw [hmain] at hmains
      obtain ⟨rfl, hstatements⟩ := Prod.mk.inj (Option.some.inj hmains)
      obtain ⟨only, honly⟩ := List.length_eq_one_iff.1 (hcount.trans hone)
      have hmem : (Location.top.child before.length, header) ∈ program.headers :=
        List.mem_filterMap.2 ⟨_, hplace, rfl⟩
      rw [honly] at hmem ⊢
      exact ⟨rfl, hstatements.symm, congrArg ([·]) (List.mem_singleton.1 hmem).symm⟩

/-- The only header of the sample describes its rom. -/
theorem headers_decide_rom_sample :
    ∃ (image : List UInt8) (header : Header) (settings : Settings),
      (sample.compile (fun _ => .ok [1, 2, 3]) {}).result = .ok image ∧
      sample.mains.length = 1 ∧ sample.headers = [(Location.top.child 1, header)] ∧
      settings.prg.toNat = 1 ∧ image.take 16 = settings.header ∧
      image.length = 16 + bankSize * settings.bankCount := by
  have hok : (sample.compile (fun _ => .ok [1, 2, 3]) {}).result.isOk = true := by
    decide +kernel
  cases himage : (sample.compile (fun _ => .ok [1, 2, 3]) {}).result with
  | error failure =>
    rw [himage] at hok
    cases hok
  | ok image =>
    obtain ⟨g, l, e, t, -, -, -, -, -, -, m, statements, before, header, after, settings, -, -, -,
      hdescribes, hnumbers, hheader, hlength, hone⟩ := headers_decide_rom sample _ {} himage
    obtain ⟨rfl, -, honly⟩ := hone rfl
    have hfound : sample.headers = [(Location.top.child 1, _)] := rfl
    obtain ⟨hchild, rfl⟩ := Prod.mk.inj (List.singleton_inj.1 (honly.symm.trans hfound))
    have hprg : settings.prg.toNat = 1 := by
      refine hdescribes.prg.trans ?_
      show ((t.state.memo.value? _).getD 0).toNat = 1
      rw [hnumbers 1 _ 1 {} rfl rfl]
      rfl
    exact ⟨image, _, settings, rfl, rfl, hfound, hprg, hheader, hlength⟩

/-- A program in which a block inside the outermost one starts a rom, too. -/
def nestedMain : Program where
  statements :=
    [.header { settings := [⟨{ text := "mapper" }, .number 0 {}⟩, ⟨{ text := "prg" }, .number 1 {}⟩,
        ⟨{ text := "chr" }, .number 1 {}⟩] },
      .block .main
        [.header { settings := [⟨{ text := "mapper" }, .number 4 {}⟩,
            ⟨{ text := "prg" }, .number 2 {}⟩, ⟨{ text := "chr" }, .number 1 {}⟩] }] {}]

/-- It has two headers, and an image that shows the inner one. -/
theorem nestedMain_has_two_headers :
    nestedMain.headers.length = 2 ∧
      ((nestedMain.compile (fun _ => .error .notFound) {}).result.toOption.map fun image =>
        image.take 8) = some [0x4E, 0x45, 0x53, 0x1A, 2, 1, 0x40, 0] :=
  ⟨rfl, by decide +kernel⟩

end Program

end Cartridge
