import Cartridge.Proofs.Gathered
import Cartridge.Proofs.Image
import Cartridge.Proofs.Names
import Cartridge.Proofs.Settling
import Mathlib.Data.List.Nodup

/-!
# The values of a program

The expressions of a program hang from its statements and its constants, each in the scope of a
block. The gathering folds some of them while names are still being declared, and remembers what it
has found. From then on every value follows from the final table and from what the gathering
remembers.

Main definitions:

- `Program.Root`: an expression of a statement, with its location and the scope of its block.
- `Program.Late`: a location whose expression is folded when everything is declared.
- `Program.Contributes`: a location whose expression has a part in the image.

Main results:

- Theorem `Program.root_unique`: one expression hangs from a location.
- Theorem `Program.coherent_of_emit`: every value follows from the final table and from what the
  gathering remembers.
- Theorem `Program.pending_of_late`: the gathering remembers nothing of the late expressions.
- Theorem `Program.gathered_of_emit`: the final table shows every statement of the program.
- Theorem `Program.known_of_contributes`: every expression that has a part in the image has a value.
-/

namespace Cartridge

/-! ## Folding at a node -/

section

variable {final table : SymbolTable} {roots : Anchor → ScopeId → Expr → Prop} {first : Memo}

/-- The frame of folds in a fixed table, which keep the memo coherent. -/
def Run.Frame.settling (final table : SymbolTable) (roots : Anchor → ScopeId → Expr → Prop)
    (first : Memo) : Run.Frame Context :=
  .finishing (fun s t => s.state.symbols = table → t.state.symbols = table ∧
      (final.Coherent roots first s.state.memo → final.Coherent roots first t.state.memo))
    (fun _ h => ⟨h, fun hs => hs⟩)
    fun hst htu h => ⟨(htu (hst h).1).1, fun hs => (htu (hst h).1).2 ((hst h).2 hs)⟩

namespace Run.Frame

theorem settling_of_eq {s t : Logged Context} (hsymbols : t.state.symbols = s.state.symbols)
    (hmemo : t.state.memo = s.state.memo) : (settling final table roots first).rel s t :=
  fun h => ⟨hsymbols.trans h, fun hs => hmemo ▸ hs⟩

theorem reports_settling (e : Error) : (settling final table roots first).Reports e :=
  reports_of_log (F := settling final table roots first) (fun _ _ => settling_of_eq rfl rfl)
    (fun _ _ => trivial) e

theorem settling_onRom {α : Type} (pos : Position) (act : Run Rom α) :
    (settling final table roots first).Holds (Pass.onRom pos act) :=
  holds_onRom_of_blind reports_settling (fun _ _ _ => settling_of_eq rfl rfl)
    (fun _ _ _ => trivial) pos act

variable (hroots : final.Rooted roots) (hprecedes : table.Precedes final)

include hroots hprecedes

theorem settling_fold (demand : Demand) {m : Location} {e : Expr}
    (hE : roots (.tree m) table.current e) :
    (settling final table roots first).Holds (Pass.fold demand m e) := by
  refine holds_of_ok (fun _ _ => trivial) fun s v t h hs => ?_
  obtain ⟨folded, u, hu, rfl, -⟩ := Pass.foldAt_eq_ok.1 h
  refine ⟨hs, fun hcoherent => ?_⟩
  rw [hs] at hu
  exact SymbolTable.coherent_fold hroots hprecedes hE hu hcoherent

end Run.Frame

open Run.Frame in
theorem Layout.steps_settling (hroots : final.Rooted roots)
    (hprecedes : table.Precedes final) (P : Location → Prop) :
    Steps (settling final table roots first) P (fun m e => roots (.tree m) table.current e)
      fun _ => True where
  reports e _ := reports_settling e
  fold demand _ _ hE := settling_fold hroots hprecedes demand hE
  reserve _ _ _ _ := settling_onRom _ _
  counter _ _ _ _ := settling_onRom _ _
  switch _ _ := settling_onRom _ _
  org _ _ := settling_onRom _ _
  note _ := holds_update fun _ => settling_of_eq rfl rfl
  selections _ _ _ := holds_update fun _ => settling_of_eq rfl rfl
  branches _ _ _ := holds_update fun _ => settling_of_eq rfl rfl
  contents _ _ _ := holds_update fun _ => settling_of_eq rfl rfl

open Run.Frame in
theorem Emission.steps_settling (hroots : final.Rooted roots)
    (hprecedes : table.Precedes final) :
    Steps (settling final table roots first) (fun m e => roots (.tree m) table.current e) where
  reports e _ := reports_settling e
  internal _ := reports_settling _
  fold _ _ hE := settling_fold hroots hprecedes _ hE
  byte _ _ := settling_onRom _ _
  word _ _ := settling_onRom _ _
  bytes _ _ := settling_onRom _ _
  counter _ _ _ _ := settling_onRom _ _
  switch _ _ := settling_onRom _ _
  seek _ _ := settling_onRom _ _

open Run.Frame in
/-- What the layout does at a node keeps the memo coherent, if the expressions of the node stand in
the current scope. -/
theorem Layout.coherent_act (hroots : final.Rooted roots) {files : Files} {m : Location}
    {n : Node} {s t : Logged Context} (hleaf : n.isLeaf = true)
    (h : (Walk.layout files).act m n s = .ok () t) (hprecedes : s.state.symbols.Precedes final)
    (hhangs : ∀ x ∈ n.occurrences m, roots (.tree x.1) s.state.symbols.current x.2)
    (hs : final.Coherent roots first s.state.memo) : final.Coherent roots first t.state.memo := by
  by_cases hlabel : ∃ name, n = .statement (.label name)
  · obtain ⟨name, rfl⟩ := hlabel
    -- A label folds nothing.
    have hact : Statement.layOut files m (.label name) s = .ok () t := h
    unfold Statement.layOut Name.placeLabel at hact
    obtain ⟨counter, u, hu, hnext⟩ := Run.bind_eq_ok.1 hact
    obtain ⟨i, -, -, rfl⟩ := Pass.programCounter_eq_ok.1 hu
    split at hnext
    · cases hnext
      exact hs
    · obtain ⟨-, rfl⟩ := Run.error_eq_ok.1 hnext
      exact hs
  · have hframe : (settling final s.state.symbols roots first).Holds
        ((Walk.layout files).act m n) :=
      (Layout.steps_settling hroots hprecedes fun _ => True).holds_act hleaf
        (fun name hn => absurd ⟨name, hn⟩ hlabel) trivial hhangs
    exact (hframe.rel_of_ok h rfl).2 hs

open Run.Frame in
/-- So does what the emission does. -/
theorem Emission.coherent_act (hroots : final.Rooted roots) {m : Location} {n : Node}
    {s t : Logged Context} (hleaf : n.isLeaf = true)
    (h : Walk.emission.act m n s = .ok () t) (hprecedes : s.state.symbols.Precedes final)
    (hhangs : ∀ x ∈ n.occurrences m, roots (.tree x.1) s.state.symbols.current x.2)
    (hs : final.Coherent roots first s.state.memo) : final.Coherent roots first t.state.memo := by
  have hframe : (settling final s.state.symbols roots first).Holds (Walk.emission.act m n) :=
    (Emission.steps_settling hroots hprecedes).holds_act hleaf hhangs
  exact (hframe.rel_of_ok h rfl).2 hs

end

/-! ## The expressions of a program -/

namespace Program

/-- An expression of a statement of the program, with its location and the scope of its block. -/
def Root (program : Program) (scopes : Record ScopeId) (m : Location) (scope : ScopeId) (e : Expr) :
    Prop :=
  ∃ place stmt j, (place, Node.statement stmt) ∈ program.block.places .top ∧
    (j, e) ∈ stmt.early ++ stmt.late ∧ m = place.child j ∧ scopes.at? place.parent = some scope

/-- A location whose expression is folded when everything is declared. -/
def Late (program : Program) (m : Location) : Prop :=
  ∃ place stmt x, (place, Node.statement stmt) ∈ program.block.places .top ∧ x ∈ stmt.late ∧
    m = place.child x.1

/-- A location whose expression has a part in the image: an operand, a data item or a destination
that the code of a node reads, a setting, a size or a ram address, or a bank or an address to which
a relocation goes. -/
inductive Contributes (program : Program) (ctx : Context) : Location → Prop
  | operand {place m : Location} {n : Node} {c : Code}
      (node : (place, n) ∈ program.block.places .top) (code : n.code? ctx place = some c)
      (reads : m ∈ c.reads) : Contributes program ctx m
  | early {place : Location} {stmt : Statement} {x : Nat × Expr}
      (node : (place, Node.statement stmt) ∈ program.block.places .top) (expr : x ∈ stmt.early) :
      Contributes program ctx (place.child x.1)
  | relocation {place : Location} {target : Relocation} {pos : Position} {x : Nat × Expr}
      (node : (place, Node.statement (.relocation target pos)) ∈ program.block.places .top)
      (expr : x ∈ (Statement.relocation target pos).late) :
      Contributes program ctx (place.child x.1)

variable {program : Program} {scopes : Record ScopeId}

/-- A location has one statement. -/
theorem statement_unique {place : Location} {stmt stmt' : Statement}
    (h : (place, Node.statement stmt) ∈ program.block.places .top)
    (h' : (place, Node.statement stmt') ∈ program.block.places .top) : stmt = stmt' := by
  have hinj := List.inj_on_of_nodup_map (Statement.nodup_places program.block .top) h h' rfl
  cases hinj
  rfl

/-- One expression hangs from a location. -/
theorem root_unique (program : Program) (scopes : Record ScopeId) :
    SymbolTable.SingleRooted (program.Root scopes) := by
  rintro m scope scope' e e' ⟨place, stmt, j, hmem, he, rfl, hscope⟩
    ⟨place', stmt', j', hmem', he', heq, hscope'⟩
  obtain ⟨rfl, rfl⟩ := Location.child_inj.1 heq
  cases statement_unique hmem hmem'
  exact ⟨Option.some.inj (hscope.symm.trans hscope'), Statement.expr_unique he he'⟩

/-- The expressions of a node stand in the scope of the block around it. -/
theorem root_of_occurrence {place : Location} {n : Node} {scope : ScopeId}
    (h : (place, n) ∈ program.block.places .top) (hhome : scopes.at? (n.home place) = some scope)
    {x : Location × Expr} (hx : x ∈ n.occurrences place) : program.Root scopes x.1 scope x.2 := by
  obtain ⟨inner, stmt, j, hmem, hj, heq, hparent⟩ := Statement.mem_late_of_occurrences h hx
  refine ⟨inner, stmt, j, hmem, List.mem_append_right _ hj, heq, ?_⟩
  rw [hparent]
  exact hhome

/-! ## The passes -/

variable {files : Files} {config : Config} {g l t : Logged Context}

/-- After the gathering every label waits for its address. -/
theorem waiting_of_gather (hg : program.gather (start config) = .ok () g) : g.state.Waiting := by
  obtain ⟨_, u, hu, hnote⟩ := Run.bind_eq_ok.1 hg
  cases hnote
  have hframe := ((Gathering.allows_extending fun _ => False).nests.holds_gather program.block .top
    (fun _ _ => id) (Statement.covers_true _ _)).rel_of_ok hu
  have hwaiting : u.state.Waiting := hframe.2 ⟨nofun, nofun⟩
  exact ⟨hwaiting.unplaced, hwaiting.unique⟩

/-- The names that the layout leaves behind, and what it does with them at each node. -/
theorem placed_of_layOut (hg : program.gather (start config) = .ok () g)
    (hl : program.layOut files g = .ok () l) :
    g.state.SameNames (fun _ => True) l.state ∧
      ∀ v ∈ program.block.visits (.layout files) .top g, v.node.isLeaf = true →
        v.start.state.symbols.Precedes l.state.symbols ∧
        ∀ id, g.state.labels.at? v.location = some id →
          l.state.symbols.definition? id = v.after.symbols.definition? id := by
  obtain ⟨q, hq, rfl, -, -, -⟩ := stage_of_layOut hg hl
  have hplaces := Statement.places_visits (Walk.lawful_layout files) program.block .top hq
  have hnodup : ((program.block.visits (.layout files) .top g).map Visit.location).Nodup := by
    have heq : (program.block.visits (.layout files) .top g).map Visit.location =
        (program.block.places .top).map Prod.fst := by
      rw [← hplaces, List.map_map]
      rfl
    rw [heq]
    exact Statement.nodup_places program.block .top
  have hwaiting := waiting_of_gather hg
  obtain ⟨hsame, hvisits⟩ := (Statement.linked_visits (Walk.lawful_layout files) program.block
    hq).placed hnodup hwaiting.unique fun m id _ hid => hwaiting.unplaced m id hid
  refine ⟨?_, hvisits⟩
  have hmono := hsame.mono (Q := fun _ => True) fun _ _ => trivial
  exact ⟨hmono.scopes, hmono.labels, hmono.table, hmono.definition⟩

/-- The emission leaves the table and the records of names alone. -/
theorem symbols_of_emit (ht : program.emit { l with state := l.state.rewind } = .ok () t) :
    t.state.symbols = l.state.symbols ∧ t.state.scopes = l.state.scopes ∧
      t.state.labels = l.state.labels := by
  have hunmoved := (Context.unmoved_rewind l.state).trans (Emission.unmoved_emit ht)
  have hstack := (((Emission.allows_naming fun _ => False).nests.holds_emit program.block .top
    (Statement.covers_true _ _)).rel_of_ok ht).2
  refine ⟨?_, hunmoved.scopes, hunmoved.labels⟩
  have htable := hunmoved.table
  have hdefinitions := hunmoved.definitions
  have hstack : t.state.symbols.stack = l.state.symbols.stack := hstack
  cases hs : t.state.symbols
  cases hs' : l.state.symbols
  simp only [hs, hs'] at htable hdefinitions hstack
  rw [htable, hdefinitions, hstack]

/-- Every value of a program follows from the final table and from what the gathering remembers. -/
theorem coherent_of_emit (hg : program.gather (start config) = .ok () g)
    (hl : program.layOut files g = .ok () l)
    (ht : program.emit { l with state := l.state.rewind } = .ok () t) :
    t.state.symbols.Coherent (t.state.symbols.Roots (program.Root t.state.scopes)) g.state.memo
      t.state.memo := by
  obtain ⟨hsame, hvisits⟩ := placed_of_layOut hg hl
  obtain ⟨hsymbols, hscopes, -⟩ := symbols_of_emit ht
  have htracks := tracks hg hl
  rw [ht] at htracks
  have hpairs := htracks.forall₂_of_ok
  obtain ⟨q, hq, hnotes, -, -, -⟩ := stage_of_layOut hg hl
  have hroots := (root_unique program t.state.scopes).rooted t.state.symbols
  have hplaces := Statement.places_visits (Walk.lawful_layout files) program.block .top hq
  have hlayout : t.state.symbols.Coherent (t.state.symbols.Roots (program.Root t.state.scopes))
      g.state.memo q.state.memo := by
    refine (Statement.linked_visits (Walk.lawful_layout files) program.block hq).invariant
      (Q := fun s => t.state.symbols.Coherent _ g.state.memo s.state.memo)
      ?_ (fun v hv hleaf hact u hu hs => ?_) (.refl _ _ _)
    · rintro s u ⟨stack, rfl⟩ hs
      exact hs
    · refine Layout.coherent_act hroots hleaf (hact.symm.trans hu) ?_ (fun x hx => ?_) hs
      · rw [hsymbols]
        exact (hvisits v hv hleaf).1
      · have hhome := Statement.home_visits (Walk.returns_layout files) hv hleaf
        refine .tree (root_of_occurrence (hplaces ▸ List.mem_map_of_mem hv) ?_ hx)
        rw [hscopes, hsame.scopes]
        exact hhome
  refine (Statement.linked_visits Walk.lawful_emission program.block ht).invariant
    (Q := fun s => t.state.symbols.Coherent _ g.state.memo s.state.memo)
    ?_ (fun w hw hleaf hact u hu hs => ?_) ?_
  · rintro s u ⟨stack, rfl⟩ hs
    exact hs
  · obtain ⟨v, hv, hpair⟩ := exists_left_of_mem hpairs hw
    refine Emission.coherent_act hroots hleaf (hact.symm.trans hu) ⟨?_, fun id => Or.inl ?_⟩
      (fun x hx => ?_) hs
    · rw [hsymbols]
      exact hpair.stage.unmoved.table.symm
    · rw [hsymbols, SymbolTable.meaning?, SymbolTable.meaning?, SymbolTable.definition?,
        SymbolTable.definition?, hpair.stage.unmoved.definitions]
    · have hhome := Statement.home_visits Walk.returns_emission hw hleaf
      have hmem : w.place ∈ program.block.places .top := by
        rw [← hplaces, Visit.map_place_eq hpairs]
        exact List.mem_map_of_mem hw
      refine .tree (root_of_occurrence hmem ?_ hx)
      rw [hscopes]
      exact hhome
  · rw [hnotes]
    exact hlayout

/-- The gathering remembers nothing of the late expressions. -/
theorem pending_of_late (hg : program.gather (start config) = .ok () g) {m : Location}
    (hm : program.Late m) {site : Site} (hsite : site.anchor = .tree m) :
    g.state.memo.result site = .pending := by
  obtain ⟨_, u, hu, hnote⟩ := Run.bind_eq_ok.1 hg
  cases hnote
  refine Gathering.untouched_gather hu (fun place inner j e hmem he heq => ?_) hsite
  obtain ⟨place', stmt, x, hmem', hx, heq'⟩ := hm
  obtain ⟨-, rfl⟩ := Location.child_inj.1 (heq.symm.trans heq')
  cases statement_unique hmem hmem'
  -- A statement has expressions of one kind only.
  rcases inner.early_eq_nil_or_late_eq_nil with hnil | hnil
  · rw [hnil] at he
    cases he
  · rw [hnil] at hx
    cases hx

/-- If nothing was reported then every statement of the program was gathered. -/
theorem gathered_of_gather (hg : program.gather (start config) = .ok () g)
    (hclean : g.log.count = 0) {m : Location} {stmt : Statement}
    (h : (m, Node.statement stmt) ∈ program.block.places .top) : g.state.Gathered m stmt := by
  obtain ⟨_, u, hu, hnote⟩ := Run.bind_eq_ok.1 hg
  cases hnote
  have hgathered := Gathering.gathered_gather program.block rfl rfl hu hclean
    (fun _ => Folded.noConfusion) Nat.zero_lt_one (fun _ => rfl)
    (fun hne => absurd rfl hne) m stmt h
  exact hgathered.mono (.refl _) (fun _ _ hd => hd) (.refl _) rfl rfl rfl

/-- In the end every statement of the program is as it was gathered, but labels are placed. -/
theorem gathered_of_emit (hg : program.gather (start config) = .ok () g)
    (hl : program.layOut files g = .ok () l)
    (ht : program.emit { l with state := l.state.rewind } = .ok () t) (hclean : t.log.count = 0)
    {m : Location} {stmt : Statement}
    (h : (m, Node.statement stmt) ∈ program.block.places .top) : t.state.Gathered m stmt := by
  obtain ⟨hlclean, -, -⟩ := fills_of_emit hg hl ht hclean
  obtain ⟨hgclean, -, -⟩ := honest_of_layOut hg hl hlclean
  obtain ⟨hsame, -⟩ := placed_of_layOut hg hl
  obtain ⟨hsymbols, hscopes, hlabels⟩ := symbols_of_emit ht
  have hgathered := gathered_of_gather hg hgclean h
  have hscopes : t.state.scopes = g.state.scopes := hscopes.trans hsame.scopes
  have hlabels : t.state.labels = g.state.labels := hlabels.trans hsame.labels
  have htable : t.state.symbols.scopes = g.state.symbols.scopes := by
    rw [hsymbols, hsame.table]
  refine ⟨fun x hx => ?_, fun name hname => ?_, fun kind statements pos hstmt => ?_⟩
  · obtain ⟨v, hv⟩ := hgathered.early x hx
    exact ⟨v, (coherent_of_emit hg hl ht).le.value? hv⟩
  · obtain ⟨scope, id, meaning, hscope, hdeclares, hmeans⟩ := hgathered.names name hname
    have hhome : t.state.scopes.at? m.parent = some scope := by
      rw [hscopes]
      exact hscope
    have hbinding : t.state.symbols.binding? scope name.text = some id := by
      unfold SymbolTable.binding? SymbolTable.scope
      rw [htable]
      exact hdeclares.binding
    have hmeans : t.state.Means m scope id stmt meaning :=
      hmeans.mono (congrArg (·.at? m) hlabels) (congrArg (·.at? m) hscopes)
    rcases hsame.definition id with heq | ⟨-, d, before, after, hlabel, hd, hplaced⟩
    · exact ⟨scope, id, meaning, hhome, ⟨hbinding, hsymbols ▸ heq.trans hdeclares.definition⟩,
        hmeans⟩
    · cases hdeclares.definition.symm.trans hd
      cases hlabel
      cases hmeans with
      | label recorded =>
        exact ⟨scope, id, .label after, hhome, ⟨hbinding, hsymbols ▸ hplaced⟩, .label recorded⟩
  · obtain ⟨inner, outer, hinner, houter, hhome⟩ := hgathered.inner kind statements pos hstmt
    refine ⟨inner, outer, ?_, ?_, fun hne => ?_⟩
    · rw [hscopes]
      exact hinner
    · unfold SymbolTable.scope
      rw [htable]
      exact houter
    · rw [hscopes]
      exact hhome hne

/-- Every place is visited by the layout, in the scope of its block. -/
theorem visit_of_place (hg : program.gather (start config) = .ok () g)
    (hl : program.layOut files g = .ok () l) {place : Location} {n : Node}
    (h : (place, n) ∈ program.block.places .top) (hleaf : n.isLeaf = true) :
    ∃ v ∈ program.block.visits (.layout files) .top g, v.location = place ∧ v.node = n ∧
      v.result = (Walk.layout files).act place n v.start ∧ v.Finishes ∧
      l.state.scopes.at? (n.home place) = some v.start.state.symbols.current := by
  obtain ⟨q, hq, -, -, -, -⟩ := stage_of_layOut hg hl
  rw [← Statement.places_visits (Walk.lawful_layout files) program.block .top hq] at h
  obtain ⟨v, hv, heq⟩ := List.mem_map.1 h
  cases heq
  obtain ⟨hact, hfinishes⟩ := (Statement.linked_visits (Walk.lawful_layout files) program.block
    hq).of_mem hv hleaf
  refine ⟨v, hv, rfl, rfl, hact, hfinishes, ?_⟩
  rw [(placed_of_layOut hg hl).1.scopes]
  exact Statement.home_visits (Walk.returns_layout files) hv hleaf

/-- If nothing was reported then every expression that has a part in the image has a value. -/
theorem known_of_contributes (hg : program.gather (start config) = .ok () g)
    (hl : program.layOut files g = .ok () l)
    (ht : program.emit { l with state := l.state.rewind } = .ok () t) (hclean : t.log.count = 0)
    {m : Location} (h : program.Contributes l.state m) :
    ∃ scope e v, program.Root t.state.scopes m scope e ∧
      t.state.memo.value? (.tree m) = some v := by
  obtain ⟨hcount, -, chunks, -, hchunks⟩ := fills_of_emit hg hl ht hclean
  obtain ⟨-, hscopes, -⟩ := symbols_of_emit ht
  rw [hscopes]
  cases h with
  | @operand place m n c node code reads =>
    obtain ⟨e, he⟩ := Node.occurrence_of_reads code reads
    have hwrites := Node.writes_of_code? code
    obtain ⟨v, hv, hlocation, rfl, -, -, hhome⟩ :=
      visit_of_place hg hl node (Node.isLeaf_of_stays (Node.stays_of_writes hwrites))
    subst hlocation
    obtain ⟨chunk, -, -, -, -, c', origin, hc', -, hbytes⟩ :=
      exists_left_of_mem hchunks.flip (List.mem_filter.2 ⟨hv, hwrites⟩)
    cases code.symm.trans hc'
    obtain ⟨a, ha⟩ := c.known hbytes m reads
    exact ⟨_, e, a, root_of_occurrence node hhome he, ha⟩
  | @early place stmt x node expr =>
    have hleaf : (Node.statement stmt).isLeaf = true := by
      cases stmt with
      | block kind statements pos => cases expr
      | command c => cases expr
      | _ => rfl
    obtain ⟨v, -, -, -, -, -, hhome⟩ := visit_of_place hg hl node hleaf
    obtain ⟨a, ha⟩ := (gathered_of_gather hg (honest_of_layOut hg hl hcount).1 node).early x expr
    exact ⟨_, x.2, a, ⟨place, stmt, x.1, node, List.mem_append_left _ expr, rfl, hhome⟩,
      (coherent_of_emit hg hl ht).le.value? ha⟩
  | @relocation place target pos x node expr =>
    obtain ⟨v, hv, hlocation, hnode, hact, ⟨u, hu⟩, hhome⟩ := visit_of_place hg hl node rfl
    subst hlocation
    have hlayOut : Statement.layOut files v.location (.relocation target pos) v.start = .ok () u :=
      hact.symm.trans hu
    unfold Statement.layOut at hlayOut
    obtain ⟨a, ha⟩ := Relocation.known_of_layOut hlayOut x expr
    have htracks := tracks hg hl
    rw [ht] at htracks
    obtain ⟨w, -, hpair⟩ := exists_left_of_mem htracks.forall₂_of_ok.flip hv
    have hle := hpair.follows.memo.trans
      ((Context.unmoved_rewind l.state).trans (Emission.unmoved_emit ht)).memo
    rw [Visit.after_of_ok hu] at hle
    exact ⟨_, x.2, a, ⟨v.location, _, x.1, node, List.mem_append_right _ expr, rfl, hhome⟩,
      hle.value? ha⟩

end Program

end Cartridge
