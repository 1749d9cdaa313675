import Cartridge.Compile.Basic
import Cartridge.Proofs.GatherFrame
import Cartridge.Proofs.Names
import Cartridge.Proofs.ZeroPage
import Mathlib.Data.List.Nodup

/-!
# Internal errors

An internal error says that the passes do not fit together. Each pass relies on what the ones before
it have left behind: on the rom that the header has started, on the scopes of the blocks, and on
encodings that were selected for the very commands and branches that are written. All of this is
there whenever it is needed, so the only internal errors are those of trees that lack an expression.

Main definitions:

- `Log.Tells`: a log has grown, and its new internal errors have a property.
- `Run.Frame.telling`: the frame of runs that tell of internal errors only with a reason, and that
  keep what they rely on.
- `Context.Prepared` and `Context.Settled`: what the layout and the emission rely on.
- `Node.Lacks`: a node lacks an expression, and how this is reported.

Main results:

- Theorem `Layout.recorded_act`: what the layout records for a command or a branch fits it.
- Theorem `Program.internal_of_lacking`: the internal errors of a compilation.
-/

namespace Cartridge

/-! ## Logs that tell of internal errors -/

variable {σ τ α : Type} {J : Diagnostic → Prop}

/-- A log has grown, and what is internal among its new entries has a property. -/
def Log.Tells (J : Diagnostic → Prop) (a b : Log) : Prop :=
  ∃ added, b.entries = a.entries ++ added ∧ ∀ d ∈ added, d.error.isInternal = true → J d

namespace Log

theorem Tells.refl (a : Log) : Tells J a a :=
  ⟨[], (List.append_nil _).symm, fun _ h => absurd h List.not_mem_nil⟩

/-- New entries come one after the other, so what is internal among them has the property. -/
theorem Tells.trans {a b c : Log} (hab : Tells J a b) (hbc : Tells J b c) : Tells J a c := by
  obtain ⟨x, hx, hJx⟩ := hab
  obtain ⟨y, hy, hJy⟩ := hbc
  refine ⟨x ++ y, by rw [hy, hx, List.append_assoc], fun d hd => ?_⟩
  rcases List.mem_append.1 hd with hd | hd
  · exact hJx d hd
  · exact hJy d hd

/-- A new entry, which has the property if it is internal. -/
theorem tells_entry {a b : Log} {d : Diagnostic} (hb : b.entries = a.entries ++ [d])
    (hd : d.error.isInternal = true → J d) : Tells J a b := by
  refine ⟨[d], hb, fun e he => ?_⟩
  rw [List.mem_singleton.1 he]
  exact hd

end Log

namespace Run.Frame

/-- The frame of runs that rely on a property of the state and keep it, and that tell of internal
errors only with a reason. -/
def telling (J : Diagnostic → Prop) (Q : σ → Prop) : Frame σ where
  rel s t := Q s.state → Q t.state ∧ s.log.Tells J t.log
  abort s t := Q s.state → s.log.Tells J t.log
  refl s h := ⟨h, .refl s.log⟩
  trans hst htu h := ⟨(htu (hst h).1).1, (hst h).2.trans (htu (hst h).1).2⟩
  trans_abort hst htu h := (hst h).2.trans (htu (hst h).1)

section

variable {Q : σ → Prop}

/-- Only runs that start with the property matter. -/
theorem telling_of_imp {s : Logged σ} {r : EStateM.Result Abort (Logged σ) α}
    (h : Q s.state → (telling J Q).Ends s r) : (telling J Q).Ends s r := by
  cases r with
  | ok a t => exact fun hs => h hs hs
  | error x t => exact fun hs => h hs hs

/-- What a run with the property tells is told in any case. -/
theorem telling_of_start {s : Logged σ} {r : EStateM.Result Abort (Logged σ) α}
    (h : (telling J Q).Ends s r) (hs : Q s.state) : (telling J fun _ => True).Ends s r := by
  cases r with
  | ok a t => exact fun _ => ⟨trivial, (h hs).2⟩
  | error x t => exact fun _ => h hs

/-- An error that is not internal may be reported without a reason. -/
theorem reports_telling {e : Error} (he : e.isInternal = false) : (telling J Q).Reports e := by
  have hsoft (log : Log) (pos : Position) : log.Tells J (log.soft e pos) := by
    refine Log.tells_entry rfl fun hd => ?_
    rw [he] at hd
    cases hd
  refine ⟨fun s pos h => ⟨h, hsoft _ pos⟩, fun s pos _ => ?_, fun s pos _ => ?_⟩
  · refine (hsoft s.log pos).trans (Log.tells_entry rfl fun hd => ?_)
    cases hd
  · refine Log.tells_entry rfl fun hd => ?_
    rw [he] at hd
    cases hd

/-- An internal error for which there is a reason. -/
theorem telling_internal {what : String} {pos : Position}
    (h : J { fatal := true, pos := some pos, error := .internal what }) :
    (telling J Q).Holds (Run.internal what pos : Run σ α) :=
  fun _ _ => Log.tells_entry rfl fun _ => h

/-- An update that keeps the property reports nothing. -/
theorem telling_update {f : σ → σ} (h : ∀ a, Q a → Q (f a)) : (telling J Q).Holds (update f) :=
  holds_update fun s hs => ⟨h s.state hs, .refl s.log⟩

/-- Where nothing is asked of the state it may change in any way. -/
theorem telling_change (s : Logged σ) (a : σ) :
    (telling J fun _ => True).rel s { s with state := a } :=
  fun _ => ⟨trivial, .refl s.log⟩

/-- A run over a part of the state, for which nothing is asked of that part. -/
theorem telling_focus {get : σ → τ} {put : τ → σ → σ} {act : Run τ α}
    (hput : ∀ a b, Q a → Q (put b a)) (h : (telling J fun _ => True).Holds act) :
    (telling J Q).Holds (focus get put act) :=
  holds_focus (G := telling J fun _ => True)
    (fun s t ht hs => ⟨hput s.state t.state hs, (ht trivial).2⟩) (fun _ _ ht _ => ht trivial) h

end

end Run.Frame

/-! ## The primitives -/

open Run.Frame

open Gathering (Blind)

/-- A property that holds only where there is a rom, and of which nothing depends on the symbols,
the memo, the labels, the notes and what is in the rom. -/
structure Founded (Q : Context → Prop) : Prop extends Blind Q where
  rom : ∀ ctx, Q ctx → ctx.rom.isSome = true
  fill : ∀ ctx rom, Q ctx → Q { ctx with rom := some rom }

namespace Run.Frame

variable {Q : Context → Prop}

/-- Entering and leaving a scope goes unseen by a property that does not depend on the symbols. -/
theorem scoped_telling (h : Blind Q) : (telling J Q).Scoped where
  rel scope s t hst hs := by
    obtain ⟨ht, htells⟩ := hst (h.symbols _ _ hs)
    exact ⟨h.symbols _ _ ht, htells⟩
  abort scope s t hst hs := hst (h.symbols _ _ hs)

/-- Folding reports no internal error, and a blind property does not depend on the memo. -/
theorem telling_fold (h : Blind Q) (demand : Demand) (m : Location) (e : Expr) :
    (telling J Q).Holds (Pass.fold demand m e) := by
  refine holds_fold (G := telling J fun _ => True) (fun t scope => ?_)
    (fun s t ht hs => ⟨h.memo _ _ hs, (ht trivial).2⟩) fun _ _ ht _ => ht trivial
  refine SymbolTable.holds_fold (S := fun _ => True)
    (fun e he => reports_telling (Error.isInternal_of_ofFolding he)) ?_ (fun _ _ h => h)
    (fun _ => trivial) trivial scope e
  exact fun _ _ _ _ _ _ ht _ => ht trivial

theorem telling_note (h : Blind Q) (n : Note) : (telling J Q).Holds (Pass.note n) :=
  telling_update fun ctx hctx => h.notes ctx _ hctx

/-- A run over the symbol table changes nothing that a blind property depends on. -/
theorem telling_onSymbols (h : Blind Q) {act : Run SymbolTable α}
    (hact : (telling J fun _ => True).Holds act) : (telling J Q).Holds (Pass.onSymbols act) :=
  telling_focus (fun ctx symbols hctx => h.symbols ctx symbols hctx) hact

/-- There is a rom for every run over it. -/
theorem telling_onRom (h : Founded Q) {act : Run Rom α}
    (hact : (telling J fun _ => True).Holds act) (pos : Position) :
    (telling J Q).Holds (Pass.onRom pos act) := by
  intro s
  refine telling_of_imp fun hs => ?_
  obtain ⟨rom, hrom⟩ := Option.isSome_iff_exists.1 (h.rom _ hs)
  unfold Pass.onRom
  rw [read_bind_apply, hrom]
  exact telling_focus (fun ctx rom hctx => h.fill ctx rom hctx) hact s

/-- A run over the active bank reports no internal error of its own: there is a rom. -/
theorem telling_onBank (h : Founded Q) {act : Run Bank α}
    (hact : (telling J fun _ => True).Holds act) (what : String) (pos : Position) :
    (telling J Q).Holds (Pass.onBank what pos act) := by
  refine telling_onRom h (holds_read_bind fun rom => ?_) pos
  split
  · exact (reports_telling rfl).holds_fatal _
  · exact telling_focus (fun _ _ _ => trivial) hact

/-- Asking for the program counter finds a rom, so only the given error can be reported. -/
theorem telling_programCounter (h : Founded Q) (what : String) {missing : Error}
    (hmissing : missing.isInternal = false) (pos : Position) :
    (telling J Q).Holds (Pass.programCounter what missing pos) := by
  refine telling_onBank h (holds_read_bind fun b => ?_) what pos
  split
  · exact (reports_telling hmissing).holds_fatal _
  · exact holds_pure _ _

/-- Switching banks finds a rom and reports no internal error. -/
theorem telling_switchBank (h : Founded Q) (index : UInt16) (pos : Position) :
    (telling J Q).Holds (Pass.onRom pos (Rom.switchBank index pos)) :=
  telling_onRom h (holds_switchBank (fun _ => reports_telling)
    (fun s _ => telling_change s _) index pos) pos

/-- A block whose scope is recorded finds it. -/
theorem telling_scopeOf {m : Location} (h : ∀ ctx, Q ctx → (ctx.scopes.at? m).isSome = true)
    (pos : Position) : (telling J Q).Holds (Pass.scopeOf m pos) := by
  intro s
  refine telling_of_imp fun hs => ?_
  obtain ⟨scope, hscope⟩ := Option.isSome_iff_exists.1 (h _ hs)
  rw [Pass.scopeOf_eq_ok.2 ⟨hscope, rfl⟩]
  exact (telling J Q).refl s

end Run.Frame

/-! ## What the passes do at a node -/

namespace Gathering

variable {Q : Context → Prop}

/-- Putting a name into the table can only report a redefinition. -/
theorem telling_put (h : Blind Q) (name : String) (pos : Option Position) (meaning : Meaning) :
    (telling J Q).Holds (Pass.onSymbols (SymbolTable.put name pos meaning)) :=
  telling_onSymbols h (holds_put (fun _ _ => reports_telling rfl)
    (fun s b _ => telling_change s b) name pos meaning)

/-- Opening the scope of a block can only report a redefinition of the package. -/
theorem telling_openScope (h : Blind Q) (kind : BlockKind) : (telling J Q).Holds kind.openScope :=
  holds_openScope
    (fun _ => telling_onSymbols h (holds_createScope (fun s b _ => telling_change s b) _))
    (fun _ => telling_onSymbols h (holds_createPackage (fun _ _ => reports_telling rfl)
      (fun s b _ => telling_change s b) _)) kind

/-- What comes before there is a rom asks for nothing. -/
theorem opens_telling (h : Blind Q) : Opens (telling J Q) fun _ _ => True where
  reports _ he := reports_telling he
  fold _ _ _ := telling_fold h _ _ _
  note n := telling_note h n
  constant := holds_declare (telling_put h)

/-- Allocating a variable finds a rom and reports no internal error. -/
theorem telling_allocate (h : Founded Q) (size : Nat) (pos : Position) :
    (telling J Q).Holds (Variables.allocate size pos) := by
  refine telling_onRom h (holds_read_bind fun rom => ?_) pos
  split
  · exact (reports_telling rfl).holds_fatal _
  · refine holds_bind ?_ fun _ => holds_pure _ _
    exact holds_expandRam (fun _ => reports_telling) (fun s _ => telling_change s _) _ _

/-- The steps of gathering rely on no more than that there is a rom. -/
theorem allows_telling (h : Founded Q) :
    Allows (telling J Q) (fun _ => True) fun _ _ => True where
  toOpens := opens_telling h.toBlind
  scopes := scoped_telling h.toBlind
  openScope := telling_openScope h.toBlind
  record m scope _ := telling_update fun ctx hctx => h.scopes ctx m scope hctx
  label _ name _ := holds_declareLabel (telling_put h.toBlind)
    (fun _ => telling_update fun ctx hctx => h.labels ctx _ hctx) name
  allocate size pos _ _ := telling_allocate h size pos
  storage name pos _ := telling_put h.toBlind name pos _
  moveRam _ pos := telling_onRom h (telling_update fun _ _ => trivial) pos
  startRom _ := telling_update fun ctx hctx => h.fill ctx _ hctx

end Gathering

/-- The layout asks for a rom only. -/
theorem Layout.steps_telling {Q : Context → Prop} (h : Founded Q)
    (hselections : ∀ ctx selections, Q ctx → Q { ctx with selections })
    (hbranches : ∀ ctx branches, Q ctx → Q { ctx with branches })
    (hcontents : ∀ ctx contents, Q ctx → Q { ctx with contents }) :
    Steps (telling J Q) (fun _ => True) (fun _ _ => True) fun _ => True where
  reports _ he := reports_telling he
  fold demand m e _ := telling_fold h.toBlind demand m e
  reserve what n pos _ := telling_onBank h (holds_expand (fun _ => reports_telling)
    (fun s b _ => telling_change s b) n pos) what pos
  counter what _ pos hmissing := telling_programCounter h what hmissing pos
  switch index pos := telling_switchBank h index pos
  org address pos := telling_onBank h (holds_org (fun _ => reports_telling)
    (fun s b _ => telling_change s b) address pos) _ pos
  note n := telling_note h.toBlind n
  selections _ _ _ := telling_update fun ctx hctx => hselections ctx _ hctx
  branches _ _ _ := telling_update fun ctx hctx => hbranches ctx _ hctx
  contents _ _ _ := telling_update fun ctx hctx => hcontents ctx _ hctx

/-- So does the emission, up to what it cannot write. -/
theorem Emission.writes_telling {Q : Context → Prop} (h : Founded Q) :
    Writes (telling J Q) fun _ _ => True := by
  have hbytes (bytes : List UInt8) (pos : Position) :
      (telling J fun _ => True).Holds (Bank.writeBytes bytes pos) :=
    holds_writeBytes (fun _ => reports_telling) (fun s b _ _ => telling_change s b) bytes pos
  exact
    { reports := fun _ he => reports_telling he
      fold := fun m e _ => telling_fold h.toBlind _ m e
      byte := fun value pos => telling_onBank h (holds_writeByte (fun _ => reports_telling)
        (fun s b _ _ => telling_change s b) value pos) _ pos
      word := fun _ pos => telling_onBank h (hbytes _ pos) _ pos
      bytes := fun bytes pos => telling_onBank h (hbytes bytes pos) _ pos
      counter := fun what _ pos hmissing => telling_programCounter h what hmissing pos
      switch := fun index pos => telling_switchBank h index pos
      seek := fun address pos => telling_onBank h (holds_seek (fun _ => reports_telling)
        (fun s b _ _ => telling_change s b) address pos) _ pos }

/-! ## What the gathering leaves behind -/

namespace Gathering

/-- A scope that is recorded stays so. -/
theorem blind_opened (m : Location) : Blind fun ctx => (ctx.scopes.at? m).isSome = true where
  symbols _ _ h := h
  memo _ _ h := h
  scopes ctx other scope h := by
    by_cases hm : m = other
    · rw [hm, Record.set_self]
      rfl
    · rw [Record.set_of_ne hm]
      exact h
  labels _ _ h := h
  notes _ _ h := h

mutual

/-- When a statement was gathered the scopes of all blocks inside it are recorded. -/
theorem opened_gather : ∀ (stmt : Statement) {location : Location} {s t : Logged Context},
    stmt.gather location s = .ok () t → ∀ {m kind inner pos},
      (m, Node.statement (.block kind inner pos)) ∈ stmt.places location →
      (t.state.scopes.at? m).isSome = true
  | .block kind statements pos, location, s, t, h, m, _, _, _, hmem => by
    obtain ⟨scope, a, d, e, f, -, hd, he, hothers, rfl⟩ := gather_block_of_ok h
    show (f.state.scopes.at? m).isSome = true
    rcases List.mem_cons.1 hmem with heq | hinside
    · cases heq
      have hkeeps := (blind_opened location).allows (fun _ => True) (fun _ _ _ _ h => h)
        fun _ _ h => h
      have hconstants := (hkeeps.holds_constants statements).rel_of_ok hd
      have hstart := (hkeeps.nests.holds_startRom statements pos (Statement.covers_true _ _)
        kind).rel_of_ok he
      have hlast := (hkeeps.nests.holds_gatherOthers statements location 0 (fun _ _ _ _ => trivial)
        (Statement.covers_true _ _)).rel_of_ok hothers
      refine hlast (hstart (hconstants ?_))
      show ((a.state.scopes.set location (some scope)).at? location).isSome = true
      rw [Record.set_self]
      rfl
    · exact opened_gatherOthers statements hothers hinside
  | .command c, location, s, t, h, m, _, _, _, hmem => by
    rcases List.mem_cons.1 hmem with heq | hinside
    · cases heq
    · obtain ⟨k, d, -, -, heq⟩ := Statement.mem_placesOfCommands hinside
      cases heq
  | .header _, _, _, _, _, _, _, _, _, hmem => by cases List.mem_singleton.1 hmem
  | .relocation _ _, _, _, _, _, _, _, _, _, hmem => by cases List.mem_singleton.1 hmem
  | .label _, _, _, _, _, _, _, _, _, hmem => by cases List.mem_singleton.1 hmem
  | .constant _ _, _, _, _, _, _, _, _, _, hmem => by cases List.mem_singleton.1 hmem
  | .storage _, _, _, _, _, _, _, _, _, hmem => by cases List.mem_singleton.1 hmem
  | .data _, _, _, _, _, _, _, _, _, hmem => by cases List.mem_singleton.1 hmem
  | .branch _, _, _, _, _, _, _, _, _, hmem => by cases List.mem_singleton.1 hmem
  | .embed _ _, _, _, _, _, _, _, _, _, hmem => by cases List.mem_singleton.1 hmem

/-- So are those of the blocks inside the statements of a block. -/
theorem opened_gatherOthers :
    ∀ (statements : List Statement) {location : Location} {index : Nat} {s t : Logged Context},
      Statement.gatherOthers location index statements s = .ok () t → ∀ {m kind inner pos},
        (m, Node.statement (.block kind inner pos)) ∈
          Statement.placesAll location index statements →
        (t.state.scopes.at? m).isSome = true
  | [], _, _, _, _, _, _, _, _, _, hmem => by cases hmem
  | stmt :: rest, location, index, s, t, h, m, kind, inner, pos, hmem => by
    unfold Statement.gatherOthers at h
    obtain ⟨_, u, hu, hrest⟩ := Run.bind_eq_ok.1 h
    rcases List.mem_append.1 hmem with hstmt | hmem
    · have hkeeps := (blind_opened m).allows (fun _ => True) (fun _ _ _ _ h => h) fun _ _ h => h
      refine (hkeeps.nests.holds_gatherOthers rest location (index + 1) (fun _ _ _ _ => trivial)
        (Statement.covers_true _ _)).rel_of_ok hrest ?_
      split at hu
      · rename_i hskipped
        -- Constants and headers are no blocks.
        cases stmt with
        | constant name value => cases List.mem_singleton.1 hstmt
        | header header => cases List.mem_singleton.1 hstmt
        | _ => cases hskipped
      · exact opened_gather stmt hu hstmt
    · exact opened_gatherOthers rest hrest hmem

end

end Gathering

/-! ## What the layout leaves behind -/

/-- What is selected for a command carries an operand in memory, if it carries one at all. -/
def Command.Fits (c : Command) (receiver : Operand) (receiverAt argumentAt : Location)
    (selection : Selection) : Prop :=
  ∀ lead opcode side, selection.encoding = .instruction lead opcode (some side) →
    ∃ operand location, side.pick selection.swapped (receiver, receiverAt)
      (c.argument.map fun arg => (arg, argumentAt)) = some (operand, location) ∧
        operand.mode.isMemory = true

/-- A selection that carries an operand carries one that is in memory. -/
theorem Command.fits_of_select {c : Command} {receiver : Operand}
    {receiverAt argumentAt : Location} {selection : Selection} {s t : Logged Context}
    (h : c.select receiver receiverAt argumentAt s = .ok (some selection) t) :
    c.Fits receiver receiverAt argumentAt selection := by
  obtain ⟨hswapped, shape, hs, he⟩ := encode_of_select h
  unfold CommandKind.shapeOf at hs
  simp only at hs
  split at hs
  · cases hs
  · intro lead opcode side hside
    obtain ⟨mode, hpick, hmemory⟩ :=
      (performs_of_encode he (CommandKind.performs_shape hs)).2 lead opcode side hside
    obtain ⟨operand, location, hoperand, rfl⟩ :=
      CommandKind.mode_of_pick receiverAt argumentAt hpick
    exact ⟨operand, location, hswapped ▸ hoperand, hmemory⟩

/-- What is recorded for a command or a branch fits it. -/
def Node.Recorded (ctx : Context) (m : Location) : Node → Prop
  | .command receiver receiverAt c =>
    ∀ selection, ctx.selections.at? m = some selection → c.Fits receiver receiverAt m selection
  | .statement (.branch b) => ∀ size, ctx.branches.at? m = some size → b.size? = .ok size
  | .statement _ => True

/-- Where nothing is recorded there is nothing that has to fit. -/
theorem Node.recorded_of_none {ctx : Context} {m : Location} (hs : ctx.selections.at? m = none)
    (hb : ctx.branches.at? m = none) (n : Node) : n.Recorded ctx m := by
  cases n with
  | command receiver receiverAt c =>
    intro selection hselection
    rw [hs] at hselection
    cases hselection
  | statement stmt =>
    cases stmt with
    | branch b =>
      intro size hsize
      rw [hb] at hsize
      cases hsize
    | _ => trivial

/-- What is recorded at a location fits as long as the records there stay. -/
theorem Node.Recorded.of_same {m : Location} {s t : Context} (h : s.SameAt m t) {n : Node}
    (hn : n.Recorded s m) : n.Recorded t m := by
  cases n with
  | command receiver receiverAt c =>
    intro selection hselection
    exact hn selection (h.selections ▸ hselection)
  | statement stmt =>
    cases stmt with
    | branch b =>
      intro size hsize
      exact hn size (h.branches ▸ hsize)
    | _ => trivial

namespace Layout

/-- What the layout records for a command was selected for it. -/
theorem recorded_command {receiver : Operand} {receiverAt m : Location} {c : Command}
    {s t : Logged Context} (h : c.layOut receiver receiverAt m s = .ok () t) :
    (Node.command receiver receiverAt c).Recorded t.state m := by
  obtain ⟨selection, u, hselect, hat, -⟩ := Command.recorded_of_layOut h
  intro found hfound
  rw [hat] at hfound
  subst hfound
  exact Command.fits_of_select hselect

/-- What the layout records for a branch is its size. -/
theorem recorded_branch {m : Location} {b : Branch} {s t : Logged Context}
    (h : b.layOut m s = .ok () t) : (Node.statement (.branch b)).Recorded t.state m := by
  obtain ⟨size, u, hcheck, hat, -⟩ := Branch.recorded_of_layOut h
  intro found hfound
  rw [hat] at hfound
  obtain ⟨_, -, hnone, -⟩ | ⟨n, hn, hsome, -⟩ := Branch.check_of_ok hcheck
  · cases hnone.symm.trans hfound
  · cases hsome.symm.trans hfound
    exact hn

/-- What the layout records for a command or a branch fits it. -/
theorem recorded_act {files : Files} {m : Location} {n : Node} {s t : Logged Context}
    (h : (Walk.layout files).act m n s = .ok () t) : n.Recorded t.state m := by
  cases n with
  | command receiver receiverAt c => exact recorded_command h
  | statement stmt =>
    cases stmt with
    | branch b =>
      have hbranch : (Statement.branch b).layOut files m s = .ok () t := h
      unfold Statement.layOut at hbranch
      exact recorded_branch hbranch
    | _ => trivial

/-- What the layout does at a node leaves what is recorded elsewhere alone. -/
theorem sameAt_act {files : Files} {m other : Location} {n : Node} (hleaf : n.isLeaf = true)
    (hne : other ≠ m) {s t : Logged Context} (h : (Walk.layout files).act m n s = .ok () t) :
    s.state.SameAt other t.state :=
  (((allows_following (fun other => other ≠ m) fun _ => True).nests.holds_act hleaf
    (fun hm => hm rfl) fun _ _ => trivial).rel_of_ok h).same other hne

/-- After the layout of a statement all that is recorded for its places fits them, if what was
recorded before did. -/
theorem recorded_layOut {files : Files} {stmt : Statement} {location : Location}
    {s t : Logged Context} (h : stmt.layOut files location s = .ok () t)
    (hs : ∀ m n, (m, n) ∈ stmt.places location → n.Recorded s.state m) :
    ∀ m n, (m, n) ∈ stmt.places location → n.Recorded t.state m := by
  have hw := Walk.lawful_layout files
  have hvisits := Statement.places_visits hw stmt location h
  refine (Statement.linked_visits hw stmt h).invariant
    (Q := fun s => ∀ m n, (m, n) ∈ stmt.places location → n.Recorded s.state m) ?_ ?_ hs
  · rintro s t ⟨stack, rfl⟩ hs
    exact hs
  · intro v hv hleaf hact u hu hstart m n hmem
    rw [hact] at hu
    by_cases hm : m = v.location
    · have hplace : (v.location, v.node) ∈ stmt.places location := by
        rw [← hvisits]
        exact List.mem_map_of_mem hv
      have heq := List.inj_on_of_nodup_map (Statement.nodup_places stmt location) hmem hplace hm
      cases heq
      exact recorded_act hu
    · exact (hstart m n hmem).of_same (sameAt_act hleaf hm hu)

end Layout

/-! ## What the passes rely on -/

namespace Context

/-- What the layout relies on: there is a rom, and the scopes of the blocks are recorded. -/
structure Prepared (places : List (Location × Node)) (ctx : Context) : Prop where
  rom : ctx.rom.isSome = true
  scopes : ∀ m kind statements pos, (m, Node.statement (.block kind statements pos)) ∈ places →
    (ctx.scopes.at? m).isSome = true

/-- What the emission relies on: what is recorded for commands and branches fits them as well. -/
structure Settled (places : List (Location × Node)) (ctx : Context) : Prop
    extends ctx.Prepared places where
  records : ∀ m n, (m, n) ∈ places → n.Recorded ctx m

/-- What the layout relies on does not depend on the symbols, the memo and the rom's contents. -/
theorem founded_prepared (places : List (Location × Node)) : Founded (Prepared places) where
  symbols _ _ h := ⟨h.rom, h.scopes⟩
  memo _ _ h := ⟨h.rom, h.scopes⟩
  scopes ctx m scope h := ⟨h.rom, fun m' kind statements pos hmem =>
    (Gathering.blind_opened m').scopes ctx m scope (h.scopes m' kind statements pos hmem)⟩
  labels _ _ h := ⟨h.rom, h.scopes⟩
  notes _ _ h := ⟨h.rom, h.scopes⟩
  rom _ h := h.rom
  fill _ _ h := ⟨rfl, h.scopes⟩

/-- What the emission relies on does not depend on the symbols, the memo and the rom's contents. -/
theorem founded_settled (places : List (Location × Node)) : Founded (Settled places) where
  symbols ctx symbols h := ⟨(founded_prepared places).symbols ctx symbols h.toPrepared, h.records⟩
  memo ctx memo h := ⟨(founded_prepared places).memo ctx memo h.toPrepared, h.records⟩
  scopes ctx m scope h := ⟨(founded_prepared places).scopes ctx m scope h.toPrepared, h.records⟩
  labels ctx labels h := ⟨(founded_prepared places).labels ctx labels h.toPrepared, h.records⟩
  notes ctx notes h := ⟨(founded_prepared places).notes ctx notes h.toPrepared, h.records⟩
  rom _ h := h.rom
  fill ctx rom h := ⟨(founded_prepared places).fill ctx rom h.toPrepared, h.records⟩

end Context

/-! ## Nodes that lack an expression -/

/-- A node lacks an expression without which it cannot be written, and how this is reported. -/
inductive Node.Lacks : Node → Diagnostic → Prop
  | operand {receiver : Operand} {receiverAt : Location} {c : Command} {operand : Operand}
      (side : operand = receiver ∨ c.argument = some operand)
      (memory : operand.mode.isMemory = true) (missing : operand.expr = none) :
      Lacks (.command receiver receiverAt c)
        { fatal := true
          pos := some c.pos
          error := .internal "memory operand without an address expression" }
  | destination {b : Branch} {operand : Operand} (destination : b.destination = some operand)
      (label : operand.mode.isLabel = true) (missing : operand.expr = none) :
      Lacks (.statement (.branch b))
        { fatal := true
          pos := some b.pos
          error := .internal "branch destination without an expression" }

/-- A branch that takes more than its opcode goes to a label. -/
theorem Branch.isLabel_of_size? {b : Branch} {n : Nat} (h : b.size? = .ok n) (hn : n ≠ 1) :
    ∃ operand, b.destination = some operand ∧ operand.mode.isLabel = true := by
  have hany (hb : (!b.destination.any (·.mode.isLabel)) ≠ true) :
      ∃ operand, b.destination = some operand ∧ operand.mode.isLabel = true := by
    cases hd : b.destination with
    | none => simp [hd] at hb
    | some operand => exact ⟨operand, rfl, by simpa [hd] using hb⟩
  unfold Branch.size? at h
  split at h
  case h_4 =>
    split at h
    · cases h
    · rename_i hlabel
      exact hany hlabel
  case h_5 =>
    split at h
    · cases h
    · rename_i hlabel
      exact hany hlabel
  all_goals
    cases h
    exact absurd rfl hn

namespace Emission

variable {places : List (Location × Node)}
  (hJ : ∀ m n d, (m, n) ∈ places → Node.Lacks n d → J d)

include hJ

/-- The only thing that a command can lack is the expression of its operand in memory. -/
theorem telling_command {m receiverAt : Location} {receiver : Operand} {c : Command}
    (hmem : (m, Node.command receiver receiverAt c) ∈ places) :
    (telling J (Context.Settled places)).Holds (c.emit receiver receiverAt m) := by
  intro s
  refine telling_of_imp fun hs => ?_
  unfold Command.emit
  rw [Run.read_bind_apply]
  cases hat : s.state.selections.at? m with
  | none => exact (telling J _).refl s
  | some selection =>
    have hfits : c.Fits receiver receiverAt m selection := hs.records m _ hmem selection hat
    refine (writes_telling (Context.founded_settled places)).holds_selection selection c.pos
      (fun _ _ _ _ _ => trivial) ?_ s
    intro lead opcode side hencoding hnone
    obtain ⟨operand, location, hpick, hmemory⟩ := hfits lead opcode side hencoding
    refine telling_internal (hJ m _ _ hmem (.operand ?_ hmemory (hnone _ hpick)))
    refine Side.forall_pick (p := fun o : Command.Located => o.1 = receiver ∨
      c.argument = some o.1) (Or.inl rfl) (fun o ho => ?_) side selection.swapped _ hpick
    obtain ⟨arg, harg, rfl⟩ := Option.map_eq_some_iff.1 ho
    exact Or.inr harg

/-- The only thing that a branch can lack is the expression of its destination. -/
theorem telling_branch {m : Location} {b : Branch}
    (hmem : (m, Node.statement (.branch b)) ∈ places) :
    (telling J (Context.Settled places)).Holds (b.emit m) := by
  intro s
  refine telling_of_imp fun hs => ?_
  unfold Branch.emit
  rw [Run.read_bind_apply]
  cases hat : s.state.branches.at? m with
  | none => exact (telling J _).refl s
  | some size =>
    have hsize : b.size? = .ok size := hs.records m _ hmem size hat
    refine (writes_telling (Context.founded_settled places)).holds_sized b size (fun _ _ => trivial)
      (fun hopcode => ?_) (fun hone hnone => ?_) s
    · obtain ⟨opcode, ho, -⟩ := Branch.exists_opcode?_of_size? hsize
      rw [ho] at hopcode
      cases hopcode
    · obtain ⟨operand, hdestination, hlabel⟩ := Branch.isLabel_of_size? hsize hone
      rw [hdestination] at hnone
      exact telling_internal (hJ m _ _ hmem (.destination hdestination hlabel hnone))

end Emission

/-! ## The passes over a statement -/

namespace Statement

/-- Laying out a statement reports no internal error without a reason. -/
theorem telling_layOut (files : Files) (stmt : Statement) (location : Location) :
    (telling J (Context.Prepared (stmt.places location))).Holds (stmt.layOut files location) := by
  have hfounded := Context.founded_prepared (stmt.places location)
  have hsteps := Layout.steps_telling (J := J) hfounded (fun _ _ h => ⟨h.rom, h.scopes⟩)
    (fun _ _ h => ⟨h.rom, h.scopes⟩) fun _ _ h => ⟨h.rom, h.scopes⟩
  refine (Walk.lawful_layout files).holds_statement (scoped_telling hfounded.toBlind) stmt location
    (fun m kind statements pos hmem => ?_) fun m n _ hleaf => ?_
  · exact telling_scopeOf (fun ctx hctx => hctx.scopes m kind statements pos hmem) pos
  · refine hsteps.holds_act hleaf (fun name _ => ?_) trivial fun _ _ => trivial
    exact hsteps.holds_placeLabel name fun _ =>
      telling_update fun ctx hctx => hfounded.symbols ctx _ hctx

/-- Emitting a statement reports an internal error only for a node that lacks an expression. -/
theorem telling_emit (stmt : Statement) (location : Location)
    (hJ : ∀ m n d, (m, n) ∈ stmt.places location → Node.Lacks n d → J d) :
    (telling J (Context.Settled (stmt.places location))).Holds (stmt.emit location) := by
  have hfounded := Context.founded_settled (stmt.places location)
  refine Walk.lawful_emission.holds_statement (scoped_telling hfounded.toBlind) stmt location
    (fun m kind statements pos hmem => ?_) fun m n hmem hleaf => ?_
  · exact telling_scopeOf (fun ctx hctx => hctx.scopes m kind statements pos hmem) pos
  · refine (Emission.writes_telling hfounded).holds_act hleaf (fun _ _ => trivial) ?_ ?_
    · rintro receiver receiverAt c rfl
      exact Emission.telling_command hJ hmem
    · rintro b rfl
      exact Emission.telling_branch hJ hmem

end Statement

/-! ## Programs -/

namespace Program

/-- The gathering of a program starts the rom before anything else needs it. -/
theorem telling_gather (program : Program) : (telling J fun _ => True).Holds program.gather := by
  have hblind : Blind fun _ => True :=
    ⟨fun _ _ h => h, fun _ _ h => h, fun _ _ _ h => h, fun _ _ h => h, fun _ _ h => h⟩
  have hfounded : Founded fun ctx => ctx.rom.isSome = true :=
    { Gathering.blind_isSome with
      rom := fun _ h => h
      fill := fun _ _ _ => rfl }
  have hopens := Gathering.opens_telling (J := J) hblind
  unfold Program.gather block
  refine holds_bind ?_ fun _ => holds_read_bind fun _ => telling_note hblind _
  unfold Statement.gather
  refine holds_bind (Gathering.telling_openScope hblind _) fun scope =>
    holds_bind (telling_update fun _ _ => trivial) fun _ => (scoped_telling hblind).holds_within ?_
  refine holds_bind (hopens.holds_constants _) fun _ s => ?_
  have hinstall := hopens.holds_install (fun _ => telling_update fun _ _ => trivial)
    program.statements program.pos
    (Statement.covers_true _ (Statement.placesAll .top 0 program.statements))
  refine ends_bind (hinstall s) fun _ t ht => ?_
  obtain ⟨_, _, settings, u, -, -, -, rfl⟩ := Gathering.install_of_ok ht
  exact telling_of_start ((Gathering.allows_telling hfounded).nests.holds_gatherOthers
    program.statements .top 0 (fun _ _ _ _ => trivial) (Statement.covers_true _ _) _) rfl

/-- When a program was gathered the layout can rely on the rom and on the scopes. Nothing is
recorded for its commands and branches yet. -/
theorem settled_of_gather {program : Program} {config : Config} {t : Logged Context}
    (h : program.gather (start config) = .ok () t) :
    t.state.Settled (program.block.places .top) := by
  unfold Program.gather at h
  obtain ⟨_, u, hgather, hnote⟩ := Run.bind_eq_ok.1 h
  cases hnote
  have hblind : Blind fun ctx => ∀ m n, Node.Recorded ctx m n :=
    ⟨fun _ _ h => h, fun _ _ h => h, fun _ _ _ h => h, fun _ _ h => h, fun _ _ h => h⟩
  have hrecords : ∀ m n, Node.Recorded u.state m n := by
    refine ((hblind.allows (fun _ => True) (fun _ _ _ _ h => h) fun _ _ h => h).nests.holds_gather
      program.block .top (fun _ _ => trivial) (Statement.covers_true _ _)).rel_of_ok hgather ?_
    exact fun m n => n.recorded_of_none rfl rfl
  have hsettled : u.state.Settled (program.block.places .top) :=
    ⟨⟨Gathering.isSome_gather hgather, fun _ _ _ _ hmem =>
      Gathering.opened_gather program.block hgather hmem⟩, fun m n _ => hrecords m n⟩
  exact (Context.founded_settled _).notes _ _ hsettled

/-- The passes tell of no internal error but that a node lacks an expression. -/
theorem telling_passes (files : Files) (config : Config) (program : Program)
    (hJ : ∀ m n d, (m, n) ∈ program.block.places .top → Node.Lacks n d → J d) :
    (telling J fun _ => True).Ends (start config) (program.passes files (start config)) := by
  have hprepared := Context.founded_prepared (program.block.places .top)
  have hsettled := Context.founded_settled (program.block.places .top)
  have hlayOut : (telling J (Context.Prepared (program.block.places .top))).Holds
      (program.layOut files) :=
    holds_bind (Statement.telling_layOut files program.block .top) fun _ =>
      telling_update fun ctx hctx => hprepared.notes ctx _ hctx
  unfold passes
  refine ends_bind (program.telling_gather _) fun _ s hs => ?_
  have hstart := settled_of_gather hs
  refine ends_bind (telling_of_start (hlayOut s) hstart.toPrepared) fun _ t ht => ?_
  have hlaid : t.state.Settled (program.block.places .top) := by
    refine ⟨(hlayOut.rel_of_ok ht hstart.toPrepared).1, ?_⟩
    unfold Program.layOut at ht
    obtain ⟨_, u, hu, hnotes⟩ := Run.bind_eq_ok.1 ht
    cases hnotes
    have hrecords := Layout.recorded_layOut hu hstart.records
    exact fun m n hmem => (hrecords m n hmem).of_same ⟨rfl, rfl, rfl⟩
  -- From here on nothing changes of what the emission relies on.
  refine telling_of_start (holds_bind ?_ (fun _ => ?_) t) hlaid
  · exact telling_onRom hsettled (telling_update fun _ _ => trivial) _
  · refine holds_bind (program.block.telling_emit .top hJ) fun _ => ?_
    exact telling_onRom hsettled (holds_read_bind fun _ => holds_pure _ _) _

/-- What is reported by a compilation without an image is what its passes have told. -/
theorem tells_of_compile {files : Files} {config : Config} {program : Program} {f : Failure}
    (hJ : ∀ m n d, (m, n) ∈ program.block.places .top → Node.Lacks n d → J d)
    (h : (program.compile files config).result = .error f) {d : Diagnostic}
    (hd : d ∈ f.diagnostics) (hinternal : d.error.isInternal = true) : J d := by
  have hlog {log : Log} (htells : (start config).log.Tells J log)
      (hlogged : d ∈ log.entries) : J d := by
    obtain ⟨added, hadded, hreason⟩ := htells
    rw [hadded] at hlogged
    exact hreason d hlogged hinternal
  have hpasses := telling_passes files config program hJ
  unfold compile at h
  cases hr : program.passes files (start config) with
  | ok image t =>
    rw [hr] at hpasses h
    unfold ofRun at h
    dsimp only at h
    split at h
    · cases h
    · cases h
      exact hlog (hpasses trivial).2 hd
  | error x t =>
    rw [hr] at hpasses h
    cases h
    exact hlog (hpasses trivial) hd

/-- An internal error is reported only for a node that lacks an expression: a command with an
operand in memory, or a branch with a label as its destination. Its text and its position are those
of what the node lacks. So no pass ever misses the rom, the scope of a block or the opcode of a
branch. -/
theorem internal_of_lacking {files : Files} {config : Config} {program : Program} {f : Failure}
    (h : (program.compile files config).result = .error f) {d : Diagnostic}
    (hd : d ∈ f.diagnostics) (hinternal : d.error.isInternal = true) :
    (∃ m n, (m, n) ∈ program.block.places .top ∧ Node.Lacks n d) ∧
      d.error ≠ .internal "rom layout used before the ines header was resolved" ∧
      d.error ≠ .internal "block visited before its scope was gathered" ∧
      d.error ≠ .internal "branch without an opcode" := by
  obtain ⟨m, n, hmem, hlacks⟩ := tells_of_compile
    (J := fun d => ∃ m n, (m, n) ∈ program.block.places .top ∧ Node.Lacks n d)
    (fun m n d hmem hlacks => ⟨m, n, hmem, hlacks⟩) h hd hinternal
  refine ⟨⟨m, n, hmem, hlacks⟩, ?_⟩
  cases hlacks with
  | operand => simp
  | destination => simp

/-- A program that loads from nowhere. -/
def lacking : Program where
  statements :=
    [.header
        { settings :=
            [⟨{ text := "mapper" }, .number 0 {}⟩, ⟨{ text := "prg" }, .number 1 {}⟩,
              ⟨{ text := "chr" }, .number 1 {}⟩] },
      .relocation (.rom (some (.number 0 {})) (some (.number 0x8000 {}))) {},
      .block .scope
        [.command
          { receiver := { mode := .builtin .a }
            commands := [{ kind := .get, argument := some { mode := .direct } }] }] {}]

/-- The missing address is an internal error, and belongs to the command that lacks it. -/
theorem internal_of_lacking_load :
    ∃ f d, (lacking.compile (fun _ => .error .notFound) {}).result = .error f ∧
      d ∈ f.diagnostics ∧
      d.error = .internal "memory operand without an address expression" ∧
      ∃ m n, (m, n) ∈ lacking.block.places .top ∧ Node.Lacks n d := by
  have hrun : Run.stops (fun t => t.log.entries.any fun d =>
      d.error = .internal "memory operand without an address expression")
      (lacking.passes (fun _ => .error .notFound) (start {})) = true := by
    decide +kernel
  obtain ⟨x, t, ht, hany⟩ := Run.exists_of_stops hrun
  obtain ⟨d, hd, herror⟩ := List.any_eq_true.1 hany
  have herror := of_decide_eq_true herror
  have hresult : (lacking.compile (fun _ => .error .notFound) {}).result =
      .error (ofRun.failure t.log) := by
    rw [compile, ht]
    rfl
  refine ⟨_, d, hresult, hd, herror, (internal_of_lacking hresult hd ?_).1⟩
  rw [herror]
  rfl

end Program

end Cartridge
