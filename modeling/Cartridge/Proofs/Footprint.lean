import Cartridge.Proofs.GatherFrame
import Cartridge.Proofs.Names

/-!
# What the passes leave alone

Each pass over a statement may change a part of the context only, whether it finishes or is
abandoned halfway. All of them leave every scope that they have entered. The layout adds nothing to
the symbol table and writes no byte; the emission leaves the symbol table as it is and reserves
nothing.

Main definitions:

- `Run.stateAfter`: the state in which a run ends, however it ends.
- `Run.Frame.keeping`: the frame of runs that keep what is seen of the state.
- `Context.LaidOut` and `Context.Emitted`: what the layout and the emission may do to a context.

Main results:

- Theorem `Statement.passes_footprint`: the three passes over a statement, from every context and
  for both endings.
-/

namespace Cartridge

/-! ## Runs that keep a part of the state -/

namespace Run

variable {σ τ α β γ : Type}

/-- The state in which a run ends, whether it finishes or is abandoned. -/
def stateAfter (act : Run σ α) (s : Logged σ) : σ :=
  match act s with
  | .ok _ t => t.state
  | .error _ t => t.state

namespace Frame

/-- What a frame says of both endings holds of the state in which a run ends. -/
theorem Holds.stateAfter {F : Frame σ} {R : σ → σ → Prop} {act : Run σ α} (h : F.Holds act)
    (hrel : ∀ s t, F.rel s t → R s.state t.state)
    (habort : ∀ s t, F.abort s t → R s.state t.state) (s : Logged σ) :
    R s.state (act.stateAfter s) := by
  have hs := h s
  unfold Run.stateAfter
  cases hact : act s with
  | ok a t =>
    rw [hact] at hs
    exact hrel s t hs
  | error x t =>
    rw [hact] at hs
    exact habort s t hs

/-- The frame of runs that keep what is seen of the state, however they end. -/
def keeping (view : σ → β) : Frame σ :=
  .total (fun s t => view t.state = view s.state) (fun _ => rfl) fun hst htu => htu.trans hst

variable {view : σ → β}

/-- What is seen of the state is the same at the end of a run, however it ends. -/
theorem Holds.keeps {act : Run σ α} (h : (keeping view).Holds act) (s : Logged σ) :
    view (act.stateAfter s) = view s.state :=
  h.stateAfter (R := fun a b => view b = view a) (fun _ _ hst => hst) (fun _ _ hst => hst) s

theorem reports_keeping (e : Error) : (keeping view).Reports e :=
  reports_of_log (F := keeping view) (fun _ _ => rfl) (fun _ _ => rfl) e

/-- What a run over a part of the state keeps of that part is kept of the state. -/
theorem keeping_focus {part : τ → γ} {get : σ → τ} {put : τ → σ → σ} {act : Run τ α}
    (hput : ∀ s t, part t = part (get s) → view (put t s) = view s)
    (h : (keeping part).Holds act) : (keeping view).Holds (focus get put act) :=
  holds_focus (F := keeping view) (fun _ _ ht => hput _ _ ht) (fun _ _ ht => hput _ _ ht) h

end Frame

end Run

/-! ## What is seen of the rom -/

variable {α β : Type}

/-- What is seen of a rom: something of every bank, and the ram counter. -/
def Rom.view (seen : Bank → β) (rom : Rom) : Array β × Option Nat :=
  (rom.banks.map seen, rom.ram)

/-- What is seen of the rom of a context. -/
def Context.romView (seen : Bank → β) (ctx : Context) : Option (Array β × Option Nat) :=
  ctx.rom.map (Rom.view seen)

/-- A bank may be replaced by one that looks the same. -/
theorem Rom.view_setBank {seen : Bank → β} {rom : Rom} {i : Nat} {b : Bank}
    (h : seen b = seen (rom.bank i)) : (rom.setBank i b).view seen = rom.view seen := by
  have hbanks : (rom.banks.setIfInBounds i b).map seen = rom.banks.map seen := by
    rw [Array.map_setIfInBounds, h, ← Array.map_setIfInBounds]
    exact congrArg (fun r : Rom => r.banks.map seen) (rom.setBank_bank i)
  exact congrArg (fun banks => (banks, rom.ram)) hbanks

namespace Run.Frame

variable {seen : Bank → β}

/-- A run over one bank that keeps what is seen of it keeps what is seen of the rom. -/
theorem keeping_romBank {act : Run Bank α} (h : (keeping seen).Holds act) (i : Nat) :
    (keeping (Rom.view seen)).Holds (Rom.onBank i act) :=
  keeping_focus (fun _ _ hb => Rom.view_setBank hb) h

/-- A run over the rom that keeps what is seen of it keeps what is seen of it in the context. -/
theorem keeping_onRom {act : Run Rom α} (h : (keeping (Rom.view seen)).Holds act)
    (pos : Position) : (keeping (Context.romView seen)).Holds (Pass.onRom pos act) := by
  have hrel : ∀ (s : Logged Context) rom (t : Logged Rom), s.state.rom = some rom →
      (keeping (Rom.view seen)).rel { state := rom, log := s.log } t →
      (keeping (Context.romView seen)).rel s
        { state := { s.state with rom := some t.state }, log := t.log } := by
    intro s rom t hrom ht
    show some (t.state.view seen) = s.state.rom.map (Rom.view seen)
    rw [hrom, Option.map_some]
    exact congrArg some ht
  exact holds_onRom reports_keeping hrel hrel h pos

/-- A run over the active bank keeps of the rom what it keeps of that bank. -/
theorem keeping_onBank {act : Run Bank α} (h : (keeping seen).Holds act) (what : String)
    (pos : Position) : (keeping (Context.romView seen)).Holds (Pass.onBank what pos act) := by
  refine keeping_onRom (holds_read_bind fun rom => ?_) pos
  split
  · exact (reports_keeping _).holds_fatal _
  · exact keeping_romBank h _

/-- Which bank is active is not seen. -/
theorem keeping_switchBank (index : UInt16) (pos : Position) :
    (keeping (Rom.view seen)).Holds (Rom.switchBank index pos) :=
  holds_switchBank (F := keeping (Rom.view seen)) (fun e _ => reports_keeping e) (fun _ _ => rfl)
    index pos

/-- Asking for the program counter changes nothing. -/
theorem keeping_programCounter (what : String) (missing : Error) (pos : Position) :
    (keeping (Context.romView seen)).Holds (Pass.programCounter what missing pos) := by
  refine keeping_onBank (holds_read_bind fun b => ?_) what pos
  split
  · exact (reports_keeping _).holds_fatal _
  · exact holds_pure _ _

/-- Scopes and folds are not seen in the rom. -/
theorem scoped_romView : (keeping (Context.romView seen)).Scoped :=
  ⟨fun _ _ _ h => h, fun _ _ _ h => h⟩

/-- A fold does not touch the rom. -/
theorem keeping_romView_fold (demand : Demand) (m : Location) (e : Expr) :
    (keeping (Context.romView seen)).Holds (Pass.fold demand m e) :=
  holds_fold_of_blind (F := keeping (Context.romView seen)) (fun _ _ _ => rfl) (fun _ _ _ => rfl)
    _ _ _

end Run.Frame

/-! ## The bytes of the banks -/

/-- The layout changes no byte of a bank, and leaves the ram counter alone. -/
theorem Layout.allows_keeping :
    Allows (.keeping (Context.romView Bank.data)) (fun _ => True) (fun _ _ => True)
      (fun _ => True) where
  reports e _ := Run.Frame.reports_keeping e
  internal _ := Run.Frame.reports_keeping _
  scopes := Run.Frame.scoped_romView
  fold demand m e _ := Run.Frame.keeping_romView_fold demand m e
  reserve _ _ _ _ := Run.Frame.keeping_onBank (Run.Frame.holds_expand
    (fun e _ => Run.Frame.reports_keeping e) (fun _ _ hb => hb) _ _) _ _
  counter what missing pos _ := Run.Frame.keeping_programCounter what missing pos
  switch index pos := Run.Frame.keeping_onRom (Run.Frame.keeping_switchBank index pos) pos
  org _ _ := Run.Frame.keeping_onBank (Run.Frame.holds_org
    (fun e _ => Run.Frame.reports_keeping e) (fun _ _ hb => hb) _ _) _ _
  note _ := Run.Frame.holds_update fun _ => rfl
  selections _ _ _ := Run.Frame.holds_update fun _ => rfl
  branches _ _ _ := Run.Frame.holds_update fun _ => rfl
  contents _ _ _ := Run.Frame.holds_update fun _ => rfl
  place _ _ _ := Run.Frame.holds_update fun _ => rfl

/-! ## The space of the banks -/

namespace Bank

/-- Where a bank starts, and how much of it is reserved. -/
def space (b : Bank) : Option UInt16 × Nat :=
  (b.origin, b.reserved)

/-- A bank may change in everything but its origin and its reservation. -/
theorem keeping_space (s : Logged Bank) (b : Bank) (ho : b.origin = s.state.origin)
    (hr : b.reserved = s.state.reserved) :
    (Run.Frame.keeping space).rel s { s with state := b } := by
  show (b.origin, b.reserved) = (s.state.origin, s.state.reserved)
  rw [ho, hr]

end Bank

/-- The emission leaves the origins and the reservations of the banks and the ram counter alone. -/
theorem Emission.allows_keeping :
    Allows (.keeping (Context.romView Bank.space)) (fun _ _ => True) where
  reports e _ := Run.Frame.reports_keeping e
  internal _ := Run.Frame.reports_keeping _
  scopes := Run.Frame.scoped_romView
  fold m e _ := Run.Frame.keeping_romView_fold _ m e
  byte _ _ := Run.Frame.keeping_onBank (Run.Frame.holds_writeByte
    (fun e _ => Run.Frame.reports_keeping e) Bank.keeping_space _ _) _ _
  word _ _ := Run.Frame.keeping_onBank (Run.Frame.holds_writeBytes
    (fun e _ => Run.Frame.reports_keeping e) Bank.keeping_space _ _) _ _
  bytes _ _ := Run.Frame.keeping_onBank (Run.Frame.holds_writeBytes
    (fun e _ => Run.Frame.reports_keeping e) Bank.keeping_space _ _) _ _
  counter what missing pos _ := Run.Frame.keeping_programCounter what missing pos
  switch index pos := Run.Frame.keeping_onRom (Run.Frame.keeping_switchBank index pos) pos
  seek _ _ := Run.Frame.keeping_onBank (Run.Frame.holds_seek
    (fun e _ => Run.Frame.reports_keeping e) Bank.keeping_space _ _) _ _

/-! ## The entered scopes -/

namespace Context

/-- The scopes that are entered, the innermost first. -/
def entered (ctx : Context) : List ScopeId :=
  ctx.symbols.stack

end Context

namespace Gathering

open Run.Frame

/-- A run over the symbol table keeps the entered scopes if it keeps the table's own. -/
theorem keeping_onSymbols {act : Run SymbolTable α} (h : (keeping SymbolTable.stack).Holds act) :
    (keeping Context.entered).Holds (Pass.onSymbols act) :=
  keeping_focus (fun _ _ ht => ht) h

/-- A run over the rom does not touch the symbol table. -/
theorem keeping_entered_onRom (pos : Position) (act : Run Rom α) :
    (keeping Context.entered).Holds (Pass.onRom pos act) :=
  holds_onRom_of_blind (F := keeping Context.entered) reports_keeping (fun _ _ _ => rfl)
    (fun _ _ _ => rfl) pos act

/-- A scope that was entered is the one that is left. -/
theorem scoped_entered : (keeping Context.entered).Scoped := by
  have hrel : ∀ scope (s t : Logged Context),
      (keeping Context.entered).rel { s with state := s.state.enter scope } t →
        (keeping Context.entered).rel s { t with state := t.state.exit } := by
    intro scope s t (hst : t.state.symbols.stack = scope :: s.state.symbols.stack)
    show t.state.symbols.stack.tail = s.state.symbols.stack
    rw [hst, List.tail_cons]
  exact ⟨hrel, hrel⟩

/-- The gathering leaves the scopes that it enters. -/
theorem allows_keeping :
    Allows (.keeping Context.entered) (fun _ => True) (fun _ _ => True) := by
  have hreports : ∀ name previous,
      (keeping SymbolTable.stack).Reports (.redefinition name previous) :=
    fun _ _ => reports_keeping _
  have hput : ∀ name pos meaning,
      (keeping Context.entered).Holds (Pass.onSymbols (SymbolTable.put name pos meaning)) :=
    fun _ _ _ => keeping_onSymbols (holds_put hreports (fun _ _ ht => ht) _ _ _)
  exact
    { reports := fun e _ => reports_keeping e
      scopes := scoped_entered
      fold := fun _ _ _ => holds_fold_of_blind (F := keeping Context.entered) (fun _ _ _ => rfl)
        (fun _ _ _ => rfl) _ _ _
      note := fun _ => holds_update fun _ => rfl
      openScope := holds_openScope
        (fun _ => keeping_onSymbols (holds_createScope (fun _ _ ht => ht) _))
        fun _ => keeping_onSymbols (holds_createPackage hreports (fun _ _ ht => ht) _)
      record := fun _ _ _ => holds_update fun _ => rfl
      constant := holds_declare hput
      label := fun _ name _ => holds_declareLabel hput (fun _ => holds_update fun _ => rfl) name
      allocate := fun _ _ _ _ => keeping_entered_onRom _ _
      storage := fun _ _ _ => hput _ _ _
      moveRam := fun _ _ => keeping_entered_onRom _ _
      startRom := fun _ => holds_update fun _ => rfl }

end Gathering

/-! ## The three passes -/

namespace Context

/-- What the layout of a statement at a location may do to a context. The scopes stay, and of the
definitions only those of the labels inside the statement may change, in their addresses alone. No
byte of a bank changes, and the ram counter stays. -/
structure LaidOut (location : Location) (s t : Context) : Prop
    extends s.SameNames location.Under t where
  entered : t.entered = s.entered
  count : t.symbols.size = s.symbols.size
  bytes : t.romView Bank.data = s.romView Bank.data

/-- What the emission of a statement may do to a context. The symbol table stays as it is, and so do
the origins and the reservations of the banks and the ram counter. -/
structure Emitted (s t : Context) : Prop where
  symbols : t.symbols = s.symbols
  space : t.romView Bank.space = s.romView Bank.space

/-- Placing labels makes no definition. -/
theorem SameNames.size_eq {P : Location → Prop} {s t : Context} (h : s.SameNames P t) :
    t.symbols.size = s.symbols.size := by
  have hundefined : ∀ i, t.symbols.definitions.size ≤ i ↔ s.symbols.definitions.size ≤ i := by
    intro i
    rw [← Array.getElem?_eq_none_iff, ← Array.getElem?_eq_none_iff]
    show t.symbols.definition? ⟨i⟩ = none ↔ s.symbols.definition? ⟨i⟩ = none
    rcases h.definition ⟨i⟩ with heq | ⟨-, d, before, after, -, hs, ht⟩
    · rw [heq]
    · simp [hs, ht]
  exact Nat.le_antisymm ((hundefined _).2 (Nat.le_refl _)) ((hundefined _).1 (Nat.le_refl _))

/-- Where no label may be placed, the symbol table stays as it is. -/
theorem SameNames.symbols_eq {s t : Context} (h : s.SameNames (fun _ => False) t)
    (hentered : t.entered = s.entered) : t.symbols = s.symbols := by
  have hdefinitions : t.symbols.definitions = s.symbols.definitions := by
    refine Array.ext_getElem? fun i => ?_
    show t.symbols.definition? ⟨i⟩ = s.symbols.definition? ⟨i⟩
    exact h.definition_of_ne fun _ hfalse => hfalse.elim
  have htable := h.table
  unfold entered at hentered
  cases ht : t.symbols with
  | mk scopes definitions stack =>
    rw [ht] at hdefinitions htable hentered
    subst hdefinitions htable hentered
    rfl

end Context

/-- Whatever the statement, the context and the files are, and whether a pass finishes or is
abandoned: all passes leave the scopes that they enter, the layout declares nothing and writes
nothing, and the emission declares nothing, places no label and reserves nothing. -/
theorem Statement.passes_footprint (stmt : Statement) (files : Files) (location : Location)
    (s : Logged Context) :
    (Run.stateAfter (stmt.gather location) s).entered = s.state.entered ∧
      s.state.LaidOut location (Run.stateAfter (stmt.layOut files location) s) ∧
      s.state.Emitted (Run.stateAfter (stmt.emit location) s) := by
  refine ⟨?_, ?_, ?_⟩
  · have hgather := Gathering.allows_keeping.nests.holds_gather stmt location
      (fun _ _ => trivial) (Statement.covers_true _ _)
    exact hgather.keeps s
  · have hnames : (Run.Frame.naming location.Under).Holds (stmt.layOut files location) :=
      (Layout.allows_naming location.Under).nests.holds_layOut (fun _ _ => trivial) stmt location
        (fun _ hm => hm) (Statement.covers_true _ _) fun _ _ => trivial
    have hbytes : (Run.Frame.keeping (Context.romView Bank.data)).Holds
        (stmt.layOut files location) :=
      Layout.allows_keeping.nests.holds_layOut (fun _ _ => trivial) stmt location
        (fun _ _ => trivial) (Statement.covers_true _ _) fun _ _ => trivial
    obtain ⟨hsame, hentered⟩ := hnames.stateAfter
      (R := fun a b : Context => a.SameNames location.Under b ∧ b.entered = a.entered)
      (fun _ _ h => h) (fun _ _ h => h) s
    exact ⟨hsame, hentered, hsame.size_eq, hbytes.keeps s⟩
  · have hnames := (Emission.allows_naming fun _ => False).nests.holds_emit stmt location
      (Statement.covers_true _ _)
    have hspace := Emission.allows_keeping.nests.holds_emit stmt location
      (Statement.covers_true _ _)
    obtain ⟨hsame, hentered⟩ := hnames.stateAfter
      (R := fun a b : Context => a.SameNames (fun _ => False) b ∧ b.entered = a.entered)
      (fun _ _ h => h) (fun _ _ h => h) s
    exact ⟨hsame.symbols_eq hentered, hspace.keeps s⟩

end Cartridge
