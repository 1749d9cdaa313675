import Cartridge.Proofs.Agreement
import Cartridge.Proofs.Bounds
import Cartridge.Proofs.EmissionFrame

/-!
# Safety

The passes never leave the bounds, whatever the program is: every pass is a path of steps that keep
them, up to the end of the pass or up to the moment at which it is abandoned. This is shown for the
operations on banks, roms and tables first, then for those on contexts that use them, and by the
frames of the three passes for every visit to the tree.

Main definitions:

- `Bank.system`, `Rom.system`, `SymbolTable.system` and `Context.system`: the steps, with the bounds
  that they keep.
- `Bank.Abandoned`, `Rom.Abandoned` and `Context.Abandoned`: what is left behind when a pass is
  abandoned.
- `Visit.Along`: a visit that a run inside a frame comes by.
- `Program.Reaches`: the states that a pass of a compilation can come to in steps.

Main results:

- Theorems `Gathering.nests_system`, `Layout.nests_system` and `Emission.nests_system`: the passes
  go in steps.
- Theorem `Program.reaches_of_course`: so do all their visits.
- Theorem `Program.stays_in_bounds`: the passes stay in bounds.
-/

namespace Cartridge

open Run

/-! ## Systems -/

/-- Results are remembered one by one. -/
def Memo.system : System Memo where
  step a b := ∃ site folded, b = a.set site folded
  safe _ := True
  left := Eq
  keeps _ _ := trivial
  left_refl _ := rfl

/-- Declarations are gathered one by one. -/
def SymbolTable.system : System SymbolTable where
  step := Step
  safe := Closed
  left := Eq
  keeps := Closed.step
  left_refl _ := rfl

/-- What a run over a bank that is abandoned leaves behind: the bank of its last moment, or, if the
layout has found out that the bank is full, that bank with the amount that was refused. -/
inductive Bank.Abandoned (b : Bank) : Phase → Bank → Prop
  | unchanged (phase : Phase) : Abandoned b phase b
  | overflow {origin : UInt16} {n : Nat} (h : b.origin = some origin)
      (space : origin.toNat + b.position + n ≤ addressSpace) (full : bankSize < b.reserved + n) :
      Abandoned b .layout { b with reserved := b.reserved + n, position := b.position + n }

/-- Space is reserved in a bank and bytes are written into it. -/
def Bank.system (phase : Phase) : System Bank where
  step b := b.Step phase
  safe := InBounds phase
  left b := b.Abandoned phase
  keeps := InBounds.step
  left_refl _ := .unchanged phase

/-- What a run over a rom that is abandoned leaves behind: the rom of its last moment, or that rom
with what was left behind of its active bank. -/
inductive Rom.Abandoned (rom : Rom) (phase : Phase) : Rom → Prop
  | unchanged : Abandoned rom phase rom
  | bank {i : Nat} {b : Bank} (active : rom.active = some i)
      (left : (rom.bank i).Abandoned phase b) : Abandoned rom phase (rom.setBank i b)

/-- A rom changes in its active bank, or at its counters. -/
def Rom.system (phase : Phase) : System Rom where
  step rom := rom.Step phase
  safe := InBounds phase
  left rom := rom.Abandoned phase
  keeps := InBounds.step
  left_refl _ := .unchanged

/-- What a pass that is abandoned leaves behind: the context of its last moment, with the scopes
left that it was in, and with what was left behind of the rom. -/
structure Context.Abandoned (phase : Phase) (c c' : Context) : Prop where
  same : c' = { c with symbols := { c.symbols with stack := c'.symbols.stack }, rom := c'.rom }
  stack : c'.symbols.stack <:+ c.symbols.stack
  rom : c'.rom = c.rom ∨ ∃ rom rom', c.rom = some rom ∧ c'.rom = some rom' ∧
    rom.Abandoned phase rom'

theorem Context.Abandoned.refl (phase : Phase) (c : Context) : c.Abandoned phase c :=
  ⟨rfl, List.suffix_rfl, .inl rfl⟩

/-- A context changes in its table, in its rom, and in what is recorded. -/
def Context.system (phase : Phase) : System Context where
  step c := c.Step phase
  safe := InBounds phase
  left := Abandoned phase
  keeps := InBounds.step
  left_refl := .refl phase

/-! ## Banks -/

namespace Bank

variable {phase : Phase}

/-- A bank that is expanded stays in bounds: an amount below 2³¹ cannot wrap the sum that is
compared with the size. -/
theorem holds_expand {n : Nat} (hn : n < 0x80000000) (pos : Position) :
    (system .layout).frame.Holds (expand n pos) := by
  intro s
  refine System.ends_of_safe fun hs => ?_
  have hs : s.state.InBounds .layout := hs
  unfold expand
  rw [read_bind_apply]
  cases ho : s.state.origin with
  | none => exact (System.reports _ _).holds_fatal pos s
  | some origin =>
    have hle := hs.counter_le ho
    have hreserved := hs.reserved
    have hcursor := hs.cursor nofun
    simp only [addressSpace, bankSize] at hle hreserved
    have hexact : (s.state.reserved + n) % 0x10000000000000000 = s.state.reserved + n :=
      Nat.mod_eq_of_lt (by omega)
    simp only [hcursor, hexact]
    split
    · exact (System.reports _ _).holds_fatal pos s
    · rename_i hspace
      rw [update_bind_apply]
      split
      -- The counters have moved when the overflow is seen, so the last moment is the one before.
      · rename_i hfull
        have hleft := Abandoned.overflow ho (n := n) (by omega) hfull
        rw [hcursor] at hleft
        exact fun _ => ⟨s, .refl, hleft, _, pos, .inl rfl⟩
      · rename_i hroom
        have hstep := Step.reserve ho (n := n) (by omega) (Nat.not_lt.1 hroom)
        rw [hcursor] at hstep
        exact fun _ => .of_step hstep

/-- The first origin is only set; a later one expands the bank up to it. -/
theorem holds_org (address : UInt16) (pos : Position) :
    (system .layout).frame.Holds (org address pos) := by
  intro s
  unfold org
  rw [read_bind_apply]
  cases hc : s.state.programCounter? with
  | none => exact fun _ => .of_step (.setOrigin address (Option.map_eq_none_iff.1 hc))
  | some current =>
    dsimp only
    split
    · exact (System.reports _ _).holds_fatal pos s
    · have hlt := address.toNat_lt
      exact holds_expand (by omega) pos s

/-- Seeking moves the position only as far as the reserved size. -/
theorem holds_seek (address : UInt16) (pos : Position) :
    (system .emission).frame.Holds (seek address pos) := by
  intro s
  unfold seek
  rw [read_bind_apply]
  cases ho : s.state.origin with
  | none => exact (System.reports _ _).holds_fatal pos s
  | some origin =>
    dsimp only
    split
    · exact (System.reports _ _).holds_fatal pos s
    · rename_i hin
      obtain ⟨habove, hinside⟩ := not_or.1 hin
      exact fun _ => .of_step (.seek ho (UInt16.not_lt.1 habove) (Nat.not_lt.1 hinside))

/-- A run that comes after the check that there is room. -/
theorem ends_ensure {α : Type} {n : Nat} {pos : Position} {next : Unit → Run Bank α}
    {s : Logged Bank}
    (h : s.state.position + n ≤ s.state.reserved → (system phase).frame.Ends s (next () s)) :
    (system phase).frame.Ends s ((ensure n pos >>= next) s) := by
  refine Frame.ends_bind ?_ fun _ t ht => ?_
  · unfold ensure
    rw [read_bind_apply]
    split
    · exact (System.reports _ _).holds_fatal pos s
    · exact Frame.holds_pure _ _ s
  · obtain ⟨hle, rfl⟩ := ensure_eq_ok.1 ht
    exact h hle

/-- Bytes are written only after the check that they fit into what was reserved. -/
theorem holds_writeBytes (bytes : List UInt8) (pos : Position) :
    (system .emission).frame.Holds (writeBytes bytes pos) :=
  fun _ => ends_ensure fun hle _ => .of_step (.store hle)

/-- A value that is no byte is reported, and one byte is still written where there is room. -/
theorem holds_writeByte (value : UInt16) (pos : Position) :
    (system .emission).frame.Holds (writeByte value pos) := by
  intro s
  refine ends_ensure fun hle => ?_
  unfold checkByte
  split
  · refine Frame.ends_bind ((System.reports _ _).holds_error pos s) fun _ t ht => ?_
    obtain ⟨-, rfl⟩ := error_eq_ok.1 ht
    exact fun _ => .of_step (.store hle)
  · exact fun _ => .of_step (.store hle)

end Bank

/-! ## Roms -/

namespace Rom

variable {phase : Phase}

/-- A run over the active bank. -/
theorem ends_onBank {α : Type} {act : Run Bank α} (h : (Bank.system phase).frame.Holds act)
    {s : Logged Rom} {i : Nat} (hi : s.state.active = some i) :
    (system phase).frame.Ends s (onBank i act s) := by
  refine System.ends_of_safe fun hs => ?_
  have hs : s.state.InBounds phase := hs
  have hself := fun a => bank_setBank_self (b := a) (hs.active i hi)
  -- The bank is put back as a whole, over whatever an earlier step has put there.
  refine System.ends_focus (N := Bank.system phase) (h _) (hs.bank i) (s.state.setBank_bank i)
    (fun a b _ hstep => ?_) fun a b hleft => ?_
  · show (s.state.setBank i a).Step phase (s.state.setBank i b)
    rw [← setBank_setBank s.state i a b]
    refine .bank hi ?_
    rw [hself]
    exact hstep
  · show (s.state.setBank i a).Abandoned phase (s.state.setBank i b)
    rw [← setBank_setBank s.state i a b]
    refine .bank hi ?_
    rw [hself]
    exact hleft

/-- Switching selects a bank that exists, or fails and leaves the rom as it was. -/
theorem holds_switchBank (index : UInt16) (pos : Position) :
    (system phase).frame.Holds (switchBank index pos) := by
  intro s
  unfold switchBank
  rw [read_bind_apply]
  split
  · exact (System.reports _ _).holds_fatal pos s
  · rename_i hlt
    exact fun _ => .of_step (.switchBank (Nat.not_le.1 hlt))

/-- The ram pointer stays in its area: a positive amount below 2¹⁷ cannot wrap past the check. -/
theorem holds_expandRam {n : Nat} (hpos : 0 < n) (hn : n < 0x20000) (pos : Position) :
    (system .gathering).frame.Holds (expandRam n pos) := by
  intro s
  refine System.ends_of_safe fun hs => ?_
  have hs : s.state.InBounds .gathering := hs
  unfold expandRam
  rw [read_bind_apply]
  cases hram : s.state.ram with
  | none => exact (System.reports _ _).holds_fatal pos s
  | some counter =>
    have hle := hs.ram counter hram
    simp only [addressSpace] at hle
    have hexact : (counter + n) % 0x100000000 = counter + n := Nat.mod_eq_of_lt (by omega)
    simp only [hexact]
    split
    · exact (System.reports _ _).holds_fatal pos s
    · rename_i hspace
      exact fun _ => .of_step (.allocate hram hpos (Nat.not_lt.1 hspace))

end Rom

/-! ## Symbol tables -/

namespace SymbolTable

/-- Entering a meaning keeps the table sound if the scope in it exists. -/
theorem ends_put {s : Logged SymbolTable} {meaning : Meaning}
    (hm : ∀ scope ∈ meaning.scope?, scope.index < s.state.scopes.size) (name : String)
    (pos : Option Position) : system.frame.Ends s (put name pos meaning s) := by
  refine System.ends_of_safe fun hs => ?_
  have hs : s.state.Closed := hs
  have hdefine : s.state.Step (s.state.define { name, pos, meaning, owner := s.state.current }) :=
    .define _ ⟨hs.current, hm⟩
  unfold put
  cases hb : s.state.binding? s.state.current name with
  | none =>
    have hreport : reportRedefinition name pos s = .ok () s := by
      unfold reportRedefinition
      rw [read_bind_apply, hb]
      rfl
    rw [bind_apply_of_ok hreport]
    exact fun _ => .of_step hdefine
  | some previous =>
    have hreport : reportRedefinition name pos s =
        error (.redefinition name (s.state.placeOf previous)) (pos.getD {}) s := by
      unfold reportRedefinition
      rw [read_bind_apply, hb]
    refine Frame.ends_bind ?_ fun _ t ht => ?_
    · rw [hreport]
      exact (System.reports _ _).holds_error _ s
    · obtain ⟨-, rfl⟩ := error_eq_ok.1 (hreport.symm.trans ht)
      exact fun _ => .of_step hdefine

/-- A scope that was added is one of the table. -/
theorem nextScope_lt (t : SymbolTable) (parent : ScopeId) :
    t.nextScope.index < (t.addScope parent).scopes.size :=
  Nat.lt_of_lt_of_eq (Nat.lt_succ_self _) (Array.size_push _).symm

/-- The number that the next definition gets is in range once it is defined. -/
theorem nextDef_lt (t : SymbolTable) (d : Definition) : t.nextDef.index < (t.define d).size :=
  Nat.lt_of_lt_of_eq (Nat.lt_succ_self _) (t.size_define d).symm

/-- A new scope hangs from one that exists. -/
theorem ends_createScope {s : Logged SymbolTable} {parent : ScopeId}
    (h : parent.index < s.state.scopes.size) :
    system.frame.Ends s (createScope parent s) :=
  fun _ => .of_step (.addScope _ h)

/-- A package is a scope together with its entry in the parent. -/
theorem holds_createPackage (name : Name) : system.frame.Holds (createPackage name) := by
  intro s
  refine System.ends_of_safe fun hs => ?_
  have hs : s.state.Closed := hs
  unfold createPackage
  rw [read_bind_apply]
  refine Frame.ends_bind (ends_createScope hs.current) fun scope t ht => ?_
  cases ht
  have hscope := s.state.nextScope_lt s.state.current
  refine Frame.ends_bind (ends_put ?_ _ _) fun id u hu => ?_
  · rintro _ ⟨⟩
    exact hscope
  · obtain ⟨rfl, hu, -⟩ := put_of_ok hu
    have hsize : u.state.scopes.size = (s.state.addScope s.state.current).scopes.size := by
      rw [hu, scopes_define]
    refine fun _ => .of_step (.setPackage _ (hsize ▸ hscope) ?_)
    rw [hu]
    exact nextDef_lt _ _

end SymbolTable

/-! ## Contexts -/

namespace Context

variable {α : Type} {phase : Phase}

theorem holds_note (n : Note) : (system phase).frame.Holds (Pass.note n) :=
  System.holds_update fun _ _ => .note _

/-- What is in bounds for a rom is in bounds for the context that holds it. -/
theorem holds_onRom {act : Run Rom α} (h : (Rom.system phase).frame.Holds act) (pos : Position) :
    (system phase).frame.Holds (Pass.onRom pos act) := by
  intro s
  refine System.ends_of_safe fun hs => ?_
  have hs : s.state.InBounds phase := hs
  unfold Pass.onRom
  rw [read_bind_apply]
  cases hrom : s.state.rom with
  | none => exact (System.reports _ _).holds_fatal pos s
  | some rom =>
    refine System.ends_focus (N := Rom.system phase) (h _) (hs.rom rom hrom) ?_
      (fun _ _ _ hstep => .rom rfl hstep) fun a b hleft =>
        ⟨rfl, List.suffix_rfl, .inr ⟨a, b, rfl, rfl, hleft⟩⟩
    rw [← hrom]

/-- What is in bounds for a bank is in bounds for the context, through the rom's current bank. -/
theorem holds_onBank {act : Run Bank α} (h : (Bank.system phase).frame.Holds act) (what : String)
    (pos : Position) : (system phase).frame.Holds (Pass.onBank what pos act) := by
  refine holds_onRom (fun s => ?_) pos
  rw [read_bind_apply]
  cases hi : s.state.active with
  | none => exact (System.reports _ _).holds_fatal pos s
  | some i => exact Rom.ends_onBank h hi

/-- Asking for the program counter changes nothing. -/
theorem holds_programCounter (what : String) (missing : Error) (pos : Position) :
    (system phase).frame.Holds (Pass.programCounter what missing pos) := by
  refine holds_onBank (Frame.holds_read_bind fun b => ?_) what pos
  split
  · exact (System.reports _ _).holds_fatal pos
  · exact Frame.holds_pure _ _

/-- Folding an expression remembers results. -/
theorem holds_fold (demand : Demand) (anchor : Anchor) (e : Expr) :
    (system phase).frame.Holds (Pass.foldAt demand anchor e) := by
  have hmemo (t : SymbolTable) (scope : ScopeId) :
      Memo.system.frame.Holds (t.fold demand scope anchor e) :=
    SymbolTable.holds_fold (S := fun _ => True) (fun e _ => System.reports _ e)
      (fun site _ _ _ folded _ h hs => (h hs).tail (.step (M := Memo.system) ⟨site, folded, rfl⟩))
      (fun _ _ _ => trivial) (fun _ => trivial) trivial scope e
  refine Frame.holds_read_bind fun ctx => Frame.holds_bind (fun s => ?_) fun _ =>
    Frame.holds_pure _ _
  refine System.ends_focus (N := Memo.system) (hmemo _ _ _) trivial rfl ?_ ?_
  · rintro a _ - ⟨site, folded, rfl⟩
    exact Step.remember (c := { s.state with memo := a }) site folded
  · rintro a _ rfl
    exact .refl phase _

/-- What keeps the symbol table sound keeps the context in bounds. -/
theorem ends_onSymbols {act : Run SymbolTable α} {s : Logged Context}
    (h : s.state.InBounds .gathering → SymbolTable.system.frame.Ends
      { state := s.state.symbols, log := s.log } (act { state := s.state.symbols, log := s.log })) :
    (system .gathering).frame.Ends s (Pass.onSymbols act s) := by
  refine System.ends_of_safe fun hs => ?_
  refine System.ends_focus (N := SymbolTable.system) (h hs) (InBounds.symbols hs) rfl
    (fun _ _ _ hstep => .declare hstep) ?_
  rintro a _ rfl
  exact .refl .gathering _

/-- Declaring a constant refers to the current scope, which exists. -/
theorem holds_declare (name : Name) (value : Expr) :
    (system .gathering).frame.Holds (Expr.declare name value) := by
  intro s
  unfold Expr.declare
  rw [read_bind_apply]
  refine Frame.ends_bind (ends_onSymbols fun hs => SymbolTable.ends_put ?_ _ _) fun _ t _ =>
    Frame.holds_pure _ _ t
  rintro _ ⟨⟩
  exact hs.symbols.current

/-- Declaring a label refers to no scope at all. -/
theorem holds_declareLabel (m : Location) (name : Name) :
    (system .gathering).frame.Holds (name.declareLabel m) := by
  intro s
  refine Frame.ends_bind (ends_onSymbols fun _ => SymbolTable.ends_put (by rintro _ ⟨⟩) _ _)
    fun id t ht => ?_
  obtain ⟨u, hu, rfl⟩ := Gathering.onSymbols_eq_ok.1 ht
  obtain ⟨rfl, hdefine, -⟩ := SymbolTable.put_of_ok hu
  refine fun _ => .of_step (.recordLabel m ?_)
  show _ < u.state.size
  rw [hdefine]
  exact SymbolTable.nextDef_lt _ _

/-- A variable takes its addresses from the ram that is left. -/
theorem holds_allocate {size : Nat} (hpos : 0 < size) (hlt : size < 0x20000) (pos : Position) :
    (system .gathering).frame.Holds (Variables.allocate size pos) := by
  refine holds_onRom (Frame.holds_read_bind fun rom => ?_) pos
  split
  · exact (System.reports _ _).holds_fatal pos
  · exact Frame.holds_bind (Rom.holds_expandRam hpos hlt pos) fun _ => Frame.holds_pure _ _

/-- A scope that was opened is one of the table. -/
theorem ends_openScope (kind : BlockKind) (s : Logged Context) :
    (system .gathering).frame.Ends s (kind.openScope s) := by
  have hscope : (system .gathering).frame.Ends s
      (Pass.onSymbols (SymbolTable.createScope s.state.symbols.current) s) :=
    ends_onSymbols fun hs => SymbolTable.ends_createScope hs.symbols.current
  cases kind with
  | main => exact hscope
  | scope => exact hscope
  | package name => exact ends_onSymbols fun _ => SymbolTable.holds_createPackage name _

/-- The scope that a block opens exists afterwards. -/
theorem openScope_lt {kind : BlockKind} {s t : Logged Context} {scope : ScopeId}
    (h : kind.openScope s = .ok scope t) : scope.index < t.state.symbols.scopes.size := by
  have hscope (h : Pass.onSymbols (SymbolTable.createScope s.state.symbols.current) s =
      .ok scope t) : scope.index < t.state.symbols.scopes.size := by
    cases h
    exact SymbolTable.nextScope_lt _ _
  cases kind with
  | main => exact hscope h
  | scope => exact hscope h
  | package name =>
    obtain ⟨u, hu, rfl⟩ := Gathering.onSymbols_eq_ok.1 h
    obtain ⟨rfl, hstate, -⟩ := SymbolTable.createPackage_of_ok hu
    have hsize : u.state.scopes.size =
        (s.state.symbols.addScope s.state.symbols.current).scopes.size := by
      rw [hstate]
      exact Array.size_modify.trans (SymbolTable.scopes_define _ _)
    exact Nat.lt_of_lt_of_eq (SymbolTable.nextScope_lt _ _) hsize.symm

/-- The scope that a pass was in when it was abandoned is left as well. -/
theorem Abandoned.exit {c c' : Context} (h : c.Abandoned phase c') :
    c.Abandoned phase c'.exit := by
  refine ⟨?_, (List.tail_suffix _).trans h.stack, h.rom⟩
  rw [h.same]
  rfl

/-- A pass inside a scope of the table enters it and leaves it again. -/
theorem ends_within {act : Pass α} (h : (system phase).frame.Holds act) {scope : ScopeId}
    {s : Logged Context}
    (hscope : s.state.InBounds phase → scope.index < s.state.symbols.scopes.size) :
    (system phase).frame.Ends s (Pass.within scope act s) := by
  refine System.ends_of_safe fun hs => ?_
  have henter : (system phase).Path s { s with state := s.state.enter scope } :=
    .of_step (.enter (hscope hs))
  have hact := h { s with state := s.state.enter scope }
  unfold Pass.within
  cases ha : act { s with state := s.state.enter scope } with
  | ok a t =>
    rw [ha] at hact
    exact fun _ => (henter.trans (hact (henter.safe hs))).tail (.step .exit)
  | error x t =>
    rw [ha] at hact
    -- The scope is left on this path as well, but that comes after the last moment.
    obtain ⟨u, hu, hstops⟩ := hact (henter.safe hs)
    exact fun _ => ⟨u, henter.trans hu, Abandoned.exit hstops.state, hstops.log⟩

/-- A block of a later pass is visited in the scope that it has opened. -/
theorem holds_block {act : Pass Unit} (h : (system phase).frame.Holds act) (m : Location)
    (pos : Position) : (system phase).frame.Holds (Pass.scopeOf m pos >>= (Pass.within · act)) := by
  intro s
  have hscope := Frame.holds_scopeOf (F := (system phase).frame) (fun _ => System.reports _ _) m pos
  refine Frame.ends_bind (hscope s) fun scope t ht => ?_
  obtain ⟨hfound, rfl⟩ := Pass.scopeOf_eq_ok.1 ht
  exact ends_within h fun hs => hs.scopes m scope hfound

/-- A label gets the address of the cursor. -/
theorem holds_placeLabel (m : Location) (name : Name) :
    (system .layout).frame.Holds (name.placeLabel m) := by
  intro s
  refine System.ends_of_safe fun hs => ?_
  have hs : s.state.InBounds .layout := hs
  refine Frame.ends_bind (holds_programCounter _ _ _ s) fun counter t ht => ?_
  obtain ⟨i, hi, hc, rfl⟩ := Pass.programCounter_eq_ok.1 ht
  split
  · rename_i hlt
    refine Frame.ends_bind (fun _ => ?_) fun _ u _ => holds_note _ u
    show (system .layout).Path t { t with state := { t.state with
      symbols := t.state.placeLabel m (UInt16.ofNat counter) } }
    unfold Context.placeLabel
    cases t.state.labels.at? m with
    | none => exact .refl
    | some id =>
      obtain ⟨origin, ho, hcounter, -⟩ := (hs.bank i).programCounter? hc
      refine .of_step (.place id hi ho ?_)
      rw [← hcounter]
      exact UInt16.toNat_ofNat_of_lt hlt
  · exact (System.reports _ _).holds_error _ t

end Context

/-! ## Passes -/

open Context

/-- Gathering keeps the context in bounds: the steps above, one for each kind of statement. -/
theorem Gathering.nests_system :
    Nests (Context.system .gathering).frame (fun _ => True) fun _ _ => True where
  reports e _ := System.reports _ e
  fold _ e _ := holds_fold _ _ e
  note := holds_note
  constant := holds_declare
  label m name _ := holds_declareLabel m name
  allocate _ pos hpos hlt := holds_allocate hpos hlt pos
  storage _ _ _ _ := ends_onSymbols fun _ => SymbolTable.ends_put (by rintro _ ⟨⟩) _ _
  moveRam address pos := holds_onRom (System.holds_update fun _ _ => .moveRam address) pos
  block kind m act _ hact s := by
    refine Frame.ends_bind (ends_openScope kind s) fun scope t ht => ?_
    have hscope := openScope_lt ht
    exact Frame.ends_bind (fun _ => .of_step (.recordScope m hscope)) fun _ u hu => by
      cases hu
      exact ends_within hact fun _ => hscope
  startRom settings := System.holds_update fun _ _ => .startRom settings

/-- Layout keeps the context in bounds as long as every reserved amount is below 2³¹. -/
theorem Layout.nests_system :
    Nests (Context.system .layout).frame (fun _ => True) (fun _ _ => True) (· < 0x80000000) where
  reports e _ := System.reports _ e
  fold demand _ e _ := holds_fold demand _ e
  reserve what _ pos hn := holds_onBank (Bank.holds_expand hn pos) what pos
  counter what missing pos _ := holds_programCounter what missing pos
  switch index pos := holds_onRom (Rom.holds_switchBank index pos) pos
  org address pos := holds_onBank (Bank.holds_org address pos) _ pos
  note := holds_note
  selections m entry _ := System.holds_update fun _ _ => .recordSelection m entry
  branches m entry _ := System.holds_update fun _ _ => .recordBranch m entry
  contents m entry _ := System.holds_update fun _ _ => .recordContents m entry
  label m name _ := holds_placeLabel m name
  block m pos _ hact := holds_block hact m pos

/-- Emission keeps the context in bounds, whatever amounts were reserved. -/
theorem Emission.nests_system :
    Nests (Context.system .emission).frame fun _ _ => True where
  reports e _ := System.reports _ e
  internal _ := System.reports _ _
  fold _ e _ := holds_fold _ _ e
  byte value pos := holds_onBank (Bank.holds_writeByte value pos) _ pos
  word _ pos := holds_onBank (Bank.holds_writeBytes _ pos) _ pos
  bytes bytes pos := holds_onBank (Bank.holds_writeBytes bytes pos) _ pos
  counter what missing pos _ := holds_programCounter what missing pos
  switch index pos := holds_onRom (Rom.holds_switchBank index pos) pos
  seek address pos := holds_onBank (Bank.holds_seek address pos) _ pos
  block m pos _ hact := holds_block hact m pos

/-! ## Visits -/

/-- A visit that a run inside a frame comes by. -/
structure Visit.Along (F : Frame Context) (s : Logged Context) (v : Visit) : Prop where
  start : F.rel s v.start
  result : F.Ends v.start v.result

/-- A visit on the way from a later state is on the way from an earlier one. -/
theorem Visit.Along.of_rel {F : Frame Context} {s t : Logged Context} {v : Visit}
    (h : v.Along F t) (hst : F.rel s t) : v.Along F s :=
  ⟨F.trans hst h.start, h.result⟩

/-- A frame allows a pass over the tree, whose statements are those in `Q`. -/
structure Walk.Within (w : Walk) (F : Frame Context) (Q : Statement → Prop) : Prop where
  statement : ∀ m stmt, Q stmt → F.Holds (w.statement m stmt)
  command : ∀ receiver receiverAt argumentAt c, F.Holds (w.command receiver receiverAt argumentAt c)
  enter : ∀ (s : Logged Context) m scope, s.state.scopes.at? m = some scope →
    F.rel s { s with state := s.state.enter scope }
  inside : ∀ kind statements pos, Q (.block kind statements pos) → ∀ stmt ∈ statements, Q stmt

/-- A walk that keeps a frame at each statement keeps it along a whole list. -/
theorem Walk.Within.holds_statements {F : Frame Context} {Q : Statement → Prop} {w : Walk}
    (hw : w.Within F Q) {statements : List Statement} (hQ : ∀ stmt ∈ statements, Q stmt)
    (location : Location) (index : Nat) : F.Holds (w.statements location index statements) := by
  induction statements generalizing index with
  | nil => exact F.holds_pure _
  | cons stmt rest ih =>
    refine Frame.holds_bind (hw.statement _ stmt (hQ stmt List.mem_cons_self)) fun _ => ih ?_ _
    exact fun other ho => hQ other (List.mem_cons_of_mem _ ho)

namespace Statement

variable {F : Frame Context} {Q : Statement → Prop} {w : Walk} {v : Visit}

/-- A pass inside a frame comes by all its visits. -/
theorem along_visits (hw : w.Within F Q) {stmt : Statement} (hQ : Q stmt) {location : Location}
    {s : Logged Context} (hv : v ∈ stmt.visits w location s) : v.Along F s := by
  have hcomes := comes_of_mem_visits stmt hv
  clear hv
  induction hcomes with
  | here visit =>
    rw [visit]
    exact ⟨F.refl _, hw.statement _ _ hQ _⟩
  | @command location receiver before rest c s t reached visit =>
    have hbefore : F.Holds (w.commands location receiver 0 before) := by
      refine Walk.holds_commands fun m n hmem => ?_
      obtain ⟨k, d, -, -, rfl⟩ := mem_placesOfCommands hmem
      exact hw.command receiver (location.child 0) m d
    rw [visit]
    exact ⟨hbefore.rel_of_ok reached, hw.command receiver _ _ c t⟩
  | @block location kind before rest stmt pos scope s t entered reached _ ih =>
    have hinside := hw.inside kind (before ++ stmt :: rest) pos hQ
    have hbefore := hw.holds_statements
      (fun other ho => hinside other (List.mem_append_left _ ho)) location 0
    have halong := ih (hinside stmt (List.mem_append_right _ List.mem_cons_self))
    exact (halong.of_rel (hbefore.rel_of_ok reached)).of_rel (hw.enter s location scope entered)

/-- The sizes of what a block contains are among its own. -/
theorem mem_amountsAll {files : Files} {statements : List Statement} {stmt : Statement}
    (h : stmt ∈ statements) {n : Nat} (hn : n ∈ stmt.amounts files) :
    n ∈ amountsAll files statements := by
  induction statements with
  | nil => exact absurd h List.not_mem_nil
  | cons first rest ih =>
    unfold amountsAll
    rcases List.mem_cons.1 h with rfl | h
    · exact List.mem_append_left _ hn
    · exact List.mem_append_right _ (ih h)

/-- The layout walk keeps the context in bounds for statements with small amounts. -/
theorem within_layout (files : Files) :
    (Walk.layout files).Within (Context.system .layout).frame
      fun stmt => ∀ n ∈ stmt.amounts files, n < 0x80000000 where
  statement m stmt hQ := Layout.nests_system.holds_layOut (fun _ hn => by omega) stmt m
    (fun _ _ => trivial) (covers_true _ _) hQ
  command receiver _ _ c := Layout.nests_system.holds_command (fun _ hn => by omega) c receiver
    trivial (fun _ _ => trivial) fun _ _ => trivial
  enter _ m scope hscope hs := .of_step (.enter (InBounds.scopes hs m scope hscope))
  inside _ _ _ hQ _ hstmt n hn := hQ n <| by
    unfold amounts
    exact mem_amountsAll hstmt hn

/-- The emission walk keeps the context in bounds for all statements. -/
theorem within_emission :
    Walk.emission.Within (Context.system .emission).frame fun _ => True where
  statement m stmt _ := Emission.nests_system.holds_emit stmt m (covers_true _ _)
  command receiver _ _ c := Emission.nests_system.holds_command c receiver (fun _ _ => trivial)
    fun _ _ => trivial
  enter _ m scope hscope hs := .of_step (.enter (InBounds.scopes hs m scope hscope))
  inside _ _ _ _ _ _ := trivial

/-! ### Declarations -/

/-- Gathering any statement keeps the context in bounds. -/
theorem holds_gather (stmt : Statement) (location : Location) :
    (Context.system .gathering).frame.Holds (stmt.gather location) :=
  Gathering.nests_system.holds_gather stmt location (fun _ _ => trivial) (covers_true _ _)

/-- The constants of a list are declared in states that gathering reaches. -/
theorem along_constantDeclarations {location : Location} {statements : List Statement} {index : Nat}
    {s : Logged Context} (hv : v ∈ constantDeclarations location index statements s) :
    v.Along (Context.system .gathering).frame s := by
  induction statements generalizing index s with
  | nil => exact absurd hv List.not_mem_nil
  | cons stmt rest ih =>
    cases stmt with
    | constant name value =>
      have hdeclare := holds_declare name value
      rcases List.mem_cons.1 hv with rfl | hv
      · exact ⟨Frame.refl _ s, holds_gather _ _ s⟩
      · obtain ⟨t, ht, hv⟩ := Walk.mem_next.1 hv
        exact (ih hv).of_rel (hdeclare.rel_of_ok ht)
    | _ => exact ih hv

/-- The scope of a block is opened, kept and entered. -/
theorem rel_opened {kind : BlockKind} {s t : Logged Context} {scope : ScopeId}
    (h : kind.openScope s = .ok scope t) (location : Location) :
    (Context.system .gathering).frame.rel s { t with state := t.state.opened location scope } := by
  have hopen : (Context.system .gathering).frame.rel s t := by
    have hends := ends_openScope kind s
    rw [h] at hends
    exact hends
  have hscope := openScope_lt h
  intro hs
  exact ((hopen hs).tail (.step (.recordScope location hscope))).tail (.step (.enter hscope))

mutual

/-- Declarations inside a statement are made in states that gathering reaches from its own. -/
theorem along_declarationsInside :
    ∀ (stmt : Statement) {location : Location} {s : Logged Context},
      v ∈ stmt.declarationsInside location s → v.Along (Context.system .gathering).frame s
  | .block kind statements pos, location, s, hv => by
    simp only [declarationsInside] at hv
    cases hscope : kind.openScope s with
    | error x t =>
      rw [hscope] at hv
      exact absurd hv List.not_mem_nil
    | ok scope t =>
      rw [hscope] at hv
      refine Visit.Along.of_rel ?_ (rel_opened hscope location)
      rcases List.mem_append.1 hv with hv | hv
      · exact along_constantDeclarations hv
      · obtain ⟨u, hu, hv⟩ := Walk.mem_next.1 hv
        obtain ⟨r, hr, hv⟩ := Walk.mem_next.1 hv
        have hconstants := (Gathering.nests_system.holds_constants statements).rel_of_ok hu
        have hrom := (Gathering.nests_system.holds_startRom statements pos (covers_true _ _)
          kind).rel_of_ok hr
        exact (along_otherDeclarations statements hv).of_rel (Frame.trans _ hconstants hrom)
  | .command _, _, _, hv => absurd hv List.not_mem_nil
  | .header _, _, _, hv => absurd hv List.not_mem_nil
  | .relocation _ _, _, _, hv => absurd hv List.not_mem_nil
  | .label _, _, _, hv => absurd hv List.not_mem_nil
  | .constant _ _, _, _, hv => absurd hv List.not_mem_nil
  | .storage _, _, _, hv => absurd hv List.not_mem_nil
  | .data _, _, _, hv => absurd hv List.not_mem_nil
  | .branch _, _, _, hv => absurd hv List.not_mem_nil
  | .embed _ _, _, _, hv => absurd hv List.not_mem_nil

/-- Declarations other than constants are made in states that gathering reaches. -/
theorem along_otherDeclarations :
    ∀ (statements : List Statement) {location : Location} {index : Nat} {s : Logged Context},
      v ∈ otherDeclarations location index statements s →
      v.Along (Context.system .gathering).frame s
  | [], _, _, _, hv => absurd hv List.not_mem_nil
  | stmt :: rest, location, index, s, hv => by
    have hgather := holds_gather stmt (location.child index)
    rw [otherDeclarations] at hv
    split at hv
    · exact along_otherDeclarations rest hv
    · rcases List.mem_cons.1 hv with rfl | hv
      · exact ⟨Frame.refl _ s, hgather s⟩
      · rcases List.mem_append.1 hv with hv | hv
        · exact along_declarationsInside stmt hv
        · obtain ⟨t, ht, hv⟩ := Walk.mem_next.1 hv
          exact (along_otherDeclarations rest hv).of_rel (hgather.rel_of_ok ht)

end

/-- The first pass comes by all its visits. -/
theorem along_declarations (stmt : Statement) {location : Location} {s : Logged Context}
    (hv : v ∈ stmt.declarations location s) : v.Along (Context.system .gathering).frame s := by
  rcases List.mem_cons.1 hv with rfl | hv
  · exact ⟨Frame.refl _ s, holds_gather stmt location s⟩
  · exact along_declarationsInside stmt hv

end Statement

/-! ## Programs -/

namespace Program

variable {files : Files} {config : Config} {program : Program}

/-- The states that a pass of a compilation can come to in steps. -/
def Reaches (files : Files) (config : Config) (program : Program) : Phase → Logged Context → Prop
  | .gathering, s => (Context.system .gathering).Path (start config) s
  | .layout, s =>
    ∃ g, program.gather (start config) = .ok () g ∧ (Context.system .layout).Path g s
  | .emission, s =>
    ∃ g l r, program.gather (start config) = .ok () g ∧ program.layOut files g = .ok () l ∧
      program.rewind l = .ok () r ∧ (Context.system .emission).Path r s

/-- A compilation is in bounds when gathering is over. -/
theorem inBounds_gather {g : Logged Context} (h : program.gather (start config) = .ok () g) :
    g.state.InBounds .gathering := by
  have hgather : (Context.system .gathering).frame.Holds program.gather :=
    Frame.holds_bind (Statement.holds_gather program.block .top) fun _ =>
      Frame.holds_read_bind fun _ => holds_note _
  exact System.Path.safe (hgather.rel_of_ok h InBounds.start) InBounds.start

/-- Layout starts in bounds and ends in bounds. -/
theorem inBounds_layOut (hamounts : ∀ n ∈ program.block.amounts files, n < 0x80000000)
    {g l : Logged Context} (hg : g.state.InBounds .layout) (h : program.layOut files g = .ok () l) :
    l.state.InBounds .layout := by
  have hlayOut : (Context.system .layout).frame.Holds (program.layOut files) :=
    Frame.holds_bind ((Statement.within_layout files).statement .top program.block hamounts)
      fun _ => System.holds_update fun _ _ => .note _
  exact System.Path.safe (hlayOut.rel_of_ok h hg) hg

/-- Rewinding puts the positions back to the start, inside what layout has reserved. -/
theorem inBounds_rewind {l r : Logged Context} (hl : l.state.InBounds .layout)
    (h : program.rewind l = .ok () r) : r.state.InBounds .emission := by
  obtain ⟨rom, u, hrom, hu, rfl⟩ := Pass.onRom_eq_ok.1 h
  cases hu
  exact hl.rewind hrom

/-- Whatever a compilation comes to is in bounds. -/
theorem Reaches.inBounds (hamounts : ∀ n ∈ program.block.amounts files, n < 0x80000000)
    {phase : Phase} {s : Logged Context} (h : program.Reaches files config phase s) :
    s.state.InBounds phase := by
  cases phase with
  | gathering => exact System.Path.safe h InBounds.start
  | layout =>
    obtain ⟨g, hg, hpath⟩ := h
    exact hpath.safe (inBounds_gather hg).layout
  | emission =>
    obtain ⟨g, l, r, hg, hl, hr, hpath⟩ := h
    exact hpath.safe (inBounds_rewind (inBounds_layOut hamounts (inBounds_gather hg).layout hl) hr)

/-- The visits of a compilation start in states that it comes to, and go on in steps. -/
theorem reaches_of_course (hamounts : ∀ n ∈ program.block.amounts files, n < 0x80000000)
    {phase : Phase} {v : Visit} (hv : v ∈ program.course files config phase) :
    program.Reaches files config phase v.start ∧
      (Context.system phase).frame.Ends v.start v.result := by
  cases phase with
  | gathering =>
    have halong := Statement.along_declarations program.block hv
    exact ⟨halong.start InBounds.start, halong.result⟩
  | layout =>
    obtain ⟨g, hg, hv⟩ := Walk.mem_next.1 hv
    have halong := Statement.along_visits (Statement.within_layout files) hamounts hv
    exact ⟨⟨g, hg, halong.start (inBounds_gather hg).layout⟩, halong.result⟩
  | emission =>
    obtain ⟨g, hg, hv⟩ := Walk.mem_next.1 hv
    obtain ⟨l, hl, hv⟩ := Walk.mem_next.1 hv
    obtain ⟨r, hr, hv⟩ := Walk.mem_next.1 hv
    have halong := Statement.along_visits Statement.within_emission trivial hv
    have hsafe := inBounds_rewind (inBounds_layOut hamounts (inBounds_gather hg).layout hl) hr
    exact ⟨⟨g, l, r, hg, hl, hr, halong.start hsafe⟩, halong.result⟩

/-- The passes stay in bounds. A visit starts in a state that the compilation has come to, and goes
on in steps: up to its end, or up to the moment at which it is abandoned. All the states that can be
reached in steps are in bounds, so what is looked up there is found, and nothing that is computed
there is wrapped around or cut off. -/
theorem stays_in_bounds (files : Files) (config : Config) (program : Program)
    (hamounts : ∀ n ∈ program.block.amounts files, n < 0x80000000) (phase : Phase) :
    (∀ v ∈ program.course files config phase, program.Reaches files config phase v.start ∧
      (∀ t, v.result = .ok () t → (Context.system phase).Path v.start t) ∧
      ∀ x t, v.result = .error x t →
        ∃ u, (Context.system phase).Path v.start u ∧ (Context.system phase).Stops u t) ∧
      ∀ s, program.Reaches files config phase s → s.state.InBounds phase ∧ s.state.Exact := by
  constructor
  · intro v hv
    obtain ⟨hstart, hends⟩ := reaches_of_course hamounts hv
    have hsafe := hstart.inBounds hamounts
    refine ⟨hstart, fun t ht => ?_, fun x t ht => ?_⟩
    · rw [ht] at hends
      exact hends hsafe
    · rw [ht] at hends
      exact hends hsafe
  · intro s hs
    have hin := hs.inBounds hamounts
    exact ⟨hin, hin.exact⟩

/-- The emission of the sample stays in bounds. -/
theorem stays_in_bounds_sample :
    (∀ n ∈ sample.block.amounts fun _ => .ok [1, 2, 3], n < 0x80000000) ∧
      (sample.course (fun _ => .ok [1, 2, 3]) {} .emission).length = 14 ∧
      ∀ v ∈ sample.course (fun _ => .ok [1, 2, 3]) {} .emission,
        v.start.state.InBounds .emission ∧ v.start.state.Exact := by
  have hamounts : ∀ n ∈ sample.block.amounts fun _ => .ok [1, 2, 3], n < 0x80000000 := by
    decide +kernel
  obtain ⟨hvisits, hreached⟩ :=
    stays_in_bounds (fun _ => .ok [1, 2, 3]) {} sample hamounts .emission
  exact ⟨hamounts, by decide +kernel, fun v hv => hreached v.start (hvisits v hv).1⟩

end Program

end Cartridge
