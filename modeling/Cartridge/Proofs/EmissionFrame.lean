import Cartridge.Proofs.Reservation

/-!
# Frames of the emission

The emission of a statement is built from a few primitives. A frame that allows each of them is kept
by the whole emission.

Main definitions:

- `Emission.Writes`: a frame allows to write.
- `Emission.Steps`: a frame allows what the emission does at a single node.
- `Emission.Nests`: a frame also allows blocks.
- `Emission.Allows`: a frame allows the primitives of the emission.
- `Context.Unmoved`: what the emission leaves alone.

Main results:

- Theorem `Emission.Nests.holds_emit`: a frame that allows nodes and blocks holds of the emission of
  a statement.
- Theorem `Emission.Allows.nests`: a frame that allows the primitives allows nodes and blocks.
- Theorem `Emission.unmoved_emit`: the emission leaves the symbols, the records and the reservations
  alone.
-/

namespace Cartridge

namespace Emission

/-- A frame allows to write, with folds of the expressions in `E`. -/
structure Writes (F : Run.Frame Context) (E : Location → Expr → Prop) : Prop where
  reports : ∀ e : Error, e.isInternal = false → F.Reports e
  fold : ∀ m e, E m e → F.Holds (Pass.fold .final m e)
  byte : ∀ value pos, F.Holds (Pass.writeByte value pos)
  word : ∀ value pos, F.Holds (Pass.writeWord value pos)
  bytes : ∀ bytes pos, F.Holds (Pass.writeBytes bytes pos)
  counter : ∀ what (missing : Error) pos, missing.isInternal = false →
    F.Holds (Pass.programCounter what missing pos)
  switch : ∀ index pos, F.Holds (Pass.onRom pos (Rom.switchBank index pos))
  seek : ∀ address pos, F.Holds (Pass.onBank "rom relocation" pos (Bank.seek address pos))

/-- A frame allows what the emission does at a single node, which may be that it cannot go on. -/
structure Steps (F : Run.Frame Context) (E : Location → Expr → Prop) : Prop extends Writes F E where
  internal : ∀ what, F.Reports (.internal what)

/-- A frame allows the nodes of a tree, and blocks of what it allows. -/
structure Nests (F : Run.Frame Context) (E : Location → Expr → Prop) : Prop extends Steps F E where
  block : ∀ m pos (act : Pass Unit), F.Holds act → F.Holds (do
    let scope ← Pass.scopeOf m pos
    Pass.within scope act)

/-- A frame allows the primitives of the emission. -/
structure Allows (F : Run.Frame Context) (E : Location → Expr → Prop) : Prop extends Steps F E where
  scopes : F.Scoped

variable {F : Run.Frame Context} {E : Location → Expr → Prop}

namespace Writes

variable (h : Writes F E)

include h

/-- A unit is written as a byte or as a word. -/
theorem holds_unit (width : Width) (value : UInt16) (pos : Position) :
    F.Holds (Pass.writeUnit width value pos) := by
  cases width with
  | byte => exact h.byte _ _
  | word => exact h.word _ _

/-- An opcode that leads another one is written if there is one. -/
theorem holds_lead (lead : Option Opcode) (pos : Position) :
    F.Holds (Pass.writeSomeOpcode lead pos) := by
  cases lead with
  | none => exact F.holds_pure _
  | some o => exact h.byte _ _

/-- Operand bytes, with what happens if there is no expression for them. -/
theorem holds_operand (opcode : Opcode) (pos : Position) {operand : Option Command.Located}
    (hE : ∀ o ∈ operand, ∀ e ∈ o.1.expr, E o.2 e)
    (hnone : (∀ o ∈ operand, o.1.expr = none) →
      F.Holds (Run.internal "memory operand without an address expression" pos : Pass Unit)) :
    F.Holds (Command.emitOperand opcode pos operand) := by
  unfold Command.emitOperand
  split
  · refine Run.Frame.holds_bind (h.fold _ _ (hE _ rfl _ rfl)) fun value => ?_
    dsimp only
    split
    · exact h.byte _ _
    · exact h.word _ _
  · rename_i hother
    refine hnone fun o ho => ?_
    obtain ⟨⟨mode, expr, place⟩, location⟩ := o
    cases expr with
    | none => rfl
    | some e => exact absurd ho (hother _ _ _ _)

/-- The bytes of a command, with what happens if there is no expression for its operand bytes. -/
theorem holds_selection (selection : Selection) (pos : Position) {receiver : Command.Located}
    {argument : Option Command.Located}
    (hE : ∀ side, ∀ o ∈ Side.pick side selection.swapped receiver argument,
      ∀ e ∈ o.1.expr, E o.2 e)
    (hnone : ∀ lead opcode side, selection.encoding = .instruction lead opcode (some side) →
      (∀ o ∈ Side.pick side selection.swapped receiver argument, o.1.expr = none) →
      F.Holds (Run.internal "memory operand without an address expression" pos : Pass Unit)) :
    F.Holds (Command.emitSelection selection receiver argument pos) := by
  unfold Command.emitSelection
  split
  · exact h.bytes _ _
  · rename_i lead opcode carrier hencoding
    refine Run.Frame.holds_bind (h.holds_lead lead pos) fun _ =>
      Run.Frame.holds_bind (h.byte _ _) fun _ => ?_
    cases carrier with
    | none => exact F.holds_pure _
    | some side => exact h.holds_operand _ _ (hE side) (hnone lead opcode side hencoding)

/-- The bytes of a string are written one after the other. -/
theorem holds_emitBytes (width : Width) (pos : Position) (bytes : List UInt8) :
    F.Holds (width.emitBytes pos bytes) := by
  induction bytes with
  | nil => exact F.holds_pure _
  | cons b rest ih =>
    unfold Width.emitBytes
    exact Run.Frame.holds_bind (h.holds_unit _ _ _) fun _ => ih

/-- Data items are written within a frame that allows for folding their values. -/
theorem holds_items {location : Location} (width : Width) (items : List DataItem) (index : Nat)
    (hE : ∀ k e, items[k]? = some (.value e) → E (location.child (index + k)) e) :
    F.Holds (DataItem.emitAll location width index items) := by
  induction items generalizing index with
  | nil => exact F.holds_pure _
  | cons item rest ih =>
    unfold DataItem.emitAll
    refine Run.Frame.holds_bind ?_ fun _ => ih _ fun k e he => ?_
    · cases item with
      | value e =>
        unfold DataItem.emit
        exact Run.Frame.holds_bind (h.fold _ _ (hE 0 e rfl)) fun _ => h.holds_unit _ _ _
      | string text pos =>
        unfold DataItem.emit
        exact h.holds_emitBytes _ _ _
    · rw [Nat.add_right_comm index 1 k]
      exact hE (k + 1) e he

/-- A displacement asks for the program counter, reports what is out of range and writes one
byte. -/
theorem holds_displacement (target : Option UInt16) (e : Expr) (pos : Position) :
    F.Holds (Branch.emitDisplacement target e pos) := by
  unfold Branch.emitDisplacement
  refine Run.Frame.holds_bind (h.counter _ _ _ rfl) fun _ => ?_
  split
  · exact h.byte _ _
  · dsimp only
    split
    · exact Run.Frame.holds_bind ((h.reports _ rfl).holds_error _) fun _ => h.byte _ _
    · exact h.byte _ _

/-- The bytes of a branch, with what happens if it has no opcode or no expression. -/
theorem holds_sized {location : Location} (b : Branch) (size : Nat)
    (hE : ∀ e ∈ b.destination.bind Operand.expr, E (location.child 0) e)
    (hopcode : b.opcode? = none →
      F.Holds (Run.internal "branch without an opcode" b.pos : Pass Unit))
    (hnone : size ≠ 1 → b.destination.bind Operand.expr = none →
      F.Holds (Run.internal "branch destination without an expression" b.pos : Pass Unit)) :
    F.Holds (b.emitSized location size) := by
  unfold Branch.emitSized
  split
  · rename_i hb
    exact hopcode hb
  · refine Run.Frame.holds_bind (h.byte _ _) fun _ => ?_
    split
    · exact F.holds_pure _
    · rename_i hsize
      split
      · rename_i hexpr
        exact hnone hsize hexpr
      · rename_i e he
        refine Run.Frame.holds_bind (h.fold _ _ (hE e he)) fun _ => ?_
        split
        · exact h.word _ _
        · exact h.holds_displacement _ _ _

/-- A relocation is repeated from what is remembered, without a fold. -/
theorem holds_relocation (location : Location) (pos : Position) (target : Relocation) :
    F.Holds (target.emit location pos) := by
  cases target with
  | ram dest => exact F.holds_pure _
  | rom bank dest =>
    unfold Relocation.emit Relocation.emitBank Relocation.emitDest
    refine Run.Frame.holds_bind (Run.Frame.holds_read_bind fun ctx => ?_) fun _ =>
      Run.Frame.holds_read_bind fun ctx => ?_
    · split
      · exact F.holds_pure _
      · exact h.switch _ _
    · split
      · exact F.holds_pure _
      · exact h.seek _ _

/-- The contents of a file are written if they were recorded. -/
theorem holds_contents (location : Location) (pos : Position) :
    F.Holds (Pass.emitContents location pos) := by
  unfold Pass.emitContents
  refine Run.Frame.holds_read_bind fun ctx => ?_
  split
  · exact F.holds_pure _
  · exact h.bytes _ _

end Writes

namespace Steps

variable (h : Steps F E)

include h

/-- A command is written within a frame that allows for folding its receiver and its argument. -/
theorem holds_command (c : Command) (receiver : Operand) {receiverAt argumentAt : Location}
    (hr : ∀ e ∈ receiver.expr, E receiverAt e)
    (ha : ∀ e ∈ c.argument.bind Operand.expr, E argumentAt e) :
    F.Holds (c.emit receiver receiverAt argumentAt) := by
  unfold Command.emit
  refine Run.Frame.holds_read_bind fun ctx => ?_
  split
  · exact F.holds_pure _
  · exact h.holds_selection _ _ (fun _ => Command.forall_pick hr ha _ _) fun _ _ _ _ _ =>
      (h.internal _).holds_fatal _

/-- Commands are written one after the other, all with the receiver at the first child. -/
theorem holds_commands {location : Location} {receiver : Operand}
    (hr : ∀ e ∈ receiver.expr, E (location.child 0) e) (commands : List Command) (index : Nat)
    (ha : ∀ k c, commands[k]? = some c → ∀ e ∈ c.argument.bind Operand.expr,
      E (location.child (index + k + 1)) e) :
    F.Holds (Command.emitAll location receiver index commands) := by
  induction commands generalizing index with
  | nil => exact F.holds_pure _
  | cons c rest ih =>
    unfold Command.emitAll
    refine Run.Frame.holds_bind (h.holds_command c receiver hr (ha 0 c rfl)) fun _ => ih _ ?_
    intro k d hd
    rw [Nat.add_right_comm index 1 k]
    exact ha (k + 1) d hd

/-- A branch is written within a frame that allows for folding its destination. -/
theorem holds_branch {location : Location} (b : Branch)
    (hE : ∀ e ∈ b.destination.bind Operand.expr, E (location.child 0) e) :
    F.Holds (b.emit location) := by
  unfold Branch.emit
  refine Run.Frame.holds_read_bind fun ctx => ?_
  split
  · exact F.holds_pure _
  · exact h.holds_sized b _ hE (fun _ => (h.internal _).holds_fatal _) fun _ _ =>
      (h.internal _).holds_fatal _

end Steps

/-- A frame that allows the primitives allows nodes and blocks. -/
theorem Allows.nests (h : Allows F E) : Nests F E where
  toSteps := h.toSteps
  block m pos act hact := by
    refine Run.Frame.holds_bind (Run.Frame.holds_scopeOf h.internal _ _) fun scope => ?_
    exact h.scopes.holds_within hact

namespace Nests

mutual

/-- A frame that allows nodes and blocks holds of the emission of a statement. -/
theorem holds_emit (h : Nests F E) :
    ∀ (stmt : Statement) (location : Location),
      Statement.Covers Statement.late E (stmt.places location) → F.Holds (stmt.emit location)
  | .block _ statements pos, location, hE => by
    unfold Statement.emit
    exact h.block location pos _ (holds_emitAll h statements location 0 hE.block)
  | .relocation target pos, location, _ => by
    unfold Statement.emit
    exact h.holds_relocation location pos target
  | .data d, location, hE => by
    unfold Statement.emit
    refine h.holds_items _ _ _ fun k e he => ?_
    rw [Nat.zero_add]
    exact hE.self (k, e) (Statement.mem_late_item he)
  | .embed path pos, location, _ => by
    unfold Statement.emit
    exact h.holds_contents _ _
  | .command c, location, hE => by
    unfold Statement.emit
    refine h.holds_commands
      (fun e he => hE.self (0, e) (Statement.mem_late_receiver he)) c.commands 0
      fun k d hd e he => ?_
    rw [Nat.zero_add]
    exact hE.self (k + 1, e) (Statement.mem_late_argument hd he)
  | .branch b, location, hE => by
    unfold Statement.emit
    exact h.holds_branch b fun e he => hE.self (0, e) (Statement.mem_late_destination he)
  | .label _, _, _ => by
    unfold Statement.emit
    exact F.holds_pure _
  | .header _, _, _ => by
    unfold Statement.emit
    exact F.holds_pure _
  | .constant _ _, _, _ => by
    unfold Statement.emit
    exact F.holds_pure _
  | .storage _, _, _ => by
    unfold Statement.emit
    exact F.holds_pure _

/-- A frame that allows nodes and blocks holds of the emission of the statements of a block. -/
theorem holds_emitAll (h : Nests F E) :
    ∀ (statements : List Statement) (location : Location) (index : Nat),
      Statement.Covers Statement.late E (Statement.placesAll location index statements) →
      F.Holds (Statement.emitAll location index statements)
  | [], _, _, _ => F.holds_pure _
  | stmt :: rest, location, index, hE => by
    unfold Statement.emitAll
    refine Run.Frame.holds_bind (holds_emit h stmt (location.child index) hE.head) fun _ => ?_
    exact holds_emitAll h rest location (index + 1) hE.tail

end

end Nests

end Emission

/-! ## What the emission leaves alone -/

namespace Context

/-- What the emission leaves alone: the symbols, what is recorded, and what is reserved. -/
structure Unmoved (s t : Context) : Prop extends s.Follows (fun _ => True) t where
  table : t.symbols.scopes = s.symbols.scopes
  definitions : t.symbols.definitions = s.symbols.definitions
  origins : ∀ i, (t.bank i).origin = (s.bank i).origin
  reserved : ∀ i, (t.bank i).reserved = (s.bank i).reserved

theorem Unmoved.refl (s : Context) : s.Unmoved s :=
  ⟨.refl _ s, rfl, rfl, fun _ => rfl, fun _ => rfl⟩

theorem Unmoved.trans {s t u : Context} (hst : s.Unmoved t) (htu : t.Unmoved u) : s.Unmoved u :=
  ⟨hst.toFollows.trans htu.toFollows, htu.table.trans hst.table,
    htu.definitions.trans hst.definitions, fun i => (htu.origins i).trans (hst.origins i),
    fun i => (htu.reserved i).trans (hst.reserved i)⟩

/-- A change to a bank that leaves its origin and its reservation alone. -/
theorem unmoved_setBank {s : Context} {i : Nat} {b : Bank} (ho : b.origin = (s.bank i).origin)
    (hr : b.reserved = (s.bank i).reserved) : s.Unmoved (s.setBank i b) := by
  have hbank : ∀ j, ((s.setBank i b).bank j).origin = (s.bank j).origin ∧
      ((s.setBank i b).bank j).reserved = (s.bank j).reserved := by
    intro j
    by_cases hj : j = i
    · subst hj
      rcases Nat.lt_or_ge j s.bankCount with hlt | hge
      · rw [bank_setBank_self hlt]
        exact ⟨ho, hr⟩
      · rw [bank_setBank_of_le hge]
        exact ⟨rfl, rfl⟩
    · rw [bank_setBank_of_ne hj]
      exact ⟨rfl, rfl⟩
  exact ⟨follows_setBank fun _ h => ho.trans h, rfl, rfl, fun j => (hbank j).1,
    fun j => (hbank j).2⟩

/-- Switching banks moves nothing that was reserved. -/
theorem unmoved_activate (s : Context) (i : Nat) : s.Unmoved (s.activate i) := by
  refine ⟨follows_activate _ s i, rfl, rfl, fun j => ?_, fun j => ?_⟩
  · rw [bank_activate]
  · rw [bank_activate]

theorem unmoved_enter (s : Context) (scope : ScopeId) : s.Unmoved (s.enter scope) :=
  ⟨.of_rom (fun _ _ => ⟨rfl, rfl, rfl⟩) (.refl _) rfl rfl rfl, rfl, rfl, fun _ => rfl,
    fun _ => rfl⟩

theorem unmoved_exit (s : Context) : s.Unmoved s.exit :=
  ⟨.of_rom (fun _ _ => ⟨rfl, rfl, rfl⟩) (.refl _) rfl rfl rfl, rfl, rfl, fun _ => rfl,
    fun _ => rfl⟩

end Context

namespace Emission

/-- The frame of what the emission leaves alone. -/
def unmoving : Run.Frame Context :=
  .finishing (fun s t => s.state.Unmoved t.state) (fun s => .refl s.state) fun h h' => h.trans h'

theorem reports_unmoving (e : Error) : unmoving.Reports e :=
  Run.Frame.reports_of_log (fun s _ => Context.Unmoved.refl s.state) (fun _ _ => trivial) e

/-- A write leaves everything but the cursor and the bytes of a bank alone. -/
theorem unmoving_onBank {what : String} {pos : Position} {act : Run Bank Unit}
    (h : ∀ s u t, act s = .ok u t → t.state.origin = s.state.origin ∧
      t.state.reserved = s.state.reserved) : unmoving.Holds (Pass.onBank what pos act) :=
  Run.Frame.holds_of_ok (fun _ _ => trivial) fun s _ t hok => by
    obtain ⟨i, b, -, hb, rfl⟩ := Pass.onBank_eq_ok.1 hok
    obtain ⟨ho, hr⟩ := h _ _ _ hb
    exact Context.unmoved_setBank ho hr

/-- No step of the emission reserves space, declares a name or records anything. -/
theorem allows_unmoving : Allows unmoving (fun _ _ => True) where
  reports e _ := reports_unmoving e
  internal _ := reports_unmoving _
  scopes :=
    { rel scope s t h := ((Context.unmoved_enter s.state scope).trans h).trans
        (Context.unmoved_exit t.state)
      abort _ _ _ _ := trivial }
  fold m e _ := Run.Frame.holds_fold (fun t scope => SymbolTable.holds_growing scope _ e)
    (fun s t h => ⟨.of_rom (fun _ _ => ⟨rfl, rfl, rfl⟩) h.1 rfl rfl rfl, rfl, rfl, fun _ => rfl,
      fun _ => rfl⟩)
    fun _ _ _ => trivial
  byte value pos := unmoving_onBank fun s _ t h => by
    obtain ⟨-, hstate, -, -⟩ := Bank.writeByte_of_ok h
    rw [hstate]
    exact ⟨rfl, rfl⟩
  word value pos := unmoving_onBank fun s _ t h => by
    obtain ⟨-, rfl⟩ := Bank.writeBytes_eq_ok.1 h
    exact ⟨rfl, rfl⟩
  bytes bytes pos := unmoving_onBank fun s _ t h => by
    obtain ⟨-, rfl⟩ := Bank.writeBytes_eq_ok.1 h
    exact ⟨rfl, rfl⟩
  counter what missing pos _ := Run.Frame.holds_of_ok (fun _ _ => trivial) fun s _ t h => by
    obtain ⟨i, -, -, rfl⟩ := Pass.programCounter_eq_ok.1 h
    exact .refl t.state
  switch index pos := Run.Frame.holds_of_ok (fun _ _ => trivial) fun s _ t h => by
    obtain ⟨-, rfl⟩ := Pass.switchBank_eq_ok.1 h
    exact Context.unmoved_activate s.state _
  seek address pos := unmoving_onBank fun s _ t h => by
    obtain ⟨origin, -, -, -, rfl⟩ := Bank.seek_eq_ok.1 h
    exact ⟨rfl, rfl⟩

/-- The emission of a statement leaves the symbols, the records and the reservations alone. -/
theorem unmoved_emit {stmt : Statement} {location : Location} {s t : Logged Context}
    (h : stmt.emit location s = .ok () t) : s.state.Unmoved t.state :=
  (allows_unmoving.nests.holds_emit stmt location (Statement.covers_true _ _)).rel_of_ok h

/-- So does the emission of a command. -/
theorem unmoved_command {c : Command} {receiver : Operand} {receiverAt argumentAt : Location}
    {s t : Logged Context} (h : c.emit receiver receiverAt argumentAt s = .ok () t) :
    s.state.Unmoved t.state :=
  (allows_unmoving.holds_command c receiver (fun _ _ => trivial) fun _ _ => trivial).rel_of_ok h

end Emission

end Cartridge
