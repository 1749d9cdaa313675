import Cartridge.Proofs.Execution

/-!
# The two forms of a memory operand

An operation that has a zero-page and an absolute form for a mode is encoded in the short one if the
address is known to lie in the zero page, and in the long one otherwise. Without an index register
both forms reach the same cell. With one, the short form stays inside the zero page, while the long
form does not; so the two agree exactly if the sum of address and index is still in the zero page.

Main definitions:

- `Mode.offset`: what the processor adds to the address of an operand.

Main results:

- Theorem `Operation.place?_of_either`: the cells that the two forms reach.
- Theorem `Command.zeroPage_choice`: which form is selected, and when the choice does not matter.
- Theorem `Command.zeroPage_choice_wraps`: an operand that stands for two different cells, depending
  on whether its address was known when the command was laid out.
-/

namespace Cartridge

/-! ## The cells that the two forms reach -/

/-- What the processor adds to the address of an operand. -/
def Mode.offset : Mode → Processor → UInt8
  | indexedByX, p => p.x
  | indexedByY, p => p.y
  | _, _ => 0

namespace Operation

variable {op : Operation} {mode : Mode} {short long : Opcode}

/-- The two forms that an operation offers for a mode. -/
theorem forms_of_either (h : op.access? mode = some (.either short long)) :
    mode = .direct ∧ short.form = .zeroPage ∧ long.form = .absolute ∨
      mode = .indexedByX ∧ short.form = .zeroPageX ∧ long.form = .absoluteX ∨
      mode = .indexedByY ∧ short.form = .zeroPageY ∧ long.form = .absoluteY := by
  have single {form : Form} (hs : (op.opcode? form).map Access.only = some (.either short long)) :
      False := by
    obtain ⟨o, -, ho⟩ := Option.map_eq_some_iff.1 hs
    cases ho
  have pair {z a : Form}
      (hp : Access.ofPair? (op.opcode? z) (op.opcode? a) = some (.either short long)) :
      short.form = z ∧ long.form = a := by
    unfold Access.ofPair? at hp
    split at hp <;> cases hp
    rename_i hz ha
    exact ⟨form_of_opcode? hz, form_of_opcode? ha⟩
  cases mode with
  | direct => exact Or.inl ⟨rfl, pair h⟩
  | indexedByX => exact Or.inr (Or.inl ⟨rfl, pair h⟩)
  | indexedByY => exact Or.inr (Or.inr ⟨rfl, pair h⟩)
  | immediate => exact (single h).elim
  | indexedIndirect => exact (single h).elim
  | indirectIndexed => exact (single h).elim
  | label => cases h
  | indirectLabel => cases h
  | builtin b => cases h

/-- The short form adds the index to the low byte of the address, the long form to the address. -/
theorem place?_of_either (h : op.access? mode = some (.either short long)) (v : UInt16)
    (p : Processor) :
    short.form.place? v p = some (.cell (v.toUInt8 + mode.offset p).toUInt16) ∧
      long.form.place? v p = some (.cell (v + (mode.offset p).toUInt16)) := by
  rcases forms_of_either h with ⟨rfl, hs, hl⟩ | ⟨rfl, hs, hl⟩ | ⟨rfl, hs, hl⟩
  · rw [hs, hl]
    simp [Form.place?, Mode.offset]
  · rw [hs, hl]
    exact ⟨rfl, rfl⟩
  · rw [hs, hl]
    exact ⟨rfl, rfl⟩

end Operation

namespace Processor

/-- From an address in the zero page, an index of one byte does not reach the end of the address
space. -/
theorem toNat_absolute {v : UInt16} (hv : v < 0x100) (index : UInt8) :
    (v + index.toUInt16).toNat = v.toNat + index.toNat := by
  have hv' : v.toNat < 256 := UInt16.lt_iff_toNat_lt.1 hv
  have hi := index.toNat_lt
  rw [UInt16.toNat_add, UInt8.toNat_toUInt16]
  omega

/-- Inside the zero page the sum wraps around. -/
theorem toNat_zeroPage {v : UInt16} (hv : v < 0x100) (index : UInt8) :
    (v.toUInt8 + index).toUInt16.toNat = (v.toNat + index.toNat) % 256 := by
  have hv' : v.toNat < 256 := UInt16.lt_iff_toNat_lt.1 hv
  rw [UInt8.toNat_toUInt16, UInt8.toNat_add, UInt16.toNat_toUInt8]
  omega

end Processor

/-- Where two forms stand for the same place, an operation does the same in both. -/
theorem Operation.execute_congr (op : Operation) {short long : Form} {v : UInt16} {p : Processor}
    {place : Place} (hs : short.place? v p = some place) (hl : long.place? v p = some place) :
    op.execute short v p = op.execute long v p := by
  have hplace {form : Form} (h : form.place? v p = some place) :
      op.execute form v p = op.onPlace?.bind fun f => some (f place p) := by
    cases form <;> cases h <;> rfl
  rw [hplace hs, hplace hl]

/-! ## The choice between the two forms -/

/-- What is picked has the mode that is picked. -/
theorem CommandKind.mode_of_pick {kind : CommandKind} {receiver : Operand}
    {argument : Option Operand} {side : Side} {mode : Mode} (receiverAt argumentAt : Location)
    (h : side.pick false (kind.normal receiver argument).receiver.mode
      ((kind.normal receiver argument).argument.map Operand.mode) = some mode) :
    ∃ operand location, side.pick (kind.normal receiver argument).swapped (receiver, receiverAt)
      (argument.map fun arg => (arg, argumentAt)) = some (operand, location) ∧
        operand.mode = mode := by
  rcases kind.normal_cases receiver argument with ⟨hs, hr, ha⟩ | ⟨hs, arg, rfl, hr, ha⟩
  · rw [hr, ha] at h
    rw [hs]
    cases side with
    | receiver =>
      cases h
      exact ⟨receiver, receiverAt, rfl, rfl⟩
    | argument =>
      obtain ⟨arg, rfl, rfl⟩ := Option.map_eq_some_iff.1 h
      exact ⟨arg, argumentAt, rfl, rfl⟩
  · rw [hr, ha] at h
    rw [hs]
    cases side with
    | receiver =>
      cases h
      exact ⟨arg, argumentAt, rfl, rfl⟩
    | argument =>
      cases h
      exact ⟨receiver, receiverAt, rfl, rfl⟩

namespace Command

variable {c : Command} {receiver : Operand} {receiverAt argumentAt : Location}
  {lead : Option Opcode} {short long : Opcode} {side : Side}

/-- The form of an operand is chosen by what is known of its address at that time. -/
theorem select_of_fold
    (hshape : c.kind.shapeOf receiver c.argument = .ok (.memory lead (.either short long) side))
    {operand : Operand} {location : Location}
    (hpick : side.pick (c.kind.normal receiver c.argument).swapped (receiver, receiverAt)
      (c.argument.map fun arg => (arg, argumentAt)) = some (operand, location))
    {e : Expr} (he : operand.expr = some e) {s t : Logged Context} {value : Option UInt16}
    (hfold : Pass.fold .tentative location e s = .ok value t) :
    c.select receiver receiverAt argumentAt s = .ok (some {
      kind := (c.kind.normal receiver c.argument).kind
      convertedFrom := (c.kind.normal receiver c.argument).convertedFrom
      encoding := .instruction lead (if value.any (· < 0x100) then short else long)
        (some side) }) t := by
  have hzero : inZeroPage (some (operand, location)) s = .ok (value.any (· < 0x100)) t := by
    obtain ⟨mode, expr, pos⟩ := operand
    cases he
    exact Run.bind_apply_of_ok hfold
  have hencode : encode (c.kind.normal receiver c.argument).swapped (receiver, receiverAt)
      (c.argument.map fun arg => (arg, argumentAt)) (.memory lead (.either short long) side) s =
        .ok (.instruction lead (if value.any (· < 0x100) then short else long) (some side)) t := by
    unfold encode
    simp only [hpick]
    rw [Run.bind_apply_of_ok hzero]
    split <;> rfl
  unfold select
  simp only [hshape]
  exact Run.bind_apply_of_ok hencode

/-- An address in the zero page that is known when a command is laid out is encoded in the short
form, and one that is not known yet in the long form. The two forms reach cells whose addresses
agree in their low bytes, and are the same exactly if the index does not lead out of the zero page;
then the instructions do the same. An operand without an index register always stands for the same
cell. -/
theorem zeroPage_choice
    (hshape : c.kind.shapeOf receiver c.argument = .ok (.memory lead (.either short long) side))
    (receiverAt argumentAt : Location) {v : UInt16} (hv : v < 0x100) :
    ∃ operand location,
      side.pick (c.kind.normal receiver c.argument).swapped (receiver, receiverAt)
        (c.argument.map fun arg => (arg, argumentAt)) = some (operand, location) ∧
      (∀ e s t, operand.expr = some e → Pass.fold .tentative location e s = .ok (some v) t →
        ∃ known, c.select receiver receiverAt argumentAt s = .ok (some known) t ∧
          known.encoding = .instruction lead short (some side)) ∧
      (∀ e s t, operand.expr = some e → Pass.fold .tentative location e s = .ok none t →
        ∃ unknown, c.select receiver receiverAt argumentAt s = .ok (some unknown) t ∧
          unknown.encoding = .instruction lead long (some side)) ∧
      ∀ p, ∃ near far, short.form.place? v p = some (.cell near) ∧
        long.form.place? v p = some (.cell far) ∧
        far.toNat = v.toNat + (operand.mode.offset p).toNat ∧ near.toNat = far.toNat % 256 ∧
        (near = far ↔ v.toNat + (operand.mode.offset p).toNat < 256) ∧
        (operand.mode = .direct → near = far) ∧
        (near = far → short.operation.execute short.form v p =
          long.operation.execute long.form v p) := by
  have hentry : (Shape.memory lead (.either short long) side).Entry
      (c.kind.normal receiver c.argument).receiver.mode
      ((c.kind.normal receiver c.argument).argument.map Operand.mode) := by
    unfold CommandKind.shapeOf at hshape
    simp only at hshape
    split at hshape
    · cases hshape
    · exact CommandKind.entry_of_shape hshape
  cases hentry with
  | memory op mode _ _ _ hmode hoffers =>
    obtain ⟨operand, location, hpick, rfl⟩ :=
      CommandKind.mode_of_pick receiverAt argumentAt hmode
    refine ⟨operand, location, hpick, fun e s t he hfold => ?_, fun e s t he hfold => ?_,
      fun p => ?_⟩
    · refine ⟨_, select_of_fold hshape hpick he hfold, ?_⟩
      simp [hv]
    · exact ⟨_, select_of_fold hshape hpick he hfold, rfl⟩
    · obtain ⟨hshort, hlong⟩ := Operation.place?_of_either hoffers v p
      have hfar := Processor.toNat_absolute hv (operand.mode.offset p)
      have hnear := Processor.toNat_zeroPage hv (operand.mode.offset p)
      have hsame : (v.toUInt8 + operand.mode.offset p).toUInt16 =
          v + (operand.mode.offset p).toUInt16 ↔
            v.toNat + (operand.mode.offset p).toNat < 256 := by
        rw [← UInt16.toNat_inj, hfar, hnear]
        omega
      refine ⟨_, _, hshort, hlong, hfar, by rw [hnear, hfar], hsame, fun hdirect => ?_,
        fun heq => ?_⟩
      · rw [hsame, hdirect]
        exact UInt16.lt_iff_toNat_lt.1 hv
      · rw [heq] at hshort
        obtain ⟨-, hoperation⟩ := Operation.opcode_of_access? hoffers
        rw [(hoperation short List.mem_cons_self).1,
          (hoperation long (List.mem_cons_of_mem _ List.mem_cons_self)).1]
        exact op.execute_congr hshort hlong

/-- A load from an indexed address in the zero page. -/
theorem zeroPage_choice_load :
    let c : Command := {
      kind := .get
      argument := some { mode := .indexedByX, expr := some (.number 0xF0 {}) } }
    let short : Opcode := { operation := .lda, form := .zeroPageX }
    let long : Opcode := { operation := .lda, form := .absoluteX }
    c.kind.shapeOf { mode := .builtin .a } c.argument =
        .ok (.memory none (.either short long) .argument) ∧
      (0xF0 : UInt16) < 0x100 ∧
      ∀ p, ∃ near far, short.form.place? 0xF0 p = some (.cell near) ∧
        long.form.place? 0xF0 p = some (.cell far) ∧ (near = far ↔ 0xF0 + p.x.toNat < 256) := by
  intro c short long
  refine ⟨rfl, by decide, fun p => ?_⟩
  obtain ⟨operand, location, hpick, -, -, hplaces⟩ :=
    @zeroPage_choice c { mode := .builtin .a } none short long .argument rfl .top .top 0xF0
      (by decide)
  cases hpick
  obtain ⟨near, far, hshort, hlong, -, -, hsame, -, -⟩ := hplaces p
  exact ⟨near, far, hshort, hlong, hsame⟩

/-- A load from an indexed label. Once the label is placed in the zero page, the load wraps around
inside the zero page; before that it does not. -/
theorem zeroPage_choice_wraps :
    let c : Command := {
      kind := .get
      argument := some { mode := .indexedByX, expr := some (.reference [{ text := "table" }] {}) } }
    let receiver : Operand := { mode := .builtin .a }
    let start (address : Option UInt16) : Logged Context := {
      state := { symbols := {
        scopes := #[{ names := [("table", ⟨0⟩)] }]
        definitions := #[
          { name := "table", meaning := .label address, owner := SymbolTable.root }] } }
      log := .empty 1 }
    ∃ known unknown t u, c.select receiver .top .top (start (some 0xF0)) = .ok (some known) t ∧
      c.select receiver .top .top (start none) = .ok (some unknown) u ∧
      ∀ p : Processor, p.x = 0x20 →
        known.encoding.form.place? 0xF0 p = some (.cell 0x10) ∧
          unknown.encoding.form.place? 0xF0 p = some (.cell 0x110) := by
  intro c receiver start
  refine ⟨_, _, _, _, rfl, rfl, fun p hx => ?_⟩
  show some (Place.cell ((0xF0 : UInt16).toUInt8 + p.x).toUInt16) = _ ∧
    some (Place.cell ((0xF0 : UInt16) + p.x.toUInt16)) = _
  rw [hx]
  exact ⟨rfl, rfl⟩

end Command

end Cartridge
