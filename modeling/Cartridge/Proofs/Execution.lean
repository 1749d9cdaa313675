import Cartridge.Proofs.Effects
import Cartridge.Proofs.Emission
import Cartridge.Proofs.LayoutFrame

/-!
# Execution of commands

Whatever encoding is selected for a command, the bytes that are emitted for it do what the command
says when the processor comes to them.

Main definitions:

- `Command.operandValue`: the value of the expression of the operand in memory.

Main results:

- Theorem `CommandKind.effect_of_normal`: the normal form of a command has the same effect.
- Theorem `Command.puts_selection`: the bytes that are emitted for a command.
- Theorem `Command.emit_performs`: running them has the effect of the command.
-/

namespace Cartridge

/-! ## Normal forms -/

namespace CommandKind

variable {kind : CommandKind} {receiver : Operand} {argument : Option Operand}

/-- Where operands change places the effect stays the same. -/
theorem effect_of_normal {form : Form} {v : UInt16} {p q : Processor}
    (h : (kind.normal receiver argument).kind.Effect (kind.normal receiver argument).receiver.mode
      ((kind.normal receiver argument).argument.map Operand.mode) form v p q) :
    kind.Effect receiver.mode (argument.map Operand.mode) form v p q := by
  cases argument with
  | none => exact h
  | some arg =>
    unfold normal at h
    by_cases hm : arg.mode.isMemory = true
    · simp only [hm, if_true] at h
      exact h
    · simp only [hm] at h
      cases kind with
      | get =>
        by_cases hr : receiver.mode.isAddressable = true
        · simp only [hr] at h
          obtain ⟨r, m, hr, hm, heffect⟩ := h
          exact ⟨m, r, hm, hr, heffect⟩
        · simp only [hr] at h
          exact h
      | put =>
        by_cases hr : receiver.mode.isMemory = true
        · simp only [hr] at h
          obtain ⟨r, m, hr, hm, heffect⟩ := h
          exact ⟨m, r, hm, hr, heffect⟩
        · simp only [hr] at h
          exact h
      | _ => exact h

/-- In a normal form the operands stand where they were, or have changed places. -/
theorem normal_cases (kind : CommandKind) (receiver : Operand) (argument : Option Operand) :
    let n := kind.normal receiver argument
    n.swapped = false ∧ n.receiver = receiver ∧ n.argument = argument ∨
      n.swapped = true ∧ ∃ arg, argument = some arg ∧ n.receiver = arg ∧
        n.argument = some receiver := by
  cases argument with
  | none => exact Or.inl ⟨rfl, rfl, rfl⟩
  | some arg =>
    by_cases hm : arg.mode.isMemory = true
    · have hn : kind.normal receiver (some arg) = { kind, receiver, argument := some arg } :=
        if_pos hm
      rw [hn]
      exact Or.inl ⟨rfl, rfl, rfl⟩
    · unfold normal
      simp only [hm]
      cases kind with
      | get =>
        by_cases hr : receiver.mode.isAddressable = true <;> simp only [hr]
        · exact Or.inr ⟨rfl, arg, rfl, rfl, rfl⟩
        · exact Or.inl ⟨rfl, rfl, rfl⟩
      | put =>
        by_cases hr : receiver.mode.isMemory = true <;> simp only [hr]
        · exact Or.inr ⟨rfl, arg, rfl, rfl, rfl⟩
        · exact Or.inl ⟨rfl, rfl, rfl⟩
      | _ => exact Or.inl ⟨rfl, rfl, rfl⟩

/-- The operand that an instruction carries is the one in memory. -/
theorem pick_normal {side : Side} {mode : Mode} (receiverAt argumentAt : Location)
    (hpair : (receiver.mode.isMemory && argument.any (·.mode.isMemory)) = false)
    (hpick : side.pick false (kind.normal receiver argument).receiver.mode
      ((kind.normal receiver argument).argument.map Operand.mode) = some mode)
    (hm : mode.isMemory = true) :
    ∃ operand, side.pick (kind.normal receiver argument).swapped (receiver, receiverAt)
      (argument.map fun arg => (arg, argumentAt)) =
        some (operand, if receiver.mode.isMemory then receiverAt else argumentAt) := by
  -- Two operands are never both in memory.
  have alone {arg : Operand} (harg : argument = some arg) (ha : arg.mode.isMemory = true) :
      receiver.mode.isMemory = false := by
    simpa [harg, ha] using hpair
  rcases kind.normal_cases receiver argument with ⟨hs, hr, ha⟩ | ⟨hs, arg, rfl, hr, ha⟩
  · rw [hr, ha] at hpick
    rw [hs]
    cases side with
    | receiver =>
      cases hpick
      exact ⟨receiver, by rw [hm]; rfl⟩
    | argument =>
      obtain ⟨arg, rfl, rfl⟩ := Option.map_eq_some_iff.1 hpick
      exact ⟨arg, by rw [alone rfl hm]; rfl⟩
  · rw [hr, ha] at hpick
    rw [hs]
    cases side with
    | receiver =>
      cases hpick
      exact ⟨arg, by rw [alone rfl hm]; rfl⟩
    | argument =>
      cases hpick
      exact ⟨receiver, by rw [hm]; rfl⟩

end CommandKind

/-! ## Selections -/

namespace Command

variable {c : Command} {receiver : Operand} {receiverAt argumentAt : Location}

theorem performs_of_encode {swapped : Bool} {r : Located} {a : Option Located} {shape : Shape}
    {receiver : Mode} {argument : Option Mode}
    {effect : Form → UInt16 → Processor → Processor → Prop} {e : Encoding} {s t : Logged Context}
    (h : encode swapped r a shape s = .ok e t) (hs : shape.Performs receiver argument effect) :
    e.Performs effect ∧ ∀ lead opcode side, e = .instruction lead opcode (some side) →
      ∃ mode, side.pick false receiver argument = some mode ∧ mode.isMemory = true := by
  unfold encode at h
  split at h
  · cases h
    refine ⟨hs, fun lead opcode side he => ?_⟩
    cases he
  · cases h
    refine ⟨hs, fun lead opcode side he => ?_⟩
    cases he
  · cases h
    refine ⟨hs.2 _ List.mem_cons_self, fun lead opcode side he => ?_⟩
    cases he
    exact hs.1
  · obtain ⟨short, u, -, hret⟩ := Run.bind_eq_ok.1 h
    cases short with
    | true =>
      cases hret
      refine ⟨hs.2 _ List.mem_cons_self, fun lead opcode side he => ?_⟩
      cases he
      exact hs.1
    | false =>
      cases hret
      refine ⟨hs.2 _ (List.mem_cons_of_mem _ List.mem_cons_self), fun lead opcode side he => ?_⟩
      cases he
      exact hs.1

/-- What is selected for a command has the effect of the command, and the operand that it carries is
the one in memory. -/
theorem performs_of_select {s t : Logged Context} {selection : Selection}
    (h : c.select receiver receiverAt argumentAt s = .ok (some selection) t) :
    selection.encoding.Performs (c.kind.Effect receiver.mode (c.argument.map Operand.mode)) ∧
      ∀ lead opcode side, selection.encoding = .instruction lead opcode (some side) →
        ∃ operand, side.pick selection.swapped (receiver, receiverAt)
          (c.argument.map fun arg => (arg, argumentAt)) =
            some (operand, if receiver.mode.isMemory then receiverAt else argumentAt) := by
  obtain ⟨hswapped, shape, hs, he⟩ := encode_of_select h
  unfold CommandKind.shapeOf at hs
  simp only at hs
  split at hs
  · cases hs
  rename_i hpair
  obtain ⟨hperforms, hcarries⟩ := performs_of_encode he (CommandKind.performs_shape hs)
  refine ⟨fun v hv pc p hp => ?_, fun lead opcode side hside => ?_⟩
  · obtain ⟨n, q, hrun, heffect⟩ := hperforms v hv pc p hp
    exact ⟨n, q, hrun, CommandKind.effect_of_normal heffect⟩
  · obtain ⟨mode, hpick, hm⟩ := hcarries lead opcode side hside
    rw [hswapped]
    exact CommandKind.pick_normal receiverAt argumentAt (Bool.eq_false_iff.2 hpair) hpick hm

end Command

/-! ## Emission -/

namespace Pass

/-- Bytes were written to the active bank. -/
def Puts (bytes : List UInt8) (s t : Logged Context) : Prop :=
  ∃ i, s.state.active? = some i ∧ Wrote i bytes s t

/-- A bank that has space is one of the rom. -/
theorem lt_bankCount_of_room {ctx : Context} {i n : Nat} (hn : 0 < n)
    (h : (ctx.bank i).position + n ≤ (ctx.bank i).reserved) : i < ctx.bankCount := by
  rcases Nat.lt_or_ge i ctx.bankCount with hlt | hge
  · exact hlt
  · have hbank : ctx.bank i = {} := by
      unfold Context.bank
      unfold Context.bankCount at hge
      cases hr : ctx.rom with
      | none => rfl
      | some rom =>
        rw [hr] at hge
        exact (Array.getD_eq_getD_getElem? ..).trans (by rw [Array.getElem?_eq_none hge]; rfl)
    rw [hbank] at h
    have hzero : ({} : Bank).reserved = 0 := rfl
    omega

theorem Puts.append {a b : List UInt8} {s t u : Logged Context} (hst : Puts a s t)
    (htu : Puts b t u) (ha : a ≠ []) : Puts (a ++ b) s u := by
  obtain ⟨i, hi, hw⟩ := hst
  obtain ⟨j, hj, hw'⟩ := htu
  have hroom := hw.room.resolve_left ha
  have hactive : t.state.active? = some i := by
    rw [hw.state, ← hi]
    exact Context.active?_setBank s.state i _
  cases hactive.symm.trans hj
  exact ⟨i, hi, hw.append hw' (lt_bankCount_of_room (List.length_pos_iff.2 ha) hroom)⟩

theorem Puts.count {bytes : List UInt8} {s t : Logged Context} (h : Puts bytes s t) :
    s.log.count ≤ t.log.count := by
  obtain ⟨i, -, hw⟩ := h
  exact hw.count

theorem puts_writeBytes {bytes : List UInt8} {pos : Position} {s t : Logged Context}
    (h : writeBytes bytes pos s = .ok () t) : Puts bytes s t ∧ t.state.memo = s.state.memo := by
  obtain ⟨i, b, hi, hb, rfl⟩ := onBank_eq_ok.1 h
  obtain ⟨hroom, rfl⟩ := Bank.writeBytes_eq_ok.1 hb
  exact ⟨⟨i, hi, rfl, Memo.Le.refl _, Nat.le_refl _, Or.inr hroom⟩, rfl⟩

theorem puts_writeByte {value : UInt16} {pos : Position} {s t : Logged Context}
    (h : writeByte value pos s = .ok () t) :
    Puts [value.toUInt8] s t ∧ t.state.memo = s.state.memo ∧
      (t.log.count ≤ s.log.count → value ≤ 0xFF) := by
  obtain ⟨i, b, hi, hb, rfl⟩ := onBank_eq_ok.1 h
  obtain ⟨hroom, hstate, hsmall, hcount⟩ := Bank.writeByte_of_ok hb
  refine ⟨⟨i, hi, ?_, Memo.Le.refl _, hcount, Or.inr hroom⟩, rfl, hsmall⟩
  rw [hstate]
  rfl

theorem puts_writeOpcode {o : Opcode} {pos : Position} {s t : Logged Context}
    (h : writeOpcode o pos s = .ok () t) : Puts [o.byte] s t := by
  have hput := (puts_writeByte h).1
  rw [UInt8.toUInt8_toUInt16] at hput
  exact hput

/-- A fold before bytes are written is no part of them. -/
theorem Puts.of_fold {demand : Demand} {location : Location} {e : Expr} {v : Option UInt16}
    {bytes : List UInt8} {s t u : Logged Context} (hst : fold demand location e s = .ok v t)
    (htu : Puts bytes t u) : Puts bytes s u := by
  obtain ⟨hstate, hle, hcount, -⟩ := fold_of_ok hst
  obtain ⟨i, hi, hw⟩ := htu
  rw [hstate] at hi
  refine ⟨i, hi, ?_, hle.trans hw.memo, Nat.le_trans hcount hw.count, ?_⟩
  · rw [hw.state, hstate]
    rfl
  · have hroom := hw.room
    rw [hstate] at hroom
    exact hroom

end Pass

namespace Command

open Pass

/-- The value of the expression of the operand in memory. It is zero where there is none. -/
def operandValue (receiver : Operand) (receiverAt argumentAt : Location) (memo : Memo) : UInt16 :=
  (memo.value? (.tree (if receiver.mode.isMemory then receiverAt else argumentAt))).getD 0

/-- The operand bytes of an instruction are those of the value of the operand. -/
theorem puts_operand {o : Opcode} {pos : Position} {operand : Operand} {location : Location}
    {s t : Logged Context} (ho : o.TakesOperand)
    (h : emitOperand o pos (some (operand, location)) s = .ok () t)
    (hquiet : t.log.count ≤ s.log.count) :
    let v := (t.state.memo.value? (.tree location)).getD 0
    Puts (o.bytes v).tail s t ∧ o.Fits v := by
  obtain ⟨mode, _ | e, opos⟩ := operand
  · cases h
  · obtain ⟨v, u, hu, hwrite⟩ := Run.bind_eq_ok.1 h
    obtain ⟨-, -, hcount, hv, -⟩ := fold_of_ok hu
    unfold Opcode.bytes Opcode.Fits
    rcases ho with h1 | h2
    · rw [if_pos h1] at hwrite
      obtain ⟨hput, hmemo, hsmall⟩ := puts_writeByte hwrite
      rw [hmemo, ← hv, h1]
      exact ⟨hput.of_fold hu, fun _ => hsmall (Nat.le_trans hquiet hcount)⟩
    · rw [if_neg (by omega)] at hwrite
      obtain ⟨hput, hmemo⟩ := puts_writeBytes hwrite
      rw [hmemo, ← hv, h2]
      exact ⟨hput.of_fold hu, nofun⟩

/-- The bytes that are emitted for a command are those of the selected encoding, with the value of
the operand in memory. -/
theorem puts_selection {selection : Selection} {argument : Option Located} {pos : Position}
    {receiver : Operand} {receiverAt argumentAt : Location} {s t : Logged Context}
    (hsized : selection.encoding.Sized)
    (hcarries : ∀ lead opcode side, selection.encoding = .instruction lead opcode (some side) →
      ∃ operand, side.pick selection.swapped (receiver, receiverAt) argument =
        some (operand, if receiver.mode.isMemory then receiverAt else argumentAt))
    (h : emitSelection selection (receiver, receiverAt) argument pos s = .ok () t)
    (hquiet : t.log.count ≤ s.log.count) :
    let v := operandValue receiver receiverAt argumentAt t.state.memo
    Puts (selection.encoding.bytes v) s t ∧ selection.encoding.Fits v := by
  unfold emitSelection at h
  cases he : selection.encoding with
  | sequence instructions =>
    simp only [he] at h
    exact ⟨(puts_writeBytes h).1, trivial⟩
  | instruction lead opcode carrier =>
    simp only [he] at h hcarries
    rw [he] at hsized
    obtain ⟨_, u, hlead, hrest⟩ := Run.bind_eq_ok.1 h
    -- After the lead, the opcode and its operand are written.
    have hmain (hu : t.log.count ≤ u.log.count) :
        let v := operandValue receiver receiverAt argumentAt t.state.memo
        Puts (opcode.bytes v) u t ∧ opcode.Fits v := by
      obtain ⟨_, w, hopcode, hoperand⟩ := Run.bind_eq_ok.1 hrest
      have hput := puts_writeOpcode hopcode
      cases carrier with
      | none =>
        have hzero : opcode.form.operandSize = 0 := hsized
        cases hoperand
        unfold Opcode.bytes Opcode.Fits
        rw [hzero]
        exact ⟨hput, nofun⟩
      | some side =>
        obtain ⟨operand, hpick⟩ := hcarries lead opcode side rfl
        simp only [hpick] at hoperand
        obtain ⟨htail, hfits⟩ :=
          puts_operand hsized hoperand (Nat.le_trans hu hput.count)
        exact ⟨hput.append htail (List.cons_ne_nil _ _), hfits⟩
    cases lead with
    | none =>
      cases hlead
      exact hmain hquiet
    | some o =>
      have hput : Puts [o.byte] s u := puts_writeOpcode hlead
      obtain ⟨hrest, hfits⟩ := hmain (Nat.le_trans hquiet hput.count)
      exact ⟨hput.append hrest (List.cons_ne_nil _ _), hfits⟩

/-- Running the bytes that are emitted for a command has the effect of the command, wherever they
stand and whatever the state of the processor is. -/
theorem emit_performs {c : Command} {receiver : Operand} {receiverAt argumentAt : Location}
    {selection : Selection} {s₀ s₁ s t : Logged Context}
    (hselect : c.select receiver receiverAt argumentAt s₀ = .ok (some selection) s₁)
    (hrecord : s.state.selections.at? argumentAt = some selection)
    (hemit : c.emit receiver receiverAt argumentAt s = .ok () t)
    (hquiet : t.log.count = s.log.count) :
    ∃ i bytes, s.state.active? = some i ∧
      t.state = { s.state.write i bytes with memo := t.state.memo } ∧
      ∀ pc p, Processor.Holds p pc bytes →
        ∃ n q, Processor.run n pc p = some (pc + .ofNat bytes.length, q) ∧
          c.kind.Effect receiver.mode (c.argument.map Operand.mode) selection.encoding.form
            (operandValue receiver receiverAt argumentAt t.state.memo) p q := by
  obtain ⟨hperforms, hcarries⟩ := performs_of_select hselect
  unfold emit at hemit
  rw [Run.read_bind_apply, hrecord] at hemit
  obtain ⟨⟨i, hi, hw⟩, hfits⟩ :=
    puts_selection (sized_of_select hselect) hcarries hemit (Nat.le_of_eq hquiet)
  exact ⟨i, _, hi, hw.state, hperforms _ hfits⟩

/-- A command that adds what is found at an indexed address, in a bank with room for it. -/
theorem emit_performs_add :
    let c : Command := {
      kind := .add
      argument := some { mode := .indexedByX, expr := some (.number 0x1234 {}) } }
    let receiver : Operand := { mode := .builtin .a }
    let empty : Logged Context := {
      state := { rom := some {
        settings := { mapper := 0, prg := 1, chr := 0 }
        banks := #[{ origin := some 0x8000, reserved := 4 }]
        active := some 0 } }
      log := .empty 1 }
    ∃ selection s₁ s t,
      c.select receiver ⟨1, [0]⟩ ⟨1, [1]⟩ empty = .ok (some selection) s₁ ∧
      s.state.selections.at? ⟨1, [1]⟩ = some selection ∧
      c.emit receiver ⟨1, [0]⟩ ⟨1, [1]⟩ s = .ok () t ∧ t.log.count = s.log.count ∧
      ∃ i bytes, s.state.active? = some i ∧
        t.state = { s.state.write i bytes with memo := t.state.memo } ∧
        ∀ pc p, Processor.Holds p pc bytes →
          ∃ n q, Processor.run n pc p = some (pc + .ofNat bytes.length, q) ∧
            CommandKind.add.Effect (.builtin .a) (some .indexedByX) .absoluteX 0x1234 p q := by
  intro c receiver empty
  let selection : Selection := {
    kind := .add
    convertedFrom := none
    encoding := .instruction (some { operation := .clc, form := .implied })
      { operation := .adc, form := .absoluteX } (some .argument) }
  let s : Logged Context := { empty with state := { empty.state with
    selections := Record.empty.set ⟨1, [1]⟩ (some selection) } }
  obtain ⟨s₁, hselect⟩ : ∃ s₁, c.select receiver ⟨1, [0]⟩ ⟨1, [1]⟩ empty =
      .ok (some selection) s₁ := ⟨_, rfl⟩
  obtain ⟨t, hemit, hcount, hvalue⟩ : ∃ t, c.emit receiver ⟨1, [0]⟩ ⟨1, [1]⟩ s = .ok () t ∧
      t.log.count = s.log.count ∧ operandValue receiver ⟨1, [0]⟩ ⟨1, [1]⟩ t.state.memo = 0x1234 :=
    ⟨_, rfl, rfl, rfl⟩
  have h := emit_performs hselect rfl hemit hcount
  rw [hvalue] at h
  exact ⟨selection, s₁, s, t, hselect, rfl, hemit, hcount, h⟩

end Command

end Cartridge
