import Cartridge.Proofs.Agreement
import Cartridge.Proofs.Branching
import Cartridge.Proofs.Course
import Cartridge.Proofs.Finding
import Cartridge.Proofs.ZeroPage
import Mathlib.Data.List.Nodup

/-!
# Decisions of the layout

The layout decides between the two forms of a memory operand by what is known of its address at that
time. The emission comes back to the command when labels have been placed and many expressions have
been folded. What was known is still known then, so an address that was found to lie in the zero
page still lies there; and where the long form was chosen there is room for any address.

Main definitions:

- `Pass.Fills`: bytes are written to a bank, or the bank is full.

Main results:

- Theorem `Statement.result_of_mem_visits`: what a visit comes to, even if the pass is abandoned.
- Theorem `Visit.Paired.room`: the space that the layout has reserved is there for the emission.
- Theorems `Command.fills_emit` and `Command.emit_of_long`: the bytes of the two forms.
- Theorem `Program.decision_stands`: what the layout decides holds good in the emission.
-/

namespace Cartridge

/-! ## Full banks -/

namespace Pass

/-- What becomes of a run that writes bytes to a bank. They are written if they fit into the
reserved space. Otherwise the run is abandoned, and this is all that is reported. -/
structure Fills (i : Nat) (bytes : List UInt8) (s : Logged Context)
    (r : EStateM.Result Abort (Logged Context) Unit) : Prop where
  written : (s.state.bank i).position + bytes.length ≤ (s.state.bank i).reserved →
    r = .ok () { s with state := s.state.write i bytes }
  full : (s.state.bank i).reserved < (s.state.bank i).position + bytes.length →
    ∃ x t pos, r = .error x t ∧ t.log = s.log.fatal .writeOutside pos

variable {s t : Logged Context} {i : Nat} {pos : Position}

/-- What finishes has written. -/
theorem Fills.eq_of_ok {bytes : List UInt8} (h : Fills i bytes s (.ok () t)) :
    t = { s with state := s.state.write i bytes } := by
  rcases Nat.lt_or_ge (s.state.bank i).reserved ((s.state.bank i).position + bytes.length) with
    hfull | hroom
  · obtain ⟨x, u, pos, hu, -⟩ := h.full hfull
    cases hu
  · cases h.written hroom
    rfl

/-- Nothing is reported but that the bank is full. -/
theorem Fills.entries {v : Visit} {bytes : List UInt8} (h : Fills i bytes v.start v.result) :
    ∃ added, v.stop.log.entries = v.start.log.entries ++ added ∧
      ∀ d ∈ added, d.error = .writeOutside := by
  rcases Nat.lt_or_ge (v.start.state.bank i).reserved
    ((v.start.state.bank i).position + bytes.length) with hfull | hroom
  · obtain ⟨x, t, pos, ht, hlog⟩ := h.full hfull
    have hstop : v.stop = t := by
      unfold Visit.stop
      rw [ht]
    refine ⟨[{ fatal := true, pos := some pos, error := .writeOutside }], ?_, fun d hd => ?_⟩
    · rw [hstop, hlog]
      rfl
    · rw [List.mem_singleton.1 hd]
  · rw [Visit.stop_of_ok (h.written hroom)]
    exact ⟨[], (List.append_nil _).symm, fun _ hd => absurd hd List.not_mem_nil⟩

/-- Bytes are written one part after the other. -/
theorem Fills.bind {a b : List UInt8} {act next : Pass Unit} (ha : Fills i a s (act s))
    (hb : ∀ t, act s = .ok () t → Fills i b t (next t)) (hi : i < s.state.bankCount) :
    Fills i (a ++ b) s ((do act; next) s) where
  written hroom := by
    rw [List.length_append] at hroom
    have hact := ha.written (by omega)
    have hnext := (hb _ hact).written
    rw [Context.position_write hi, Context.reserved_write hi] at hnext
    rw [Run.bind_apply_of_ok hact, hnext (by omega), Context.write_write hi]
  full hfull := by
    rw [List.length_append] at hfull
    rcases Nat.lt_or_ge (s.state.bank i).reserved ((s.state.bank i).position + a.length) with
      hfirst | hroom
    · obtain ⟨x, t, pos, ht, hlog⟩ := ha.full hfirst
      exact ⟨x, t, pos, Run.bind_apply_of_error ht, hlog⟩
    · have hact := ha.written hroom
      have hnext := (hb _ hact).full
      rw [Context.position_write hi, Context.reserved_write hi] at hnext
      rw [Run.bind_apply_of_ok hact]
      exact hnext (by omega)

/-- A run over the active bank is abandoned if the run over that bank alone is. -/
theorem onBank_of_error {what : String} {act : Run Bank Unit} {x : Abort} {b : Logged Bank}
    (hi : s.state.active? = some i)
    (h : act { state := s.state.bank i, log := s.log } = .error x b) :
    ∃ t, onBank what pos act s = .error x t ∧ t.log = b.log := by
  obtain ⟨rom, hr, ha⟩ := Option.bind_eq_some_iff.1 hi
  have hbank : s.state.bank i = rom.banks.getD i {} := by
    simp [Context.bank, hr, Rom.bank]
  rw [hbank] at h
  unfold onBank onRom
  rw [Run.read_bind_apply]
  simp only [hr, Run.focus, Run.read_bind_apply, ha, Rom.onBank, h]
  exact ⟨_, rfl, rfl⟩

theorem fills_writeByte {value : UInt16} (hi : s.state.active? = some i) (hvalue : value ≤ 0xFF)
    (pos : Position) : Fills i [value.toUInt8] s (writeByte value pos s) where
  written hroom := writeByte_of_room hi hroom hvalue pos
  full hfull := by
    have hmore : (s.state.bank i).position + 1 > (s.state.bank i).reserved := hfull
    have hensure : Bank.writeByte value pos { state := s.state.bank i, log := s.log } =
        .error .abort { state := s.state.bank i, log := s.log.fatal .writeOutside pos } := by
      unfold Bank.writeByte Bank.ensure
      refine Run.bind_apply_of_error ?_
      rw [Run.read_bind_apply]
      exact congrFun (if_pos hmore) _
    obtain ⟨t, ht, hlog⟩ := @onBank_of_error _ _ pos "data" _ _ _ hi hensure
    exact ⟨_, t, pos, ht, hlog⟩

theorem fills_writeOpcode (opcode : Opcode) (hi : s.state.active? = some i) (pos : Position) :
    Fills i [opcode.byte] s (writeOpcode opcode pos s) := by
  have hfills := fills_writeByte hi (toUInt16_le opcode.byte) pos
  rw [UInt8.toUInt8_toUInt16] at hfills
  exact hfills

/-- A value that is known is what an expression is folded to, and nothing changes. -/
theorem fold_of_value {m : Location} {n : UInt16} (h : s.state.memo.value? (.tree m) = some n)
    (demand : Demand) (e : Expr) : fold demand m e s = .ok (some n) s := by
  have hresult := Memo.value?_eq_some.1 h
  refine foldAt_eq_ok.2 ⟨.value n, { state := s.state.memo, log := s.log }, ?_, rfl, rfl⟩
  unfold SymbolTable.fold
  rw [SymbolTable.foldWith_of_known (hresult ▸ Folded.noConfusion), hresult]

end Pass

/-! ## The bytes of the two forms -/

namespace Command

variable {c : Command} {receiver operand : Operand} {receiverAt argumentAt m : Location}
  {selection : Selection} {lead : Option Opcode} {opcode : Opcode} {side : Side} {e : Expr}
  {s u : Logged Context} {i : Nat}

/-- What is emitted for a command with a memory operand. -/
theorem emit_of_selected (hat : s.state.selections.at? argumentAt = some selection)
    (hencoding : selection.encoding = .instruction lead opcode (some side))
    (hpick : side.pick selection.swapped (receiver, receiverAt)
      (c.argument.map fun arg => (arg, argumentAt)) = some (operand, m)) :
    c.emit receiver receiverAt argumentAt s = (do
      Pass.writeSomeOpcode lead c.pos
      Pass.writeOpcode opcode c.pos
      emitOperand opcode c.pos (some (operand, m))) s := by
  unfold emit
  rw [Run.read_bind_apply]
  simp only [hat]
  unfold emitSelection
  simp only [hencoding, hpick]

/-- What is written for an operand. -/
theorem emitOperand_of_fold (he : operand.expr = some e) {value : Option UInt16}
    (hfold : Pass.fold .final m e s = .ok value u) (pos : Position) :
    emitOperand opcode pos (some (operand, m)) s =
      (if opcode.form.operandSize = 1 then Pass.writeByte (value.getD 0) e.pos
        else Pass.writeWord (value.getD 0) e.pos) u := by
  obtain ⟨mode, expr, p⟩ := operand
  cases he
  exact Run.bind_apply_of_ok hfold

/-- The opcodes of a command. -/
theorem fills_opcodes (lead : Option Opcode) (opcode : Opcode) (hi : s.state.active? = some i)
    (hrange : i < s.state.bankCount) (pos : Position) :
    Pass.Fills i (lead.toList.map Opcode.byte ++ [opcode.byte]) s ((do
      Pass.writeSomeOpcode lead pos
      Pass.writeOpcode opcode pos) s) := by
  cases lead with
  | none => exact Pass.fills_writeOpcode opcode hi pos
  | some first =>
    have hfirst : Pass.Fills i [first.byte] s (Pass.writeSomeOpcode (some first) pos s) :=
      Pass.fills_writeOpcode first hi pos
    refine hfirst.bind (fun t ht => ?_) hrange
    rw [ht] at hfirst
    rw [hfirst.eq_of_ok]
    exact Pass.fills_writeOpcode opcode ((Context.active?_write ..).trans hi) pos

/-- A command in the short form whose address is known to be one byte is written, or the bank is
full. -/
theorem fills_emit (hat : s.state.selections.at? argumentAt = some selection)
    (hencoding : selection.encoding = .instruction lead opcode (some side))
    (hpick : side.pick selection.swapped (receiver, receiverAt)
      (c.argument.map fun arg => (arg, argumentAt)) = some (operand, m))
    (he : operand.expr = some e) (hsize : opcode.form.operandSize = 1)
    (hi : s.state.active? = some i) (hrange : i < s.state.bankCount) {n : UInt16}
    (hvalue : s.state.memo.value? (.tree m) = some n) (hn : n ≤ 0xFF) :
    Pass.Fills i (lead.toList.map Opcode.byte ++ [opcode.byte, n.toUInt8]) s
      (c.emit receiver receiverAt argumentAt s) := by
  have hopcodes := fills_opcodes lead opcode hi hrange c.pos
  have hbytes : lead.toList.map Opcode.byte ++ [opcode.byte, n.toUInt8] =
      (lead.toList.map Opcode.byte ++ [opcode.byte]) ++ [n.toUInt8] := by
    rw [List.append_assoc, List.singleton_append]
  rw [emit_of_selected hat hencoding hpick, ← bind_assoc, hbytes]
  refine hopcodes.bind (fun t ht => ?_) hrange
  rw [ht] at hopcodes
  have hfold := Pass.fold_write (i := i) (Pass.fold_of_value hvalue .final e)
    (lead.toList.map Opcode.byte ++ [opcode.byte])
  rw [hopcodes.eq_of_ok, emitOperand_of_fold he hfold, if_pos hsize]
  exact Pass.fills_writeByte ((Context.active?_write ..).trans hi) hn e.pos

/-- A command in the long form is written with two bytes for the address, whatever it is, if there
is room. -/
theorem emit_of_long (hat : s.state.selections.at? argumentAt = some selection)
    (hencoding : selection.encoding = .instruction lead opcode (some side))
    (hpick : side.pick selection.swapped (receiver, receiverAt)
      (c.argument.map fun arg => (arg, argumentAt)) = some (operand, m))
    (he : operand.expr = some e) (hsize : opcode.form.operandSize = 2)
    (hi : s.state.active? = some i) (hrange : i < s.state.bankCount)
    (hroom : (s.state.bank i).position + selection.size ≤ (s.state.bank i).reserved)
    {value : Option UInt16} (hfold : Pass.fold .final m e s = .ok value u) :
    c.emit receiver receiverAt argumentAt s = .ok () { u with
      state := u.state.write i
        (lead.toList.map Opcode.byte ++ opcode.byte :: littleEndian (value.getD 0)) } := by
  have hlength : selection.size = lead.toList.length + 1 + 2 := by
    unfold Selection.size
    rw [hencoding, Encoding.size_instruction, hsize]
  rw [hlength] at hroom
  have hopcodes := (fills_opcodes lead opcode hi hrange c.pos).written (by
    rw [List.length_append, List.length_map, List.length_singleton]
    omega)
  -- The fold changes neither the rom nor does it depend on it.
  obtain ⟨hu, -⟩ := Pass.fold_of_ok hfold
  have hfold' := Pass.fold_write (i := i) hfold (lead.toList.map Opcode.byte ++ [opcode.byte])
  have hcount : i < u.state.bankCount := by
    rw [hu]
    exact hrange
  have hactive : u.state.active? = some i := by
    rw [hu]
    exact hi
  have hbank : u.state.bank i = s.state.bank i := by
    rw [hu]
    rfl
  have hword := @Pass.writeBytes_of_room
    { u with state := u.state.write i (lead.toList.map Opcode.byte ++ [opcode.byte]) } i
    (littleEndian (value.getD 0)) ((Context.active?_write ..).trans hactive) (by
      rw [Context.position_write hcount, Context.reserved_write hcount, hbank, List.length_append,
        List.length_map, List.length_singleton]
      exact hroom) e.pos
  rw [emit_of_selected hat hencoding hpick, ← bind_assoc, Run.bind_apply_of_ok hopcodes,
    emitOperand_of_fold he hfold', if_neg (by rw [hsize]; decide)]
  refine hword.trans ?_
  rw [Context.write_write hcount, List.append_assoc, List.singleton_append]

end Command

/-! ## Visits -/

namespace Statement

variable {w : Walk} {v : Visit}

/-- What a visit comes to, even if the pass is abandoned there or later. -/
theorem result_of_mem_visits (stmt : Statement) {location : Location} {s : Logged Context}
    (hv : v ∈ stmt.visits w location s) : v.result = w.act v.location v.node v.start := by
  have hcomes := comes_of_mem_visits stmt hv
  clear hv
  induction hcomes with
  | here visit =>
    rw [visit]
    rfl
  | command _ visit =>
    rw [visit]
    rfl
  | block _ _ _ ih => exact ih

/-! ### The amounts of the statements inside -/

mutual

theorem mem_amounts_of_placesInside {files : Files} {m : Location} {inner : Statement} {n : Nat}
    (hn : n ∈ inner.amounts files) :
    ∀ (stmt : Statement) {location : Location},
      (m, Node.statement inner) ∈ stmt.placesInside location → n ∈ stmt.amounts files
  | .block _ statements _, _, h => mem_amounts_of_placesAll hn statements h
  | .command _, _, h => by
    obtain ⟨k, c, -, -, hnode⟩ := mem_placesOfCommands h
    cases hnode
  | .header _, _, h => absurd h List.not_mem_nil
  | .relocation _ _, _, h => absurd h List.not_mem_nil
  | .label _, _, h => absurd h List.not_mem_nil
  | .constant _ _, _, h => absurd h List.not_mem_nil
  | .storage _, _, h => absurd h List.not_mem_nil
  | .data _, _, h => absurd h List.not_mem_nil
  | .branch _, _, h => absurd h List.not_mem_nil
  | .embed _ _, _, h => absurd h List.not_mem_nil

theorem mem_amounts_of_placesAll {files : Files} {m : Location} {inner : Statement} {n : Nat}
    (hn : n ∈ inner.amounts files) :
    ∀ (statements : List Statement) {location : Location} {index : Nat},
      (m, Node.statement inner) ∈ placesAll location index statements →
      n ∈ amountsAll files statements
  | [], _, _, h => absurd h List.not_mem_nil
  | stmt :: rest, location, index, h => by
    rw [placesAll_cons] at h
    rcases List.mem_append.1 h with h | h
    · refine List.mem_append_left _ ?_
      rcases List.mem_cons.1 h with hself | h
      · cases hself
        exact hn
      · exact mem_amounts_of_placesInside hn stmt h
    · exact List.mem_append_right _ (mem_amounts_of_placesAll hn rest h)

end

/-- The amounts of a statement are among those of the statements around it. -/
theorem mem_amounts_of_places {files : Files} {m location : Location} {inner stmt : Statement}
    {n : Nat} (h : (m, Node.statement inner) ∈ stmt.places location)
    (hn : n ∈ inner.amounts files) : n ∈ stmt.amounts files := by
  rcases List.mem_cons.1 h with hself | h
  · cases hself
    exact hn
  · exact mem_amounts_of_placesInside hn stmt h

end Statement

/-- The layout of a node keeps the invariant, and with moderate amounts it reserves more and
more. -/
theorem Layout.reserved_le_act {files : Files} {m : Location} {n : Node} {s t : Logged Context}
    (h : (Walk.layout files).act m n s = .ok () t) (hs : s.state.Laid)
    (hamounts : ∀ stmt, n = .statement stmt → ∀ k ∈ stmt.amounts files, k < moderate) (i : Nat) :
    t.state.Laid ∧ (s.state.bank i).reserved ≤ (t.state.bank i).reserved := by
  have hgrowing : (growing True).Holds ((Walk.layout files).act m n) := by
    cases n with
    | command receiver receiverAt c =>
      exact (allows_growing True fun _ => True).holds_command (fun _ hn _ => moderate_of_le hn) c
        receiver trivial (fun _ _ => trivial) fun _ _ => trivial
    | statement stmt =>
      exact (allows_growing True fun _ => True).nests.holds_layOut
        (fun _ hn _ => moderate_of_le hn) stmt m (fun _ _ => trivial)
        (Statement.covers_true _ _) fun k hk _ => hamounts stmt rfl k hk
  obtain ⟨hlaid, -, hle⟩ := hgrowing.rel_of_ok h hs
  exact ⟨hlaid, hle trivial i⟩

/-- With moderate amounts, what was reserved when the layout left a node is still reserved when it
ends. -/
theorem Program.reserved_le_of_mem {program : Program} {files : Files} {config : Config}
    {g l : Logged Context} (hg : program.gather (start config) = .ok () g)
    (hl : program.layOut files g = .ok () l)
    (hamounts : ∀ n ∈ program.block.amounts files, n < Layout.moderate) {v : Visit}
    (hv : v ∈ program.block.visits (.layout files) .top g) (hleaf : v.node.isLeaf = true)
    (hlaid : v.after.Laid) (i : Nat) :
    (v.after.bank i).reserved ≤ (l.state.bank i).reserved := by
  obtain ⟨q, hq, rfl, -, -, -⟩ := stage_of_layOut hg hl
  have hplaces := Statement.places_visits (Walk.lawful_layout files) program.block .top hq
  have hlinked := Statement.linked_visits (Walk.lawful_layout files) program.block hq
  obtain ⟨before, rest, _, u, hsplit, -, -, -, hu, hrest⟩ := hlinked.split_of_mem hv hleaf
  rw [Visit.after_of_ok hu] at hlaid ⊢
  -- Every later visit keeps what is reserved.
  refine (hrest.invariant (Q := fun x => x.state.Laid ∧
    (u.state.bank i).reserved ≤ (x.state.bank i).reserved) ?_ ?_ ⟨hlaid, Nat.le_refl _⟩).2
  · rintro x _ ⟨stack, rfl⟩ hx
    exact ⟨⟨hx.1.active, hx.1.bank⟩, hx.2⟩
  · intro x hx hxleaf hact y hy hxs
    have hmem : x ∈ program.block.visits (.layout files) .top g := by
      rw [hsplit]
      exact List.mem_append_right _ (List.mem_cons_of_mem _ hx)
    have hplace : (x.location, x.node) ∈ program.block.places .top :=
      hplaces ▸ List.mem_map_of_mem hmem
    obtain ⟨hy', hle⟩ := Layout.reserved_le_act (hact.symm.trans hy) hxs.1 (fun stmt hstmt k hk =>
      hamounts k (Statement.mem_amounts_of_places (hstmt ▸ hplace) hk)) i
    exact ⟨hy', Nat.le_trans hxs.2 hle⟩

/-- The space that the layout has reserved at a node is there when the emission comes to it, if the
layout has not given it up afterwards. -/
theorem Visit.Paired.room {l : Context} {v w : Visit} (h : Visit.Paired l v w) {i n : Nat}
    {origin : UInt16} (hspace : Reserved i origin n v.start.state v.after)
    (hn : n < Layout.moderate)
    (hgrow : (v.after.bank i).reserved ≤ (l.bank i).reserved) :
    (w.start.state.bank i).position + n ≤ (w.start.state.bank i).reserved := by
  rw [h.stage.aligned.cursor, h.stage.unmoved.reserved, (h.stage.laid.bank i).position,
    ← hspace.reserved_self h.stage.laid hn]
  exact hgrow

/-- A value that is known when the layout leaves a node is known when the emission comes to it. -/
theorem Visit.Paired.value? {l : Context} {v w : Visit} (h : Visit.Paired l v w) {anchor : Anchor}
    {n : UInt16} (hn : v.after.memo.value? anchor = some n) :
    w.start.state.memo.value? anchor = some n :=
  (h.follows.memo.trans h.stage.unmoved.memo).value? hn

/-! ## The decision -/

namespace Command

variable {c : Command} {receiver operand : Operand} {receiverAt argumentAt m : Location}
  {lead : Option Opcode} {short long : Opcode} {side : Side} {e : Expr} {p q s t : Logged Context}

/-- The two forms take one byte and two, and an operand is picked for them. -/
theorem exists_pick_of_either
    (h : c.kind.shapeOf receiver c.argument = .ok (.memory lead (.either short long) side))
    (receiverAt argumentAt : Location) :
    (∃ operand m, side.pick (c.kind.normal receiver c.argument).swapped (receiver, receiverAt)
      (c.argument.map fun arg => (arg, argumentAt)) = some (operand, m)) ∧
      short.form.operandSize = 1 ∧ long.form.operandSize = 2 := by
  have hentry : (Shape.memory lead (.either short long) side).Entry
      (c.kind.normal receiver c.argument).receiver.mode
      ((c.kind.normal receiver c.argument).argument.map Operand.mode) := by
    unfold CommandKind.shapeOf at h
    simp only at h
    split at h
    · cases h
    · exact CommandKind.entry_of_shape h
  cases hentry with
  | memory op mode _ _ _ hmode hoffers =>
    obtain ⟨operand, m, hpick, -⟩ := CommandKind.mode_of_pick receiverAt argumentAt hmode
    exact ⟨⟨operand, m, hpick⟩, Operation.operandSize_of_access? hoffers⟩

/-- A selection comes from a fold of the address. -/
theorem fold_of_select
    (hshape : c.kind.shapeOf receiver c.argument = .ok (.memory lead (.either short long) side))
    (hpick : side.pick (c.kind.normal receiver c.argument).swapped (receiver, receiverAt)
      (c.argument.map fun arg => (arg, argumentAt)) = some (operand, m))
    (he : operand.expr = some e) {selection : Selection}
    (h : c.select receiver receiverAt argumentAt s = .ok (some selection) t) :
    ∃ value, Pass.fold .tentative m e s = .ok value t ∧
      selection.swapped = (c.kind.normal receiver c.argument).swapped ∧
      selection.encoding =
        .instruction lead (if value.any (· < 0x100) then short else long) (some side) := by
  cases hfold : Pass.fold .tentative m e s with
  | ok value u =>
    cases (select_of_fold hshape hpick he hfold).symm.trans h
    exact ⟨value, rfl, rfl, rfl⟩
  | error x u =>
    -- What abandons the fold abandons the selection.
    have hzero : inZeroPage (some (operand, m)) s = .error x u := by
      obtain ⟨mode, expr, pos⟩ := operand
      cases he
      exact Run.bind_apply_of_error hfold
    obtain ⟨hswapped, shape, hshape', hencode⟩ := encode_of_select h
    cases hshape.symm.trans hshape'
    rw [hswapped] at hencode
    unfold encode at hencode
    simp only [hpick] at hencode
    rw [Run.bind_apply_of_error hzero] at hencode
    cases hencode

/-- The short form is selected exactly if the address is found to lie in the zero page. -/
theorem select_short_iff
    (hshape : c.kind.shapeOf receiver c.argument = .ok (.memory lead (.either short long) side))
    (hpick : side.pick (c.kind.normal receiver c.argument).swapped (receiver, receiverAt)
      (c.argument.map fun arg => (arg, argumentAt)) = some (operand, m))
    (he : operand.expr = some e) :
    (∃ selection t, c.select receiver receiverAt argumentAt s = .ok (some selection) t ∧
        selection.encoding = .instruction lead short (some side)) ↔
      ∃ n t, Pass.fold .tentative m e s = .ok (some n) t ∧ n < 0x100 := by
  constructor
  · rintro ⟨selection, t, hselect, hencoding⟩
    obtain ⟨value, hfold, -, hencoding'⟩ := fold_of_select hshape hpick he hselect
    rw [hencoding] at hencoding'
    obtain ⟨-, hshort, hlong⟩ := exists_pick_of_either hshape receiverAt argumentAt
    have hne : short ≠ long := by
      rintro rfl
      rw [hshort] at hlong
      cases hlong
    cases value with
    | none => exact absurd (Encoding.instruction.inj hencoding').2.1 hne
    | some n =>
      by_cases hn : n < 0x100
      · exact ⟨n, t, hfold, hn⟩
      · simp only [Option.any_some, decide_eq_true_eq, if_neg hn] at hencoding'
        exact absurd (Encoding.instruction.inj hencoding').2.1 hne
  · rintro ⟨n, t, hfold, hn⟩
    refine ⟨_, t, select_of_fold hshape hpick he hfold, ?_⟩
    simp only [Option.any_some, decide_eq_true_eq, if_pos hn]

/-- What the layout of a command with an encoding records and reserves. -/
theorem selected_of_layOut {shape : Shape}
    (hshape : c.kind.shapeOf receiver c.argument = .ok shape)
    (h : c.layOut receiver receiverAt argumentAt p = .ok () q) :
    ∃ selection t i origin, c.select receiver receiverAt argumentAt p = .ok (some selection) t ∧
      q.state.selections.at? argumentAt = some selection ∧ q.state.memo = t.state.memo ∧
      Reserved i origin selection.size p.state q.state := by
  obtain ⟨selection, t, hselect, hat, hnext⟩ := recorded_of_layOut h
  have hrom := rom_of_select hselect
  cases selection with
  | none =>
    obtain ⟨_, hs, -⟩ | ⟨_, _, -, -, hsome⟩ := select_of_ok hselect
    · cases hshape.symm.trans hs
    · cases hsome
  | some selection =>
    obtain ⟨i, origin, hi, ho, -, hfits, rfl⟩ := Pass.reserve_eq_ok.1 hnext
    refine ⟨selection, t, i, origin, hselect, hat, rfl, ?_, ?_, ?_, ?_⟩
    · exact (Context.active?_of_rom hrom).symm.trans hi
    · rw [← Context.bank_of_rom hrom]
      exact ho
    · rw [← Context.bank_of_rom hrom]
      exact hfits
    · simp only [Context.setBank, ← Context.bank_of_rom hrom, ← hrom]
      rfl

end Command

namespace Program

variable {program : Program} {files : Files} {config : Config} {v w : Visit}

/-- A visit of the emission has its counterpart in the layout, the visit to the same location. -/
theorem paired_of_mem (hv : v ∈ program.course files config .layout)
    (hw : w ∈ program.course files config .emission) (hlocation : w.location = v.location) :
    ∃ g l, program.gather (start config) = .ok () g ∧ program.layOut files g = .ok () l ∧
      v ∈ program.block.visits (.layout files) .top g ∧ Visit.Paired l.state v w := by
  obtain ⟨g, hg, hv⟩ := Walk.mem_next.1 hv
  obtain ⟨g', hg', hw⟩ := Walk.mem_next.1 hw
  cases hg.symm.trans hg'
  obtain ⟨l, hl, hw⟩ := Walk.mem_next.1 hw
  obtain ⟨e, he, hw⟩ := Walk.mem_next.1 hw
  obtain ⟨q, hq, -, hrewind, -, -⟩ := stage_of_layOut hg hl
  cases hrewind.symm.trans he
  refine ⟨g, l, hg, hl, hv, ?_⟩
  obtain ⟨done, hdone, hpairs⟩ := (tracks hg hl).visits
  obtain ⟨v', hv', hpaired⟩ := exists_left_of_mem hpairs hw
  -- Different visits go to different locations.
  have hplaces := Statement.places_visits (Walk.lawful_layout files) program.block .top hq
  have hnodup := Statement.nodup_places program.block .top
  rw [← hplaces, List.map_map] at hnodup
  have heq : v' = v := List.inj_on_of_nodup_map hnodup (hdone.subset hv') hv
    (hpaired.location.symm.trans hlocation)
  exact heq ▸ hpaired

/-- What the layout decides holds good in the emission. Let a command be laid out whose memory
operand has a short and a long form. The short one is selected exactly if the address is found to
lie in the zero page at that time. Whenever the emission comes to the command, the selection is the
same. If it is the short form then the address is folded to the same value, whatever was placed and
folded in between; the bytes are written, unless the bank is full, and it is not reported that a
value is not a byte. If it is the long form, and the bank is not full, then the final value is
written in two bytes, also if it lies in the zero page. The bank is not full if no data statement
and no file is so large that amounts wrap around. -/
theorem decision_stands (hv : v ∈ program.course files config .layout) {receiver : Operand}
    {receiverAt : Location} {c : Command} (hnode : v.node = .command receiver receiverAt c)
    {lead : Option Opcode} {short long : Opcode} {side : Side}
    (hshape : c.kind.shapeOf receiver c.argument = .ok (.memory lead (.either short long) side)) :
    v.result = c.layOut receiver receiverAt v.location v.start ∧
    ∃ operand m, side.pick (c.kind.normal receiver c.argument).swapped (receiver, receiverAt)
        (c.argument.map fun arg => (arg, v.location)) = some (operand, m) ∧
      ∀ e, operand.expr = some e →
        ((∃ selection t,
            c.select receiver receiverAt v.location v.start = .ok (some selection) t ∧
              selection.encoding = .instruction lead short (some side)) ↔
          ∃ n t, Pass.fold .tentative m e v.start = .ok (some n) t ∧ n < 0x100) ∧
        ∀ w ∈ program.course files config .emission, w.location = v.location →
          ∃ selection t i,
            c.select receiver receiverAt v.location v.start = .ok (some selection) t ∧
            w.start.state.selections.at? v.location = some selection ∧
            w.result = c.emit receiver receiverAt v.location w.start ∧
            w.start.state.active? = some i ∧
            ((∀ n ∈ program.block.amounts files, n < Layout.moderate) →
              (w.start.state.bank i).position + selection.size ≤
                (w.start.state.bank i).reserved) ∧
            (selection.encoding = .instruction lead short (some side) →
              ∃ n t, Pass.fold .tentative m e v.start = .ok (some n) t ∧ n < 0x100 ∧
                (∀ demand, Pass.fold demand m e w.start = .ok (some n) w.start) ∧
                Pass.Fills i (lead.toList.map Opcode.byte ++ [short.byte, n.toUInt8]) w.start
                  w.result ∧
                ∃ added, w.stop.log.entries = w.start.log.entries ++ added ∧
                  ∀ d ∈ added, ∀ value, d.error ≠ .byteRange value) ∧
            (selection.encoding ≠ .instruction lead short (some side) →
              selection.encoding = .instruction lead long (some side) ∧
              ∀ value u, Pass.fold .final m e w.start = .ok value u →
                (w.start.state.bank i).position + selection.size ≤
                  (w.start.state.bank i).reserved →
                w.result = .ok () { u with
                  state := u.state.write i
                    (lead.toList.map Opcode.byte ++
                      long.byte :: littleEndian (value.getD 0)) }) := by
  have hresult : v.result = c.layOut receiver receiverAt v.location v.start := by
    obtain ⟨g, -, hmem⟩ := Walk.mem_next.1 hv
    rw [Statement.result_of_mem_visits program.block hmem, hnode]
    rfl
  obtain ⟨⟨operand, m, hpick⟩, hshort, hlong⟩ :=
    Command.exists_pick_of_either hshape receiverAt v.location
  refine ⟨hresult, operand, m, hpick, fun e he =>
    ⟨Command.select_short_iff hshape hpick he, fun w hw hlocation => ?_⟩⟩
  obtain ⟨g, l, hg, hl, hmem, hpaired⟩ := paired_of_mem hv hw hlocation
  obtain ⟨q, hq⟩ := hpaired.finishes
  have hafter := Visit.after_of_ok hq
  obtain ⟨selection, t, i, origin, hselect, hat, hmemo, hspace⟩ :=
    Command.selected_of_layOut hshape (hresult.symm.trans hq)
  rw [← hafter] at hat hmemo hspace
  have hready := hpaired.stage.ready hpaired.follows hspace
  have hat' : w.start.state.selections.at? v.location = some selection := by
    rw [(hpaired.stage.unmoved.same _ trivial).selections,
      (hpaired.follows.same _ (.refl _)).selections]
    exact hat
  have hemit : w.result = c.emit receiver receiverAt v.location w.start := by
    obtain ⟨g, -, hw⟩ := Walk.mem_next.1 hw
    obtain ⟨l, -, hw⟩ := Walk.mem_next.1 hw
    obtain ⟨e, -, hw⟩ := Walk.mem_next.1 hw
    rw [Statement.result_of_mem_visits program.block hw, hpaired.node, hnode, hlocation]
    rfl
  obtain ⟨value, hfold, hswapped, hencoding⟩ :=
    Command.fold_of_select hshape hpick he hselect
  rw [← hswapped] at hpick
  refine ⟨selection, t, i, hselect, hat', hemit, hready.active, fun hamounts => ?_,
    fun hchosen => ?_, fun hchosen => ?_⟩
  · have hsize := (Command.sized_of_select hselect).size_le
    have hleaf : v.node.isLeaf = true := by
      rw [hnode]
      rfl
    exact hpaired.room hspace (Layout.moderate_of_le hsize)
      (reserved_le_of_mem hg hl hamounts hmem hleaf hpaired.laid i)
  · obtain ⟨n, t', hfold', hn⟩ :=
      (Command.select_short_iff hshape (hswapped ▸ hpick) he).1 ⟨selection, t, hselect, hchosen⟩
    cases hfold.symm.trans hfold'
    have hknown : w.start.state.memo.value? (.tree m) = some n := by
      apply hpaired.value?
      rw [hmemo]
      exact (Pass.fold_of_ok hfold).2.2.2.1.symm
    have hbyte : n ≤ 0xFF := UInt16.le_iff_toNat_le.2 (Nat.le_of_lt_succ
      (UInt16.lt_iff_toNat_lt.1 hn))
    have hfills := Command.fills_emit hat' hchosen hpick he hshort hready.active hready.inRange
      hknown hbyte
    rw [← hemit] at hfills
    obtain ⟨added, hentries, hfull⟩ := hfills.entries
    refine ⟨n, t, hfold, hn, fun demand => Pass.fold_of_value hknown demand e, hfills, added,
      hentries, fun d hd value hrange => ?_⟩
    rw [hfull d hd] at hrange
    cases hrange
  · have hencoded : selection.encoding = .instruction lead long (some side) := by
      by_cases hzero : value.any (· < 0x100) = true
      · rw [if_pos hzero] at hencoding
        exact absurd hencoding hchosen
      · rw [if_neg hzero] at hencoding
        exact hencoding
    refine ⟨hencoded, fun final u hfinal hroom => ?_⟩
    rw [hemit]
    exact Command.emit_of_long hat' hencoded hpick he hlong hready.active hready.inRange hroom
      hfinal

/-- A load from an address. -/
def load (e : Expr) : Command where
  kind := .get
  argument := some { mode := .direct, expr := some e }

/-- A program that is placed in the zero page. It loads from a label that comes later, and from an
address that is known. -/
def early : Program where
  statements :=
    [.header
        { settings :=
            [⟨{ text := "mapper" }, .number 0 {}⟩, ⟨{ text := "prg" }, .number 1 {}⟩,
              ⟨{ text := "chr" }, .number 1 {}⟩] },
      .relocation (.rom (some (.number 0 {})) (some (.number 0x10 {}))) {},
      .command
        { receiver := { mode := .builtin .a }
          commands := [load (.reference [{ text := "table" }] {}), load (.number 0x20 {})] },
      .label { text := "table" }]

/-- Whether a visit goes to the load with a certain index, whose address comes to a certain value
there. -/
def loads (demand : Demand) (index : Nat) (e : Expr) (value : Option UInt16) (v : Visit) : Bool :=
  match v.node with
  | .command receiver receiverAt c =>
    decide (v.location = (Location.top.child 2).child (index + 1) ∧
      receiver = { mode := .builtin .a } ∧ receiverAt = (Location.top.child 2).child 0 ∧
      c = load e) &&
    match Pass.fold demand v.location e v.start with
    | .ok found _ => decide (found = value)
    | .error _ _ => false
  | .statement _ => false

theorem of_loads {demand : Demand} {index : Nat} {e : Expr} {value : Option UInt16} {v : Visit}
    (h : loads demand index e value v = true) :
    v.location = (Location.top.child 2).child (index + 1) ∧
      v.node = .command { mode := .builtin .a } ((Location.top.child 2).child 0) (load e) ∧
      ∃ t, Pass.fold demand v.location e v.start = .ok value t := by
  unfold loads at h
  split at h
  · rename_i hnode
    obtain ⟨hplace, hfold⟩ := Bool.and_eq_true_iff.1 h
    obtain ⟨hlocation, rfl, rfl, rfl⟩ := of_decide_eq_true hplace
    refine ⟨hlocation, hnode, ?_⟩
    split at hfold
    · rename_i found t ht
      exact ⟨t, (of_decide_eq_true hfold) ▸ ht⟩
    · cases hfold
  · cases h

/-- The first load is written in the long form, although its address turns out to lie in the zero
page. The second one is written in the short form. -/
theorem decision_stands_early :
    ∃ w ∈ early.course (fun _ => .ok []) {} .emission,
    ∃ x ∈ early.course (fun _ => .ok []) {} .emission,
      (∃ (i : Nat) (u : Logged Context),
        w.result = .ok () { u with state := u.state.write i [0xAD, 0x15, 0x00] }) ∧
      ∃ i, x.result = .ok () { x.start with state := x.start.state.write i [0xA5, 0x20] } := by
  have hlayout : (early.course (fun _ => .ok []) {} .layout).any
        (loads .tentative 0 (.reference [{ text := "table" }] {}) none) = true ∧
      (early.course (fun _ => .ok []) {} .layout).any
        (loads .tentative 1 (.number 0x20 {}) (some 0x20)) = true := by
    decide +kernel
  have hemission : (early.course (fun _ => .ok []) {} .emission).any
        (loads .final 0 (.reference [{ text := "table" }] {}) (some 0x15)) = true ∧
      (early.course (fun _ => .ok []) {} .emission).any
        (loads .final 1 (.number 0x20 {}) (some 0x20)) = true := by
    decide +kernel
  have hamounts : ∀ n ∈ early.block.amounts fun _ => .ok [], n < Layout.moderate := by
    decide
  obtain ⟨v, hv, hvloads⟩ := List.any_eq_true.1 hlayout.1
  obtain ⟨y, hy, hyloads⟩ := List.any_eq_true.1 hlayout.2
  obtain ⟨w, hw, hwloads⟩ := List.any_eq_true.1 hemission.1
  obtain ⟨x, hx, hxloads⟩ := List.any_eq_true.1 hemission.2
  obtain ⟨hvlocation, hvnode, tv, hvfold⟩ := of_loads hvloads
  obtain ⟨hylocation, hynode, ty, hyfold⟩ := of_loads hyloads
  obtain ⟨hwlocation, -, uw, hwfold⟩ := of_loads hwloads
  obtain ⟨hxlocation, -, ux, hxfold⟩ := of_loads hxloads
  refine ⟨w, hw, x, hx, ?_, ?_⟩
  · obtain ⟨-, operand, m, hpick, hstands⟩ := @decision_stands early _ _ v hv _ _ _ hvnode none
      { operation := .lda, form := .zeroPage } { operation := .lda, form := .absolute } .argument
      rfl
    cases hpick
    obtain ⟨hiff, hemit⟩ := hstands _ rfl
    obtain ⟨selection, t, i, hselect, -, -, -, hroom, -, hlong⟩ :=
      hemit w hw (hwlocation.trans hvlocation.symm)
    have hunknown : selection.encoding ≠ .instruction none
        { operation := .lda, form := .zeroPage } (some .argument) := by
      intro hshort
      obtain ⟨n, t', hknown, -⟩ := hiff.1 ⟨selection, t, hselect, hshort⟩
      cases hvfold.symm.trans hknown
    rw [hwlocation, ← hvlocation] at hwfold
    have hresult := (hlong hunknown).2 _ uw hwfold (hroom hamounts)
    have hbytes : (none : Option Opcode).toList.map Opcode.byte ++
        ({ operation := .lda, form := .absolute } : Opcode).byte ::
          littleEndian ((some 0x15 : Option UInt16).getD 0) = [0xAD, 0x15, 0x00] := by
      decide
    rw [hbytes] at hresult
    exact ⟨i, uw, hresult⟩
  · obtain ⟨-, operand, m, hpick, hstands⟩ := @decision_stands early _ _ y hy _ _ _ hynode none
      { operation := .lda, form := .zeroPage } { operation := .lda, form := .absolute } .argument
      rfl
    cases hpick
    obtain ⟨hiff, hemit⟩ := hstands _ rfl
    obtain ⟨selection, t, i, hselect, -, -, -, hroom, hshort, -⟩ :=
      hemit x hx (hxlocation.trans hylocation.symm)
    obtain ⟨selection', t', hselect', hchosen⟩ := hiff.2 ⟨0x20, ty, hyfold, by decide⟩
    cases hselect.symm.trans hselect'
    obtain ⟨n, t'', hknown, -, -, hfills, -⟩ := hshort hchosen
    cases hyfold.symm.trans hknown
    have hbytes : (none : Option Opcode).toList.map Opcode.byte ++
        [({ operation := .lda, form := .zeroPage } : Opcode).byte, (0x20 : UInt16).toUInt8] =
          [0xA5, 0x20] := by
      decide
    rw [hbytes] at hfills
    refine ⟨i, hfills.written ?_⟩
    have hfits := hroom hamounts
    unfold Selection.size at hfits
    rw [hchosen] at hfits
    exact hfits

end Program

end Cartridge
