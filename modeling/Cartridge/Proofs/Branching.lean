import Cartridge.Proofs.Emission

/-!
# Where branches go

A branch to an address writes its opcode and the address itself. A branch on a flag writes its
opcode and a displacement, which the processor adds, as a signed byte, to the address after the
branch. Here the run that writes a branch is computed to the last detail: the bytes, the cursor and
the report that is made if the target is too far away.

Main definitions:

- `Branch.OnFlag`: the branch depends on a flag.
- `Branch.distance`: how far a target is from an address.
- `Branch.InReach`: which distances a displacement can express.

Main results:

- Theorem `Branch.toInt_displacement`: the displacement that is written, read as a signed byte, is
  the distance.
- Theorem `Branch.emitDisplacement_of_room`: the run that writes a displacement.
- Theorem `Branch.emit_lands`: branches land on their targets.
-/

namespace Cartridge

/-! ## Writes inside the reserved space -/

namespace Context

variable {ctx : Context} {i : Nat}

/-- Writing does not switch banks. -/
theorem active?_write (ctx : Context) (i : Nat) (bytes : List UInt8) :
    (ctx.write i bytes).active? = ctx.active? :=
  active?_setBank ctx i _

theorem bankCount_write (ctx : Context) (i : Nat) (bytes : List UInt8) :
    (ctx.write i bytes).bankCount = ctx.bankCount :=
  bankCount_setBank ctx i _

/-- The cursor moves over what is written. -/
theorem position_write (h : i < ctx.bankCount) (bytes : List UInt8) :
    ((ctx.write i bytes).bank i).position = (ctx.bank i).position + bytes.length := by
  rw [bank_write_self h]
  rfl

/-- Writing reserves nothing. -/
theorem reserved_write (h : i < ctx.bankCount) (bytes : List UInt8) :
    ((ctx.write i bytes).bank i).reserved = (ctx.bank i).reserved := by
  rw [bank_write_self h]
  rfl

end Context

namespace Pass

variable {s u : Logged Context} {i : Nat}

/-- A byte is in the range of a byte. -/
theorem toUInt16_le (b : UInt8) : b.toUInt16 ≤ 0xFF := by
  rw [UInt16.le_iff_toNat_le, UInt8.toNat_toUInt16]
  exact Nat.le_of_lt_succ b.toNat_lt

/-- Bytes for which there is room are written without a report. -/
theorem writeBytes_of_room {bytes : List UInt8} (hi : s.state.active? = some i)
    (hroom : (s.state.bank i).position + bytes.length ≤ (s.state.bank i).reserved)
    (pos : Position) :
    writeBytes bytes pos s = .ok () { s with state := s.state.write i bytes } :=
  onBank_eq_ok.2 ⟨i, _, hi, Bank.writeBytes_eq_ok.2 ⟨hroom, rfl⟩, rfl⟩

/-- A byte for which there is room is written without a report. -/
theorem writeByte_of_room {value : UInt16} (hi : s.state.active? = some i)
    (hroom : (s.state.bank i).position + 1 ≤ (s.state.bank i).reserved) (hvalue : value ≤ 0xFF)
    (pos : Position) :
    writeByte value pos s = .ok () { s with state := s.state.write i [value.toUInt8] } := by
  refine onBank_eq_ok.2
    ⟨i, ⟨(s.state.bank i).store [value.toUInt8], s.log⟩, hi, ?_, rfl⟩
  unfold Bank.writeByte Bank.checkByte
  rw [Run.bind_apply_of_ok ((Bank.ensure_eq_ok (u := ())).2 ⟨hroom, rfl⟩),
    if_neg (UInt16.not_lt.2 hvalue)]
  rfl

/-- An opcode for which there is room is written without a report. -/
theorem writeOpcode_of_room (opcode : Opcode) (hi : s.state.active? = some i)
    (hroom : (s.state.bank i).position + 1 ≤ (s.state.bank i).reserved) (pos : Position) :
    writeOpcode opcode pos s = .ok () { s with state := s.state.write i [opcode.byte] } := by
  have hwrite := writeByte_of_room hi hroom (toUInt16_le opcode.byte) pos
  rw [UInt8.toUInt8_toUInt16] at hwrite
  exact hwrite

/-- What an expression is folded to does not depend on the bytes that were written. -/
theorem fold_write {demand : Demand} {location : Location} {e : Expr} {v : Option UInt16}
    (h : fold demand location e s = .ok v u) (bytes : List UInt8) :
    fold demand location e { s with state := s.state.write i bytes } =
      .ok v { u with state := u.state.write i bytes } := by
  obtain ⟨folded, w, hw, rfl, rfl⟩ := foldAt_eq_ok.1 h
  exact foldAt_eq_ok.2 ⟨folded, w, hw, rfl, rfl⟩

end Pass

namespace Branch

/-- The branch depends on a flag. -/
def OnFlag (b : Branch) : Prop :=
  b.kind = .goto ∧ b.condition.isSome = true

/-- How far a target is from the address of a byte of a bank. -/
def distance (target origin : UInt16) (position : Nat) : Int :=
  target.toNat - (origin.toNat + position)

/-- An offset is in the range of a signed byte. -/
def InReach (offset : Int) : Prop :=
  -128 ≤ offset ∧ offset ≤ 127

instance (offset : Int) : Decidable (InReach offset) :=
  inferInstanceAs (Decidable (-128 ≤ offset ∧ offset ≤ 127))

/-- A branch to an address has two bytes if it depends on a flag, and otherwise three. -/
theorem size_of_target {b : Branch} {n : Nat} (hkind : b.kind = .goto ∨ b.kind = .call)
    (h : b.size? = .ok n) : b.OnFlag ∧ n = 2 ∨ ¬ b.OnFlag ∧ n = 3 := by
  unfold size? at h
  unfold OnFlag
  rcases hkind with hkind | hkind
  · simp only [hkind] at h ⊢
    split at h
    · cases h
    · cases hc : b.condition with
      | none =>
        simp only [hc] at h
        cases h
        exact Or.inr ⟨fun h => Bool.false_ne_true h.2, rfl⟩
      | some c =>
        simp only [hc] at h
        split at h
        · cases h
        · split at h <;> cases h
          exact Or.inl ⟨⟨trivial, rfl⟩, rfl⟩
  · simp only [hkind] at h ⊢
    split at h
    · cases h
    · split at h <;> cases h
      exact Or.inr ⟨fun h => BranchKind.noConfusion h.1, rfl⟩

/-- The displacement that is written, read as a signed byte, is the distance. -/
theorem toInt_displacement {offset : Int} (h : InReach offset) :
    (UInt16.ofNat (offset % 256).toNat).toUInt8.toInt8.toInt = offset := by
  obtain ⟨hlow, hhigh⟩ := h
  have hnat : (UInt16.ofNat (offset % 256).toNat).toUInt8.toNat = (offset % 256).toNat := by
    rw [UInt16.toNat_toUInt8, UInt16.toNat_ofNat']
    omega
  rw [← Int8.toInt_toBitVec, UInt8.toBitVec_toInt8, BitVec.toInt_eq_toNat_cond,
    UInt8.toNat_toBitVec, hnat]
  split <;> omega

/-- The run that writes a displacement. The limit of the log matters only if there is a report. -/
theorem emitDisplacement_of_room {target origin : UInt16} {e : Expr} {s : Logged Context} {i : Nat}
    (hs : s.state.Ready i origin)
    (hroom : (s.state.bank i).position + 1 ≤ (s.state.bank i).reserved)
    (hlimit : ¬ InReach (distance target origin ((s.state.bank i).position + 1)) →
      s.log.count + 1 < s.log.limit) (pos : Position) :
    ∃ d log, emitDisplacement (some target) e pos s = .ok () ⟨s.state.write i [d], log⟩ ∧
      let offset := distance target origin ((s.state.bank i).position + 1)
      (InReach offset → d.toInt8.toInt = offset ∧ log = s.log) ∧
      (¬ InReach offset → log = s.log.soft (.relativeRange offset) e.pos) := by
  -- The cursor is inside the bank, so the program counter does not wrap around.
  have hcounter : (origin.toNat + (s.state.bank i).position) % 0x100000000 =
      origin.toNat + (s.state.bank i).position := by
    have hres := hs.reserved
    have horigin := origin.toNat_lt
    unfold bankSize at hres
    exact Nat.mod_eq_of_lt (by omega)
  have hoffset : displacement target (origin.toNat + (s.state.bank i).position) =
      distance target origin ((s.state.bank i).position + 1) := by
    unfold displacement distance
    omega
  unfold emitDisplacement
  rw [Run.bind_apply_of_ok (Pass.programCounter_of_ready hs _ _ _), hcounter]
  simp only [hoffset]
  generalize distance target origin ((s.state.bank i).position + 1) = offset at hlimit
  by_cases hfar : offset < -128 ∨ 127 < offset
  · have hout : ¬ InReach offset := by
      unfold InReach
      omega
    refine ⟨0, s.log.soft (.relativeRange offset) e.pos, ?_, fun h => absurd h hout, fun _ => rfl⟩
    rw [if_pos hfar, Run.bind_apply_of_ok (Run.error_of_room (hlimit hout))]
    exact @Pass.writeByte_of_room ⟨s.state, s.log.soft _ _⟩ i 0 hs.active hroom (by decide) e.pos
  · have hin : InReach offset := by
      unfold InReach
      omega
    refine ⟨(UInt16.ofNat (offset % 256).toNat).toUInt8, s.log, ?_,
      fun _ => ⟨toInt_displacement hin, rfl⟩, fun h => absurd hin h⟩
    rw [if_neg hfar]
    exact Pass.writeByte_of_room hs.active hroom (displacement_byte offset) _

/-- The run that writes a displacement after an opcode. -/
theorem emitDisplacement_after {target origin : UInt16} {e : Expr} {s : Logged Context} {i : Nat}
    (hs : s.state.Ready i origin)
    (hroom : (s.state.bank i).position + 2 ≤ (s.state.bank i).reserved)
    (hlimit : ¬ InReach (distance target origin ((s.state.bank i).position + 2)) →
      s.log.count + 1 < s.log.limit) (opcode : Opcode) (pos : Position) :
    ∃ d log, emitDisplacement (some target) e pos
        { s with state := s.state.write i [opcode.byte] } =
          .ok () ⟨s.state.write i [opcode.byte, d], log⟩ ∧
      let offset := distance target origin ((s.state.bank i).position + 2)
      (InReach offset → d.toInt8.toInt = offset ∧ log = s.log) ∧
      (¬ InReach offset → log = s.log.soft (.relativeRange offset) e.pos) := by
  have hposition : ((s.state.write i [opcode.byte]).bank i).position =
      (s.state.bank i).position + 1 := Context.position_write hs.inRange [opcode.byte]
  have hroom' : ((s.state.write i [opcode.byte]).bank i).position + 1 ≤
      ((s.state.write i [opcode.byte]).bank i).reserved := by
    rw [hposition, Context.reserved_write hs.inRange]
    exact hroom
  obtain ⟨d, log, hrun, hoffset⟩ := @emitDisplacement_of_room target origin e
    { s with state := s.state.write i [opcode.byte] } i (hs.write _) hroom'
    (by rw [hposition]; exact hlimit) pos
  rw [Context.write_write hs.inRange] at hrun
  rw [hposition] at hoffset
  exact ⟨d, log, hrun, hoffset⟩

/-- The run that writes a target after an opcode. -/
theorem writeWord_after {target origin : UInt16} {s : Logged Context} {i : Nat}
    (hs : s.state.Ready i origin)
    (hroom : (s.state.bank i).position + 3 ≤ (s.state.bank i).reserved) (opcode : Opcode)
    (pos : Position) :
    Pass.writeWord target pos { s with state := s.state.write i [opcode.byte] } =
      .ok () { s with state := s.state.write i (opcode.byte :: littleEndian target) } := by
  have hroom' : ((s.state.write i [opcode.byte]).bank i).position + (littleEndian target).length ≤
      ((s.state.write i [opcode.byte]).bank i).reserved := by
    rw [Context.position_write hs.inRange, Context.reserved_write hs.inRange]
    exact hroom
  have hrun := @Pass.writeBytes_of_room { s with state := s.state.write i [opcode.byte] } i _
    (hs.write _).active hroom' pos
  rw [Context.write_write hs.inRange] at hrun
  exact hrun

/-- A branch is written opcode first. Only then is the target folded, which makes no difference to
the fold. -/
theorem emit_of_fold {b : Branch} {location : Location} {e : Expr} {n i : Nat} {t : UInt16}
    {opcode : Opcode} {s u : Logged Context} (hopcode : b.opcode? = some opcode)
    (hexpr : b.destination.bind Operand.expr = some e)
    (hat : s.state.branches.at? location = some n) (hn : 1 < n) (hi : s.state.active? = some i)
    (hroom : (s.state.bank i).position + n ≤ (s.state.bank i).reserved)
    (hfold : Pass.fold .final (location.child 0) e s = .ok (some t) u) :
    b.emit location s =
      (if n = 3 then Pass.writeWord t e.pos else emitDisplacement (some t) e b.pos)
        { u with state := u.state.write i [opcode.byte] } := by
  unfold emit
  rw [Run.read_bind_apply]
  simp only [hat]
  unfold emitSized
  simp only [hopcode]
  rw [Run.bind_apply_of_ok (Pass.writeOpcode_of_room opcode hi (by omega) b.pos),
    if_neg (Nat.ne_of_gt hn)]
  simp only [hexpr]
  rw [Run.bind_apply_of_ok (Pass.fold_write hfold [opcode.byte])]
  rfl

/-- Branches land on their targets. A branch to an address that has a size writes its opcode and
the operand inside the reserved space, whatever the origin of the bank and the cursor. Without a
condition the operand is the target itself. With a condition it is a signed byte that leads from the
address after the branch to the target, if there is such a byte; otherwise the distance is reported,
and nothing else is, and the run goes on if the limit of the log is not reached. Either way the
cursor advances by the size. -/
theorem emit_lands {b : Branch} {location : Location} {e : Expr} {n i : Nat} {origin t : UInt16}
    {s u : Logged Context} (hkind : b.kind = .goto ∨ b.kind = .call)
    (hexpr : b.destination.bind Operand.expr = some e) (hsize : b.size? = .ok n)
    (hat : s.state.branches.at? location = some n) (hs : s.state.Ready i origin)
    (hroom : (s.state.bank i).position + n ≤ (s.state.bank i).reserved)
    (hfold : Pass.fold .final (location.child 0) e s = .ok (some t) u)
    (hlimit : b.OnFlag → ¬ InReach (distance t origin ((s.state.bank i).position + 2)) →
      u.log.count + 1 < u.log.limit) :
    ∃ opcode operand v, b.opcode? = some opcode ∧ b.emit location s = .ok () v ∧
      v.state = u.state.write i (opcode.byte :: operand) ∧
      (v.state.bank i).position = (s.state.bank i).position + n ∧
      (¬ b.OnFlag → n = 3 ∧ operand = littleEndian t ∧ v.log = u.log) ∧
      (b.OnFlag → n = 2 ∧
        let next := origin.toNat + (v.state.bank i).position
        ∃ d : UInt8, operand = [d] ∧
          (-128 ≤ (t.toNat : Int) - next ∧ (t.toNat : Int) - next ≤ 127 →
            d.toInt8.toInt + next = t.toNat ∧ v.log = u.log) ∧
          (¬ (-128 ≤ (t.toNat : Int) - next ∧ (t.toNat : Int) - next ≤ 127) →
            v.log = u.log.soft (.relativeRange (t.toNat - next)) e.pos)) := by
  obtain ⟨opcode, hopcode, -⟩ := exists_opcode?_of_size? hsize
  have hcases := size_of_target hkind hsize
  obtain ⟨hstate, -⟩ := Pass.fold_of_ok hfold
  have hu : u.state.Ready i origin := hstate ▸ hs.memo _
  have hbank : s.state.bank i = u.state.bank i := by
    rw [hstate]
    rfl
  rw [emit_of_fold hopcode hexpr hat (by omega) hs.active hroom hfold]
  rw [hbank] at hroom hlimit ⊢
  rcases hcases with ⟨hflag, rfl⟩ | ⟨hflag, rfl⟩
  · obtain ⟨d, log, hrun, hnear, hfar⟩ :=
      @emitDisplacement_after t origin e u i hu hroom (hlimit hflag) opcode b.pos
    have hposition : ((u.state.write i [opcode.byte, d]).bank i).position =
        (u.state.bank i).position + 2 := Context.position_write hu.inRange _
    refine ⟨opcode, [d], _, hopcode, hrun, rfl, hposition, fun h => absurd hflag h,
      fun _ => ⟨rfl, d, rfl, ?_⟩⟩
    have hnext : distance t origin ((u.state.bank i).position + 2) = t.toNat -
        ((origin.toNat + ((u.state.write i [opcode.byte, d]).bank i).position : Nat) : Int) := by
      rw [hposition]
      unfold distance
      omega
    rw [hnext] at hnear hfar
    refine ⟨fun h => ?_, hfar⟩
    obtain ⟨hd, hlog⟩ := hnear h
    refine ⟨?_, hlog⟩
    rw [hd]
    exact Int.sub_add_cancel _ _
  · exact ⟨opcode, littleEndian t, _, hopcode, writeWord_after hu hroom opcode e.pos, rfl,
      Context.position_write hu.inRange _, fun _ => ⟨rfl, rfl, rfl⟩, fun h => absurd h hflag⟩

/-- A branch back by one byte, from the end of the address space. -/
def lastByte : Branch where
  kind := .goto
  destination := some { mode := .label, expr := some (.number 0xFFFF {}) }
  condition := some { flag := { mode := .builtin .zero } }

/-- A bank that ends at the end of the address space, with two reserved bytes left. -/
def lastBank : Logged Context where
  state :=
    { rom := some
        { settings := { mapper := 0, prg := 0, chr := 1 }
          banks := #[{ origin := some 0xE000, position := 0x1FFE, reserved := 0x2000 }]
          active := some 0 }
      branches := Record.empty.set .top (some 2) }
  log := { limit := 2 }

/-- A branch in the last two bytes of the address space reaches the last one: the distance is taken
from the end of the branch, which lies outside. -/
theorem emit_lands_lastByte : ∃ (v : Logged Context) (d : UInt8),
    lastByte.emit .top lastBank = .ok () v ∧ (v.state.bank 0).position = 0x2000 ∧
      d.toInt8.toInt + 0x10000 = 0xFFFF ∧ v.log = lastBank.log := by
  have hready : lastBank.state.Ready 0 0xE000 := ⟨rfl, by decide, rfl, by decide⟩
  have hfold : Pass.fold .final (Location.top.child 0) (.number 0xFFFF {}) lastBank =
      .ok (some 0xFFFF) _ := rfl
  obtain ⟨opcode, operand, v, -, hemit, -, hposition, -, hflag⟩ :=
    @emit_lands lastByte .top _ _ _ _ _ _ _ (Or.inl rfl) rfl rfl rfl hready (by decide) hfold
      fun _ hfar => absurd (by decide) hfar
  obtain ⟨-, d, -, hnear, -⟩ := hflag ⟨rfl, rfl⟩
  rw [hposition] at hnear
  obtain ⟨hd, hlog⟩ := hnear (by decide)
  exact ⟨v, d, hemit, hposition, hd, hlog⟩

end Branch

end Cartridge
