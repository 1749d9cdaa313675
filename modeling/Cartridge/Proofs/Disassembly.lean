import Cartridge.Proofs.Branching
import Cartridge.Proofs.Effects
import Cartridge.Proofs.LayoutFrame

/-!
# Disassembly

Code is read back instruction by instruction. What an opcode byte means, and how many bytes follow
it, is what the processor makes of it. One wrong length would shift everything after it, so code is
read back as it was written only if every instruction has exactly the operand bytes that its opcode
calls for. This is so for everything that comes out of the encoding table, and for branches.

Main definitions:

- `disassemble`: the instructions that bytes stand for.
- `Instruction.Exact`: an instruction has the operand bytes that its opcode calls for.
- `Selection.instructions?`, `Branch.instruction?`: the instructions of a command and of a branch.

Main results:

- Theorem `disassemble_eq_some_iff`: bytes are read back as instructions exactly if these are exact
  and are spelled by the bytes.
- Theorem `CommandKind.exact_of_shape`: the entries of the encoding table are exact.
- Theorems `Selection.instructions_of_code` and `Branch.instruction_of_code`: the code of a command
  and of a branch is that of exact instructions.
-/

namespace Cartridge

/-! ## Reading bytes -/

namespace Opcode

/-- The opcode that a byte stands for, if the processor knows it. -/
def decode? (b : UInt8) : Option Opcode :=
  (Processor.decode b).bind fun entry => entry.1.opcode? entry.2

/-- Opcodes have different bytes, so each one is decoded as itself. -/
theorem decode?_byte (o : Opcode) : decode? o.byte = some o := by
  rw [decode?, Processor.decode_byte, Option.bind_some, Operation.opcode?, dif_pos o.supported]

/-- An opcode is read from one byte only. -/
theorem byte_of_decode? {b : UInt8} {o : Opcode} (h : decode? b = some o) : o.byte = b := by
  have table : ∀ n : Fin 256, ∀ o ∈ decode? (UInt8.ofFin n), o.byte = UInt8.ofFin n := by
    decide +kernel
  exact table b.toFin o h

end Opcode

namespace Instruction

/-- The instruction has the operand bytes that its opcode calls for. -/
def Exact (i : Instruction) : Prop :=
  i.bytes.length = i.opcode.form.length

instance (i : Instruction) : Decidable i.Exact :=
  inferInstanceAs (Decidable (_ = _))

/-- An instruction without operand bytes is exact if its opcode calls for none. -/
theorem exact_of_operandSize {o : Opcode} (h : o.form.operandSize = 0) :
    Exact { opcode := o } := by
  rw [Exact, Form.length_eq, h]
  rfl

end Instruction

/-- The instructions that bytes stand for. There are none if a byte is no opcode where one is
expected, or if operand bytes are missing at the end. -/
def disassemble : List UInt8 → Option (List Instruction)
  | [] => some []
  | b :: rest =>
    match Opcode.decode? b with
    | none => none
    | some opcode =>
      if rest.length < opcode.form.length - 1 then none
      else
        (disassemble (rest.drop (opcode.form.length - 1))).map
          ({ opcode, operand := rest.take (opcode.form.length - 1) } :: ·)
termination_by bytes => bytes.length
decreasing_by
  rw [List.length_drop, List.length_cons]
  omega

/-- An exact instruction is read back, whatever follows it. -/
theorem disassemble_bytes_append {i : Instruction} (h : i.Exact) (rest : List UInt8) :
    disassemble (i.bytes ++ rest) = (disassemble rest).map (i :: ·) := by
  have hsize : i.operand.length = i.opcode.form.length - 1 := by
    rw [← h, Instruction.bytes, List.length_cons, Nat.add_sub_cancel]
  rw [Instruction.bytes, List.cons_append, disassemble, Opcode.decode?_byte]
  simp only
  rw [if_neg (by rw [List.length_append]; omega), List.drop_left' hsize, List.take_left' hsize]

/-- Bytes are those of exact instructions. -/
def Spells (bytes : List UInt8) (is : List Instruction) : Prop :=
  bytes = is.flatMap Instruction.bytes ∧ ∀ i ∈ is, i.Exact

/-- Bytes of instructions may be followed by those of others. -/
theorem Spells.append {bytes more : List UInt8} {is js : List Instruction} (h : Spells bytes is)
    (h' : Spells more js) : Spells (bytes ++ more) (is ++ js) := by
  constructor
  · rw [h.1, h'.1, List.flatMap_append]
  · exact List.forall_mem_append.2 ⟨h.2, h'.2⟩

/-- Bytes are read back as instructions exactly if they spell them. -/
theorem disassemble_eq_some_iff {bytes : List UInt8} {is : List Instruction} :
    disassemble bytes = some is ↔ Spells bytes is := by
  constructor
  · intro h
    fun_induction disassemble bytes generalizing is with
    | case1 =>
      cases h
      exact ⟨rfl, fun _ hi => absurd hi List.not_mem_nil⟩
    | case2 => cases h
    | case3 => cases h
    | case4 b rest opcode hb hroom ih =>
      obtain ⟨tail, htail, rfl⟩ := Option.map_eq_some_iff.1 h
      obtain ⟨hbytes, hexact⟩ := ih htail
      constructor
      · rw [List.flatMap_cons, ← hbytes, Instruction.bytes, Opcode.byte_of_decode? hb,
          List.cons_append, List.take_append_drop]
      · refine List.forall_mem_cons.2 ⟨?_, hexact⟩
        have hlength : opcode.form.length = opcode.form.operandSize + 1 := opcode.form.length_eq
        rw [Instruction.Exact, Instruction.bytes, List.length_cons,
          List.length_take_of_le (Nat.le_of_not_lt hroom), hlength, Nat.add_sub_cancel]
  · rintro ⟨rfl, hexact⟩
    induction is with
    | nil => rw [List.flatMap_nil, disassemble]
    | cons i is ih =>
      obtain ⟨hi, his⟩ := List.forall_mem_cons.1 hexact
      rw [List.flatMap_cons, disassemble_bytes_append hi, ih his, Option.map_some]

/-! ## The encoding table -/

/-- The instructions of a shape that do not depend on an operand are exact. -/
def Shape.Exact : Shape → Prop
  | .implied o => o.form.operandSize = 0
  | .memory lead _ _ => ∀ o ∈ lead, o.form.operandSize = 0
  | .sequence instructions => ∀ i ∈ instructions, i.Exact

/-- The instructions of an encoding that do not depend on an operand are exact. -/
def Encoding.Exact : Encoding → Prop
  | .instruction lead _ _ => ∀ o ∈ lead, o.form.operandSize = 0
  | .sequence instructions => ∀ i ∈ instructions, i.Exact

namespace CommandKind

/-- Every shape that comes out is exact. -/
def Regular (r : Except Objection Shape) : Prop :=
  ∀ shape, r = .ok shape → shape.Exact

namespace Regular

@[simp] theorem error (o : Objection) : Regular (.error o) := by
  intro shape h
  cases h

@[simp] theorem alone (op : Operation) (h : (op.code? .implied).isSome = true) :
    Regular (Shape.alone op h) := by
  intro shape hs
  cases hs
  exact rfl

/-- An access to memory is exact if the opcode before it has no operand. -/
theorem onMemory (op : Operation) (mode : Mode) (side : Side) (objection : Objection)
    {lead : Option Opcode} (hlead : ∀ o ∈ lead, o.form.operandSize = 0) :
    Regular (Shape.onMemory op mode side objection lead) := by
  intro shape h
  unfold Shape.onMemory at h
  split at h <;> cases h
  exact hlead

@[simp] theorem onMemory_none (op : Operation) (mode : Mode) (side : Side)
    (objection : Objection) : Regular (Shape.onMemory op mode side objection) :=
  onMemory op mode side objection fun _ h => absurd h (Option.not_mem_none _)

/-- Operations on the accumulator are exact if the opcode before them has no operand. -/
theorem shapeOnA (receiver argument : Mode) (op : Operation) (objection : Objection)
    {lead : Option Opcode} (hlead : ∀ o ∈ lead, o.form.operandSize = 0) :
    Regular (CommandKind.shapeOnA receiver argument op objection lead) := by
  unfold CommandKind.shapeOnA
  split
  · exact onMemory _ _ _ _ hlead
  · exact error _

/-- Shifts are exact, of the accumulator and of memory. -/
theorem shapeOfShift (receiver : Mode) (op : Operation)
    (h : (op.code? .accumulator).isSome = true) :
    Regular (CommandKind.shapeOfShift receiver op h) := by
  unfold CommandKind.shapeOfShift
  split
  · intro shape hs
    cases hs
    exact rfl
  · exact onMemory_none _ _ _ _

/-- The table of commands with an argument holds exact shapes only. -/
theorem shapeWith (kind : CommandKind) (receiver argument : Mode) :
    Regular (kind.shapeWith receiver argument) := by
  cases kind with
  | get =>
    simp only [CommandKind.shapeWith, shapeOfGet]
    split <;> simp
  | put =>
    simp only [CommandKind.shapeWith, shapeOfPut]
    split <;> simp
  | cmp =>
    simp only [CommandKind.shapeWith, shapeOfCmp]
    split <;> simp
  | set =>
    simp only [CommandKind.shapeWith, shapeOfSet]
    split <;> simp
  | unset =>
    simp only [CommandKind.shapeWith, shapeOfUnset]
    split <;> simp
  | add | addc | sub | subc | or | and | xor | bit =>
    -- What prepares the carry flag has no operand.
    refine shapeOnA _ _ _ _ fun o ho => ?_
    cases ho <;> rfl
  | inc | dec | not | neg | shl | shr | rol | ror | push | pull => exact error _

/-- The table of commands without an argument holds exact shapes only. -/
theorem shapeAlone (kind : CommandKind) (receiver : Mode) :
    Regular (kind.shapeAlone receiver) := by
  have fixed {instructions : List Instruction} (h : ∀ i ∈ instructions, i.Exact) :
      Regular (.ok (.sequence instructions)) := by
    intro shape hs
    cases hs
    exact h
  unfold CommandKind.shapeAlone
  split
  case h_7 => exact fixed (by decide)
  case h_8 => exact fixed (by decide)
  case h_11 | h_12 | h_13 | h_14 => exact shapeOfShift _ _ _
  all_goals simp

end Regular

/-- The entries of the encoding table are exact. -/
theorem exact_of_shape {kind : CommandKind} {receiver : Mode} {argument : Option Mode}
    {shape : Shape} (h : kind.shape receiver argument = .ok shape) : shape.Exact := by
  unfold CommandKind.shape at h
  split at h
  · exact Regular.shapeWith _ _ _ _ h
  · cases h
  · cases h
  · exact Regular.shapeAlone _ _ _ h

end CommandKind

/-! ## Commands and branches -/

/-- The operand bytes of an opcode, given the value of the operand. A value that is too large for
them has none. -/
def Opcode.operand? (o : Opcode) (value : UInt16) : Option (List UInt8) :=
  match o.form.length with
  | 2 => if value ≤ 0xFF then some [value.toUInt8] else none
  | 3 => some (littleEndian value)
  | _ => none

/-- An opcode with the operand bytes of a value is exact. -/
theorem Opcode.exact_of_operand? {o : Opcode} {value : UInt16} {operand : List UInt8}
    (h : o.operand? value = some operand) : Instruction.Exact { opcode := o, operand } := by
  unfold Opcode.operand? at h
  rw [Instruction.Exact, Instruction.bytes]
  split at h
  case h_1 hl =>
    rw [hl]
    obtain ⟨-, h⟩ := Option.ite_none_right_eq_some.1 h
    cases h
    rfl
  case h_2 hl =>
    rw [hl]
    cases h
    rfl
  case h_3 => cases h

/-- The instructions of a command in the encoding that was selected, given the values of
expressions. -/
def Selection.instructions? (s : Selection) (memo : Memo) (receiver : Command.Located)
    (argument : Option Command.Located) : Option (List Instruction) :=
  match s.encoding with
  | .sequence instructions => some instructions
  | .instruction lead opcode none => some (lead.toList.map ({ opcode := · }) ++ [{ opcode }])
  | .instruction lead opcode (some side) =>
    (side.pick s.swapped receiver argument).bind fun picked =>
      ((memo.value? (.tree picked.2)).bind opcode.operand?).map fun operand =>
        lead.toList.map ({ opcode := · }) ++ [{ opcode, operand }]

/-- The instruction of a branch at an address, given the values of expressions. The operand of a
branch on a flag is the distance of the target from the end of the branch, as a signed byte. -/
def Branch.instruction? (b : Branch) (memo : Memo) (location : Location) (address : Nat) :
    Option Instruction :=
  b.opcode?.bind fun opcode =>
    match opcode.form with
    | .implied => some { opcode }
    | .relative =>
      (memo.value? (.tree (location.child 0))).bind fun target =>
        let distance : Int := target.toNat - (address + 2)
        if -128 ≤ distance ∧ distance ≤ 127 then
          some { opcode, operand := [(Int8.ofInt distance).toUInt8] }
        else none
    | _ =>
      ((memo.value? (.tree (location.child 0))).bind opcode.operand?).map fun operand =>
        { opcode, operand }

namespace Command

/-- What is selected for an exact shape is exact. -/
theorem exact_of_encode {swapped : Bool} {receiver : Located} {argument : Option Located}
    {shape : Shape} (hshape : shape.Exact) {s t : Logged Context} {e : Encoding}
    (h : encode swapped receiver argument shape s = .ok e t) : e.Exact := by
  rcases shape with o | ⟨lead, o | ⟨short, long⟩, side⟩ | instructions
  case implied =>
    cases h
    exact fun _ h => absurd h (Option.not_mem_none _)
  case memory.either =>
    unfold encode at h
    obtain ⟨zero, u, -, hnext⟩ := Run.bind_eq_ok.1 h
    cases zero <;> cases hnext <;> exact hshape
  all_goals
    cases h
    exact hshape

/-- What is selected for a command comes from a shape of the table, so it is exact. -/
theorem exact_of_select {c : Command} {receiver : Operand} {receiverAt argumentAt : Location}
    {s t : Logged Context} {selection : Selection}
    (h : c.select receiver receiverAt argumentAt s = .ok (some selection) t) :
    selection.encoding.Exact := by
  obtain ⟨-, shape, hs, he⟩ := encode_of_select h
  refine exact_of_encode ?_ he
  unfold CommandKind.shapeOf at hs
  simp only at hs
  split at hs
  · cases hs
  · exact CommandKind.exact_of_shape hs

end Command

/-- Opcodes without operands are exact instructions. -/
theorem spells_opcodes {opcodes : List Opcode} (h : ∀ o ∈ opcodes, o.form.operandSize = 0) :
    Spells (opcodes.map Opcode.byte) (opcodes.map ({ opcode := · })) := by
  constructor
  · rw [List.flatMap_map, List.map_eq_flatMap]
    rfl
  · intro i hi
    obtain ⟨o, ho, rfl⟩ := List.mem_map.1 hi
    exact Instruction.exact_of_operandSize (h o ho)

/-- An opcode with its operand is an exact instruction. -/
theorem spells_operand {o : Opcode} {value : UInt16} {operand : List UInt8}
    (h : o.operand? value = some operand) :
    Spells (o.byte :: operand) [{ opcode := o, operand }] := by
  refine ⟨?_, List.forall_mem_singleton.2 (Opcode.exact_of_operand? h)⟩
  rw [List.flatMap_singleton, Instruction.bytes]

/-- The unit of data that is written for an operand is its bytes. -/
theorem Opcode.operand?_of_unit {o : Opcode} (h : o.TakesOperand) {value : UInt16} {memo : Memo}
    {address : Nat} {bytes : List UInt8}
    (hbytes : (Code.unit (if o.form.operandSize = 1 then .byte else .word) value).bytes? memo
      address = some bytes) : o.operand? value = some bytes := by
  unfold Opcode.operand?
  rw [Form.length_eq]
  rcases h with h | h
  · rw [h] at hbytes ⊢
    exact hbytes
  · rw [h] at hbytes ⊢
    exact hbytes

namespace Selection

variable {s : Selection} {memo : Memo} {address : Nat} {bytes : List UInt8}

/-- The code of an operand is the bytes of its value. -/
theorem operand?_of_code {opcode : Opcode} (h : opcode.TakesOperand)
    {picked : Option Command.Located}
    (hbytes : (operandCode opcode picked).bytes? memo address = some bytes) :
    ∃ o, picked = some o ∧ (memo.value? (.tree o.2)).bind opcode.operand? = some bytes := by
  unfold operandCode at hbytes
  split at hbytes
  · obtain ⟨v, hv, hbytes⟩ := Option.bind_eq_some_iff.1 hbytes
    exact ⟨_, rfl, Option.bind_eq_some_iff.2 ⟨v, hv, Opcode.operand?_of_unit h hbytes⟩⟩
  · cases hbytes

/-- The code of a command is that of exact instructions. -/
theorem instructions_of_code (hsized : s.encoding.Sized) (hexact : s.encoding.Exact)
    {receiver : Command.Located} {argument : Option Command.Located}
    (h : (s.code receiver argument).bytes? memo address = some bytes) :
    ∃ is, s.instructions? memo receiver argument = some is ∧ Spells bytes is := by
  unfold code at h
  unfold instructions?
  cases he : s.encoding with
  | sequence instructions =>
    rw [he] at h hexact
    cases h
    exact ⟨instructions, rfl, rfl, hexact⟩
  | instruction lead opcode carrier =>
    rw [he] at h hsized hexact
    obtain ⟨_, _, hfirst, hrest, rfl⟩ := Code.exists_of_bytes?_append h
    obtain ⟨_, operand, hsecond, hcode, rfl⟩ := Code.exists_of_bytes?_append hrest
    cases hfirst
    cases hsecond
    have hlead := spells_opcodes fun o ho => hexact o (Option.mem_toList.1 ho)
    cases carrier with
    | none =>
      cases hcode
      refine ⟨_, rfl, hlead.append ⟨rfl, List.forall_mem_singleton.2 ?_⟩⟩
      exact Instruction.exact_of_operandSize hsized
    | some side =>
      obtain ⟨o, hpick, hoperand⟩ := operand?_of_code hsized hcode
      obtain ⟨v, -, hv⟩ := Option.bind_eq_some_iff.1 hoperand
      simp only [hpick, Option.bind_some, hoperand, Option.map_some]
      exact ⟨_, rfl, hlead.append (spells_operand hv)⟩

end Selection

namespace Branch

variable {b : Branch} {memo : Memo} {location : Location} {address : Nat} {bytes : List UInt8}

/-- The forms of branches. -/
theorem form_of_opcode? {o : Opcode} (h : b.opcode? = some o) :
    o.form = .implied ∨ o.form = .relative ∨ o.form = .target ∨ o.form = .pointer := by
  unfold opcode? at h
  split at h
  case h_5 =>
    split at h <;> cases h <;> simp
  case h_6 => exact Or.inr (Or.inl (Condition.form_of_opcode? h))
  all_goals
    cases h
    simp

/-- A distance that is written is a signed byte. -/
theorem displacement_of_code {target : UInt16}
    (h : (Code.displacement target).bytes? memo (address + 1) = some bytes) :
    let distance : Int := target.toNat - (address + 2)
    (-128 ≤ distance ∧ distance ≤ 127) ∧ bytes = [(Int8.ofInt distance).toUInt8] := by
  obtain ⟨hrange, hbytes⟩ := Option.ite_none_left_eq_some.1 h
  have hdistance : displacement target (address + 1) = target.toNat - (address + 2) := by
    unfold displacement
    omega
  rw [hdistance] at hrange hbytes
  cases hbytes
  have hin : -128 ≤ (target.toNat - (address + 2) : Int) ∧
      (target.toNat - (address + 2) : Int) ≤ 127 := by omega
  refine ⟨hin, ?_⟩
  have hsigned := toInt_displacement hin
  generalize (UInt16.ofNat ((target.toNat - (address + 2) : Int) % 256).toNat).toUInt8 = d
    at hsigned ⊢
  rw [← hsigned, Int8.ofInt_toInt, UInt8.toUInt8_toInt8]

/-- The operand of a branch depends on the value of its destination. -/
theorem value_of_code {o : Opcode} {n : Nat} (ho : b.opcode? = some o) (hn : n ≠ 1)
    (h : (b.code location n).bytes? memo address = some bytes) :
    ∃ v operand, memo.value? (.tree (location.child 0)) = some v ∧ bytes = o.byte :: operand ∧
      (if n = 3 then Code.unit .word v else Code.displacement v).bytes? memo (address + 1) =
        some operand := by
  unfold code at h
  simp only [ho] at h
  obtain ⟨_, operand, hfirst, hcode, rfl⟩ := Code.exists_of_bytes?_append h
  cases hfirst
  rw [if_neg hn] at hcode
  cases he : b.destination.bind Operand.expr with
  | none =>
    simp only [he] at hcode
    cases hcode
  | some e =>
    simp only [he] at hcode
    split at hcode <;> rename_i hthree
    · obtain ⟨v, hv, hbytes⟩ := Option.bind_eq_some_iff.1 hcode
      exact ⟨v, operand, hv, rfl, by rw [if_pos hthree]; exact hbytes⟩
    · obtain ⟨v, hv, hbytes⟩ := Option.bind_eq_some_iff.1 hcode
      exact ⟨v, operand, hv, rfl, by rw [if_neg hthree]; exact hbytes⟩

/-- The code of a branch is that of an exact instruction. -/
theorem instruction_of_code {n : Nat} (hsize : b.size? = .ok n)
    (h : (b.code location n).bytes? memo address = some bytes) :
    ∃ i, b.instruction? memo location address = some i ∧ Spells bytes [i] := by
  obtain ⟨o, ho, rfl⟩ := exists_opcode?_of_size? hsize
  unfold instruction?
  rw [ho, Option.bind_some]
  rcases form_of_opcode? ho with hform | hform | hform | hform <;>
    simp only [hform, Form.operandSize] at h ⊢
  case inl =>
    unfold code at h
    simp only [ho] at h
    cases h
    refine ⟨_, rfl, rfl, List.forall_mem_singleton.2 (Instruction.exact_of_operandSize ?_)⟩
    rw [hform]
    rfl
  case inr.inl =>
    obtain ⟨v, operand, hv, rfl, hbytes⟩ := value_of_code ho (by decide) h
    obtain ⟨hin, rfl⟩ := displacement_of_code hbytes
    rw [hv, Option.bind_some]
    refine ⟨_, if_pos hin, rfl, List.forall_mem_singleton.2 ?_⟩
    rw [Instruction.Exact, hform]
    rfl
  all_goals
    obtain ⟨v, operand, hv, rfl, hbytes⟩ := value_of_code ho (by decide) h
    have hoperand : o.operand? v = some operand := by
      unfold Opcode.operand?
      rw [hform]
      exact hbytes
    simp only [hv, Option.bind_some, hoperand, Option.map_some]
    exact ⟨_, rfl, spells_operand hoperand⟩

end Branch

end Cartridge
