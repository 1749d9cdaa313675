import Cartridge.Encoding.Selection
import Cartridge.Proofs.Encoding
import Cartridge.Proofs.Processor

/-!
# What commands do

A command names an effect on the processor. The encoding table assigns instructions to commands, and
here the two are compared: whatever the state of the processor is, the instructions of an entry have
the effect of its command.

Main definitions:

- `Mode.Stands`: the place for which an operand stands.
- `CommandKind.Effect`: the effect of a command on the state of the processor.
- `Encoding.Performs`: running the bytes of an encoding has an effect.

Main results:

- Theorem `Processor.Follows.run`: instructions that stand in memory one after another are executed.
- Theorem `CommandKind.performs_shape`: the entries of the encoding table have the effects of their
  commands.
-/

namespace Cartridge

/-! ## The effects -/

/-- The register that a builtin is, if it is no flag. -/
def Builtin.register? : Builtin → Option Place
  | a => some .a
  | x => some .x
  | y => some .y
  | s => some .s
  | p => some .status
  | _ => none

/-- The flags after one of them was set or cleared. -/
def Status.assign (status : Status) (flag : Builtin) (value : Bool) : Status :=
  match flag with
  | .carry => { status with carry := value }
  | .interrupt => { status with interrupt := value }
  | .decimal => { status with decimal := value }
  | .overflow => { status with overflow := value }
  | .zero => { status with zero := value }
  | .negative => { status with negative := value }
  | _ => status

/-- The addressing forms that can stand for an operand. -/
def Mode.forms : Mode → List Form
  | immediate => [.immediate]
  | direct => [.zeroPage, .absolute]
  | indexedByX => [.zeroPageX, .absoluteX]
  | indexedByY => [.zeroPageY, .absoluteY]
  | indexedIndirect => [.indirectX]
  | indirectIndexed => [.indirectY]
  | label | indirectLabel | builtin _ => []

/-- The place for which an operand stands: a register, or what the addressing form finds with the
value of its expression. -/
def Mode.Stands (mode : Mode) (form : Form) (v : UInt16) (p : Processor) (place : Place) : Prop :=
  match mode with
  | .builtin b => b.register? = some place
  | _ => form ∈ mode.forms ∧ form.place? v p = some place

namespace Processor

/-- Two states agree in everything but the flags. -/
def Agrees (p q : Processor) : Prop :=
  p = { q with status := p.status }

/-- The flags show whether a value is zero or negative. -/
def Shows (p : Processor) (v : UInt8) : Prop :=
  p.status.zero = decide (v = 0) ∧ p.status.negative = decide (128 ≤ v)

/-- A value was put at a place, and the flags show it. -/
def Becomes (p : Processor) (place : Place) (v : UInt8) (q : Processor) : Prop :=
  q.Agrees (place.write v p) ∧ q.Shows v

end Processor

namespace CommandKind

/-- The effect of a command on its receiver. -/
def Alters (kind : CommandKind) (r : Place) (p q : Processor) : Prop :=
  let u := r.read p
  let c := p.status.carry
  match kind with
  | inc => p.Becomes r (u + 1) q
  | dec => p.Becomes r (u - 1) q
  | not => p.Becomes r (255 - u) q
  | neg => p.Becomes r (0 - u) q
  | shl => p.Becomes r (2 * u) q ∧ q.status.carry = decide (128 ≤ u)
  | shr => p.Becomes r (u / 2) q ∧ q.status.carry = decide (u % 2 = 1)
  | rol => p.Becomes r (2 * u + c.toUInt8) q ∧ q.status.carry = decide (128 ≤ u)
  | ror => p.Becomes r (u / 2 + 128 * c.toUInt8) q ∧ q.status.carry = decide (u % 2 = 1)
  | push => q = { Place.write (.cell (0x100 + p.s.toUInt16)) u p with s := p.s - 1 }
  | pull =>
    let top := p.memory (0x100 + (p.s + 1).toUInt16)
    q.Agrees { r.write top p with s := p.s + 1 } ∧ (r = .status → q.status = .ofByte top)
  | _ => False

/-- The effect of a command on its receiver and its argument. -/
def Combines (kind : CommandKind) (r m : Place) (p q : Processor) : Prop :=
  let u := r.read p
  let v := m.read p
  let c := p.status.carry
  match kind with
  | get => q.Agrees (r.write v p)
  | put => q.Agrees (m.write u p)
  | add => p.Becomes r (u + v) q ∧ q.status.carry = decide (256 ≤ u.toNat + v.toNat)
  | addc => p.Becomes r (u + v + c.toUInt8) q ∧
      q.status.carry = decide (256 ≤ u.toNat + v.toNat + c.toNat)
  | sub => p.Becomes r (u - v) q ∧ q.status.carry = decide (v ≤ u)
  | subc => p.Becomes r (u - v - (!c).toUInt8) q ∧
      q.status.carry = decide (v.toNat + (!c).toNat ≤ u.toNat)
  | or => p.Becomes r (u ||| v) q
  | and => p.Becomes r (u &&& v) q
  | xor => p.Becomes r (u ^^^ v) q
  | cmp => q.Agrees p ∧ q.Shows (u - v) ∧ q.status.carry = decide (v ≤ u)
  | bit => q.Agrees p ∧ q.status.zero = decide (u &&& v = 0) ∧
      q.status.overflow = v.toNat.testBit 6 ∧ q.status.negative = v.toNat.testBit 7
  | _ => False

/-- The effect of a command, given the addressing form that stands for an operand in memory and the
value of its expression. -/
def Effect (kind : CommandKind) (receiver : Mode) (argument : Option Mode) (form : Form)
    (v : UInt16) (p q : Processor) : Prop :=
  match argument with
  | none => ∃ r, receiver.Stands form v p r ∧ kind.Alters r p q
  | some mode =>
    let changes (value : Bool) : Prop := ∃ flag, receiver = .builtin .p ∧ mode = .builtin flag ∧
      flag.register? = none ∧ q = { p with status := p.status.assign flag value }
    match kind with
    | set => changes true
    | unset => changes false
    | _ => ∃ r m, receiver.Stands form v p r ∧ mode.Stands form v p m ∧ kind.Combines r m p q

end CommandKind

/-! ## Arithmetic of bytes -/

namespace Processor

variable {p q r : Processor} {pc : UInt16}

/-- The sign of a byte is its seventh bit. -/
theorem testBit_seven (v : UInt8) : v.toNat.testBit 7 = decide (128 ≤ v) := by
  have hv := v.toNat_lt
  rw [Nat.testBit_eq_decide_div_mod_eq, decide_eq_decide, UInt8.le_iff_toNat_le]
  simp only [UInt8.reduceToNat]
  omega

/-- The lowest bit of a byte tells whether it is odd. -/
theorem testBit_zero (v : UInt8) : v.toNat.testBit 0 = decide (v % 2 = 1) := by
  rw [Nat.testBit_eq_decide_div_mod_eq, decide_eq_decide, ← UInt8.toNat_inj, UInt8.toNat_mod]
  simp only [UInt8.reduceToNat]
  omega

/-- Marking a value sets the two flags that show it. -/
theorem shows_mark (p : Processor) (v : UInt8) : (p.mark v).Shows v :=
  ⟨Bool.beq_eq_decide_eq v 0, testBit_seven v⟩

/-- Adding to register `a` with the carry flag prepared. -/
theorem adds (c : Bool) (p : Processor) (v : UInt8) :
    let q := (p.onStatus fun status => { status with carry := c }).addWithCarry v
    p.Becomes .a (p.a + v + c.toUInt8) q ∧
      q.status.carry = decide (256 ≤ p.a.toNat + v.toNat + c.toNat) := by
  have hsum : p.a + v + c.toUInt8 = UInt8.ofNat (p.a.toNat + v.toNat + c.toNat) := by
    rw [UInt8.ofNat_add, UInt8.ofNat_add, UInt8.ofNat_toNat, UInt8.ofNat_toNat]
    cases c <;> rfl
  rw [hsum]
  exact ⟨⟨rfl, shows_mark _ _⟩, rfl⟩

/-- To add a complement is to subtract, and the carry flag tells that nothing was borrowed. -/
theorem add_complement (u v : UInt8) (c : Bool) :
    u + ~~~ v + c.toUInt8 = u - v - (!c).toUInt8 := by
  have hc : c.toUInt8 = 1 - (!c).toUInt8 := by cases c <;> rfl
  rw [UInt8.not_eq_neg_sub, hc]
  grind

/-- Adding the complement carries exactly if the subtraction borrows nothing. -/
theorem le_add_complement (u v : UInt8) (c : Bool) :
    256 ≤ u.toNat + (~~~ v).toNat + c.toNat ↔ v.toNat + (!c).toNat ≤ u.toNat := by
  have hv := v.toNat_lt
  rw [UInt8.toNat_not, UInt8.size]
  cases c <;> simp only [Bool.not_false, Bool.not_true, Bool.toNat_false, Bool.toNat_true] <;>
    omega

/-- Subtracting from register `a` with the carry flag prepared. -/
theorem subtracts (c : Bool) (p : Processor) (v : UInt8) :
    let q := (p.onStatus fun status => { status with carry := c }).addWithCarry (~~~ v)
    p.Becomes .a (p.a - v - (!c).toUInt8) q ∧
      q.status.carry = decide (v.toNat + (!c).toNat ≤ p.a.toNat) := by
  rw [← add_complement, ← decide_eq_decide.2 (le_add_complement p.a v c)]
  exact adds c p (~~~ v)

/-- Shifting to the left doubles a byte and brings in the carry. -/
theorem shiftLeft_eq (u : UInt8) (c : Bool) : u <<< 1 ||| c.toUInt8 = 2 * u + c.toUInt8 := by
  have table : ∀ (n : Fin 256) (c : Bool),
      UInt8.ofFin n <<< 1 ||| c.toUInt8 = 2 * UInt8.ofFin n + c.toUInt8 := by decide +kernel
  exact table u.toFin c

/-- Shifting to the right halves a byte and brings in the carry at the top. -/
theorem shiftRight_eq (u : UInt8) (c : Bool) :
    u >>> 1 ||| c.toUInt8 <<< 7 = u / 2 + 128 * c.toUInt8 := by
  have table : ∀ (n : Fin 256) (c : Bool),
      UInt8.ofFin n >>> 1 ||| c.toUInt8 <<< 7 = UInt8.ofFin n / 2 + 128 * c.toUInt8 := by
    decide +kernel
  exact table u.toFin c

theorem xor_eq (u : UInt8) : u ^^^ 0xFF = 255 - u := by
  have table : ∀ n : Fin 256, UInt8.ofFin n ^^^ 0xFF = 255 - UInt8.ofFin n := by decide +kernel
  exact table u.toFin

/-- An operation on the accumulator leaves its result there, and the flags show it. -/
theorem becomes_operate (f : UInt8 → UInt8 → UInt8) (m : Place) (p : Processor) :
    p.Becomes .a (f p.a (m.read p)) (operate f m p) :=
  ⟨rfl, shows_mark _ _⟩

/-- A place that is modified holds the result, and the flags show it. -/
theorem becomes_modify (f : UInt8 → UInt8) (m : Place) (p : Processor) :
    p.Becomes m (f (m.read p)) (Processor.modify f m p) :=
  ⟨rfl, shows_mark _ _⟩

/-- A shift to the left moves the highest bit into the carry. -/
theorem becomes_shiftLeft (c : Bool) (m : Place) (p : Processor) :
    p.Becomes m (2 * m.read p + c.toUInt8) (Processor.shiftLeft c m p) ∧
      (Processor.shiftLeft c m p).status.carry = decide (128 ≤ m.read p) := by
  rw [← shiftLeft_eq]
  exact ⟨⟨rfl, shows_mark _ _⟩, testBit_seven _⟩

/-- A shift to the right moves the lowest bit into the carry. -/
theorem becomes_shiftRight (c : Bool) (m : Place) (p : Processor) :
    p.Becomes m (m.read p / 2 + 128 * c.toUInt8) (Processor.shiftRight c m p) ∧
      (Processor.shiftRight c m p).status.carry = decide (m.read p % 2 = 1) := by
  rw [← shiftRight_eq]
  exact ⟨⟨rfl, shows_mark _ _⟩, testBit_zero _⟩

/-! ## Code in memory -/

end Processor

/-- The bytes of an instruction with an operand. -/
def Opcode.bytes (o : Opcode) (v : UInt16) : List UInt8 :=
  o.byte :: match o.form.operandSize with
    | 0 => []
    | 1 => [v.toUInt8]
    | _ => littleEndian v

/-- An operand of one byte is small enough. -/
def Opcode.Fits (o : Opcode) (v : UInt16) : Prop :=
  o.form.operandSize = 1 → v ≤ 0xFF

/-- An instruction is one byte longer than its operand. -/
theorem Form.length_eq (form : Form) : form.length = form.operandSize + 1 := by
  cases form <;> rfl

/-- The bytes that are written for an instruction are those that the processor reads. -/
theorem Opcode.length_bytes (o : Opcode) (v : UInt16) : (o.bytes v).length = o.form.length := by
  unfold bytes
  cases o.form <;> rfl

/-- Without operand bytes the operand does not matter. -/
theorem Operation.execute_of_operandSize (op : Operation) {form : Form}
    (h : form.operandSize = 0) (v w : UInt16) (p : Processor) :
    op.execute form v p = op.execute form w p := by
  cases form with
  | implied => rfl
  | accumulator => rfl
  | _ => cases h

namespace Processor

variable {p q r : Processor} {pc : UInt16}

/-- An instruction that stands in memory is executed with its operand. -/
theorem step_of_bytes {o : Opcode} {v : UInt16} (h : p.Holds pc (o.bytes v)) (hv : o.Fits v)
    (hq : o.operation.execute o.form v p = some q) :
    step pc p = some (pc + .ofNat (o.bytes v).length, q) := by
  rw [Opcode.length_bytes]
  refine step_of_holds h ?_
  have hl := o.form.length_eq
  cases hsize : o.form.operandSize with
  | zero =>
    rw [← hq]
    exact o.operation.execute_of_operandSize hsize _ _ p
  | succ n =>
    have hoperand : operand o.form pc p = v := by
      refine operand_of_holds ?_
      have hrest := h.2
      rw [hsize] at hrest
      cases n with
      | zero => exact Or.inl ⟨by omega, hv hsize, hrest⟩
      | succ n =>
        have hle : o.form.operandSize ≤ 2 := by cases o.form <;> decide
        exact Or.inr ⟨by omega, hrest⟩
    rw [hoperand, hq]

/-- Instructions are followed one after another. Those before the last one leave the memory, and so
the code, as it is. -/
inductive Follows : List (Opcode × UInt16) → Processor → Processor → Prop
  | last {o : Opcode} {v : UInt16} {p q : Processor} (fits : o.Fits v)
      (execute : o.operation.execute o.form v p = some q) : Follows [(o, v)] p q
  | next {o : Opcode} {v : UInt16} {rest : List (Opcode × UInt16)} {p q r : Processor}
      (fits : o.Fits v) (execute : o.operation.execute o.form v p = some q)
      (memory : q.memory = p.memory) (follows : Follows rest q r) : Follows ((o, v) :: rest) p r

/-- Whether code stands in memory depends on the memory only. -/
theorem Holds.congr {code : List UInt8} (h : p.Holds pc code) (hm : q.memory = p.memory) :
    q.Holds pc code := by
  induction code generalizing pc with
  | nil => trivial
  | cons b rest ih => exact ⟨hm ▸ h.1, ih h.2⟩

/-- Instructions that stand in memory one after another are executed. -/
theorem Follows.run {code : List (Opcode × UInt16)} (h : Follows code p q)
    (hcode : p.Holds pc (code.flatMap fun i => i.1.bytes i.2)) :
    run code.length pc p =
      some (pc + .ofNat (code.flatMap fun i => i.1.bytes i.2).length, q) := by
  induction h generalizing pc with
  | last fits execute =>
    rw [List.flatMap_singleton] at hcode ⊢
    rw [List.length_singleton, Processor.run, step_of_bytes hcode fits execute]
    rfl
  | next fits execute memory _ ih =>
    rw [List.flatMap_cons] at hcode ⊢
    obtain ⟨hfirst, hrest⟩ := Holds.append hcode
    rw [List.length_cons, Processor.run, step_of_bytes hfirst fits execute, Option.bind_some,
      ih (hrest.congr memory), List.length_append, UInt16.ofNat_add, UInt16.add_assoc]

end Processor

/-! ## Encodings -/

/-- The bytes of an encoding with the value of its operand. -/
def Encoding.bytes (v : UInt16) : Encoding → List UInt8
  | instruction lead opcode _ => lead.toList.map Opcode.byte ++ opcode.bytes v
  | sequence instructions => instructions.flatMap Instruction.bytes

/-- The value of the operand has bytes. -/
def Encoding.Fits (v : UInt16) : Encoding → Prop
  | instruction _ opcode _ => opcode.Fits v
  | sequence _ => True

/-- The addressing form of an encoding. -/
def Encoding.form : Encoding → Form
  | instruction _ opcode _ => opcode.form
  | sequence _ => .implied

/-- Wherever the bytes of an encoding stand in memory and whatever the state of the processor is,
running them has an effect. -/
def Encoding.Performs (e : Encoding) (effect : Form → UInt16 → Processor → Processor → Prop) :
    Prop :=
  ∀ v, e.Fits v → ∀ pc p, p.Holds pc (e.bytes v) →
    ∃ n q, Processor.run n pc p = some (pc + .ofNat (e.bytes v).length, q) ∧ effect e.form v p q

/-- The opcodes among which an access chooses. -/
def Access.opcodes : Access → List Opcode
  | only opcode => [opcode]
  | either short long => [short, long]

/-- Every encoding of a shape has an effect. An operand that is carried is one in memory. -/
def Shape.Performs (shape : Shape) (receiver : Mode) (argument : Option Mode)
    (effect : Form → UInt16 → Processor → Processor → Prop) : Prop :=
  match shape with
  | implied opcode => (Encoding.instruction none opcode none).Performs effect
  | sequence instructions => (Encoding.sequence instructions).Performs effect
  | memory lead access side =>
    (∃ mode, side.pick false receiver argument = some mode ∧ mode.isMemory = true) ∧
      ∀ opcode ∈ access.opcodes, (Encoding.instruction lead opcode (some side)).Performs effect

section

variable {effect : Form → UInt16 → Processor → Processor → Prop}

/-- An encoding has an effect if following its instructions, wherever they stand, has it. -/
theorem Encoding.performs_of_follows {e : Encoding} (code : UInt16 → List (Opcode × UInt16))
    (hbytes : ∀ v, e.bytes v = (code v).flatMap fun i => i.1.bytes i.2)
    (h : ∀ v, e.Fits v → ∀ p, ∃ q, Processor.Follows (code v) p q ∧ effect e.form v p q) :
    e.Performs effect := by
  intro v hv pc p hp
  obtain ⟨q, hfollows, hq⟩ := h v hv p
  rw [hbytes v] at hp ⊢
  exact ⟨(code v).length, q, hfollows.run hp, hq⟩

/-- The opcodes for an operand in memory are those of the operation, in the forms of the mode. -/
theorem Operation.opcode_of_access? {op : Operation} {mode : Mode} {access : Access}
    (h : op.access? mode = some access) :
    mode.isMemory = true ∧ ∀ o ∈ access.opcodes, o.operation = op ∧ o.form ∈ mode.forms := by
  have spec {form : Form} {o : Opcode} (ho : op.opcode? form = some o) :
      o.operation = op ∧ o.form = form := by
    unfold Operation.opcode? at ho
    split at ho <;> cases ho
    exact ⟨rfl, rfl⟩
  have single {form : Form} (hs : (op.opcode? form).map Access.only = some access) :
      ∀ o ∈ access.opcodes, o.operation = op ∧ o.form ∈ [form] := by
    obtain ⟨o, ho, rfl⟩ := Option.map_eq_some_iff.1 hs
    intro o' ho'
    cases List.mem_singleton.1 ho'
    exact ⟨(spec ho).1, List.mem_singleton.2 (spec ho).2⟩
  have pair {short long : Form}
      (hp : Access.ofPair? (op.opcode? short) (op.opcode? long) = some access) :
      ∀ o ∈ access.opcodes, o.operation = op ∧ o.form ∈ [short, long] := by
    intro o ho
    have hcases : op.opcode? short = some o ∨ op.opcode? long = some o := by
      unfold Access.ofPair? at hp
      split at hp <;> cases hp <;> simp only [Access.opcodes, List.mem_cons, List.not_mem_nil,
        or_false] at ho
      · rcases ho with rfl | rfl
        · exact Or.inl ‹_›
        · exact Or.inr ‹_›
      · exact Or.inl (ho ▸ ‹_›)
      · exact Or.inr (ho ▸ ‹_›)
    rcases hcases with hs | hl
    · exact ⟨(spec hs).1, by rw [(spec hs).2]; exact List.mem_cons_self⟩
    · exact ⟨(spec hl).1, by rw [(spec hl).2]; exact List.mem_cons_of_mem _ List.mem_cons_self⟩
  cases mode with
  | immediate => exact ⟨rfl, single h⟩
  | indexedIndirect => exact ⟨rfl, single h⟩
  | indirectIndexed => exact ⟨rfl, single h⟩
  | direct => exact ⟨rfl, pair h⟩
  | indexedByX => exact ⟨rfl, pair h⟩
  | indexedByY => exact ⟨rfl, pair h⟩
  | label => cases h
  | indirectLabel => cases h
  | builtin b => cases h

/-- Every form of an operand in memory stands for a place. -/
theorem Mode.exists_place {mode : Mode} {form : Form} (h : form ∈ mode.forms) (v : UInt16)
    (p : Processor) : ∃ place, form.place? v p = some place ∧ mode.Stands form v p place := by
  cases mode <;> simp only [Mode.forms, List.mem_cons, List.not_mem_nil, or_false] at h
  all_goals
    rcases h with rfl | rfl <;> exact ⟨_, rfl, by simp [Mode.forms], rfl⟩

/-! ## Entries of the table -/

/-- The shape that comes out, if any, has an effect. -/
def Correct (r : Except Objection Shape) (receiver : Mode) (argument : Option Mode)
    (effect : Form → UInt16 → Processor → Processor → Prop) : Prop :=
  ∀ shape, r = .ok shape → shape.Performs receiver argument effect

namespace Correct

variable {receiver : Mode} {argument : Option Mode}

theorem error (o : Objection) : Correct (.error o) receiver argument effect := by
  intro shape h
  cases h

/-- An instruction without operand bytes. -/
theorem implied {o : Opcode} {f : Processor → Processor}
    (ho : ∀ v p, o.operation.execute o.form v p = some (f p))
    (h : ∀ v p, effect o.form v p (f p)) :
    Correct (.ok (.implied o)) receiver argument effect := by
  intro shape hs
  cases hs
  refine Encoding.performs_of_follows (fun v => [(o, v)]) (fun v => ?_) fun v hv p =>
    ⟨f p, .last hv (ho v p), h v p⟩
  rw [List.flatMap_singleton]
  rfl

/-- An instruction without an operand has the effect of its operation. -/
theorem alone {op : Operation} {hop : (op.code? .implied).isSome = true}
    {f : Processor → Processor} (hf : op.alone? = some f)
    (h : ∀ v p, effect .implied v p (f p)) :
    Correct (Shape.alone op hop) receiver argument effect := by
  refine implied (fun v p => ?_) h
  unfold Operation.execute
  rw [hf]
  rfl

/-- What an operation does to the place of its operand. -/
theorem execute_of_mem_forms {op : Operation} {f : Place → Processor → Processor}
    (hf : op.onPlace? = some f) {mode : Mode} {form : Form} (hform : form ∈ mode.forms)
    {v : UInt16} {p : Processor} {place : Place} (hplace : form.place? v p = some place) :
    op.execute form v p = some (f place p) := by
  unfold Operation.execute
  split
  · cases hplace
  · rw [hf, hplace]
    rfl

/-- An operation on an operand in memory. -/
theorem onMemory {op : Operation} {mode : Mode} {side : Side} {objection : Objection}
    {f : Place → Processor → Processor} (hf : op.onPlace? = some f)
    (hside : side.pick false receiver argument = some mode)
    (h : ∀ form v p place, mode.Stands form v p place → effect form v p (f place p)) :
    Correct (Shape.onMemory op mode side objection) receiver argument effect := by
  intro shape hs
  unfold Shape.onMemory at hs
  split at hs <;> cases hs
  obtain ⟨hmemory, hopcodes⟩ := Operation.opcode_of_access? ‹_›
  refine ⟨⟨mode, hside, hmemory⟩, fun o ho => ?_⟩
  obtain ⟨rfl, hform⟩ := hopcodes o ho
  refine Encoding.performs_of_follows (fun v => [(o, v)]) (fun v => ?_) fun v hv p => ?_
  · rw [List.flatMap_singleton]
    rfl
  · obtain ⟨place, hplace, hstands⟩ := Mode.exists_place hform v p
    exact ⟨f place p, .last hv (execute_of_mem_forms hf hform hplace), h _ _ _ _ hstands⟩

/-- An operation on an operand in memory, after a flag was prepared for it. -/
theorem onMemoryAfter {op : Operation} {mode : Mode} {side : Side} {objection : Objection}
    {f : Place → Processor → Processor} (hf : op.onPlace? = some f) {lead : Opcode}
    {g : Status → Status} (hform : lead.form = .implied)
    (hlead : lead.operation.alone? = some (Processor.onStatus g))
    (hside : side.pick false receiver argument = some mode)
    (h : ∀ form v p place, mode.Stands form v p place →
      place.read (p.onStatus g) = place.read p → effect form v p (f place (p.onStatus g))) :
    Correct (Shape.onMemory op mode side objection (some lead)) receiver argument effect := by
  intro shape hs
  unfold Shape.onMemory at hs
  split at hs <;> cases hs
  obtain ⟨hmemory, hopcodes⟩ := Operation.opcode_of_access? ‹_›
  refine ⟨⟨mode, hside, hmemory⟩, fun o ho => ?_⟩
  obtain ⟨rfl, hmode⟩ := hopcodes o ho
  refine Encoding.performs_of_follows (fun v => [(lead, 0), (o, v)]) (fun v => ?_) fun v hv p => ?_
  · rw [List.flatMap_cons, List.flatMap_singleton, Opcode.bytes, hform]
    rfl
  · obtain ⟨place, hplace, hstands⟩ := Mode.exists_place hmode v p
    -- A flag has no part in the choice of the place, nor in what is found there.
    have hsame : o.form.place? v (p.onStatus g) = some place := by
      rw [← hplace]
      cases o.form <;> rfl
    have hread : place.read (p.onStatus g) = place.read p := by
      cases hf : o.form <;> rw [hf] at hplace <;> cases hplace <;> rfl
    have hfirst : lead.operation.execute lead.form 0 p = some (p.onStatus g) := by
      rw [hform]
      unfold Operation.execute
      rw [hlead]
      rfl
    exact ⟨_, .next (fun _ => by decide) hfirst rfl
      (.last hv (execute_of_mem_forms hf hmode hsame)), h _ _ _ _ hstands hread⟩

/-- Fixed instructions. -/
theorem sequence {instructions : List Instruction} {f : Processor → Processor}
    (code : List (Opcode × UInt16))
    (hcode : instructions.flatMap Instruction.bytes = code.flatMap fun i => i.1.bytes i.2)
    (hf : ∀ p, Processor.Follows code p (f p)) (h : ∀ v p, effect .implied v p (f p)) :
    Correct (.ok (.sequence instructions)) receiver argument effect := by
  intro shape hs
  cases hs
  exact Encoding.performs_of_follows (fun _ => code) (fun _ => hcode) fun v _ p =>
    ⟨f p, hf p, h v p⟩

end Correct

namespace CommandKind

/-- The entries for `get`. -/
theorem correct_get (receiver argument : Mode) :
    Correct (shapeOfGet receiver argument) receiver (some argument)
      (get.Effect receiver (some argument)) := by
  have load {r : Builtin} {target : Place} (hr : r.register? = some target) {form : Form}
      {v : UInt16} {p : Processor} {place : Place} {mode : Mode}
      (hm : mode.Stands form v p place) :
      get.Effect (.builtin r) (some mode) form v p (p.load target place) :=
    ⟨target, place, hr, hm, rfl⟩
  unfold shapeOfGet
  split
  · exact .alone rfl fun _ _ => load rfl rfl
  · exact .alone rfl fun _ _ => load rfl rfl
  · exact .onMemory rfl rfl fun _ _ _ _ hm => load rfl hm
  · exact .alone rfl fun _ _ => load rfl rfl
  · exact .alone rfl fun _ _ => load rfl rfl
  · exact .onMemory rfl rfl fun _ _ _ _ hm => load rfl hm
  · exact .alone rfl fun _ _ => load rfl rfl
  · exact .onMemory rfl rfl fun _ _ _ _ hm => load rfl hm
  · exact .alone rfl fun _ _ => ⟨.s, .x, rfl, rfl, rfl⟩
  · exact .error _
  · exact .error _

/-- The entries for `put`. -/
theorem correct_put (receiver argument : Mode) :
    Correct (shapeOfPut receiver argument) receiver (some argument)
      (put.Effect receiver (some argument)) := by
  have load {r : Builtin} {source target : Place} {b : Builtin} (hr : r.register? = some source)
      (hb : b.register? = some target) {form : Form} {v : UInt16} {p : Processor} :
      put.Effect (.builtin r) (some (.builtin b)) form v p (p.load target source) :=
    ⟨source, target, hr, hb, rfl⟩
  have store {r : Builtin} {source : Place} (hr : r.register? = some source) {form : Form}
      {v : UInt16} {p : Processor} {place : Place} {mode : Mode}
      (hm : mode.Stands form v p place) :
      put.Effect (.builtin r) (some mode) form v p (p.store source place) :=
    ⟨source, place, hr, hm, by cases place <;> rfl⟩
  unfold shapeOfPut
  split
  · exact .alone rfl fun _ _ => load rfl rfl
  · exact .alone rfl fun _ _ => load rfl rfl
  · exact .onMemory rfl rfl fun _ _ _ _ hm => store rfl hm
  · exact .alone rfl fun _ _ => load rfl rfl
  · exact .alone rfl fun _ _ => store rfl rfl
  · exact .onMemory rfl rfl fun _ _ _ _ hm => store rfl hm
  · exact .alone rfl fun _ _ => load rfl rfl
  · exact .onMemory rfl rfl fun _ _ _ _ hm => store rfl hm
  · exact .alone rfl fun _ _ => load rfl rfl
  · exact .error _
  · exact .error _

/-- The entries for `cmp`. -/
theorem correct_cmp (receiver argument : Mode) :
    Correct (shapeOfCmp receiver argument) receiver (some argument)
      (cmp.Effect receiver (some argument)) := by
  have compare {r : Builtin} {source : Place} (hr : r.register? = some source) {form : Form}
      {v : UInt16} {p : Processor} {place : Place} {mode : Mode}
      (hm : mode.Stands form v p place) :
      cmp.Effect (.builtin r) (some mode) form v p (p.compare source place) :=
    ⟨source, place, hr, hm, rfl, Processor.shows_mark _ _, rfl⟩
  unfold shapeOfCmp
  split
  · exact .onMemory rfl rfl fun _ _ _ _ hm => compare rfl hm
  · exact .onMemory rfl rfl fun _ _ _ _ hm => compare rfl hm
  · exact .onMemory rfl rfl fun _ _ _ _ hm => compare rfl hm
  · exact .error _

/-- The entries of a command that works on register `a`. -/
theorem correct_onA {kind : CommandKind} {op : Operation} {objection : Objection}
    {f : Place → Processor → Processor} (hf : op.onPlace? = some f) (receiver argument : Mode)
    (h : ∀ form v p place, argument.Stands form v p place →
      kind.Effect (.builtin .a) (some argument) form v p (f place p)) :
    Correct (shapeOnA receiver argument op objection) receiver (some argument)
      (kind.Effect receiver (some argument)) := by
  unfold shapeOnA
  split
  · subst receiver
    exact .onMemory hf rfl h
  · exact .error _

/-- The same with a flag that is prepared. -/
theorem correct_onA_after {kind : CommandKind} {op : Operation} {objection : Objection}
    {f : Place → Processor → Processor} (hf : op.onPlace? = some f) {lead : Opcode}
    {g : Status → Status} (hform : lead.form = .implied)
    (hlead : lead.operation.alone? = some (Processor.onStatus g)) (receiver argument : Mode)
    (h : ∀ form v p place, argument.Stands form v p place →
      place.read (p.onStatus g) = place.read p →
      kind.Effect (.builtin .a) (some argument) form v p (f place (p.onStatus g))) :
    Correct (shapeOnA receiver argument op objection (some lead)) receiver (some argument)
      (kind.Effect receiver (some argument)) := by
  unfold shapeOnA
  split
  · subst receiver
    exact .onMemoryAfter hf hform hlead rfl h
  · exact .error _

/-- The entries for `set`. -/
theorem correct_set (receiver argument : Mode) :
    Correct (shapeOfSet receiver argument) receiver (some argument)
      (set.Effect receiver (some argument)) := by
  unfold shapeOfSet
  split
  · exact .alone rfl fun _ _ => ⟨_, rfl, rfl, rfl, rfl⟩
  · exact .alone rfl fun _ _ => ⟨_, rfl, rfl, rfl, rfl⟩
  · exact .alone rfl fun _ _ => ⟨_, rfl, rfl, rfl, rfl⟩
  · exact .error _
  · exact .error _

/-- The entries for `unset`. -/
theorem correct_unset (receiver argument : Mode) :
    Correct (shapeOfUnset receiver argument) receiver (some argument)
      (unset.Effect receiver (some argument)) := by
  unfold shapeOfUnset
  split
  · exact .alone rfl fun _ _ => ⟨_, rfl, rfl, rfl, rfl⟩
  · exact .alone rfl fun _ _ => ⟨_, rfl, rfl, rfl, rfl⟩
  · exact .alone rfl fun _ _ => ⟨_, rfl, rfl, rfl, rfl⟩
  · exact .alone rfl fun _ _ => ⟨_, rfl, rfl, rfl, rfl⟩
  · exact .error _
  · exact .error _

/-- The entries of commands that shift or rotate. -/
theorem correct_shift {kind : CommandKind} {op : Operation}
    {hop : (op.code? .accumulator).isSome = true} {f : Place → Processor → Processor}
    (hf : op.onPlace? = some f) (receiver : Mode) (h : ∀ p place, kind.Alters place p (f place p)) :
    Correct (shapeOfShift receiver op hop) receiver none (kind.Effect receiver none) := by
  unfold shapeOfShift
  split
  · subst receiver
    refine .implied (fun v p => ?_) fun v p => ⟨.a, rfl, h p .a⟩
    unfold Operation.execute
    rw [hf]
    rfl
  · exact .onMemory hf rfl fun _ _ p place hm => ⟨place, hm, h p place⟩

open Processor in
/-- The entries of commands with an argument. -/
theorem correct_with (kind : CommandKind) (receiver argument : Mode) :
    Correct (kind.shapeWith receiver argument) receiver (some argument)
      (kind.Effect receiver (some argument)) := by
  cases kind with
  | get => exact correct_get _ _
  | put => exact correct_put _ _
  | cmp => exact correct_cmp _ _
  | set => exact correct_set _ _
  | unset => exact correct_unset _ _
  | add =>
    refine correct_onA_after rfl rfl rfl _ _ ?_
    intro form v p place hm hread
    have h : p.Becomes .a (p.a + place.read p + 0) _ ∧ _ := adds false p (place.read p)
    rw [UInt8.add_zero] at h
    rw [hread]
    exact ⟨.a, place, rfl, hm, h⟩
  | addc =>
    refine correct_onA rfl _ _ ?_
    exact fun form v p place hm => ⟨.a, place, rfl, hm, adds p.status.carry p _⟩
  | sub =>
    refine correct_onA_after rfl rfl rfl _ _ ?_
    intro form v p place hm hread
    have h : p.Becomes .a (p.a - place.read p - 0) _ ∧ _ := subtracts true p (place.read p)
    rw [UInt8.sub_zero] at h
    simp only [hread]
    exact ⟨.a, place, rfl, hm, h.1, h.2.trans (decide_eq_decide.2 UInt8.le_iff_toNat_le.symm)⟩
  | subc =>
    refine correct_onA rfl _ _ ?_
    exact fun form v p place hm => ⟨.a, place, rfl, hm, subtracts p.status.carry p _⟩
  | or | and | xor =>
    refine correct_onA rfl _ _ ?_
    exact fun form v p place hm => ⟨.a, place, rfl, hm, becomes_operate _ _ p⟩
  | bit =>
    refine correct_onA rfl _ _ ?_
    exact fun form v p place hm =>
      ⟨.a, place, rfl, hm, rfl, Bool.beq_eq_decide_eq _ _, rfl, rfl⟩
  | inc | dec | not | neg | shl | shr | rol | ror | push | pull => exact .error _

open Processor in
/-- The entry for `not`. -/
theorem correct_not : Correct (.ok (.sequence Shape.complement)) (.builtin .a) none
    (not.Effect (.builtin .a) none) := by
  refine .sequence [({ operation := .eor, form := .immediate }, 0xFF)] (by decide)
    (fun p => .last (fun _ => by decide) rfl) fun _ p => ⟨.a, rfl, ?_⟩
  have h := becomes_operate (· ^^^ ·) (.literal 0xFF) p
  rw [show p.a ^^^ (Place.literal 0xFF).read p = 255 - p.a from xor_eq p.a] at h
  exact h

open Processor in
/-- The entry for `neg`. -/
theorem correct_neg : Correct (.ok (.sequence Shape.negation)) (.builtin .a) none
    (neg.Effect (.builtin .a) none) := by
  refine .sequence [({ operation := .clc, form := .implied }, 0),
      ({ operation := .eor, form := .immediate }, 0xFF),
      ({ operation := .adc, form := .immediate }, 0x01)] (by decide)
    (fun p => .next (fun _ => by decide) rfl rfl (.next (fun _ => by decide) rfl rfl
      (.last (fun _ => by decide) rfl))) fun _ p => ⟨.a, rfl, ?_⟩
  -- The carry flag is cleared before the complement is made, which does not change it.
  have h := (adds false (operate (· ^^^ ·) (.literal 0xFF) p) 1).1
  have hsum : (operate (· ^^^ ·) (.literal 0xFF) p).a + 1 + (false).toUInt8 = 0 - p.a := by
    change (p.a ^^^ 0xFF) + 1 + 0 = 0 - p.a
    rw [xor_eq]
    grind
  rw [hsum] at h
  exact h

/-- The entries of commands without an argument. -/
theorem correct_alone (kind : CommandKind) (receiver : Mode) :
    Correct (kind.shapeAlone receiver) receiver none (kind.Effect receiver none) := by
  have step {r : Place} {b : Builtin} (hr : b.register? = some r) {f : UInt8 → UInt8}
      {kind : CommandKind} (hkind : ∀ p q r, p.Becomes r (f (r.read p)) q → kind.Alters r p q)
      (v : UInt16) (p : Processor) :
      kind.Effect (.builtin b) none .implied v p (Processor.modify f r p) :=
    ⟨r, hr, hkind _ _ _ (Processor.becomes_modify f r p)⟩
  unfold shapeAlone
  split
  · exact .alone rfl (step rfl fun _ _ _ h => h)
  · exact .alone rfl (step rfl fun _ _ _ h => h)
  · exact .onMemory rfl rfl fun _ _ p place hm => ⟨place, hm, Processor.becomes_modify _ _ p⟩
  · exact .alone rfl (step rfl fun _ _ _ h => h)
  · exact .alone rfl (step rfl fun _ _ _ h => h)
  · exact .onMemory rfl rfl fun _ _ p place hm => ⟨place, hm, Processor.becomes_modify _ _ p⟩
  · exact correct_not
  · exact correct_neg
  · exact .error _
  · exact .error _
  · refine correct_shift rfl _ fun p place => ?_
    have h := Processor.becomes_shiftLeft false place p
    rw [show (false).toUInt8 = 0 from rfl, UInt8.add_zero] at h
    exact h
  · refine correct_shift rfl _ fun p place => ?_
    have h := Processor.becomes_shiftRight false place p
    rw [show 128 * (false).toUInt8 = 0 from rfl, UInt8.add_zero] at h
    exact h
  · exact correct_shift rfl _ fun p place => Processor.becomes_shiftLeft _ place p
  · exact correct_shift rfl _ fun p place => Processor.becomes_shiftRight _ place p
  · exact .alone rfl fun _ _ => ⟨.a, rfl, rfl⟩
  · exact .alone rfl fun _ _ => ⟨.status, rfl, rfl⟩
  · exact .alone rfl fun _ _ => ⟨.a, rfl, rfl, nofun⟩
  · exact .alone rfl fun _ _ => ⟨.status, rfl, rfl, fun _ => rfl⟩
  · exact .error _
  · exact .error _
  · exact .error _

/-- The entries of the encoding table have the effects of their commands. -/
theorem performs_shape {kind : CommandKind} {receiver : Mode} {argument : Option Mode}
    {shape : Shape} (h : kind.shape receiver argument = .ok shape) :
    shape.Performs receiver argument (kind.Effect receiver argument) := by
  unfold CommandKind.shape at h
  split at h
  · exact correct_with _ _ _ _ h
  · cases h
  · cases h
  · exact correct_alone _ _ _ h

end CommandKind

end

end Cartridge
