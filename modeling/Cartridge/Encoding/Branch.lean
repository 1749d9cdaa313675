import Cartridge.Cpu.Opcode
import Cartridge.Diagnostic.Error

/-!
# The encoding of branches

A branch takes one byte if it goes nowhere in particular, two if it depends on a flag, and three
if it goes to an address.

Main results:

- Theorem `Branch.exists_opcode?_of_size?`: a branch that has a size has an opcode, and the size is
  that of the opcode with its operand.
-/

namespace Cartridge

/-- The operation of a branch on a flag. -/
def Builtin.branch? (flag : Builtin) (set : Bool) : Option Opcode :=
  match flag, set with
  | .carry, true => some { operation := .bcs, form := .relative }
  | .carry, false => some { operation := .bcc, form := .relative }
  | .zero, true => some { operation := .beq, form := .relative }
  | .zero, false => some { operation := .bne, form := .relative }
  | .negative, true => some { operation := .bmi, form := .relative }
  | .negative, false => some { operation := .bpl, form := .relative }
  | .overflow, true => some { operation := .bvs, form := .relative }
  | .overflow, false => some { operation := .bvc, form := .relative }
  | _, _ => none

/-- The opcode of a branch on a condition. -/
def Condition.opcode? (c : Condition) : Option Opcode := do
  (← c.flag.mode.builtin?).branch? c.set

namespace Branch

/-- Whether the branch goes through an address in memory. -/
def isIndirect (b : Branch) : Bool :=
  b.destination.any (·.mode = .indirectLabel)

/-- The number of bytes of a branch, or what is wrong with it and where. -/
def size? (b : Branch) : Except (Error × Position) Nat :=
  match b.kind with
  | .nop | .return | .resume => .ok 1
  | .call =>
    if !b.destination.any (·.mode.isLabel) then .error (misdirected, b.pos)
    else if b.isIndirect then .error (.indirectCall, b.pos)
    else .ok 3
  | .goto =>
    if !b.destination.any (·.mode.isLabel) then .error (misdirected, b.pos)
    else match b.condition with
      | none => .ok 3
      | some c =>
        if c.opcode?.isNone then .error (.branchFlag c.flag.text, c.flag.pos)
        else if b.isIndirect then .error (.conditionalIndirect, b.pos)
        else .ok 2
where
  misdirected : Error :=
    .branchDestination b.kind.name (b.destination.elim "" Operand.text)

/-- The opcode of a branch. -/
def opcode? (b : Branch) : Option Opcode :=
  match b.kind, b.condition with
  | .nop, _ => some { operation := .nop, form := .implied }
  | .return, _ => some { operation := .rts, form := .implied }
  | .resume, _ => some { operation := .rti, form := .implied }
  | .call, _ => some { operation := .jsr, form := .target }
  | .goto, none =>
    if b.isIndirect then some { operation := .jmp, form := .pointer }
    else some { operation := .jmp, form := .target }
  | .goto, some c => c.opcode?

end Branch

/-- A branch on a flag has a relative operand. -/
theorem Builtin.form_of_branch? {flag : Builtin} {set : Bool} {o : Opcode}
    (h : flag.branch? set = some o) : o.form = .relative := by
  cases flag <;> cases set <;> simp [Builtin.branch?] at h <;> subst h <;> rfl

/-- A branch on a condition has a relative operand. -/
theorem Condition.form_of_opcode? {c : Condition} {o : Opcode} (h : c.opcode? = some o) :
    o.form = .relative := by
  obtain ⟨flag, -, hflag⟩ := Option.bind_eq_some_iff.1 h
  exact Builtin.form_of_branch? hflag

/-- A branch that has a size has an opcode, and the size is that of the opcode with its operand. -/
theorem Branch.exists_opcode?_of_size? {b : Branch} {n : Nat} (h : b.size? = .ok n) :
    ∃ o, b.opcode? = some o ∧ n = 1 + o.form.operandSize := by
  unfold Branch.size? at h
  unfold Branch.opcode?
  split at h
  case h_4 hk =>
    rw [hk]
    split at h
    · cases h
    · split at h <;> cases h
      exact ⟨_, rfl, rfl⟩
  case h_5 hk =>
    rw [hk]
    split at h
    · cases h
    · split at h
      case h_1 hc =>
        cases h
        rw [hc]
        by_cases hi : b.isIndirect = true
        · simp [hi, Form.operandSize]
        · simp [hi, Form.operandSize]
      case h_2 c hc =>
        rw [hc]
        cases ho : c.opcode? with
        | none => simp [ho] at h
        | some o =>
          simp only [ho, Option.isNone_some, Bool.false_eq_true, ↓reduceIte] at h
          split at h <;> cases h
          exact ⟨o, ho, by rw [Condition.form_of_opcode? ho]; rfl⟩
  all_goals
    rename_i hk
    rw [hk]
    cases h
    exact ⟨_, rfl, rfl⟩

end Cartridge
