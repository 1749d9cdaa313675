import Cartridge.Compile.Emit
import Cartridge.Proofs.Encoding
import Cartridge.Proofs.Fold

/-!
# Code

What a statement stands for in the rom. The number of bytes is known beforehand; the bytes
themselves depend on the values of expressions, and on the address at which the code stands. There
are none as long as a value is not known, or if it does not fit.

Main definitions:

- `Code`: code of a known size.
- `Selection.code`, `Branch.code`, `Data.code`: the code of a command, a branch and a data
  statement.

Main results:

- Theorems `Selection.size_code`, `Branch.size_code` and `Data.size_code`: the code has the size for
  which space is reserved.
-/

namespace Cartridge

/-- Code of a known size. Its bytes depend on the values of expressions and on its address. -/
structure Code where
  size : Nat
  /-- The locations of the expressions on whose values the bytes depend. -/
  reads : List Location
  /-- The bytes, given what is known of expressions and the address of the first byte. -/
  bytes? : Memo → Nat → Option (List UInt8)
  length_eq : ∀ {memo address bytes}, bytes? memo address = some bytes → bytes.length = size
  /-- Bytes that are known stay the same when more becomes known. -/
  mono : ∀ {m n address bytes}, m.Le n → bytes? m address = some bytes →
    bytes? n address = some bytes
  /-- There are bytes only if the values of the expressions are known. -/
  known : ∀ {memo address bytes}, bytes? memo address = some bytes →
    ∀ m ∈ reads, ∃ v, memo.value? (.tree m) = some v

namespace Code

/-- Given bytes. -/
def fixed (bytes : List UInt8) : Code where
  size := bytes.length
  reads := []
  bytes? _ _ := some bytes
  length_eq h := by
    cases h
    rfl
  mono _ h := h
  known _ _ hm := absurd hm List.not_mem_nil

/-- Code that has no bytes, whatever becomes known. -/
def never (size : Nat) : Code where
  size
  reads := []
  bytes? _ _ := none
  length_eq h := by cases h
  mono _ h := h
  known _ _ hm := absurd hm List.not_mem_nil

/-- One piece of code after another. -/
def append (c d : Code) : Code where
  size := c.size + d.size
  reads := c.reads ++ d.reads
  bytes? memo address :=
    (c.bytes? memo address).bind fun first =>
      (d.bytes? memo (address + c.size)).map fun second => first ++ second
  length_eq h := by
    obtain ⟨first, hfirst, hrest⟩ := Option.bind_eq_some_iff.1 h
    obtain ⟨second, hsecond, rfl⟩ := Option.map_eq_some_iff.1 hrest
    rw [List.length_append, c.length_eq hfirst, d.length_eq hsecond]
  mono hle h := by
    obtain ⟨first, hfirst, hrest⟩ := Option.bind_eq_some_iff.1 h
    obtain ⟨second, hsecond, rfl⟩ := Option.map_eq_some_iff.1 hrest
    rw [c.mono hle hfirst, Option.bind_some, d.mono hle hsecond, Option.map_some]
  known h m hm := by
    obtain ⟨first, hfirst, hrest⟩ := Option.bind_eq_some_iff.1 h
    obtain ⟨second, hsecond, -⟩ := Option.map_eq_some_iff.1 hrest
    rcases List.mem_append.1 hm with hm | hm
    · exact c.known hfirst m hm
    · exact d.known hsecond m hm

/-- Code that depends on the value of an expression of the tree. -/
def reading (location : Location) (size : Nat) (c : UInt16 → Code)
    (size_eq : ∀ v, (c v).size = size) : Code where
  size
  reads := [location]
  bytes? memo address := (memo.value? (.tree location)).bind fun v => (c v).bytes? memo address
  length_eq h := by
    obtain ⟨v, -, hv⟩ := Option.bind_eq_some_iff.1 h
    rw [(c v).length_eq hv, size_eq]
  mono hle h := by
    obtain ⟨v, hvalue, hv⟩ := Option.bind_eq_some_iff.1 h
    rw [hle.value? hvalue, Option.bind_some, (c v).mono hle hv]
  known h m hm := by
    obtain ⟨v, hvalue, -⟩ := Option.bind_eq_some_iff.1 h
    cases List.mem_singleton.1 hm
    exact ⟨v, hvalue⟩

@[simp] theorem size_fixed (bytes : List UInt8) : (fixed bytes).size = bytes.length :=
  rfl

@[simp] theorem size_never (n : Nat) : (never n).size = n :=
  rfl

@[simp] theorem size_append (c d : Code) : (c.append d).size = c.size + d.size :=
  rfl

@[simp] theorem size_reading (location : Location) (n : Nat) (c : UInt16 → Code)
    (h : ∀ v, (c v).size = n) : (reading location n c h).size = n :=
  rfl

/-- The second piece of code stands right after the first one, at an address of its own. -/
theorem bytes?_append {c d : Code} {memo : Memo} {address : Nat} {first second : List UInt8}
    (hc : c.bytes? memo address = some first)
    (hd : d.bytes? memo (address + c.size) = some second) :
    (c.append d).bytes? memo address = some (first ++ second) := by
  simp [append, hc, hd]

/-- The bytes of one piece of code after another. -/
theorem exists_of_bytes?_append {c d : Code} {memo : Memo} {address : Nat} {bytes : List UInt8}
    (h : (c.append d).bytes? memo address = some bytes) :
    ∃ first second, c.bytes? memo address = some first ∧
      d.bytes? memo (address + c.size) = some second ∧ bytes = first ++ second := by
  obtain ⟨first, hfirst, hrest⟩ := Option.bind_eq_some_iff.1 h
  obtain ⟨second, hsecond, rfl⟩ := Option.map_eq_some_iff.1 hrest
  exact ⟨first, second, hfirst, hsecond, rfl⟩

/-- Code that reads an expression has the bytes for the value that is remembered. -/
theorem bytes?_reading {location : Location} {n : Nat} {c : UInt16 → Code}
    {h : ∀ v, (c v).size = n} {memo : Memo} {address : Nat} {v : UInt16}
    (hv : memo.value? (.tree location) = some v) :
    (reading location n c h).bytes? memo address = (c v).bytes? memo address := by
  simp [reading, hv]

/-! ## Units of data -/

/-- One unit of data. A value that is too large for it has no bytes. -/
def unit (width : Width) (value : UInt16) : Code where
  size := width.bytes
  reads := []
  bytes? _ _ :=
    match width with
    | .byte => if value ≤ 0xFF then some [value.toUInt8] else none
    | .word => some (littleEndian value)
  length_eq h := by
    cases width with
    | byte =>
      obtain ⟨-, hb⟩ := Option.ite_none_right_eq_some.1 h
      cases hb
      rfl
    | word =>
      cases h
      rfl
  mono _ h := h
  known _ _ hm := absurd hm List.not_mem_nil

@[simp] theorem size_unit (width : Width) (value : UInt16) :
    (unit width value).size = width.bytes :=
  rfl

/-- The value of an expression of the tree, as a unit of data. -/
def operand (width : Width) (location : Location) : Code :=
  reading location width.bytes (unit width) fun _ => rfl

@[simp] theorem size_operand (width : Width) (location : Location) :
    (operand width location).size = width.bytes :=
  rfl

/-- Bytes, each as a unit of data. -/
def text (width : Width) : List UInt8 → Code
  | [] => fixed []
  | b :: rest => (unit width b.toUInt16).append (text width rest)

@[simp] theorem size_text (width : Width) (bytes : List UInt8) :
    (text width bytes).size = bytes.length * width.bytes := by
  induction bytes with
  | nil => simp [text]
  | cons b rest ih =>
    rw [text, size_append, size_unit, ih, List.length_cons, Nat.succ_mul, Nat.add_comm]

/-- The units of a string do not depend on any expression. -/
theorem reads_text (width : Width) (bytes : List UInt8) : (text width bytes).reads = [] := by
  induction bytes with
  | nil => rfl
  | cons b rest ih => exact ih

/-- The distance to a target, as a signed byte. A target that is too far away has no bytes. -/
def displacement (target : UInt16) : Code where
  size := 1
  reads := []
  bytes? _ address :=
    let offset := Branch.displacement target address
    if offset < -128 ∨ 127 < offset then none
    else some [(UInt16.ofNat (offset % 256).toNat).toUInt8]
  length_eq h := by
    obtain ⟨-, hb⟩ := Option.ite_none_left_eq_some.1 h
    cases hb
    rfl
  mono _ h := h
  known _ _ hm := absurd hm List.not_mem_nil

@[simp] theorem size_displacement (target : UInt16) : (displacement target).size = 1 :=
  rfl

end Code

/-! ## Statements -/

namespace Selection

/-- The code of the operand of an instruction. -/
def operandCode (opcode : Opcode) : Option Command.Located → Code
  | some ({ expr := some _, .. }, location) =>
    .operand (if opcode.form.operandSize = 1 then .byte else .word) location
  | _ => .never opcode.form.operandSize

/-- The code of a command in the encoding that was selected. -/
def code (s : Selection) (receiver : Command.Located) (argument : Option Command.Located) : Code :=
  match s.encoding with
  | .sequence instructions => .fixed (instructions.flatMap Instruction.bytes)
  | .instruction lead opcode carrier =>
    (Code.fixed (lead.toList.map Opcode.byte)).append <| (Code.fixed [opcode.byte]).append <|
      match carrier with
      | none => .fixed []
      | some side => operandCode opcode (side.pick s.swapped receiver argument)

/-- The operand has the size that the form of its opcode asks for, even where its bytes are not
known. -/
theorem size_operandCode {opcode : Opcode} (h : opcode.TakesOperand)
    (operand : Option Command.Located) :
    (operandCode opcode operand).size = opcode.form.operandSize := by
  unfold operandCode
  split
  · rcases h with h | h <;> simp [h, Width.bytes]
  · rfl

/-- The code of a command has the size for which space is reserved. -/
theorem size_code {s : Selection} (h : s.encoding.Sized) (receiver : Command.Located)
    (argument : Option Command.Located) : (s.code receiver argument).size = s.size := by
  unfold code size
  cases he : s.encoding with
  | sequence instructions => rfl
  | instruction lead opcode carrier =>
    rw [he] at h
    cases carrier with
    | none =>
      have ho : opcode.form.operandSize = 0 := h
      simp [ho]
    | some side =>
      simp only [Code.size_append, Code.size_fixed, List.length_map, Encoding.size_instruction,
        size_operandCode h, List.length_singleton, Nat.add_assoc]

/-- The operand that an instruction reads is an expression. -/
theorem expr_of_mem_operandCode {opcode : Opcode} {operand : Option Command.Located} {m : Location}
    (h : m ∈ (operandCode opcode operand).reads) : ∃ o ∈ operand, ∃ e ∈ o.1.expr, m = o.2 := by
  unfold operandCode at h
  split at h
  · exact ⟨_, rfl, _, rfl, List.mem_singleton.1 h⟩
  · exact absurd h List.not_mem_nil

/-- A command reads an operand that the instruction carries. -/
theorem expr_of_mem_code {s : Selection} {receiver : Command.Located}
    {argument : Option Command.Located} {m : Location} (h : m ∈ (s.code receiver argument).reads) :
    ∃ side : Side, ∃ o ∈ side.pick s.swapped receiver argument, ∃ e ∈ o.1.expr, m = o.2 := by
  unfold code at h
  cases he : s.encoding with
  | sequence instructions =>
    rw [he] at h
    exact absurd h List.not_mem_nil
  | instruction lead opcode carrier =>
    rw [he] at h
    cases carrier with
    | none => exact absurd h List.not_mem_nil
    | some side => exact ⟨side, expr_of_mem_operandCode h⟩

end Selection

namespace Branch

/-- The code of a branch of the given size. -/
def code (location : Location) (size : Nat) (b : Branch) : Code :=
  match b.opcode? with
  | none => .never size
  | some opcode =>
    (Code.fixed [opcode.byte]).append <|
      if size = 1 then .fixed []
      else
        match b.destination.bind Operand.expr with
        | none => .never (size - 1)
        | some _ =>
          if size = 3 then .operand .word (location.child 0)
          else .reading (location.child 0) 1 .displacement fun _ => rfl

/-- A branch has between one and three bytes. -/
theorem size_of_size? {b : Branch} {n : Nat} (h : b.size? = .ok n) : n = 1 ∨ n = 2 ∨ n = 3 := by
  obtain ⟨o, -, rfl⟩ := exists_opcode?_of_size? h
  cases o.form <;> decide

/-- The code of a branch has the size for which space is reserved. -/
theorem size_code {b : Branch} {n : Nat} (h : b.size? = .ok n) (location : Location) :
    (b.code location n).size = n := by
  unfold code
  split
  · rfl
  · rcases size_of_size? h with rfl | rfl | rfl <;> cases b.destination.bind Operand.expr <;> rfl

/-- A branch reads its destination. -/
theorem expr_of_mem_code {b : Branch} {location m : Location} {n : Nat}
    (h : m ∈ (b.code location n).reads) :
    ∃ e ∈ b.destination.bind Operand.expr, m = location.child 0 := by
  unfold code at h
  split at h
  · exact absurd h List.not_mem_nil
  · split at h
    · exact absurd h List.not_mem_nil
    · split at h
      · exact absurd h List.not_mem_nil
      · rename_i e he
        refine ⟨e, he, ?_⟩
        split at h <;> exact List.mem_singleton.1 h

end Branch

namespace DataItem

/-- The code of a data item. -/
def code (location : Location) (width : Width) : DataItem → Code
  | value _ => .operand width location
  | string text _ => .text width text.toUTF8.data.toList

/-- The code of data items from the one with the given index on. -/
def codeAll (location : Location) (width : Width) : Nat → List DataItem → Code
  | _, [] => .fixed []
  | index, item :: rest =>
    (item.code (location.child index) width).append (codeAll location width (index + 1) rest)

/-- A data item takes as many bytes as its units have. -/
theorem size_code (location : Location) (width : Width) (item : DataItem) :
    (item.code location width).size = item.units * width.bytes := by
  cases item with
  | value e => simp [code, units]
  | string text pos =>
    rw [code, Code.size_text, Array.length_toList, ByteArray.size_data]
    rfl

/-- The size of data items is that of all their units. -/
theorem size_codeAll (location : Location) (width : Width) (index : Nat) (items : List DataItem) :
    (codeAll location width index items).size = unitsOf items * width.bytes := by
  induction items generalizing index with
  | nil => simp [codeAll, unitsOf]
  | cons item rest ih =>
    rw [codeAll, Code.size_append, size_code, ih, unitsOf, Nat.add_mul]

/-- Data reads its values. -/
theorem expr_of_mem_codeAll {location m : Location} {width : Width} {index : Nat}
    {items : List DataItem} (h : m ∈ (codeAll location width index items).reads) :
    ∃ k e, items[k]? = some (.value e) ∧ m = location.child (index + k) := by
  induction items generalizing index with
  | nil => exact absurd h List.not_mem_nil
  | cons item rest ih =>
    rcases List.mem_append.1 h with h | h
    · cases item with
      | value e => exact ⟨0, e, rfl, List.mem_singleton.1 h⟩
      | string text pos =>
        rw [code, Code.reads_text] at h
        exact absurd h List.not_mem_nil
    · obtain ⟨k, e, hk, rfl⟩ := ih h
      exact ⟨k + 1, e, hk, by rw [Nat.add_right_comm index 1 k, Nat.add_assoc]⟩

end DataItem

/-- The code of a data statement. -/
def Data.code (location : Location) (d : Data) : Code :=
  DataItem.codeAll location d.width 0 d.items

/-- The code of a data statement has the size for which space is reserved. -/
theorem Data.size_code (location : Location) (d : Data) : (d.code location).size = d.size :=
  DataItem.size_codeAll location d.width 0 d.items

end Cartridge
