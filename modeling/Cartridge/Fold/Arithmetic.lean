import Cartridge.Diagnostic.Error

/-!
# Arithmetic of constant expressions

Operations on 16-bit values have their exact mathematical result, or none if that result is not a
16-bit value.

Main results:

- Theorems `fitWord_of_lt` and `fitWord_of_le`: a result is kept exactly when it is a word.
-/

namespace Cartridge

/-- The number as a word, unless it is too large: then the named operation overflows. -/
def fitWord (operation : String) (n : Nat) : Except Error UInt16 :=
  if n < 0x10000 then .ok (.ofNat n) else .error (.overflow operation)

/-- The result of an operation, or the reason why it has none. A left shift by more than 16 places
overflows whatever is shifted; a right shift by any number of places is fine. -/
def BinaryOp.apply (op : BinaryOp) (left right : UInt16) : Except Error UInt16 :=
  let l := left.toNat
  let r := right.toNat
  match op with
  | mul => fitWord "multiplication" (l * r)
  | div => if r = 0 then .error .divisionByZero else .ok (.ofNat (l / r))
  | mod => if r = 0 then .error .moduloByZero else .ok (.ofNat (l % r))
  | add => fitWord "addition" (l + r)
  | sub => if l < r then .error .underflow else .ok (.ofNat (l - r))
  | shl =>
    if r > 16 then .error (.overflow "logical shift left")
    else fitWord "logical shift left" (l <<< r)
  | shr => .ok (.ofNat (l >>> r))
  | and => .ok (left &&& right)
  | xor => .ok (left ^^^ right)
  | or => .ok (left ||| right)

/-- A number that fits is the word itself. -/
theorem fitWord_of_lt {operation : String} {n : Nat} (h : n < 0x10000) :
    fitWord operation n = .ok (.ofNat n) := by
  unfold fitWord
  rw [if_pos h]

/-- A number that does not fit overflows. -/
theorem fitWord_of_le {operation : String} {n : Nat} (h : 0x10000 ≤ n) :
    fitWord operation n = .error (.overflow operation) := by
  unfold fitWord
  rw [if_neg (Nat.not_lt.2 h)]

end Cartridge
