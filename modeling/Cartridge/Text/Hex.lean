/-!
# Hexadecimal numbers

Numbers in base 16 with a least width, filled up with zeros on the left.

Main results:

- Theorem `Hex.bytesOf?_ofByte`: the two digits of a byte read back as the byte.
-/

namespace Cartridge.Hex

/-- Fills a text up with zeros on the left. -/
def pad (width : Nat) (digits : List Char) : List Char :=
  List.replicate (width - digits.length) '0' ++ digits

/-- The lower-case digits of a number, at least `width` of them. -/
def lower (width n : Nat) : String :=
  String.ofList (pad width (Nat.toDigits 16 n))

/-- The upper-case digits of a number, at least `width` of them. -/
def upper (width n : Nat) : String :=
  String.ofList (pad width ((Nat.toDigits 16 n).map Char.toUpper))

/-! ## Bytes -/

/-- The two lower-case digits of a byte. -/
def ofByte (b : UInt8) : List Char :=
  [Nat.digitChar (b.toNat / 16), Nat.digitChar (b.toNat % 16)]

/-- The lower-case digits of a run of bytes, two for each. -/
def ofBytes (bytes : List UInt8) : String :=
  String.ofList (bytes.flatMap ofByte)

/-- The value of a lower-case digit. -/
def digit? (c : Char) : Option Nat :=
  if '0' ≤ c ∧ c ≤ '9' then some (c.toNat - '0'.toNat)
  else if 'a' ≤ c ∧ c ≤ 'f' then some (c.toNat - 'a'.toNat + 10)
  else none

/-- The byte that two digits stand for. -/
def byte? (high low : Char) : Option UInt8 := do
  return .ofNat (16 * (← digit? high) + (← digit? low))

/-- The bytes that a list of digits stands for, two for each byte. -/
def bytesOf? : List Char → Option (List UInt8)
  | [] => some []
  | [_] => none
  | high :: low :: rest => do
    return (← byte? high low) :: (← bytesOf? rest)

/-- The bytes that a text of lower-case digits stands for. -/
def bytes? (text : String) : Option (List UInt8) :=
  bytesOf? text.toList

/-- The two digits of a byte read back as the byte. -/
theorem bytesOf?_ofByte (b : UInt8) (rest : List Char) :
    bytesOf? (ofByte b ++ rest) = (bytesOf? rest).map (b :: ·) := by
  have key : ∀ n : Fin 256, byte? (Nat.digitChar (n.val / 16)) (Nat.digitChar (n.val % 16)) =
      some (UInt8.ofNat n.val) := by decide +kernel
  have hb := key ⟨b.toNat, b.toNat_lt⟩
  simp only [ofByte, List.cons_append, List.nil_append, bytesOf?, hb]
  cases bytesOf? rest <;> simp

end Cartridge.Hex
