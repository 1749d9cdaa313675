import Cartridge.Diagnostic.Run

/-!
# Banks

A bank is a part of the rom, 8 KiB long. Its origin is the address of its first byte. It has a
cursor, and counts the bytes that are reserved in it. Space is reserved first, by moving forward;
bytes are written afterwards, within the reserved space.

Addresses are computed in 32 bits and amounts are 64-bit numbers, so sums are taken modulo the
width of the register that holds them.

Main results:

- Theorems `Bank.getElem_overwrite_of_outside` and `Bank.getElem_overwrite_inside`: what a bank
  holds after some of its bytes were replaced.
- Theorems `Bank.origin_store`, `Bank.reserved_store`, `Bank.position_store`: writing bytes moves
  the cursor past them and leaves the reservation alone.
-/

namespace Cartridge

/-- The number of bytes of a bank. -/
def bankSize : Nat := 8192

/-- The value of bytes that nothing was written to. -/
def padding : UInt8 := 0xFF

/-- The number of addresses. -/
def addressSpace : Nat := 65536

/-- The low and the high byte of a word, in this order. -/
def littleEndian (w : UInt16) : List UInt8 :=
  [w.toUInt8, (w >>> 8).toUInt8]

/-- One window of the rom. -/
structure Bank where
  data : Vector UInt8 bankSize := Vector.replicate bankSize padding
  /-- The address of the first byte, once it is known. -/
  origin : Option UInt16 := none
  /-- The cursor, as an offset from the first byte. -/
  position : Nat := 0
  /-- How many bytes have been reserved. -/
  reserved : Nat := 0
deriving DecidableEq, Repr

namespace Bank

/-- The address at which the cursor stands, if there is an origin. -/
def programCounter? (b : Bank) : Option Nat :=
  b.origin.map fun origin => (origin.toNat + b.position) % 0x100000000

/-- Moves the cursor back to the start. The reservation is kept. -/
def rewind (b : Bank) : Bank :=
  { b with position := 0 }

/-! ## Reserving -/

/-- Reserves space at the cursor and moves past it. As in a release build sums wrap around, that of
the address in 32 bits and those of the counters in 64 bits. -/
def expand (amount : Nat) (pos : Position) : Run Bank Unit := do
  let b ← Run.read
  match b.origin with
  | none => Run.fatal .noOrigin pos
  | some origin =>
    let stop := (origin.toNat + b.position + amount) % 0x100000000
    if stop > addressSpace then
      Run.fatal (.addressSpace stop) pos
    else
      let reserved := (b.reserved + amount) % 0x10000000000000000
      let position := (b.position + amount) % 0x10000000000000000
      Run.update fun b => { b with reserved, position }
      if reserved > bankSize then
        Run.fatal (.bankOverflow bankSize (reserved - bankSize)) pos
      else
        pure ()

/-- Goes to an address. In a bank without an origin this becomes the origin; otherwise it must not
lie behind the cursor, and what is skipped is reserved. -/
def org (address : UInt16) (pos : Position) : Run Bank Unit := do
  let b ← Run.read
  match b.programCounter? with
  | none => Run.update fun b => { b with origin := some address }
  | some current =>
    if address.toNat < current then
      Run.fatal (.moveBackwards current address.toNat) pos
    else
      expand (address.toNat - current) pos

/-! ## Writing -/

/-- Moves the cursor to an address inside the reserved space. -/
def seek (address : UInt16) (pos : Position) : Run Bank Unit := do
  let b ← Run.read
  match b.origin with
  | none => Run.fatal .noOrigin pos
  | some origin =>
    if address < origin ∨ address.toNat - origin.toNat > b.reserved then
      Run.fatal .seekOutside pos
    else
      Run.update fun b => { b with position := address.toNat - origin.toNat }

/-- Bytes with some of them replaced from an offset on. What would lie past the end is dropped; as
long as bytes are written into the reserved space of a bank that is not overfull there is no such
byte. -/
def overwrite (data : Vector UInt8 bankSize) (offset : Nat) : List UInt8 → Vector UInt8 bankSize
  | [] => data
  | byte :: bytes => overwrite (data.setIfInBounds offset byte) (offset + 1) bytes

/-- Bytes outside of the replaced ones stay as they are. -/
theorem getElem_overwrite_of_outside {data : Vector UInt8 bankSize} {offset i : Nat}
    {bytes : List UInt8} (h : i < bankSize)
    (outside : i < offset ∨ offset + bytes.length ≤ i) :
    (overwrite data offset bytes)[i] = data[i] := by
  induction bytes generalizing data offset with
  | nil => rfl
  | cons byte bytes ih =>
    rw [List.length_cons] at outside
    rw [overwrite, ih (by omega), Vector.getElem_setIfInBounds_ne h (by omega)]

/-- The replaced bytes are the given ones. -/
theorem getElem_overwrite_inside {data : Vector UInt8 bankSize} {offset i : Nat}
    {bytes : List UInt8} (h : offset + i < bankSize) (hi : i < bytes.length) :
    (overwrite data offset bytes)[offset + i] = bytes[i] := by
  induction bytes generalizing data offset i with
  | nil => cases hi
  | cons byte bytes ih =>
    rw [List.length_cons] at hi
    cases i with
    | zero =>
      rw [overwrite, getElem_overwrite_of_outside h (by omega)]
      simp
    | succ i =>
      have := @ih (data.setIfInBounds offset byte) (offset + 1) i (by omega) (by omega)
      simpa [overwrite, Nat.add_assoc, Nat.add_comm 1 i] using this

/-- Puts bytes at the cursor and moves past them. -/
def store (bytes : List UInt8) (b : Bank) : Bank :=
  { b with
    data := overwrite b.data b.position bytes
    position := b.position + bytes.length }

/-- Checks that a number of bytes fits between the cursor and the end of the reserved space. The sum
is exact: it would be too large for 64 bits only with a cursor far behind the end of the bank. -/
def ensure (amount : Nat) (pos : Position) : Run Bank Unit := do
  let b ← Run.read
  if b.position + amount > b.reserved then
    Run.fatal .writeOutside pos
  else
    pure ()

/-- Writes bytes. -/
def writeBytes (bytes : List UInt8) (pos : Position) : Run Bank Unit := do
  ensure bytes.length pos
  Run.update (store bytes)

/-- Writes a word, its low byte first. -/
def writeWord (value : UInt16) (pos : Position) : Run Bank Unit :=
  writeBytes (littleEndian value) pos

/-- Reports a value that does not fit into a byte. -/
def checkByte (value : UInt16) (pos : Position) : Run Bank Unit :=
  if value > 0xFF then Run.error (.byteRange value) pos else pure ()

/-- Writes a value as one byte. A value that does not fit is reported, and its low byte is
written. -/
def writeByte (value : UInt16) (pos : Position) : Run Bank Unit := do
  ensure 1 pos
  checkByte value pos
  Run.update (store [value.toUInt8])

@[simp] theorem origin_store (bytes : List UInt8) (b : Bank) : (b.store bytes).origin = b.origin :=
  rfl

@[simp] theorem reserved_store (bytes : List UInt8) (b : Bank) :
    (b.store bytes).reserved = b.reserved :=
  rfl

@[simp] theorem position_store (bytes : List UInt8) (b : Bank) :
    (b.store bytes).position = b.position + bytes.length :=
  rfl

end Bank

end Cartridge
