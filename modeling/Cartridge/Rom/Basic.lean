import Cartridge.Rom.Bank
import Cartridge.Rom.Settings

/-!
# Roms

A rom under construction: its settings, its banks, the bank that is active, and the counter from
which variables take their ram addresses. Its image starts with the header; the banks follow in
order.

Main results:

- Theorem `Rom.size_empty`: a new rom has the number of banks that its settings ask for.
-/

namespace Cartridge

/-- A rom under construction. -/
structure Rom where
  settings : Settings
  banks : Array Bank
  /-- The index of the bank that statements go to. -/
  active : Option Nat := none
  /-- The ram address of the next variable. -/
  ram : Option Nat := none
deriving DecidableEq, Repr

namespace Rom

variable {α : Type}

/-- A rom in which nothing is placed yet. -/
def empty (settings : Settings) : Rom :=
  { settings, banks := Array.replicate settings.bankCount {} }

/-- The bank that statements go to. -/
def activeBank? (rom : Rom) : Option Bank := do
  rom.banks[← rom.active]?

/-- Rewinds every bank and leaves none active. -/
def rewind (rom : Rom) : Rom :=
  { rom with banks := rom.banks.map Bank.rewind, active := none }

/-- A run over the bank with the given index. -/
def onBank (index : Nat) (act : Run Bank α) : Run Rom α :=
  Run.focus (fun rom => rom.banks.getD index {})
    (fun bank rom => { rom with banks := rom.banks.setIfInBounds index bank }) act

/-- Makes a bank the active one. -/
def switchBank (index : UInt16) (pos : Position) : Run Rom Unit := do
  let rom ← Run.read
  if index.toNat ≥ rom.banks.size then
    Run.fatal (.bankIndex index rom.banks.size) pos
  else
    Run.update fun rom => { rom with active := some index.toNat }

/-- Moves the ram counter. -/
def moveRam (address : UInt16) (rom : Rom) : Rom :=
  { rom with ram := some address.toNat }

/-- Reserves space at the ram counter and moves past it. The sum is taken in 32 bits and wraps
around, as in a release build, so only its last 32 bits are compared with the size of the address
space. -/
def expandRam (amount : Nat) (pos : Position) : Run Rom Unit := do
  let rom ← Run.read
  match rom.ram with
  | none => Run.fatal .noRamCounter pos
  | some counter =>
    let stop := (counter + amount) % 0x100000000
    if stop > addressSpace then
      Run.fatal (.ramOverflow stop) pos
    else
      Run.update fun rom => { rom with ram := some stop }

/-- The image: the header, then every bank in order. -/
def toBytes (rom : Rom) : List UInt8 :=
  rom.settings.header ++ rom.banks.toList.flatMap fun bank => bank.data.toList

/-- A new rom has the number of banks that its settings ask for. -/
@[simp] theorem size_empty (settings : Settings) :
    (empty settings).banks.size = settings.bankCount := by
  simp [empty]

end Rom

end Cartridge
