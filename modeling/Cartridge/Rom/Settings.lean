/-!
# Header settings

What the header of a program says about its rom, and the sixteen header bytes of the image.

Main results:

- Theorem `Settings.length_header`: the header has sixteen bytes.
-/

namespace Cartridge

/-- The settings of a rom. -/
structure Settings where
  /-- The number of the cartridge circuit. -/
  mapper : UInt8
  /-- The number of 16 KiB units of program rom. -/
  prg : UInt8
  /-- The number of 8 KiB units of character rom. -/
  chr : UInt8
  mirroring : Bool := false
  battery : Bool := false
  fourscreen : Bool := false
deriving DecidableEq, Repr

namespace Settings

/-- Each unit of program rom takes two banks, each unit of character rom one. -/
def bankCount (s : Settings) : Nat :=
  s.prg.toNat * 2 + s.chr.toNat

/-- The four bytes by which an image is recognized. -/
def magic : List UInt8 :=
  [0x4E, 0x45, 0x53, 0x1A]

/-- The flag byte of the header, with the low half of the mapper number. -/
def flags (s : Settings) : UInt8 :=
  s.mirroring.toUInt8 ||| s.battery.toUInt8 <<< 1 ||| s.fourscreen.toUInt8 <<< 3 |||
    (s.mapper &&& 0x0F) <<< 4

/-- The header bytes of the image. -/
def header (s : Settings) : List UInt8 :=
  magic ++ [s.prg, s.chr, s.flags, s.mapper >>> 4] ++ List.replicate 8 0

/-- The header has sixteen bytes. -/
@[simp] theorem length_header (s : Settings) : s.header.length = 16 :=
  rfl

end Settings

end Cartridge
