import Cartridge.Rom.Settings
import Cartridge.Text.Hex

/-!
# Notes

What a compilation tells about its progress to those who want to know.
-/

namespace Cartridge

/-- A step of a compilation. -/
inductive Note where
  | header (settings : Settings)
  | ramCounter (address : UInt16)
  | gathered (definitions : Nat)
  | label (name : String) (address : UInt16)
  | embedded (path : String) (size : Nat)
  | bank (index : Nat) (origin : UInt16) (reserved : Nat)
deriving DecidableEq, Repr

/-- The step in words. -/
def Note.text : Note → String
  | header settings =>
    s!"ines header: mapper {settings.mapper.toNat}, {settings.prg.toNat} prg, " ++
      s!"{settings.chr.toNat} chr"
  | ramCounter address => s!"ram counter = ${Hex.upper 4 address.toNat}"
  | gathered definitions => s!"gathered {definitions} definitions"
  | label name address => s!"label {name} = ${Hex.upper 4 address.toNat}"
  | embedded path size => s!"embedded {path} ({size} bytes)"
  | bank index origin reserved =>
    s!"bank {index}: origin ${Hex.upper 4 origin.toNat}, {reserved} bytes reserved"

end Cartridge
