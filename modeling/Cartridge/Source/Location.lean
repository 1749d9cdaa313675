/-!
# Locations

A location says where in a tree a statement, or one of the expressions of a statement, stands: the
indices on the way down to it, with the last one first, and their number. The children of a
location are the statements of a block, or the operands and expressions of any other statement.
Locations are mostly compared with others that differ from them, which their depths and last
indices tell at once.

Main results:

- Theorem `Location.child_inj`: different children have different locations.
-/

namespace Cartridge

/-- A place in a tree. -/
structure Location where
  depth : Nat := 0
  indices : List Nat := []
deriving DecidableEq, Repr

namespace Location

/-- The location of the outermost block. -/
def top : Location := {}

/-- The location of a child. -/
def child (location : Location) (index : Nat) : Location where
  depth := location.depth + 1
  indices := index :: location.indices

/-- Different children have different locations. -/
theorem child_inj {l m : Location} {i j : Nat} :
    l.child i = m.child j ↔ i = j ∧ l = m := by
  cases l
  cases m
  simp only [child, mk.injEq, Nat.add_right_cancel_iff, List.cons.injEq]
  constructor
  · rintro ⟨hd, hi, hl⟩
    exact ⟨hi, hd, hl⟩
  · rintro ⟨hi, hd, hl⟩
    exact ⟨hd, hi, hl⟩

end Location

end Cartridge
