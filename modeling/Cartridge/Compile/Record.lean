import Cartridge.Source.Location

/-!
# Records by location

The passes over a tree leave the tree as it is. What one pass learns about a statement, and a later
one needs, is recorded under the location of the statement.

Main results:

- Theorems `Record.set_self` and `Record.set_of_ne`: what a record says after an entry was made.
-/

namespace Cartridge

/-- What is recorded at every location. -/
structure Record (α : Type) where
  at? : Location → Option α

namespace Record

variable {α : Type}

/-- Nothing is recorded yet. -/
def empty : Record α where
  at? _ := none

/-- Makes the entry of a location, or removes it. -/
def set (record : Record α) (location : Location) (entry : Option α) : Record α where
  at? other := if other = location then entry else record.at? other

@[simp] theorem at?_empty (location : Location) : (empty : Record α).at? location = none :=
  rfl

@[simp] theorem set_self (record : Record α) (location : Location) (entry : Option α) :
    (record.set location entry).at? location = entry := by
  simp [set]

theorem set_of_ne {record : Record α} {location other : Location} {entry : Option α}
    (h : other ≠ location) : (record.set location entry).at? other = record.at? other := by
  simp [set, h]

end Record

end Cartridge
