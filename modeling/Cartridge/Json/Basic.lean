/-!
# JSON values

The value type in which syntax trees are exchanged, with the partial views that a reader needs.
Objects keep their fields in order. Numbers are integers; a number with a fraction or an exponent
is only kept as text, since no tree has a place for one.

Main results:

- Theorem `Json.sizeOf_field?_lt`: a field is smaller than its object, which is why a reader may
  follow fields recursively.
-/

namespace Cartridge

/-- A JSON value. -/
inductive Json where
  | null
  | bool (value : Bool)
  | integer (value : Int)
  /-- A number that is not written as an integer. -/
  | real (text : String)
  | string (text : String)
  | array (items : List Json)
  | object (fields : List (String × Json))
deriving Repr, Inhabited

namespace Json

/-! ## Views -/

/-- The value of a field; `none` if the field is absent or the value is not an object. -/
def field? (key : String) : Json → Option Json
  | object fields => fields.lookup key
  | _ => none

/-- The value of a field, where an absent field reads as `null`. -/
def field (key : String) (j : Json) : Json :=
  (j.field? key).getD null

/-- A truth value. -/
def bool? : Json → Option Bool
  | bool value => some value
  | _ => none

/-- A text. -/
def string? : Json → Option String
  | string text => some text
  | _ => none

/-- The items of an array. -/
def array? : Json → Option (List Json)
  | array items => some items
  | _ => none

/-- The fields of an object. -/
def object? : Json → Option (List (String × Json))
  | object fields => some fields
  | _ => none

/-- An integer from `low` up to, but not including, `high`. -/
def integer? (low high : Int) : Json → Option Int
  | integer value => if low ≤ value ∧ value < high then some value else none
  | _ => none

/-- A natural number below a limit. -/
def nat? (limit : Nat) (j : Json) : Option Nat :=
  (j.integer? 0 limit).map Int.toNat

/-- A 64-bit size. -/
def size? (j : Json) : Option Nat :=
  j.nat? UInt64.size

/-- A 16-bit word. -/
def word? (j : Json) : Option UInt16 :=
  (j.nat? UInt16.size).map UInt16.ofNat

/-- A byte. -/
def byte? (j : Json) : Option UInt8 :=
  (j.nat? UInt8.size).map UInt8.ofNat

/-- A value that may be left out: `null` stands for none, and anything else must be read. -/
def optional? {α : Type} (read : Json → Option α) : Json → Option (Option α)
  | null => some none
  | j => (read j).map some

/-! ## Building -/

/-- A natural number. -/
def nat (n : Nat) : Json :=
  integer n

/-- A value that may be missing, with `null` for none. -/
def ofOption {α : Type} (write : α → Json) : Option α → Json
  | none => null
  | some a => write a

/-! ## Sizes -/

/-- A value found under a key is smaller than the list of fields. -/
theorem sizeOf_lookup_lt {key : String} {v : Json} {fields : List (String × Json)}
    (h : fields.lookup key = some v) : sizeOf v < sizeOf fields := by
  induction fields with
  | nil => simp at h
  | cons entry rest ih =>
    obtain ⟨k, w⟩ := entry
    rw [List.lookup_cons] at h
    split at h
    · cases h
      simp
      omega
    · have := ih h
      simp
      omega

/-- A field is smaller than its object. -/
theorem sizeOf_field?_lt {key : String} {j v : Json} (h : j.field? key = some v) :
    sizeOf v < sizeOf j := by
  cases j with
  | object fields =>
    have := sizeOf_lookup_lt h
    simp
    omega
  | _ => simp [field?] at h

end Json

end Cartridge
