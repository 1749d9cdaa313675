import Cartridge.Source.Reader
import Cartridge.Source.Writer
import Mathlib.Data.List.Forall2

/-!
# Spellings of JSON values

A tree has one written form, but it can be spelled in many ways: fields may stand in any order,
fields that nothing asks for may stand beside them, and a field may be left out if its written value
says nothing. Only an object that stands for one of several alternatives has exactly one field.

Main definitions:

- `Json.Spells`: a value is a spelling of a written form.
- `Json.Has`: a record spells the value of a field, perhaps by leaving it out.
- `Json.Codec`: a reader accepts exactly the spellings of what a writer writes.

Main results:

- Theorem `Json.spells_record`: how a record is spelled, field by field.
- Theorems `Json.Codec.named`, `Json.Codec.optional` and `Json.Codec.list`: readers of names, of
  parts that may be missing and of lists.
- Theorem `Json.Codec.round_trip`: what is written is read again.
-/

namespace Cartridge

namespace Json

/-! ## Spellings -/

/-- The names of the alternatives that have parts. -/
def alternatives : List String :=
  ["number", "attribute", "operation", "expression", "string", "rom", "ram", "package"]

/-- Whether a value stands for one of several alternatives. -/
def isAlternative : Json → Bool
  | object [(key, _)] => alternatives.contains key
  | _ => false

/-- What a record may leave out: a part that is missing, the default position, and that a branch
asks for a set flag. -/
def Omissible (key : String) (w : Json) : Prop :=
  w = null ∨ key = "pos" ∧ w = Position.toJson {} ∨ key = "set" ∧ w = bool true

mutual

/-- A value is a spelling of a written form. -/
inductive Spells : Json → Json → Prop
  | null : Spells null null
  | bool (value : Bool) : Spells (bool value) (bool value)
  | integer (value : Int) : Spells (integer value) (integer value)
  | string (text : String) : Spells (string text) (string text)
  | array {items written : List Json} (h : List.Forall₂ Spells items written) :
      Spells (array items) (array written)
  | alternative {key : String} {v w : Json} (hkey : alternatives.contains key = true)
      (h : Spells v w) : Spells (object [(key, v)]) (object [(key, w)])
  | record {fields written : List (String × Json)}
      (hrecord : (object written).isAlternative = false)
      (h : ∀ entry ∈ written, Has (object fields) entry.1 entry.2) :
      Spells (object fields) (object written)

/-- A record spells the written value of a field, or leaves it out if it may. -/
inductive Has : Json → String → Json → Prop
  | present {j v w : Json} {key : String} (hv : j.field? key = some v) (h : Spells v w) :
      Has j key w
  | absent {j w : Json} {key : String} (hv : j.field? key = none) (hw : Omissible key w) :
      Has j key w

end

section

variable {j w : Json} {key : String}

/-- What is missing is spelled as null only. -/
theorem spells_null : j.Spells null ↔ j = null := by
  constructor
  · intro h
    cases h
    rfl
  · rintro rfl
    exact .null

/-- Null spells only what is missing. -/
theorem null_spells : null.Spells w ↔ w = null := by
  constructor
  · intro h
    cases h
    rfl
  · rintro rfl
    exact .null

/-- A flag has one spelling. -/
theorem spells_bool {value : Bool} : j.Spells (bool value) ↔ j = bool value := by
  constructor
  · intro h
    cases h
    rfl
  · rintro rfl
    exact .bool value

/-- A number has one spelling. -/
theorem spells_integer {value : Int} : j.Spells (integer value) ↔ j = integer value := by
  constructor
  · intro h
    cases h
    rfl
  · rintro rfl
    exact .integer value

/-- A text has one spelling. -/
theorem spells_string {text : String} : j.Spells (string text) ↔ j = string text := by
  constructor
  · intro h
    cases h
    rfl
  · rintro rfl
    exact .string text

/-- A list is spelled item by item. -/
theorem spells_array {written : List Json} :
    j.Spells (array written) ↔ ∃ items, j = array items ∧ List.Forall₂ Spells items written := by
  constructor
  · intro h
    cases h with
    | array h => exact ⟨_, rfl, h⟩
  · rintro ⟨items, rfl, h⟩
    exact .array h

/-- An alternative is spelled with its one name, and its part may be spelled in several ways. -/
theorem spells_alternative (hkey : alternatives.contains key = true) :
    j.Spells (object [(key, w)]) ↔ ∃ v, j = object [(key, v)] ∧ v.Spells w := by
  constructor
  · intro h
    cases h with
    | alternative _ h => exact ⟨_, rfl, h⟩
    | record hrecord _ => exact absurd hkey (Bool.eq_false_iff.1 hrecord)
  · rintro ⟨v, rfl, h⟩
    exact .alternative hkey h

/-- A value under another name does not spell an alternative. -/
theorem not_spells_alternative (hkey : alternatives.contains key = true)
    (h : ∀ v, j ≠ object [(key, v)]) : ¬ j.Spells (object [(key, w)]) := by
  rw [spells_alternative hkey]
  rintro ⟨v, hv, -⟩
  exact h v hv

theorem field_eq_object {fields : List (String × Json)} :
    j.field key = object fields ↔ j.field? key = some (object fields) := by
  unfold field
  cases j.field? key <;> simp

theorem field_eq_string {text : String} :
    j.field key = string text ↔ j.field? key = some (string text) := by
  unfold field
  cases j.field? key <;> simp

theorem field_eq_array {items : List Json} :
    j.field key = array items ↔ j.field? key = some (array items) := by
  unfold field
  cases j.field? key <;> simp

/-- A value that is not missing is spelled by a field that is there. -/
theorem field_spells_iff (hw : w ≠ null) :
    (j.field key).Spells w ↔ ∃ v, j.field? key = some v ∧ v.Spells w := by
  unfold field
  cases h : j.field? key with
  | none => simp [null_spells, hw]
  | some v => simp

/-- The value of a field is spelled, where an absent field reads as a missing part. -/
theorem has_iff (hpos : key ≠ "pos") (hset : key ≠ "set") :
    j.Has key w ↔ (j.field key).Spells w := by
  unfold field
  constructor
  · intro h
    cases h with
    | present hv h =>
      rw [hv]
      exact h
    | absent hv hw =>
      rw [hv]
      rcases hw with rfl | ⟨hkey, -⟩ | ⟨hkey, -⟩
      · exact .null
      · exact absurd hkey hpos
      · exact absurd hkey hset
  · intro h
    cases hv : j.field? key with
    | none =>
      rw [hv] at h
      rw [null_spells.1 h]
      exact .absent hv (Or.inl rfl)
    | some v =>
      rw [hv] at h
      exact .present hv h

/-- A record is spelled by an object, field by field. -/
theorem spells_object {written : List (String × Json)}
    (hrecord : (object written).isAlternative = false) :
    j.Spells (object written) ↔
      ∃ fields, j = object fields ∧ ∀ entry ∈ written, j.Has entry.1 entry.2 := by
  constructor
  · intro h
    cases h with
    | alternative hkey _ => exact absurd hkey (Bool.eq_false_iff.1 hrecord)
    | record _ h => exact ⟨_, rfl, h⟩
  · rintro ⟨fields, rfl, h⟩
    exact .record hrecord h

/-- If one of its fields has to be there, then nothing but an object can spell a record. -/
theorem spells_record {written : List (String × Json)} {entry : String × Json}
    (hrecord : (object written).isAlternative = false) (hmem : entry ∈ written)
    (hentry : ¬ Omissible entry.1 entry.2) :
    j.Spells (object written) ↔ ∀ entry ∈ written, j.Has entry.1 entry.2 := by
  rw [spells_object hrecord]
  constructor
  · rintro ⟨_, -, h⟩
    exact h
  · intro h
    cases h entry hmem with
    | absent _ hw => exact absurd hw hentry
    | present hv _ =>
      cases j with
      | object fields => exact ⟨fields, rfl, h⟩
      | _ => cases hv

/-- Where the names of fields differ, each field is found under its name. -/
theorem lookup_of_mem {fields : List (String × Json)} (hnodup : (fields.map Prod.fst).Nodup)
    {entry : String × Json} (hmem : entry ∈ fields) : fields.lookup entry.1 = some entry.2 := by
  induction fields with
  | nil => cases hmem
  | cons first rest ih =>
    rw [List.map_cons, List.nodup_cons] at hnodup
    rw [List.lookup_cons]
    rcases List.mem_cons.1 hmem with rfl | hrest
    · simp
    · have hne : (entry.1 == first.1) = false := by
        rw [beq_eq_false_iff_ne]
        intro heq
        exact hnodup.1 (heq ▸ List.mem_map_of_mem hrest)
      rw [hne]
      exact ih hnodup.2 hrest

/-- A record whose fields have different names spells itself. -/
theorem spells_self {fields : List (String × Json)}
    (hrecord : (object fields).isAlternative = false) (hnodup : (fields.map Prod.fst).Nodup)
    (h : ∀ entry ∈ fields, entry.2.Spells entry.2) : (object fields).Spells (object fields) :=
  .record hrecord fun entry hmem => .present (lookup_of_mem hnodup hmem) (h entry hmem)

end

/-! ## Readers and writers -/

/-- A reader accepts exactly the spellings of what a writer writes, which is one of them. -/
structure Codec {α : Type} (read : Json → Option α) (write : α → Json) : Prop where
  written : ∀ a, (write a).Spells (write a)
  reads : ∀ j a, read j = some a ↔ j.Spells (write a)

namespace Codec

variable {α : Type} {read : Json → Option α} {write : α → Json}

/-- What is written is read again. -/
theorem round_trip (h : Codec read write) (a : α) : read (write a) = some a :=
  (h.reads _ _).2 (h.written a)

/-- Nothing but the tree decides how it is written, and the other way round. -/
theorem write_inj (h : Codec read write) {a b : α} : write a = write b ↔ a = b := by
  constructor
  · intro heq
    have hb := h.round_trip b
    rw [← heq, h.round_trip a] at hb
    exact Option.some.inj hb
  · rintro rfl
    rfl

/-- Texts are read back as they are written. -/
theorem text : Codec string? string where
  written text := .string text
  reads j text := by
    rw [spells_string]
    cases j <;> simp [string?]

/-- Flags are read back as they are written. -/
theorem flag : Codec bool? bool where
  written value := .bool value
  reads j value := by
    rw [spells_bool]
    cases j <;> simp [bool?]

/-- Numbers below a limit are read as they are. -/
theorem nat?_eq_some {limit n : Nat} {j : Json} :
    j.nat? limit = some n ↔ n < limit ∧ j.Spells (nat n) := by
  unfold nat? nat
  rw [spells_integer]
  cases j with
  | integer value =>
    simp only [integer?, Option.map_eq_some_iff, integer.injEq]
    constructor
    · rintro ⟨m, hm, rfl⟩
      split at hm <;> cases hm
      omega
    · rintro ⟨hlt, rfl⟩
      exact ⟨n, if_pos (by omega), by omega⟩
  | _ => simp [integer?]

/-- Words are read from exactly the numbers below 65536. -/
theorem word : Codec word? fun v => nat v.toNat where
  written _ := .integer _
  reads j v := by
    unfold word?
    simp only [Option.map_eq_some_iff, nat?_eq_some]
    constructor
    · rintro ⟨n, ⟨hlt, hn⟩, rfl⟩
      rw [UInt16.toNat_ofNat_of_lt' hlt]
      exact hn
    · intro h
      exact ⟨v.toNat, ⟨v.toNat_lt, h⟩, UInt16.ofNat_toNat⟩

/-- Counters are read from exactly the numbers below 2⁶⁴. -/
theorem size : Codec (fun j => j.size?.map UInt64.ofNat) fun v => nat v.toNat where
  written _ := .integer _
  reads j v := by
    unfold size?
    simp only [Option.map_eq_some_iff, nat?_eq_some]
    constructor
    · rintro ⟨n, ⟨hlt, hn⟩, rfl⟩
      rw [UInt64.toNat_ofNat_of_lt' hlt]
      exact hn
    · intro h
      exact ⟨v.toNat, ⟨v.toNat_lt, h⟩, UInt64.ofNat_toNat⟩

/-- One of a set of names. -/
theorem named {look : String → Option α} {tag : α → String} (hlook : ∀ a, look (tag a) = some a)
    (htag : ∀ text a, look text = some a → tag a = text) :
    Codec (named? look) fun a => .string (tag a) where
  written a := .string _
  reads j a := by
    rw [spells_string]
    cases j with
    | string text =>
      simp only [named?, string?, Option.bind_eq_bind, Option.bind_some, string.injEq]
      constructor
      · intro h
        exact (htag text a h).symm
      · rintro rfl
        exact hlook a
    | _ => simp [named?, string?]

/-- A part that may be missing. -/
theorem optional (h : Codec read write) (hwrite : ∀ a, write a ≠ null) :
    Codec (optional? read) (ofOption write) where
  written o := by
    cases o with
    | none => exact .null
    | some a => exact h.written a
  reads j o := by
    cases o with
    | none =>
      rw [ofOption, spells_null]
      cases j <;> simp [optional?]
    | some a =>
      rw [ofOption, ← h.reads]
      cases j with
      | null =>
        have hnull : ¬ read null = some a := by
          rw [h.reads, null_spells]
          exact hwrite a
        simp [optional?, hnull]
      | _ => simp [optional?]

/-- A list of items. -/
theorem list (h : Codec read write) : Codec (list? read) fun l => array (l.map write) where
  written l := by
    refine .array ?_
    induction l with
    | nil => exact .nil
    | cons a l ih => exact .cons (h.written a) ih
  reads j l := by
    have hall : ∀ items, items.mapM read = some l ↔ List.Forall₂ Spells items (l.map write) := by
      intro items
      induction items generalizing l with
      | nil => cases l <;> simp
      | cons item items ih =>
        cases l with
        | nil => simp [Option.bind_eq_some_iff]
        | cons a l =>
          rw [List.map_cons, List.forall₂_cons, ← h.reads, ← ih l]
          simp [Option.bind_eq_some_iff]
    rw [spells_array]
    cases j with
    | array items => simp [list?, array?, hall]
    | _ => simp [list?, array?]

end Codec

end Json

end Cartridge
