import Cartridge.Proofs.Branching
import Cartridge.Proofs.Silence

/-!
# The units of data

A data statement is written unit by unit. An expression is one unit. A string is spelled out in
UTF-8, and every byte of that is a unit of its own, so that a character which is not an ASCII
character takes several units. The layout and the emission count in the same way.

Main definitions:

- `Width.unitBytes`: the bytes of a unit.
- `DataItem.contents`: the units of data items, given how characters are spelled.
- `Pass.Stored`: bytes were written to the active bank.

Main results:

- Theorem `DataItem.unitsOf_eq`: the units that are counted are expressions and bytes of text.
- Theorem `Data.size_eq_iff`: bytes of text are as many as characters exactly if these are ASCII
  characters.
- Theorem `DataItem.stored_items`: the emission writes the units that were counted.
- Theorem `Data.writes_units`: what the layout reserves for a data statement, and what the emission
  writes.
-/

namespace Cartridge

/-! ## Bytes of characters -/

namespace DataItem

/-- A text is spelled out character by character. -/
theorem toUTF8_eq (text : String) :
    text.toUTF8.data.toList = text.toList.flatMap String.utf8EncodeChar := by
  have hbytes : text.toUTF8 = text.toList.utf8Encode := String.utf8Encode_toList.symm
  rw [hbytes, List.utf8Encode, List.data_toByteArray]

/-- A character has at least one byte. -/
theorem length_le_encoded (characters : List Char) :
    characters.length ≤ (characters.flatMap String.utf8EncodeChar).length := by
  induction characters with
  | nil => exact Nat.le_refl _
  | cons c rest ih =>
    have hc := Char.utf8Size_pos c
    rw [List.flatMap_cons, List.length_append, String.length_utf8EncodeChar, List.length_cons]
    omega

/-- Every character has one byte exactly if all of them are ASCII characters. -/
theorem length_encoded_eq_iff (characters : List Char) :
    (characters.flatMap String.utf8EncodeChar).length = characters.length ↔
      ∀ c ∈ characters, c.val ≤ 127 := by
  induction characters with
  | nil => simp
  | cons c rest ih =>
    have hc := Char.utf8Size_pos c
    have hrest := length_le_encoded rest
    rw [List.flatMap_cons, List.length_append, String.length_utf8EncodeChar, List.length_cons,
      List.forall_mem_cons, ← ih, ← Char.utf8Size_eq_one_iff]
    omega

/-! ## Units -/

/-- The number of expressions among data items. -/
def expressions : List DataItem → Nat
  | [] => 0
  | value _ :: rest => expressions rest + 1
  | string _ _ :: rest => expressions rest

/-- The characters of the strings among data items. -/
def characters : List DataItem → List Char
  | [] => []
  | value _ :: rest => characters rest
  | string text _ :: rest => text.toList ++ characters rest

/-- The units of a character in UTF-8. -/
def encoded (c : Char) : List UInt16 :=
  (String.utf8EncodeChar c).map UInt8.toUInt16

/-- A character as one unit. -/
def single (c : Char) : List UInt16 :=
  [c.toNat.toUInt16]

/-- The units of data items from the one with the given index on, given the units of a character and
what is known of expressions. An expression without a value counts as zero. -/
def contents (spell : Char → List UInt16) (memo : Memo) (location : Location) :
    Nat → List DataItem → List UInt16
  | _, [] => []
  | index, value _ :: rest =>
    (memo.value? (.tree (location.child index))).getD 0 ::
      contents spell memo location (index + 1) rest
  | index, string text _ :: rest =>
    text.toList.flatMap spell ++ contents spell memo location (index + 1) rest

/-- The units that are counted are the expressions and the bytes of the texts. -/
theorem unitsOf_eq (items : List DataItem) :
    unitsOf items =
      expressions items + ((characters items).flatMap String.utf8EncodeChar).length := by
  induction items with
  | nil => rfl
  | cons item rest ih =>
    cases item with
    | value e =>
      rw [unitsOf, units, expressions, characters, ih]
      omega
    | string text pos =>
      have htext : text.utf8ByteSize = (text.toList.flatMap String.utf8EncodeChar).length := by
        rw [← toUTF8_eq]
        rfl
      rw [unitsOf, units, expressions, characters, ih, htext, List.flatMap_append,
        List.length_append]
      omega

/-- There are as many units as were counted. -/
theorem length_contents (memo : Memo) (location : Location) (index : Nat)
    (items : List DataItem) :
    (contents encoded memo location index items).length = unitsOf items := by
  induction items generalizing index with
  | nil => rfl
  | cons item rest ih =>
    cases item with
    | value e =>
      rw [contents, List.length_cons, ih, unitsOf, units, Nat.add_comm]
    | string text pos =>
      have htext : (text.toList.flatMap encoded).length = text.utf8ByteSize := by
        have hmap : text.toList.flatMap encoded =
            (text.toList.flatMap String.utf8EncodeChar).map UInt8.toUInt16 :=
          (List.map_flatMap ..).symm
        rw [hmap, List.length_map, ← toUTF8_eq]
        rfl
      rw [contents, List.length_append, htext, ih, unitsOf, units]

/-- ASCII characters are units of their own. -/
theorem contents_of_ascii {items : List DataItem} (h : ∀ c ∈ characters items, c.val ≤ 127)
    (memo : Memo) (location : Location) (index : Nat) :
    contents encoded memo location index items = contents single memo location index items := by
  induction items generalizing index with
  | nil => rfl
  | cons item rest ih =>
    cases item with
    | value e => rw [contents, contents, ih h]
    | string text pos =>
      obtain ⟨htext, hrest⟩ := List.forall_mem_append.1 h
      have hspell : ∀ c ∈ text.toList, encoded c = single c := by
        intro c hc
        have hle : c.toNat ≤ 127 := UInt32.le_iff_toNat_le.1 (htext c hc)
        have hunit : c.val.toUInt8.toUInt16 = c.toNat.toUInt16 := by
          apply UInt16.toNat_inj.1
          have hleft : c.val.toUInt8.toUInt16.toNat = c.toNat % 256 := by
            rw [UInt8.toNat_toUInt16, UInt32.toNat_toUInt8, Char.toNat_val]
          have hright : c.toNat.toUInt16.toNat = c.toNat % 65536 := UInt16.toNat_ofNat'
          omega
        unfold encoded single
        rw [String.utf8EncodeChar_eq_singleton (Char.utf8Size_eq_one_iff.2 (htext c hc)),
          List.map_singleton, hunit]
      rw [contents, contents, ih hrest, List.flatMap_congr hspell]

end DataItem

/-! ## Bytes of units -/

/-- The bytes of a unit. -/
def Width.unitBytes : Width → UInt16 → List UInt8
  | .byte, v => [v.toUInt8]
  | .word, v => littleEndian v

theorem Width.length_unitBytes (width : Width) (v : UInt16) :
    (width.unitBytes v).length = width.bytes := by
  cases width <;> rfl

theorem Width.length_flatMap_unitBytes (width : Width) (units : List UInt16) :
    (units.flatMap width.unitBytes).length = units.length * width.bytes := by
  induction units with
  | nil => exact (Nat.zero_mul _).symm
  | cons v rest ih =>
    rw [List.flatMap_cons, List.length_append, length_unitBytes, ih, List.length_cons,
      Nat.succ_mul, Nat.add_comm]

/-- A bank that does not exist has no space. -/
theorem Context.bank_of_le {ctx : Context} {i : Nat} (h : ctx.bankCount ≤ i) : ctx.bank i = {} := by
  unfold Context.bankCount at h
  unfold Context.bank
  cases hr : ctx.rom with
  | none => rfl
  | some rom =>
    rw [hr] at h
    change rom.banks.getD i {} = {}
    rw [Array.getD_eq_getD_getElem?, Array.getElem?_eq_none h, Option.getD_none]

namespace Pass

/-- Bytes were written to the active bank, which there is unless there are no bytes. -/
def Stored (bytes : List UInt8) (s t : Logged Context) : Prop :=
  ∃ i, (bytes ≠ [] → s.state.active? = some i ∧ i < s.state.bankCount) ∧ Wrote i bytes s t

theorem Wrote.active? {i : Nat} {bytes : List UInt8} {s t : Logged Context}
    (h : Wrote i bytes s t) : t.state.active? = s.state.active? := by
  rw [h.state]
  exact Context.active?_write s.state i bytes

theorem Wrote.bankCount {i : Nat} {bytes : List UInt8} {s t : Logged Context}
    (h : Wrote i bytes s t) : t.state.bankCount = s.state.bankCount := by
  rw [h.state]
  exact Context.bankCount_write s.state i bytes

/-- If no bytes were written then the memo only has changed. -/
theorem Wrote.state_of_nil {i : Nat} {s t : Logged Context} (h : Wrote i [] s t) :
    t.state = { s.state with memo := t.state.memo } := by
  have hstate := h.state
  rw [Context.write_nil] at hstate
  exact hstate

/-- Bytes may be written after a change of the memo. -/
theorem Wrote.after_nil {i j : Nat} {bytes : List UInt8} {s t u : Logged Context}
    (hst : Wrote i [] s t) (htu : Wrote j bytes t u) : Wrote j bytes s u := by
  have hstate := hst.state_of_nil
  have hbank : t.state.bank j = s.state.bank j := by
    rw [hstate]
    rfl
  refine ⟨?_, hst.memo.trans htu.memo, Nat.le_trans hst.count htu.count, hbank ▸ htu.room⟩
  rw [htu.state, hstate]
  rfl

/-- Bytes may be written before a change of the memo. -/
theorem Wrote.before_nil {i j : Nat} {bytes : List UInt8} {s t u : Logged Context}
    (hst : Wrote i bytes s t) (htu : Wrote j [] t u) : Wrote i bytes s u := by
  refine ⟨?_, hst.memo.trans htu.memo, Nat.le_trans hst.count htu.count, hst.room⟩
  rw [htu.state_of_nil, hst.state]

namespace Stored

theorem memo {bytes : List UInt8} {s t : Logged Context} (h : Stored bytes s t) :
    s.state.memo.Le t.state.memo := by
  obtain ⟨i, -, hw⟩ := h
  exact hw.memo

/-- Bytes may be stored in pieces. -/
theorem append {a b : List UInt8} {s t u : Logged Context} (hst : Stored a s t)
    (htu : Stored b t u) : Stored (a ++ b) s u := by
  obtain ⟨i, hi, hwi⟩ := hst
  obtain ⟨j, hj, hwj⟩ := htu
  rw [hwi.active?, hwi.bankCount] at hj
  by_cases ha : a = []
  · subst ha
    exact ⟨j, hj, hwi.after_nil hwj⟩
  · by_cases hb : b = []
    · subst hb
      rw [List.append_nil]
      exact ⟨i, hi, hwi.before_nil hwj⟩
    · have hsame : j = i := Option.some.inj ((hj hb).1.symm.trans (hi ha).1)
      subst hsame
      exact ⟨j, fun _ => hi ha, hwi.append hwj (hi ha).2⟩

/-- Nothing is stored if nothing happens. -/
theorem nil (s : Logged Context) : Stored [] s s := by
  refine ⟨0, fun h => absurd rfl h, ?_, Memo.Le.refl _, Nat.le_refl _, Or.inl rfl⟩
  rw [Context.write_nil]

/-- A fold stores nothing. -/
theorem of_fold {demand : Demand} {location : Location} {e : Expr} {s t : Logged Context}
    {v : Option UInt16} (h : fold demand location e s = .ok v t) : Stored [] s t := by
  obtain ⟨hstate, hle, hcount, -⟩ := fold_of_ok h
  refine ⟨0, fun h => absurd rfl h, ?_, hle, hcount, Or.inl rfl⟩
  rw [Context.write_nil]
  exact hstate

/-- A unit is stored in the active bank. -/
theorem of_writeUnit {width : Width} {value : UInt16} {pos : Position} {s t : Logged Context}
    (h : writeUnit width value pos s = .ok () t) : Stored (width.unitBytes value) s t := by
  have hwrote : ∃ i, s.state.active? = some i ∧ Wrote i (width.unitBytes value) s t := by
    cases width with
    | byte =>
      obtain ⟨i, b, hi, hb, rfl⟩ := onBank_eq_ok.1 h
      obtain ⟨hroom, hstate, -, hcount⟩ := Bank.writeByte_of_ok hb
      refine ⟨i, hi, ?_, Memo.Le.refl _, hcount, Or.inr hroom⟩
      rw [hstate]
      rfl
    | word =>
      obtain ⟨i, b, hi, hb, rfl⟩ := onBank_eq_ok.1 h
      obtain ⟨hroom, rfl⟩ := Bank.writeBytes_eq_ok.1 hb
      exact ⟨i, hi, rfl, Memo.Le.refl _, Nat.le_refl _, Or.inr hroom⟩
  obtain ⟨i, hi, hw⟩ := hwrote
  refine ⟨i, fun hne => ⟨hi, ?_⟩, hw⟩
  -- There is room for the unit, which there is not in a bank that does not exist.
  by_contra hout
  rcases hw.room with hnil | hroom
  · exact hne hnil
  · rw [Context.bank_of_le (Nat.not_lt.1 hout)] at hroom
    have hnone : 0 + (width.unitBytes value).length ≤ 0 := hroom
    exact hne (List.eq_nil_of_length_eq_zero (by omega))

end Stored

end Pass

/-! ## The emission of data -/

/-- The result of what had to be folded is known from then on. -/
theorem Pass.value?_of_fold {demand : Demand} {location : Location} {e : Expr}
    {s t : Logged Context} {v : Option UInt16} (h : fold demand location e s = .ok v t)
    (hmust : demand.mustFold = true) {memo : Memo} (hle : t.state.memo.Le memo) :
    memo.value? (.tree location) = v := by
  obtain ⟨folded, u, hu, rfl, rfl⟩ := foldAt_eq_ok.1 h
  obtain ⟨events, hfolds⟩ := SymbolTable.fold_iff.2 hu.symm
  have hresult := SymbolTable.result_of_fold hu
  have hknown : u.state.result { anchor := .tree location } ≠ .pending := by
    rw [hresult]
    exact hfolds.ne_pending hmust
  unfold Memo.value?
  rw [hle _ hknown, hresult]

namespace DataItem

open Pass

variable {location : Location} {width : Width} {s t : Logged Context}

/-- The bytes of a text are stored as units. -/
theorem stored_bytes {pos : Position} {bytes : List UInt8}
    (h : width.emitBytes pos bytes s = .ok () t) :
    Stored ((bytes.map UInt8.toUInt16).flatMap width.unitBytes) s t := by
  induction bytes generalizing s with
  | nil =>
    cases h
    exact .nil t
  | cons b rest ih =>
    obtain ⟨_, u, hu, hrest⟩ := Run.bind_eq_ok.1 h
    exact (Stored.of_writeUnit hu).append (ih hrest)

/-- Data items are stored unit by unit. The value of an expression is the one that is known in the
end. -/
theorem stored_items {index : Nat} {items : List DataItem}
    (h : emitAll location width index items s = .ok () t) :
    Stored ((contents encoded t.state.memo location index items).flatMap width.unitBytes) s t := by
  induction items generalizing index s with
  | nil =>
    cases h
    exact .nil t
  | cons item rest ih =>
    obtain ⟨_, w, hw, hrest⟩ := Run.bind_eq_ok.1 h
    have hafter := ih hrest
    cases item with
    | value e =>
      obtain ⟨v, u, hu, hwrite⟩ := Run.bind_eq_ok.1 hw
      have hunit := Stored.of_writeUnit hwrite
      -- The value is not forgotten by what follows.
      have hvalue := value?_of_fold hu rfl (hunit.memo.trans hafter.memo)
      rw [contents, List.flatMap_cons, hvalue]
      exact ((Stored.of_fold hu).append hunit).append hafter
    | string text pos =>
      have htext := stored_bytes hw
      rw [toUTF8_eq, List.map_flatMap] at htext
      rw [contents, List.flatMap_append]
      exact htext.append hafter

/-- An expression is folded in its turn, and the result is known from then on. -/
theorem fold_in_turn {before rest : List DataItem} {e : Expr}
    (h : emitAll location width 0 (before ++ .value e :: rest) s = .ok () t) :
    ∃ u w, emitAll location width 0 before s = .ok () u ∧
      fold .final (location.child before.length) e u =
        .ok (t.state.memo.value? (.tree (location.child before.length))) w := by
  rw [emitAll_append, Nat.zero_add] at h
  obtain ⟨_, u, hu, hrest⟩ := Run.bind_eq_ok.1 h
  obtain ⟨_, x, hx, hafter⟩ := Run.bind_eq_ok.1 hrest
  obtain ⟨v, w, hw, hwrite⟩ := Run.bind_eq_ok.1 hx
  have hle := (Stored.of_writeUnit hwrite).memo.trans (stored_items hafter).memo
  have hvalue := value?_of_fold hw rfl hle
  exact ⟨u, w, hu, hvalue ▸ hw⟩

end DataItem

/-- A text is stored where it fits into the reserved space. -/
theorem Width.emitBytes_of_room {width : Width} {s : Logged Context} {i : Nat}
    {bytes : List UInt8} (hi : s.state.active? = some i) (hrange : i < s.state.bankCount)
    (hroom : (s.state.bank i).position + bytes.length * width.bytes ≤ (s.state.bank i).reserved)
    (pos : Position) :
    width.emitBytes pos bytes s = .ok ()
      { s with state := s.state.write i ((bytes.map UInt8.toUInt16).flatMap width.unitBytes) } := by
  induction bytes generalizing s with
  | nil =>
    rw [List.map_nil, List.flatMap_nil, Context.write_nil]
    rfl
  | cons b rest ih =>
    rw [List.length_cons, Nat.succ_mul] at hroom
    have hlength := width.length_unitBytes b.toUInt16
    have hfits : (s.state.bank i).position + (width.unitBytes b.toUInt16).length ≤
        (s.state.bank i).reserved := by
      omega
    have hunit : Pass.writeUnit width b.toUInt16 pos s =
        .ok () { s with state := s.state.write i (width.unitBytes b.toUInt16) } := by
      cases width with
      | byte => exact Pass.writeByte_of_room hi hfits (Pass.toUInt16_le b) pos
      | word => exact Pass.writeBytes_of_room hi hfits pos
    have hroom' : ((s.state.write i (width.unitBytes b.toUInt16)).bank i).position +
        rest.length * width.bytes ≤
          ((s.state.write i (width.unitBytes b.toUInt16)).bank i).reserved := by
      rw [Context.position_write hrange, Context.reserved_write hrange]
      omega
    have hrest := @ih { s with state := s.state.write i (width.unitBytes b.toUInt16) }
      ((Context.active?_write ..).trans hi)
      (Nat.lt_of_lt_of_eq hrange (Context.bankCount_write ..).symm) hroom'
    unfold emitBytes
    rw [Run.bind_apply_of_ok hunit, hrest, Context.write_write hrange, List.map_cons,
      List.flatMap_cons]

/-! ## Data statements -/

/-- The texts of a data statement have as many bytes as characters exactly if all of these are ASCII
characters. -/
theorem Data.size_eq_iff (d : Data) :
    d.size = d.width.bytes *
        (DataItem.expressions d.items + (DataItem.characters d.items).length) ↔
      ∀ c ∈ DataItem.characters d.items, c.val ≤ 127 := by
  have hpos : 0 < d.width.bytes := by
    cases d.width <;> decide
  unfold Data.size
  rw [Nat.mul_comm, Nat.mul_right_inj (Nat.ne_of_gt hpos), DataItem.unitsOf_eq,
    Nat.add_left_cancel_iff]
  exact DataItem.length_encoded_eq_iff _

/-- A data statement is written unit by unit. The layout reserves a unit for every expression and
for every byte of the texts. An emission that finishes writes exactly that many bytes to the active
bank, for each item in order: the value to which the expression is folded in its turn, or zero if
there is none, and the bytes of the text, each of them as a unit. A unit is a byte, or a word in
little endian order. This comes to a unit for each character exactly if all of them are ASCII
characters, and then the characters are the units. -/
theorem Data.writes_units (d : Data) (files : Files) (location : Location) :
    (Statement.data d).layOut files location =
        Pass.reserve "data statement" (d.width.bytes * (DataItem.expressions d.items +
          ((DataItem.characters d.items).flatMap String.utf8EncodeChar).length)) d.pos ∧
      (∀ s t, (Statement.data d).emit location s = .ok () t →
        (∃ bytes, bytes.length = d.width.bytes * (DataItem.expressions d.items +
            ((DataItem.characters d.items).flatMap String.utf8EncodeChar).length) ∧
          bytes = (DataItem.contents DataItem.encoded t.state.memo location 0 d.items).flatMap
            d.width.unitBytes ∧
          Pass.Stored bytes s t) ∧
        ∀ before e rest, d.items = before ++ .value e :: rest →
          ∃ u w, DataItem.emitAll location d.width 0 before s = .ok () u ∧
            Pass.fold .final (location.child before.length) e u =
              .ok (t.state.memo.value? (.tree (location.child before.length))) w) ∧
      (d.size = d.width.bytes *
          (DataItem.expressions d.items + (DataItem.characters d.items).length) ↔
        ∀ c ∈ DataItem.characters d.items, c.val ≤ 127) ∧
      ((∀ c ∈ DataItem.characters d.items, c.val ≤ 127) → ∀ memo,
        DataItem.contents DataItem.encoded memo location 0 d.items =
          DataItem.contents DataItem.single memo location 0 d.items) := by
  have hsize : d.size = d.width.bytes * (DataItem.expressions d.items +
      ((DataItem.characters d.items).flatMap String.utf8EncodeChar).length) := by
    unfold Data.size
    rw [DataItem.unitsOf_eq, Nat.mul_comm]
  rw [← hsize]
  refine ⟨?_, fun s t hemit => ⟨⟨_, ?_, rfl, ?_⟩, fun before e rest hitems => ?_⟩,
    d.size_eq_iff, fun hascii memo => DataItem.contents_of_ascii hascii memo location 0⟩
  · rw [Statement.layOut]
  · rw [Width.length_flatMap_unitBytes, DataItem.length_contents]
    rfl
  · rw [Statement.emit] at hemit
    exact DataItem.stored_items hemit
  · rw [Statement.emit, hitems] at hemit
    exact DataItem.fold_in_turn hemit

namespace Data

/-- A bank in which eight bytes are reserved. -/
def reservedBank : Logged Context where
  state :=
    { rom := some
        { settings := { mapper := 0, prg := 0, chr := 1 }
          banks := #[{ origin := some 0x8000, reserved := 8 }]
          active := some 0 } }
  log := { limit := 2 }

/-- An expression without a value, and a text in which one of the characters is not an ASCII
character. -/
def mixed : Data where
  width := .word
  items := [.value (.reference [{ text := "nowhere" }] {}), .string "né" {}]

theorem writes_units_mixed : ∃ t, (Statement.data mixed).emit .top reservedBank = .ok () t ∧
    Pass.Stored [0, 0, 0x6E, 0, 0xC3, 0, 0xA9, 0] reservedBank t := by
  obtain ⟨u, hfold⟩ : ∃ u, Pass.fold .final (Location.top.child 0)
      (.reference [{ text := "nowhere" }] {}) reservedBank = .ok none u := ⟨_, rfl⟩
  obtain ⟨hu, -⟩ := Pass.fold_of_ok hfold
  have hactive : u.state.active? = some 0 := by
    rw [hu]
    rfl
  have hcount : 0 < u.state.bankCount := by
    rw [hu]
    exact Nat.one_pos
  have hbank : u.state.bank 0 = reservedBank.state.bank 0 := by
    rw [hu]
    rfl
  have hword : Pass.writeUnit .word 0 {} u = .ok () { u with state := u.state.write 0 [0, 0] } :=
    Pass.writeBytes_of_room hactive (by rw [hbank]; decide) {}
  have htext : "né".toUTF8.data.toList = [0x6E, 0xC3, 0xA9] := by decide
  have hrest := @Width.emitBytes_of_room .word { u with state := u.state.write 0 [0, 0] } 0
    [0x6E, 0xC3, 0xA9] ((Context.active?_write ..).trans hactive)
    (Nat.lt_of_lt_of_eq hcount (Context.bankCount_write ..).symm)
    (by rw [Context.position_write hcount, Context.reserved_write hcount, hbank]; decide) {}
  obtain ⟨t, hemit, hmemo⟩ : ∃ t, (Statement.data mixed).emit .top reservedBank = .ok () t ∧
      t.state.memo = u.state.memo := by
    rw [Statement.emit, mixed, DataItem.emitAll, DataItem.emit,
      Run.bind_apply_of_ok (Run.bind_eq_ok.2 ⟨none, u, hfold, hword⟩), DataItem.emitAll,
      DataItem.emit, htext, Run.bind_apply_of_ok hrest]
    exact ⟨_, rfl, rfl⟩
  obtain ⟨⟨bytes, -, hbytes, hstored⟩, -⟩ :=
    (mixed.writes_units (fun _ => .ok []) .top).2.1 _ _ hemit
  have hnone : t.state.memo.value? (.tree (Location.top.child 0)) = none := by
    rw [hmemo]
    exact (Pass.fold_of_ok hfold).2.2.2.1.symm
  rw [mixed, DataItem.contents, hnone] at hbytes
  cases hbytes
  exact ⟨t, hemit, hstored⟩

/-- A text of one character that is not an ASCII character. -/
def accented : Data where
  width := .byte
  items := [.string "é" {}]

/-- It has one character, and takes two units. -/
theorem accented_takes_two : DataItem.characters accented.items = ['é'] ∧ accented.size = 2 ∧
    (Statement.data accented).emit .top reservedBank =
      .ok () { reservedBank with state := reservedBank.state.write 0 [0xC3, 0xA9] } := by
  have htext : "é".toUTF8.data.toList = [0xC3, 0xA9] := by decide
  have hemit := @Width.emitBytes_of_room .byte reservedBank 0 [0xC3, 0xA9] rfl (by decide)
    (by decide) {}
  refine ⟨by decide, by decide, ?_⟩
  rw [Statement.emit, accented, DataItem.emitAll, DataItem.emit, htext,
    Run.bind_apply_of_ok hemit]
  rfl

end Data

end Cartridge
