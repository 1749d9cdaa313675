import Cartridge.Proofs.Code
import Cartridge.Proofs.Passes

/-!
# Writing code

The bytes of a statement are written in pieces. Each piece advances the cursor of the active bank by
the size of its code, whether or not the values in it are known. If nothing was reported then the
bytes are those of the code. A piece for which enough space is reserved never runs out of it.

Main definitions:

- `Context.Ready`: a bank with a known origin is active.
- `Pass.Emits`: a part of the emission writes some code.

Main results:

- Theorem `Pass.emits_bind`: parts of the emission that follow each other write their code in order.
- Theorems `Command.emits_selection`, `Branch.emits_sized`, `DataItem.emits_items` and
  `Pass.emits_writeBytes`: commands, branches, data and embedded files write their code.
-/

namespace Cartridge

/-! ## Reports about placement -/

/-- Whether a cause says that something does not go where it was to go. -/
def Error.ofPlacement : Error → Bool
  | writeOutside | seekOutside | noBank _ | noOrigin | bankIndex _ _ => true
  | _ => false

/-- Folding does not report about placement. -/
theorem Error.ofPlacement_of_ofFolding {e : Error} (h : e.ofFolding = true) :
    e.ofPlacement = false := by
  cases e <;> first | rfl | cases h

namespace Run.Frame

/-- Nothing is reported about placement. -/
def quiet (σ : Type) : Frame σ :=
  total (fun s t => ∃ added, t.log.entries = s.log.entries ++ added ∧
      ∀ d ∈ added, d.error.ofPlacement = false)
    (fun _ => ⟨[], (List.append_nil _).symm, fun _ h => absurd h List.not_mem_nil⟩) <| by
    rintro s t u ⟨a, ha, hqa⟩ ⟨b, hb, hqb⟩
    refine ⟨a ++ b, by rw [hb, ha, List.append_assoc], fun d hd => ?_⟩
    rcases List.mem_append.1 hd with hd | hd
    · exact hqa d hd
    · exact hqb d hd

/-- What does not say that something is out of place may be reported. -/
theorem reports_quiet {σ : Type} {e : Error} (h : e.ofPlacement = false) :
    (quiet σ).Reports e where
  soft s pos := by
    refine ⟨[{ fatal := false, pos := some pos, error := e }], rfl, fun d hd => ?_⟩
    rw [List.mem_singleton.1 hd]
    exact h
  giveUp s pos := by
    refine ⟨[{ fatal := false, pos := some pos, error := e },
      { fatal := true, pos := none, error := .tooManyErrors (s.log.count + 1) }], ?_,
      fun d hd => ?_⟩
    · simp [Log.giveUp, Log.soft]
    · rcases List.mem_cons.1 hd with rfl | hd
      · exact h
      · rw [List.mem_singleton.1 hd]
        rfl
  fatal s pos := by
    refine ⟨[{ fatal := true, pos := some pos, error := e }], rfl, fun d hd => ?_⟩
    rw [List.mem_singleton.1 hd]
    exact h

end Run.Frame

/-! ## The active bank -/

namespace Context

/-- A bank with a known origin is active. -/
structure Ready (ctx : Context) (i : Nat) (origin : UInt16) : Prop where
  active : ctx.active? = some i
  inRange : i < ctx.bankCount
  origin : (ctx.bank i).origin = some origin
  reserved : (ctx.bank i).reserved ≤ bankSize

/-- The context after bytes were written to a bank. -/
def write (i : Nat) (bytes : List UInt8) (ctx : Context) : Context :=
  ctx.setBank i ((ctx.bank i).store bytes)

/-- The bank that is written to stores the bytes. -/
theorem bank_write_self {ctx : Context} {i : Nat} (h : i < ctx.bankCount) (bytes : List UInt8) :
    (ctx.write i bytes).bank i = (ctx.bank i).store bytes :=
  bank_setBank_self h _

theorem bank_write_of_ne {ctx : Context} {i j : Nat} (h : j ≠ i) (bytes : List UInt8) :
    (ctx.write i bytes).bank j = ctx.bank j :=
  bank_setBank_of_ne h _

/-- Bytes may be written in pieces. -/
theorem write_write {ctx : Context} {i : Nat} (h : i < ctx.bankCount) (a b : List UInt8) :
    (ctx.write i a).write i b = ctx.write i (a ++ b) := by
  rw [write, bank_write_self h, write, setBank_setBank, write, Bank.store_append]

@[simp] theorem write_nil (ctx : Context) (i : Nat) : ctx.write i [] = ctx :=
  setBank_bank ctx i

/-- Writing leaves the bank active and its origin known. -/
theorem Ready.write {ctx : Context} {i : Nat} {origin : UInt16} (h : ctx.Ready i origin)
    (bytes : List UInt8) : (ctx.write i bytes).Ready i origin where
  active := by
    rw [Context.write, active?_setBank, h.active]
  inRange := by
    rw [Context.write, bankCount_setBank]
    exact h.inRange
  origin := by
    rw [bank_write_self h.inRange]
    exact h.origin
  reserved := by
    rw [bank_write_self h.inRange]
    exact h.reserved

/-- Whether a bank is ready does not depend on what is known of expressions. -/
theorem Ready.memo {ctx : Context} {i : Nat} {origin : UInt16} (h : ctx.Ready i origin)
    (memo : Memo) : ({ ctx with memo } : Context).Ready i origin :=
  ⟨h.active, h.inRange, h.origin, h.reserved⟩

end Context

namespace Pass

/-- What becomes of the context and the log when bytes were written to a bank. -/
structure Wrote (i : Nat) (bytes : List UInt8) (s t : Logged Context) : Prop where
  state : t.state = { s.state.write i bytes with memo := t.state.memo }
  memo : s.state.memo.Le t.state.memo
  count : s.log.count ≤ t.log.count
  /-- The bytes lie in the reserved space. -/
  room : bytes = [] ∨ (s.state.bank i).position + bytes.length ≤ (s.state.bank i).reserved

/-- A part of the emission writes some code. -/
structure Emits (act : Pass Unit) (code : Code) : Prop where
  wrote : ∀ {s t : Logged Context} {i : Nat} {origin : UInt16}, s.state.Ready i origin →
    act s = .ok () t → ∃ bytes, bytes.length = code.size ∧ Wrote i bytes s t ∧
      (t.log.count = 0 → s.state.memo.Honest → t.state.memo.Honest ∧
        code.bytes? t.state.memo (origin.toNat + (s.state.bank i).position) = some bytes)
  quiet : ∀ {s : Logged Context} {i : Nat} {origin : UInt16}, s.state.Ready i origin →
    (s.state.bank i).position + code.size ≤ (s.state.bank i).reserved →
    (Run.Frame.quiet Context).Ends s (act s)

/-- After the bytes the same bank is ready for more. -/
theorem Wrote.ready {i : Nat} {bytes : List UInt8} {s t : Logged Context} (h : Wrote i bytes s t)
    {origin : UInt16} (hs : s.state.Ready i origin) : t.state.Ready i origin := by
  rw [h.state]
  exact (hs.write bytes).memo _

/-- The bank holds the bytes at the position where it was. -/
theorem Wrote.bank {i : Nat} {bytes : List UInt8} {s t : Logged Context} (h : Wrote i bytes s t)
    (hi : i < s.state.bankCount) : t.state.bank i = (s.state.bank i).store bytes := by
  rw [h.state]
  exact Context.bank_write_self hi bytes

/-- Banks other than the active one are not written to. -/
theorem Wrote.bank_of_ne {i j : Nat} {bytes : List UInt8} {s t : Logged Context}
    (h : Wrote i bytes s t) (hj : j ≠ i) : t.state.bank j = s.state.bank j := by
  rw [h.state]
  exact Context.bank_write_of_ne hj bytes

/-- Bytes may be written in pieces. -/
theorem Wrote.append {i : Nat} {a b : List UInt8} {s t u : Logged Context} (hst : Wrote i a s t)
    (htu : Wrote i b t u) (hi : i < s.state.bankCount) : Wrote i (a ++ b) s u where
  state := by
    rw [htu.state]
    have hbank :
        t.state.write i b = { (s.state.write i a).write i b with memo := t.state.memo } := by
      rw [hst.state]
      rfl
    rw [hbank, Context.write_write hi]
  memo := hst.memo.trans htu.memo
  count := Nat.le_trans hst.count htu.count
  room := by
    have hb := hst.bank hi
    rcases htu.room with rfl | hroom
    · rw [List.append_nil]
      exact hst.room
    · rw [hb, Bank.position_store, Bank.reserved_store] at hroom
      rw [List.length_append, ← Nat.add_assoc]
      exact Or.inr hroom

/-- Code may be replaced by other code of the same size that has at least the same bytes. -/
theorem Emits.congr {act : Pass Unit} {c d : Code} (h : Emits act c) (hsize : c.size = d.size)
    (hbytes : ∀ memo address bytes, c.bytes? memo address = some bytes →
      d.bytes? memo address = some bytes) : Emits act d where
  wrote hs hok := by
    obtain ⟨bytes, hlen, hw, hc⟩ := h.wrote hs hok
    exact ⟨bytes, hlen.trans hsize, hw, fun hclean hm =>
      ⟨(hc hclean hm).1, hbytes _ _ _ (hc hclean hm).2⟩⟩
  quiet hs hroom := h.quiet hs (hsize ▸ hroom)

/-! ## Parts of the emission -/

theorem emits_pure : Emits (pure ()) (.fixed []) where
  wrote {s t i origin} _ h := by
    cases h
    refine ⟨[], rfl, ⟨?_, Memo.Le.refl _, Nat.le_refl _, Or.inl rfl⟩, fun _ hm => ⟨hm, rfl⟩⟩
    rw [Context.write_nil]
  quiet _ _ := (Run.Frame.quiet Context).refl _

/-- What cannot go on writes any code. -/
theorem emits_internal (what : String) (pos : Position) (code : Code) :
    Emits (Run.internal what pos) code where
  wrote _ h := by cases h
  quiet _ _ := (Run.Frame.reports_quiet rfl).fatal _ _

/-- Parts of the emission that follow each other write their code in order. -/
theorem emits_bind {a b : Pass Unit} {c d : Code} (ha : Emits a c) (hb : Emits b d) :
    Emits (do a; b) (c.append d) where
  wrote {s u i origin} hs h := by
    obtain ⟨_, t, hst, htu⟩ := Run.bind_eq_ok.1 h
    obtain ⟨x, hx, hwx, hcx⟩ := ha.wrote hs hst
    obtain ⟨y, hy, hwy, hcy⟩ := hb.wrote (hwx.ready hs) htu
    refine ⟨x ++ y, by rw [List.length_append, hx, hy, Code.size_append],
      hwx.append hwy hs.inRange, fun hclean hm => ?_⟩
    -- Since nothing was reported at the end, nothing was reported before.
    have ht : t.log.count = 0 := Nat.eq_zero_of_le_zero (hclean ▸ hwy.count)
    obtain ⟨hmt, hbx⟩ := hcx ht hm
    obtain ⟨hmu, hby⟩ := hcy hclean hmt
    refine ⟨hmu, Code.bytes?_append (c.mono hwy.memo hbx) ?_⟩
    rw [hwx.bank hs.inRange, Bank.position_store, hx, ← Nat.add_assoc] at hby
    exact hby
  quiet {s i origin} hs hroom := by
    rw [Code.size_append] at hroom
    refine Run.Frame.ends_bind (ha.quiet hs (by omega)) fun _ t hst => ?_
    obtain ⟨x, hx, hwx, -⟩ := ha.wrote hs hst
    refine hb.quiet (hwx.ready hs) ?_
    rw [hwx.bank hs.inRange, Bank.position_store, Bank.reserved_store, hx, Nat.add_assoc]
    exact hroom

/-- After a report the values in the code do not matter any more. -/
theorem emits_error {e : Error} (he : e.ofPlacement = false) (pos : Position) {b : Pass Unit}
    {d : Code} (hb : Emits b d) : Emits (do Run.error e pos; b) (.never d.size) where
  wrote {s u i origin} hs h := by
    obtain ⟨_, t, hst, htu⟩ := Run.bind_eq_ok.1 h
    obtain ⟨-, rfl⟩ := Run.error_eq_ok.1 hst
    have ht : ({ s with log := s.log.soft e pos } : Logged Context).state.Ready i origin := hs
    obtain ⟨bytes, hlen, hw, -⟩ := hb.wrote ht htu
    have hcount : s.log.count + 1 ≤ u.log.count := hw.count
    refine ⟨bytes, hlen, ⟨hw.state, hw.memo, Nat.le_of_succ_le hcount, hw.room⟩, fun hc _ => ?_⟩
    omega
  quiet {s i origin} hs hroom := by
    refine Run.Frame.ends_bind ((Run.Frame.reports_quiet he).holds_error pos s) fun _ t hst => ?_
    obtain ⟨-, rfl⟩ := Run.error_eq_ok.1 hst
    have ht : ({ s with log := s.log.soft e pos } : Logged Context).state.Ready i origin := hs
    exact hb.quiet ht hroom

/-! ### Writes -/

/-- A run over the active bank is quiet if the run over that bank alone is. -/
theorem quiet_onBank {what : String} {pos : Position} {act : Run Bank Unit} {s : Logged Context}
    {i : Nat} (hi : s.state.active? = some i)
    (h : (Run.Frame.quiet Bank).Ends { state := s.state.bank i, log := s.log }
      (act { state := s.state.bank i, log := s.log })) :
    (Run.Frame.quiet Context).Ends s (onBank what pos act s) := by
  obtain ⟨rom, hr, ha⟩ := Option.bind_eq_some_iff.1 hi
  have hb : s.state.bank i = rom.banks.getD i {} := by
    simp [Context.bank, hr, Rom.bank]
  rw [hb] at h
  unfold onBank onRom
  rw [Run.read_bind_apply]
  simp only [hr, Run.focus, Run.read_bind_apply, ha, Rom.onBank]
  cases hc : act { state := rom.banks.getD i {}, log := s.log } with
  | ok a t =>
    rw [hc] at h
    exact h
  | error x t =>
    rw [hc] at h
    exact h

/-- Bytes go out as they are. -/
theorem emits_writeBytes (bytes : List UInt8) (pos : Position) :
    Emits (writeBytes bytes pos) (.fixed bytes) where
  wrote {s t i origin} hs h := by
    obtain ⟨j, b, hj, hb, rfl⟩ := onBank_eq_ok.1 h
    obtain rfl : i = j := Option.some.inj (hs.active.symm.trans hj)
    obtain ⟨hroom, rfl⟩ := Bank.writeBytes_eq_ok.1 hb
    exact ⟨bytes, rfl, ⟨rfl, Memo.Le.refl _, Nat.le_refl _, Or.inr hroom⟩, fun _ hm => ⟨hm, rfl⟩⟩
  quiet {s i origin} hs hroom := by
    refine quiet_onBank hs.active ?_
    rw [(Bank.writeBytes_eq_ok (u := ())).2 ⟨hroom, rfl⟩]
    exact ⟨[], (List.append_nil _).symm, fun _ h => absurd h List.not_mem_nil⟩

/-- A word goes out as two bytes, the lower one first, and always fits. -/
theorem emits_writeWord (value : UInt16) (pos : Position) :
    Emits (writeWord value pos) (.unit .word value) :=
  (emits_writeBytes (littleEndian value) pos).congr rfl fun _ _ _ h => h

/-- A value that is no byte is reported, and its lower byte goes out. -/
theorem emits_writeByte (value : UInt16) (pos : Position) :
    Emits (writeByte value pos) (.unit .byte value) where
  wrote {s t i origin} hs h := by
    obtain ⟨j, b, hj, hb, rfl⟩ := onBank_eq_ok.1 h
    obtain rfl : i = j := Option.some.inj (hs.active.symm.trans hj)
    obtain ⟨hroom, hstate, hclean, hcount⟩ := Bank.writeByte_of_ok hb
    refine ⟨[value.toUInt8], rfl, ⟨?_, Memo.Le.refl _, hcount, Or.inr hroom⟩, fun hc hm => ⟨hm, ?_⟩⟩
    · rw [hstate]
      rfl
    · exact if_pos (hclean (hc ▸ Nat.zero_le _))
  quiet {s i origin} hs hroom := by
    refine quiet_onBank hs.active ?_
    unfold Bank.writeByte
    refine Run.Frame.ends_bind ?_ fun _ t ht => ?_
    · rw [(Bank.ensure_eq_ok (u := ())).2 ⟨hroom, rfl⟩]
      exact (Run.Frame.quiet Bank).refl _
    · refine Run.Frame.holds_bind ?_ (fun _ => ?_) t
      · unfold Bank.checkByte
        split
        · exact (Run.Frame.reports_quiet rfl).holds_error _
        · exact Run.Frame.holds_pure _ _
      · exact fun u => (Run.Frame.quiet Bank).refl u

/-- A unit goes out as a byte or as a word. -/
theorem emits_writeUnit (width : Width) (value : UInt16) (pos : Position) :
    Emits (writeUnit width value pos) (.unit width value) := by
  cases width with
  | byte => exact emits_writeByte value pos
  | word => exact emits_writeWord value pos

/-- An opcode goes out as its one byte, which always fits. -/
theorem emits_writeOpcode (opcode : Opcode) (pos : Position) :
    Emits (writeOpcode opcode pos) (.fixed [opcode.byte]) := by
  refine (emits_writeByte opcode.byte.toUInt16 pos).congr rfl fun _ _ bytes h => ?_
  obtain ⟨-, hb⟩ := Option.ite_none_right_eq_some.1 h
  rw [UInt8.toUInt8_toUInt16] at hb
  exact hb

/-! ### Folds -/

/-- A fold is quiet. -/
theorem quiet_fold (demand : Demand) (location : Location) (e : Expr) :
    (Run.Frame.quiet Context).Holds (fold demand location e) := by
  refine Run.Frame.holds_fold (G := Run.Frame.quiet Memo) (fun t scope => ?_)
    (fun _ _ h => h) fun _ _ h => h
  exact SymbolTable.holds_fold (S := fun _ => True)
    (fun e he => Run.Frame.reports_quiet (Error.ofPlacement_of_ofFolding he))
    (fun _ _ _ _ _ _ h => h) (fun _ _ h => h) (fun _ => trivial) trivial scope e

/-- What is written after an expression was folded may depend on its value. -/
theorem emits_fold {location : Location} {e : Expr} {next : Option UInt16 → Pass Unit} {n : Nat}
    {c : UInt16 → Code} {size_eq : ∀ v, (c v).size = n} {d : Code} (hd : d.size = n)
    (hsome : ∀ v, Emits (next (some v)) (c v)) (hnone : Emits (next none) d) :
    Emits (fold .final location e >>= next) (.reading location n c size_eq) where
  wrote {s u i origin} hs h := by
    obtain ⟨v, t, hst, htu⟩ := Run.bind_eq_ok.1 h
    obtain ⟨hstate, hle, hcount, hv, hclean⟩ := fold_of_ok hst
    have ht : t.state.Ready i origin := by
      rw [hstate]
      exact hs.memo _
    have hb : t.state.bank i = s.state.bank i := by
      rw [hstate]
      rfl
    have hw : ∀ {bytes}, Wrote i bytes t u → Wrote i bytes s u := by
      intro bytes hw
      refine ⟨?_, hle.trans hw.memo, Nat.le_trans hcount hw.count, hb ▸ hw.room⟩
      rw [hw.state, hstate]
      rfl
    cases v with
    | none =>
      obtain ⟨bytes, hlen, hwrote, -⟩ := hnone.wrote ht htu
      refine ⟨bytes, hlen.trans hd, hw hwrote, fun hc hm => ?_⟩
      have hct : t.log.count = 0 := Nat.eq_zero_of_le_zero (hc ▸ hwrote.count)
      cases (hclean hct hm).2 rfl
    | some v =>
      obtain ⟨bytes, hlen, hwrote, hbytes⟩ := (hsome v).wrote ht htu
      refine ⟨bytes, hlen.trans (size_eq v), hw hwrote, fun hc hm => ?_⟩
      have hct : t.log.count = 0 := Nat.eq_zero_of_le_zero (hc ▸ hwrote.count)
      obtain ⟨hmu, hbu⟩ := hbytes hc (hclean hct hm).1
      refine ⟨hmu, ?_⟩
      rw [Code.bytes?_reading (hwrote.memo.value? hv.symm), ← hb]
      exact hbu
  quiet {s i origin} hs hroom := by
    refine Run.Frame.ends_bind (quiet_fold _ _ _ s) fun v t hst => ?_
    obtain ⟨hstate, -⟩ := fold_of_ok hst
    have ht : t.state.Ready i origin := by
      rw [hstate]
      exact hs.memo _
    have hb : t.state.bank i = s.state.bank i := by
      rw [hstate]
      rfl
    rw [Code.size_reading, ← hb] at hroom
    cases v with
    | none => exact hnone.quiet ht (hd ▸ hroom)
    | some v => exact (hsome v).quiet ht ((size_eq v) ▸ hroom)

/-- The value of an expression is written as a unit of data. -/
theorem emits_value {location : Location} {e : Expr} {next : Option UInt16 → Pass Unit}
    {width : Width} (h : ∀ v, Emits (next v) (.unit width (v.getD 0))) :
    Emits (fold .final location e >>= next) (.operand width location) :=
  emits_fold rfl (fun v => h (some v)) (h none)

/-! ### The program counter -/

/-- The program counter of a bank that is ready. -/
theorem programCounter_of_ready {s : Logged Context} {i : Nat} {origin : UInt16}
    (h : s.state.Ready i origin) (what : String) (missing : Error) (pos : Position) :
    programCounter what missing pos s =
      .ok ((origin.toNat + (s.state.bank i).position) % 0x100000000) s := by
  unfold programCounter
  refine onBank_eq_ok.2 ⟨i, { state := s.state.bank i, log := s.log }, h.active, ?_, ?_⟩
  · rw [Run.read_bind_apply]
    simp only [Bank.programCounter?, h.origin, Option.map_some]
    rfl
  · simp only [Context.setBank_bank]

end Pass

/-! ## Statements -/

namespace Branch

open Pass

/-- A distance that is a signed byte is written as a byte. -/
theorem displacement_byte (offset : Int) : UInt16.ofNat (offset % 256).toNat ≤ 0xFF := by
  rw [UInt16.le_iff_toNat_le, UInt16.toNat_ofNat']
  have hlt : offset % 256 < 256 := Int.emod_lt_of_pos _ (by decide)
  have hle : (offset % 256).toNat ≤ 255 := by omega
  exact Nat.le_trans (Nat.mod_le _ _) hle

/-- Writes the displacement to a known target at a known program counter. -/
theorem emits_offset (offset : Int) (pos : Position) :
    Emits
      (if offset < -128 ∨ 127 < offset then do
        Run.error (.relativeRange offset) pos
        writeByte 0 pos
      else writeByte (UInt16.ofNat (offset % 256).toNat) pos)
      (if offset < -128 ∨ 127 < offset then .never 1
      else .fixed [(UInt16.ofNat (offset % 256).toNat).toUInt8]) := by
  by_cases h : offset < -128 ∨ 127 < offset
  · rw [if_pos h, if_pos h]
    exact emits_error rfl pos (emits_writeByte 0 pos)
  · rw [if_neg h, if_neg h]
    refine (emits_writeByte _ pos).congr rfl fun _ _ bytes hb => ?_
    exact (if_pos (displacement_byte offset)).symm.trans hb

/-- A displacement goes out relative to the byte after it. One that is out of range is reported, and
zero goes out. -/
theorem emits_displacement (target : UInt16) (e : Expr) (pos : Position) :
    Emits (emitDisplacement (some target) e pos) (.displacement target) where
  wrote {s t i origin} hs h := by
    unfold emitDisplacement at h
    rw [Run.bind_apply_of_ok (programCounter_of_ready hs _ _ _)] at h
    obtain ⟨bytes, hlen, hw, hc⟩ := (emits_offset _ e.pos).wrote hs h
    have hone : bytes.length = 1 := by
      rw [hlen]
      split <;> rfl
    refine ⟨bytes, hone, hw, fun hclean hm => ?_⟩
    -- The byte lies in the bank, so the program counter is the exact address.
    have haddress : (origin.toNat + (s.state.bank i).position) % 0x100000000 =
        origin.toNat + (s.state.bank i).position := by
      have hroom : (s.state.bank i).position + 1 ≤ (s.state.bank i).reserved := by
        rcases hw.room with rfl | hroom
        · cases hone
        · rwa [hone] at hroom
      have hres := hs.reserved
      have horigin := origin.toNat_lt
      unfold bankSize at hres
      exact Nat.mod_eq_of_lt (by omega)
    obtain ⟨hmt, hbytes⟩ := hc hclean hm
    refine ⟨hmt, ?_⟩
    rw [haddress] at hbytes
    simp only [Code.displacement]
    split at hbytes
    · cases hbytes
    · rename_i hfar
      rw [if_neg hfar]
      exact hbytes
  quiet {s i origin} hs hroom := by
    unfold emitDisplacement
    rw [Run.bind_apply_of_ok (programCounter_of_ready hs _ _ _)]
    refine (emits_offset _ e.pos).quiet hs ?_
    split <;> exact hroom

/-- An unknown target is written as a zero. -/
theorem emits_unknown (e : Expr) (pos : Position) :
    Emits (emitDisplacement none e pos) (.unit .byte 0) where
  wrote {s t i origin} hs h := by
    unfold emitDisplacement at h
    rw [Run.bind_apply_of_ok (programCounter_of_ready hs _ _ _)] at h
    exact (emits_writeByte 0 e.pos).wrote hs h
  quiet {s i origin} hs hroom := by
    unfold emitDisplacement
    rw [Run.bind_apply_of_ok (programCounter_of_ready hs _ _ _)]
    exact (emits_writeByte 0 e.pos).quiet hs hroom

/-- A branch of the size for which space is reserved writes its code. -/
theorem emits_sized {b : Branch} {n : Nat} (hn : b.size? = .ok n) (location : Location) :
    Emits (b.emitSized location n) (b.code location n) := by
  obtain ⟨opcode, ho, -⟩ := exists_opcode?_of_size? hn
  unfold emitSized code
  simp only [ho]
  refine emits_bind (emits_writeOpcode opcode b.pos) ?_
  by_cases h1 : n = 1
  · rw [if_pos h1, if_pos h1]
    exact emits_pure
  · rw [if_neg h1, if_neg h1]
    cases b.destination.bind Operand.expr with
    | none => exact emits_internal _ _ _
    | some e =>
      by_cases h3 : n = 3
      · simp only [if_pos h3]
        exact emits_value fun v => emits_writeWord _ e.pos
      · simp only [if_neg h3]
        exact emits_fold rfl (fun v => emits_displacement v e b.pos) (emits_unknown e b.pos)

end Branch

namespace Command

open Pass

/-- An operand goes out as a byte or a word, by the form of the opcode. -/
theorem emits_operand (opcode : Opcode) (pos : Position) (operand : Option Located) :
    Emits (emitOperand opcode pos operand) (Selection.operandCode opcode operand) := by
  rcases operand with _ | ⟨⟨mode, _ | e, _⟩, location⟩
  case some.some =>
    unfold emitOperand Selection.operandCode
    by_cases h1 : opcode.form.operandSize = 1
    · simp only [if_pos h1]
      exact emits_value fun v => emits_writeByte _ e.pos
    · simp only [if_neg h1]
      exact emits_value fun v => emits_writeWord _ e.pos
  all_goals exact emits_internal _ _ _

/-- A command writes the code of the encoding that was selected. -/
theorem emits_selection (s : Selection) (receiver : Located) (argument : Option Located)
    (pos : Position) :
    Emits (emitSelection s receiver argument pos) (s.code receiver argument) := by
  unfold emitSelection Selection.code
  cases s.encoding with
  | sequence instructions => exact emits_writeBytes _ pos
  | instruction lead opcode carrier =>
    refine emits_bind ?_ (emits_bind (emits_writeOpcode opcode pos) ?_)
    · cases lead with
      | none => exact emits_pure
      | some o => exact emits_writeOpcode o pos
    · cases carrier with
      | none => exact emits_pure
      | some side => exact emits_operand opcode pos _

end Command

namespace DataItem

open Pass

/-- The bytes of a string go out one unit each. -/
theorem emits_bytes (width : Width) (pos : Position) (bytes : List UInt8) :
    Emits (width.emitBytes pos bytes) (.text width bytes) := by
  induction bytes with
  | nil => exact emits_pure
  | cons b rest ih => exact emits_bind (emits_writeUnit width _ pos) ih

/-- An item goes out as its value or as the units of its text. -/
theorem emits_item (location : Location) (width : Width) (item : DataItem) :
    Emits (item.emit location width) (item.code location width) := by
  cases item with
  | value e => exact emits_value fun v => emits_writeUnit width _ e.pos
  | string text pos => exact emits_bytes width pos _

/-- Data items write their code. -/
theorem emits_items (location : Location) (width : Width) (index : Nat) (items : List DataItem) :
    Emits (emitAll location width index items) (codeAll location width index items) := by
  induction items generalizing index with
  | nil => exact emits_pure
  | cons item rest ih => exact emits_bind (emits_item _ width item) (ih (index + 1))

end DataItem

end Cartridge
