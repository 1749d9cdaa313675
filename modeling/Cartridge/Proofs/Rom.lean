import Cartridge.Proofs.Run
import Cartridge.Rom.Basic

/-!
# What happens to banks and roms

The operations on banks and roms that finish, each described by what it asks for and by the bank or
rom that it leaves behind, and the frames that allow them.

Main results:

- Theorems `Bank.expand_eq_ok`, `Bank.org_eq_ok`, `Bank.seek_eq_ok`, `Bank.writeBytes_eq_ok` and
  `Bank.writeByte_of_ok`: when the operations of a bank finish, and with which bank.
- Theorem `Bank.store_append`: bytes may be stored in pieces.
- Theorems `Run.Frame.holds_expand`, `Run.Frame.holds_writeByte` and the like: which frames allow
  the operations.
- Theorems `Rom.bank_setBank_self` and `Rom.bank_setBank_of_ne`: what the banks of a rom are after
  one of them was replaced.
-/

namespace Cartridge

/-! ## Banks -/

namespace Bank

/-- Bytes may be replaced in pieces. -/
theorem overwrite_append (data : Vector UInt8 bankSize) (offset : Nat) (a b : List UInt8) :
    overwrite data offset (a ++ b) = overwrite (overwrite data offset a) (offset + a.length) b := by
  induction a generalizing data offset with
  | nil => rfl
  | cons byte a ih =>
    rw [List.cons_append, overwrite, ih, overwrite, List.length_cons, Nat.add_right_comm,
      Nat.add_assoc]

/-- Bytes may be stored in pieces. -/
theorem store_append (a b : List UInt8) (bank : Bank) :
    store (a ++ b) bank = store b (store a bank) := by
  simp [store, overwrite_append, Nat.add_assoc]

/-- The bank after space was reserved at its cursor. The sums are taken in 64 bits and wrap around,
as in a release build. -/
def extended (amount : Nat) (b : Bank) : Bank :=
  { b with
    reserved := (b.reserved + amount) % 0x10000000000000000
    position := (b.position + amount) % 0x10000000000000000 }

@[simp] theorem origin_extended (amount : Nat) (b : Bank) :
    (b.extended amount).origin = b.origin :=
  rfl

/-- Space is reserved in a bank with an origin, below the end of the address space and of the
bank. -/
theorem expand_eq_ok {amount : Nat} {pos : Position} {s t : Logged Bank} {u : Unit} :
    expand amount pos s = .ok u t ↔
      ∃ origin, s.state.origin = some origin ∧
        (origin.toNat + s.state.position + amount) % 0x100000000 ≤ addressSpace ∧
        (s.state.extended amount).reserved ≤ bankSize ∧
        t = { s with state := s.state.extended amount } := by
  unfold expand
  rw [Run.read_bind_apply]
  cases ho : s.state.origin with
  | none => simp
  | some origin =>
    simp only [Option.some.injEq, exists_eq_left']
    by_cases hs : (origin.toNat + s.state.position + amount) % 0x100000000 > addressSpace
    · rw [if_pos hs]
      simp only [Run.fatal_apply, reduceCtorEq, false_iff, not_and]
      exact fun hle => absurd hs (Nat.not_lt.2 hle)
    · rw [if_neg hs, Run.update_bind_apply]
      by_cases hr : (s.state.reserved + amount) % 0x10000000000000000 > bankSize
      · rw [if_pos hr]
        simp only [Run.fatal_apply, reduceCtorEq, false_iff, not_and]
        exact fun _ hle => absurd hr (Nat.not_lt.2 hle)
      · rw [if_neg hr]
        constructor
        · intro h
          cases h
          exact ⟨Nat.not_lt.1 hs, Nat.not_lt.1 hr, rfl⟩
        · rintro ⟨-, -, rfl⟩
          rfl

/-- A bank without an origin takes the address as its origin; otherwise what is skipped is
reserved. -/
theorem org_eq_ok {address : UInt16} {pos : Position} {s t : Logged Bank} {u : Unit} :
    org address pos s = .ok u t ↔
      (s.state.programCounter? = none ∧
        t = { s with state := { s.state with origin := some address } }) ∨
      ∃ current, s.state.programCounter? = some current ∧ current ≤ address.toNat ∧
        expand (address.toNat - current) pos s = .ok u t := by
  unfold org
  rw [Run.read_bind_apply]
  cases hc : s.state.programCounter? with
  | none =>
    simp only [Run.update_apply, true_and, reduceCtorEq, false_and, exists_false, or_false]
    constructor
    · intro h
      cases h
      rfl
    · rintro rfl
      rfl
  | some current =>
    simp only [reduceCtorEq, false_and, Option.some.injEq, exists_eq_left', false_or]
    by_cases hlt : address.toNat < current
    · rw [if_pos hlt]
      simp only [Run.fatal_apply, reduceCtorEq, false_iff, not_and]
      exact fun hle => absurd hle (Nat.not_le.2 hlt)
    · rw [if_neg hlt]
      exact (and_iff_right (Nat.not_lt.1 hlt)).symm

/-- Going to an address reports nothing unless it is given up. -/
theorem log_of_org {address : UInt16} {pos : Position} {s t : Logged Bank} {u : Unit}
    (h : org address pos s = .ok u t) : t.log = s.log := by
  rcases org_eq_ok.1 h with ⟨-, rfl⟩ | ⟨current, -, -, hexpand⟩
  · rfl
  · obtain ⟨-, -, -, -, rfl⟩ := expand_eq_ok.1 hexpand
    rfl

/-- The cursor moves to an address between the origin and the end of the reserved space. -/
theorem seek_eq_ok {address : UInt16} {pos : Position} {s t : Logged Bank} {u : Unit} :
    seek address pos s = .ok u t ↔
      ∃ origin, s.state.origin = some origin ∧ origin.toNat ≤ address.toNat ∧
        address.toNat - origin.toNat ≤ s.state.reserved ∧
        t = { s with state := { s.state with position := address.toNat - origin.toNat } } := by
  unfold seek
  rw [Run.read_bind_apply]
  cases ho : s.state.origin with
  | none => simp
  | some origin =>
    simp only [Option.some.injEq, exists_eq_left', UInt16.lt_iff_toNat_lt]
    by_cases hout : address.toNat < origin.toNat ∨ address.toNat - origin.toNat > s.state.reserved
    · rw [if_pos hout]
      simp only [Run.fatal_apply, reduceCtorEq, false_iff, not_and]
      intro hle hres
      omega
    · rw [if_neg hout]
      constructor
      · intro h
        cases h
        exact ⟨by omega, by omega, rfl⟩
      · rintro ⟨-, -, rfl⟩
        rfl

/-- The check passes exactly if there is room, and it changes nothing. -/
theorem ensure_eq_ok {amount : Nat} {pos : Position} {s t : Logged Bank} {u : Unit} :
    ensure amount pos s = .ok u t ↔ s.state.position + amount ≤ s.state.reserved ∧ t = s := by
  unfold ensure
  rw [Run.read_bind_apply]
  by_cases h : s.state.position + amount > s.state.reserved
  · rw [if_pos h]
    simp only [Run.fatal_apply, reduceCtorEq, false_iff, not_and]
    exact fun hle => absurd h (Nat.not_lt.2 hle)
  · rw [if_neg h]
    constructor
    · intro hok
      cases hok
      exact ⟨Nat.not_lt.1 h, rfl⟩
    · rintro ⟨-, rfl⟩
      rfl

/-- Bytes are written where they fit into the reserved space. -/
theorem writeBytes_eq_ok {bytes : List UInt8} {pos : Position} {s t : Logged Bank} {u : Unit} :
    writeBytes bytes pos s = .ok u t ↔
      s.state.position + bytes.length ≤ s.state.reserved ∧
        t = { s with state := s.state.store bytes } := by
  unfold writeBytes
  rw [Run.bind_eq_ok]
  constructor
  · rintro ⟨_, v, hv, hok⟩
    obtain ⟨hle, rfl⟩ := ensure_eq_ok.1 hv
    cases hok
    exact ⟨hle, rfl⟩
  · rintro ⟨hle, rfl⟩
    exact ⟨(), s, ensure_eq_ok.2 ⟨hle, rfl⟩, rfl⟩

/-- A value is written as one byte. If nothing is reported then it is a byte. -/
theorem writeByte_of_ok {value : UInt16} {pos : Position} {s t : Logged Bank} {u : Unit}
    (h : writeByte value pos s = .ok u t) :
    s.state.position + 1 ≤ s.state.reserved ∧ t.state = s.state.store [value.toUInt8] ∧
      (t.log.count ≤ s.log.count → value ≤ 0xFF) ∧ s.log.count ≤ t.log.count := by
  unfold writeByte at h
  obtain ⟨_, v, hv, hcheck⟩ := Run.bind_eq_ok.1 h
  obtain ⟨hle, rfl⟩ := ensure_eq_ok.1 hv
  obtain ⟨_, w, hw, hstore⟩ := Run.bind_eq_ok.1 hcheck
  cases hstore
  unfold checkByte at hw
  by_cases hbig : value > 0xFF
  · rw [if_pos hbig] at hw
    obtain ⟨-, rfl⟩ := Run.error_eq_ok.1 hw
    exact ⟨hle, rfl, fun hc => absurd hc (Nat.not_succ_le_self _), Nat.le_succ _⟩
  · rw [if_neg hbig] at hw
    cases hw
    exact ⟨hle, rfl, fun _ => UInt16.not_lt.1 hbig, Nat.le_refl _⟩

end Bank

/-! ## Roms -/

namespace Rom

variable {α : Type}

/-- A bank by its index. -/
def bank (rom : Rom) (i : Nat) : Bank :=
  rom.banks.getD i {}

/-- The rom with another bank at an index. -/
def setBank (rom : Rom) (i : Nat) (b : Bank) : Rom :=
  { rom with banks := rom.banks.setIfInBounds i b }

@[simp] theorem active_setBank (rom : Rom) (i : Nat) (b : Bank) :
    (rom.setBank i b).active = rom.active :=
  rfl

@[simp] theorem size_setBank (rom : Rom) (i : Nat) (b : Bank) :
    (rom.setBank i b).banks.size = rom.banks.size := by
  simp [setBank]

/-- The banks of a new rom are empty. -/
theorem bank_empty (settings : Settings) (i : Nat) : (empty settings).bank i = {} := by
  rcases Nat.lt_or_ge i settings.bankCount with hlt | hge
  · simp [bank, empty, hlt]
  · simp [bank, empty, hge]

/-- A rom goes back to its start bank by bank. -/
theorem bank_rewind (rom : Rom) (i : Nat) : rom.rewind.bank i = (rom.bank i).rewind := by
  rcases Nat.lt_or_ge i rom.banks.size with hlt | hge
  · simp [bank, rewind, hlt]
  · simp [bank, rewind, Bank.rewind, hge]

/-- A bank that was put into a rom is found there. -/
theorem bank_setBank_self {rom : Rom} {i : Nat} (h : i < rom.banks.size) (b : Bank) :
    (rom.setBank i b).bank i = b := by
  simp [setBank, bank, h]

theorem bank_setBank_of_ne {rom : Rom} {i j : Nat} (h : j ≠ i) (b : Bank) :
    (rom.setBank i b).bank j = rom.bank j := by
  simp [setBank, bank, Array.getElem?_setIfInBounds_ne (Ne.symm h)]

/-- A bank may be replaced by itself. -/
theorem setBank_bank (rom : Rom) (i : Nat) : rom.setBank i (rom.bank i) = rom := by
  rcases Nat.lt_or_ge i rom.banks.size with hi | hi
  · have hb : rom.bank i = rom.banks[i] := by
      simp [bank, hi]
    have hset : rom.banks.setIfInBounds i rom.banks[i] = rom.banks := by
      simp [Array.setIfInBounds, hi]
    simp [setBank, hb, hset]
  · simp [setBank, Array.setIfInBounds_eq_of_size_le hi]

theorem setBank_setBank (rom : Rom) (i : Nat) (b c : Bank) :
    (rom.setBank i b).setBank i c = rom.setBank i c := by
  simp [setBank]

/-- A run over a bank finishes exactly if it does so over that bank alone. -/
theorem onBank_eq_ok {i : Nat} {act : Run Bank α} {s t : Logged Rom} {a : α} :
    onBank i act s = .ok a t ↔
      ∃ b, act { state := s.state.bank i, log := s.log } = .ok a b ∧
        t = { state := s.state.setBank i b.state, log := b.log } :=
  Run.focus_eq_ok

/-- A bank of the rom can be made active. -/
theorem switchBank_eq_ok {index : UInt16} {pos : Position} {s t : Logged Rom} {u : Unit} :
    switchBank index pos s = .ok u t ↔
      index.toNat < s.state.banks.size ∧
        t = { s with state := { s.state with active := some index.toNat } } := by
  unfold switchBank
  rw [Run.read_bind_apply]
  by_cases h : index.toNat ≥ s.state.banks.size
  · rw [if_pos h]
    simp only [Run.fatal_apply, reduceCtorEq, false_iff, not_and]
    exact fun hlt => absurd h (Nat.not_le.2 hlt)
  · rw [if_neg h]
    constructor
    · intro hok
      cases hok
      exact ⟨Nat.not_le.1 h, rfl⟩
    · rintro ⟨-, rfl⟩
      rfl

/-- Ram is taken below the end of the address space, once there is a counter. -/
theorem expandRam_eq_ok {amount : Nat} {pos : Position} {s t : Logged Rom} {u : Unit} :
    expandRam amount pos s = .ok u t ↔
      ∃ counter, s.state.ram = some counter ∧ (counter + amount) % 0x100000000 ≤ addressSpace ∧
        t = { s with state := { s.state with
          ram := some ((counter + amount) % 0x100000000) } } := by
  unfold expandRam
  rw [Run.read_bind_apply]
  cases hr : s.state.ram with
  | none => simp
  | some counter =>
    simp only [Option.some.injEq, exists_eq_left']
    by_cases h : (counter + amount) % 0x100000000 > addressSpace
    · rw [if_pos h]
      simp only [Run.fatal_apply, reduceCtorEq, false_iff, not_and]
      exact fun hle => absurd h (Nat.not_lt.2 hle)
    · rw [if_neg h]
      constructor
      · intro hok
        cases hok
        exact ⟨Nat.not_lt.1 h, rfl⟩
      · rintro ⟨-, rfl⟩
        rfl

end Rom

/-! ## Frames of the operations -/

namespace Run.Frame

section Banks

variable {F : Run.Frame Bank} (hr : ∀ e : Error, e.isInternal = false → F.Reports e)

include hr

/-- The check for room changes nothing, so it keeps every frame in which its report may be made. -/
theorem holds_ensure (amount : Nat) (pos : Position) : F.Holds (Bank.ensure amount pos) := by
  refine holds_read_bind fun b => ?_
  split
  · exact (hr _ rfl).holds_fatal _
  · exact F.holds_pure _

section Reserving

variable (hu : ∀ (s : Logged Bank) b, b.data = s.state.data → F.rel s { s with state := b })

include hu

/-- A frame that allows all changes but those of bytes allows reservations. -/
theorem holds_expand (amount : Nat) (pos : Position) : F.Holds (Bank.expand amount pos) := by
  refine holds_read_bind fun b => ?_
  split
  · exact (hr _ rfl).holds_fatal _
  · dsimp only
    split
    · exact (hr _ rfl).holds_fatal _
    · refine holds_bind (holds_update fun s => hu s _ rfl) fun _ => ?_
      split
      · exact (hr _ rfl).holds_fatal _
      · exact F.holds_pure _

/-- An origin is set, or reached by reserving what is skipped. -/
theorem holds_org (address : UInt16) (pos : Position) : F.Holds (Bank.org address pos) := by
  refine holds_read_bind fun b => ?_
  split
  · exact holds_update fun s => hu s _ rfl
  · split
    · exact (hr _ rfl).holds_fatal _
    · exact holds_expand hr hu _ _

end Reserving

section Writing

variable (hu : ∀ (s : Logged Bank) b, b.origin = s.state.origin →
  b.reserved = s.state.reserved → F.rel s { s with state := b })

include hu

/-- A frame that allows all changes but those of the space allows writes. -/
theorem holds_writeBytes (bytes : List UInt8) (pos : Position) :
    F.Holds (Bank.writeBytes bytes pos) :=
  holds_bind (holds_ensure hr _ _) fun _ => holds_update fun s => hu s _ rfl rfl

/-- A byte is written after the check for room and the report of a value that is too large. -/
theorem holds_writeByte (value : UInt16) (pos : Position) : F.Holds (Bank.writeByte value pos) := by
  refine holds_bind (holds_ensure hr _ _) fun _ => holds_bind ?_ fun _ =>
    holds_update fun s => hu s _ rfl rfl
  unfold Bank.checkByte
  split
  · exact (hr _ rfl).holds_error _
  · exact F.holds_pure _

/-- Seeking moves the position only. -/
theorem holds_seek (address : UInt16) (pos : Position) : F.Holds (Bank.seek address pos) := by
  refine holds_read_bind fun b => ?_
  split
  · exact (hr _ rfl).holds_fatal _
  · split
    · exact (hr _ rfl).holds_fatal _
    · exact holds_update fun s => hu s _ rfl rfl

end Writing

end Banks

section Roms

variable {F : Run.Frame Rom} (hr : ∀ e : Error, e.isInternal = false → F.Reports e)

include hr

/-- Switching changes the active bank only. -/
theorem holds_switchBank
    (hu : ∀ (s : Logged Rom) active, F.rel s { s with state := { s.state with active } })
    (index : UInt16) (pos : Position) : F.Holds (Rom.switchBank index pos) := by
  refine holds_read_bind fun rom => ?_
  split
  · exact (hr _ rfl).holds_fatal _
  · exact holds_update fun s => hu s _

/-- Taking ram changes the ram counter only. -/
theorem holds_expandRam
    (hu : ∀ (s : Logged Rom) ram, F.rel s { s with state := { s.state with ram } })
    (amount : Nat) (pos : Position) : F.Holds (Rom.expandRam amount pos) := by
  refine holds_read_bind fun rom => ?_
  split
  · exact (hr _ rfl).holds_fatal _
  · dsimp only
    split
    · exact (hr _ rfl).holds_fatal _
    · exact holds_update fun s => hu s _

end Roms

end Run.Frame

end Cartridge
