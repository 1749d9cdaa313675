import Cartridge.Proofs.Allocation

/-!
# Running out of space

Space is refused where it does not fit. The checks are made with 32-bit addresses and 64-bit
reservations, and they are exact as long as these do not wrap around. A reservation that is too
large for its bank is only noticed after it was made, and stays; every other operation that is
abandoned leaves the bank as it was.

Main definitions:

- `Bank.Operation.Overruns`: an operation reserves more than a bank has.
- `Bank.Reached`: the banks that operations lead to, also after some of them were abandoned.

Main results:

- Theorem `Bank.Operation.ending_of_error`: how an operation on a bank is abandoned.
- Theorem `Bank.Operation.abandoned_iff`: which abandoned operations leave a bank as it was.
- Theorem `Rom.Operation.capacity_checked`: which amounts of space there is room for.
-/

namespace Cartridge

/-! ## Operations that are abandoned -/

namespace Bank

namespace Operation

/-- The space that an operation asks a bank for. -/
def asks? (b : Bank) : Operation → Option Nat
  | expand amount => some amount
  | org address => b.programCounter?.bind fun current =>
    if current ≤ address.toNat then some (address.toNat - current) else none
  | _ => none

/-- An operation reserves space that there are addresses for, but that the bank does not have. -/
structure Overruns (op : Operation) (b : Bank) (n : Nat) : Prop where
  asks : op.asks? b = some n
  space : ∃ origin, b.origin = some origin ∧
    (origin.toNat + b.position + n) % 0x100000000 ≤ addressSpace
  past : bankSize < (b.extended n).reserved

variable {op : Operation} {pos : Position} {s t : Logged Bank} {x : Abort}

/-- Where reserving fails, the bank is left as it was, except when the space overruns it: then the
counters have already moved. -/
theorem ending_of_expand {n : Nat} (hasks : op.asks? s.state = some n)
    (h : Bank.expand n pos s = .error x t) :
    t.state = s.state ∧ ¬ op.Overruns s.state n ∨
      op.Overruns s.state n ∧ t.state = s.state.extended n := by
  unfold Bank.expand at h
  rw [Run.read_bind_apply] at h
  cases ho : s.state.origin with
  | none =>
    simp only [ho] at h
    cases h
    refine .inl ⟨rfl, fun hover => ?_⟩
    obtain ⟨_, ho', -⟩ := hover.space
    cases ho.symm.trans ho'
  | some origin =>
    simp only [ho] at h
    by_cases hspace : (origin.toNat + s.state.position + n) % 0x100000000 > addressSpace
    · rw [if_pos hspace] at h
      cases h
      refine .inl ⟨rfl, fun hover => ?_⟩
      obtain ⟨_, ho', hle⟩ := hover.space
      cases ho.symm.trans ho'
      exact absurd hspace (Nat.not_lt.2 hle)
    · rw [if_neg hspace, Run.update_bind_apply] at h
      by_cases hpast : (s.state.reserved + n) % 0x10000000000000000 > bankSize
      · rw [if_pos hpast] at h
        cases h
        exact .inr ⟨⟨hasks, ⟨origin, ho, Nat.not_lt.1 hspace⟩, hpast⟩, rfl⟩
      · rw [if_neg hpast] at h
        cases h

/-- A check for room that fails leaves the bank as it was. -/
theorem state_of_ensure {amount : Nat} (h : Bank.ensure amount pos s = .error x t) :
    t.state = s.state := by
  unfold Bank.ensure at h
  rw [Run.read_bind_apply] at h
  split at h <;> cases h
  rfl

/-- Bytes for which there is no room are not written at all. -/
theorem state_of_writeBytes {bytes : List UInt8}
    (h : Bank.writeBytes bytes pos s = .error x t) : t.state = s.state := by
  unfold Bank.writeBytes at h
  cases he : Bank.ensure bytes.length pos s with
  | ok _ v =>
    rw [Run.bind_apply_of_ok he] at h
    cases h
  | error y v =>
    rw [Run.bind_apply_of_error he] at h
    cases h
    exact state_of_ensure he

/-- Too many errors are noticed before the byte is written. -/
theorem state_of_writeByte {value : UInt16} (h : Bank.writeByte value pos s = .error x t) :
    t.state = s.state := by
  unfold Bank.writeByte at h
  cases he : Bank.ensure 1 pos s with
  | error y v =>
    rw [Run.bind_apply_of_error he] at h
    cases h
    exact state_of_ensure he
  | ok _ v =>
    rw [Run.bind_apply_of_ok he] at h
    obtain ⟨-, rfl⟩ := ensure_eq_ok.1 he
    unfold Bank.checkByte at h
    split at h
    · rcases Nat.lt_or_ge (v.log.count + 1) v.log.limit with hroom | hfull
      · rw [Run.bind_apply_of_ok (Run.error_of_room hroom)] at h
        cases h
      · rw [Run.bind_apply_of_error (Run.error_of_full hfull)] at h
        cases h
        rfl
    · cases h

/-- Where seeking fails, the cursor stays. -/
theorem state_of_seek {address : UInt16} (h : Bank.seek address pos s = .error x t) :
    t.state = s.state := by
  unfold Bank.seek at h
  rw [Run.read_bind_apply] at h
  cases ho : s.state.origin with
  | none =>
    simp only [ho] at h
    cases h
    rfl
  | some origin =>
    simp only [ho] at h
    split at h <;> cases h
    rfl

/-- An operation that is abandoned leaves the bank as it was, unless it reserves more than the bank
has: then the reservation stays. -/
theorem ending_of_error (h : op.perform pos s = .error x t) :
    t.state = s.state ∧ (∀ n, ¬ op.Overruns s.state n) ∨
      ∃ n, op.Overruns s.state n ∧ t.state = s.state.extended n := by
  -- Only two of the operations ask for space.
  have hquiet (hasks : op.asks? s.state = none) (hstate : t.state = s.state) :
      t.state = s.state ∧ (∀ n, ¬ op.Overruns s.state n) ∨
        ∃ n, op.Overruns s.state n ∧ t.state = s.state.extended n :=
    .inl ⟨hstate, fun n hover => by cases hasks.symm.trans hover.asks⟩
  have hexpand {n : Nat} (hasks : op.asks? s.state = some n)
      (he : Bank.expand n pos s = .error x t) :
      t.state = s.state ∧ (∀ n, ¬ op.Overruns s.state n) ∨
        ∃ n, op.Overruns s.state n ∧ t.state = s.state.extended n := by
    rcases ending_of_expand hasks he with ⟨hstate, hnot⟩ | hover
    · refine .inl ⟨hstate, fun m hm => hnot ?_⟩
      cases hasks.symm.trans hm.asks
      exact hm
    · exact .inr ⟨n, hover⟩
  cases op with
  | org address =>
    have h : Bank.org address pos s = .error x t := h
    unfold Bank.org at h
    rw [Run.read_bind_apply] at h
    cases hc : s.state.programCounter? with
    | none =>
      simp only [hc] at h
      cases h
    | some current =>
      simp only [hc] at h
      by_cases hlt : address.toNat < current
      · rw [if_pos hlt] at h
        cases h
        refine hquiet ?_ rfl
        simp [asks?, hc, Nat.not_le.2 hlt]
      · rw [if_neg hlt] at h
        refine hexpand ?_ h
        simp [asks?, hc, Nat.not_lt.1 hlt]
  | seek address => exact hquiet rfl (state_of_seek h)
  | expand amount => exact hexpand rfl h
  | writeByte value => exact hquiet rfl (state_of_writeByte h)
  | writeWord value => exact hquiet rfl (state_of_writeBytes h)
  | writeBytes bytes => exact hquiet rfl (state_of_writeBytes h)
  | rewind => cases h

end Operation

/-- The banks that operations lead to. Operations may go on after one of them was abandoned, and
amounts are 64-bit numbers. -/
inductive Reached : Bank → Prop
  | new : Reached {}
  | next {b : Bank} (reached : Reached b) (op : Operation) (pos : Position) (log : Log)
      (amount : op.amount < 0x10000000000000000) :
      Reached (Run.ending (op.perform pos { state := b, log })).state

/-- The cursor and the reservation are 64-bit numbers. -/
structure Registers (b : Bank) : Prop where
  position : b.position < 0x10000000000000000
  reserved : b.reserved < 0x10000000000000000

/-- Only a reservation of nothing leaves a bank as it was. -/
theorem Registers.extended_eq_self {b : Bank} (h : b.Registers) {n : Nat}
    (hn : n < 0x10000000000000000) : b.extended n = b ↔ n = 0 := by
  have hreserved := h.reserved
  constructor
  · intro hsame
    have hsame : (b.reserved + n) % 0x10000000000000000 = b.reserved :=
      congrArg Bank.reserved hsame
    omega
  · rintro rfl
    unfold extended
    rw [Nat.add_zero, Nat.add_zero, Nat.mod_eq_of_lt hreserved, Nat.mod_eq_of_lt h.position]

/-- The sums wrap around, so they stay 64-bit numbers. -/
theorem registers_extended (n : Nat) (b : Bank) : (b.extended n).Registers :=
  ⟨Nat.mod_lt _ (by decide), Nat.mod_lt _ (by decide)⟩

/-- The cursor stays below the reservation, so it stays a 64-bit number. -/
theorem Registers.store {b : Bank} (h : b.Registers) {bytes : List UInt8}
    (hroom : b.position + bytes.length ≤ b.reserved) : (b.store bytes).Registers :=
  ⟨Nat.lt_of_le_of_lt hroom h.reserved, h.reserved⟩

/-- An operation that is carried out keeps 64-bit numbers. -/
theorem Registers.perform {op : Operation} {pos : Position} {s t : Logged Bank} {u : Unit}
    (hs : s.state.Registers) (h : op.perform pos s = .ok u t) : t.state.Registers := by
  cases op with
  | org address =>
    rcases org_eq_ok.1 h with ⟨-, rfl⟩ | ⟨current, -, -, hexpand⟩
    · exact ⟨hs.position, hs.reserved⟩
    · obtain ⟨-, -, -, -, rfl⟩ := expand_eq_ok.1 hexpand
      exact registers_extended _ _
  | seek address =>
    obtain ⟨origin, -, -, hinside, rfl⟩ := seek_eq_ok.1 h
    exact ⟨Nat.lt_of_le_of_lt hinside hs.reserved, hs.reserved⟩
  | expand amount =>
    obtain ⟨-, -, -, -, rfl⟩ := expand_eq_ok.1 h
    exact registers_extended _ _
  | writeByte value =>
    obtain ⟨hroom, hstore, -, -⟩ := writeByte_of_ok h
    rw [hstore]
    exact hs.store hroom
  | writeWord value =>
    obtain ⟨hroom, rfl⟩ := writeBytes_eq_ok.1 h
    exact hs.store hroom
  | writeBytes bytes =>
    obtain ⟨hroom, rfl⟩ := writeBytes_eq_ok.1 h
    exact hs.store hroom
  | rewind =>
    cases h
    exact ⟨(by decide : 0 < 0x10000000000000000), hs.reserved⟩

/-- All banks that operations lead to have 64-bit numbers, also after an abandoned operation. -/
theorem Reached.registers {b : Bank} (h : b.Reached) : b.Registers := by
  induction h with
  | new => exact ⟨by decide, by decide⟩
  | @next b _ op pos log _ ih =>
    cases hr : op.perform pos { state := b, log } with
    | ok u t => exact ih.perform hr
    | error x t =>
      rcases Operation.ending_of_error hr with ⟨hstate, -⟩ | ⟨n, -, hstate⟩
      · exact (congrArg Registers hstate).mpr ih
      · exact (congrArg Registers hstate).mpr (registers_extended n b)

/-- An operation asks for a 64-bit number of bytes. -/
theorem Operation.lt_of_asks {op : Operation} {b : Bank} {n : Nat}
    (hamount : op.amount < 0x10000000000000000) (h : op.asks? b = some n) :
    n < 0x10000000000000000 := by
  cases op with
  | expand amount =>
    cases h
    exact hamount
  | org address =>
    obtain ⟨current, -, hn⟩ := Option.bind_eq_some_iff.1 h
    have haddress := address.toNat_lt
    split at hn <;> cases hn
    omega
  | _ => cases h

/-- An operation that is abandoned leaves the bank exactly as it was, unless it reserves some space
more than the bank has. In that case, and in no other, the cursor and the reservation have moved. -/
theorem Operation.abandoned_iff {op : Operation} {pos : Position} {b : Bank} {log : Log} {x : Abort}
    {t : Logged Bank} (hb : b.Reached) (hamount : op.amount < 0x10000000000000000)
    (h : op.perform pos { state := b, log } = .error x t) :
    (t.state = b ↔ ∀ n, op.Overruns b n → n = 0) ∧
      ∀ n, op.Overruns b n → t.state = b.extended n := by
  rcases ending_of_error h with ⟨hstate, hnot⟩ | ⟨n, hover, hstate⟩
  · exact ⟨iff_of_true hstate fun n hn => absurd hn (hnot n), fun n hn => absurd hn (hnot n)⟩
  · have hunique : ∀ m, op.Overruns b m → m = n := by
      intro m hm
      exact Option.some.inj (hm.asks.symm.trans hover.asks)
    have hself := hb.registers.extended_eq_self (lt_of_asks hamount hover.asks)
    refine ⟨?_, fun m hm => ?_⟩
    · rw [hstate, hself]
      exact ⟨fun hzero m hm => (hunique m hm).trans hzero, fun hall => hall n hover⟩
    · rw [hunique m hm]
      exact hstate

/-- A seek past the end of the reserved space is abandoned, and the bank stays as it was. -/
theorem Operation.abandoned_iff_seek :
    let b : Bank := (Run.ending ((org 0x8000).perform {} { state := {}, log := .empty 5 })).state
    ∃ x t, (seek 0x8001).perform {} { state := b, log := .empty 5 } = .error x t ∧ t.state = b := by
  intro b
  have hb : b.Reached := .next .new _ _ _ (by decide)
  have hstops : Run.stops (fun _ => true)
      ((seek 0x8001).perform {} { state := b, log := .empty 5 }) = true := by
    decide +kernel
  obtain ⟨x, t, ht, -⟩ := Run.exists_of_stops hstops
  refine ⟨x, t, ht, (abandoned_iff hb (by decide) ht).1.2 fun n hn => ?_⟩
  cases hn.asks

/-- A reservation of one byte more than a bank has is abandoned, but it stays. -/
theorem Operation.overrun_stays :
    let b : Bank := (Run.ending ((org 0x8000).perform {} { state := {}, log := .empty 5 })).state
    ∃ x t, (expand 8193).perform {} { state := b, log := .empty 5 } = .error x t ∧
      b.reserved = 0 ∧ t.state.reserved = 8193 ∧ t.state ≠ b := by
  intro b
  have hstops : Run.stops (fun t => decide (t.state.reserved = 8193))
      ((expand 8193).perform {} { state := b, log := .empty 5 }) = true := by
    decide +kernel
  obtain ⟨x, t, ht, hreserved⟩ := Run.exists_of_stops hstops
  have hreserved := of_decide_eq_true hreserved
  have hzero : b.reserved = 0 := by decide +kernel
  refine ⟨x, t, ht, hzero, hreserved, fun heq => ?_⟩
  rw [heq, hzero] at hreserved
  cases hreserved

end Bank

/-! ## How much fits -/

namespace Rom

/-- Ram is counted exactly, unless the amount is so large that an address wraps around. -/
theorem expandRam_eq_ok_of_lt {amount : Nat} {pos : Position} {s t : Logged Rom} {u : Unit}
    (hlt : ∀ counter ∈ s.state.ram, counter + amount < 0x100000000) :
    expandRam amount pos s = .ok u t ↔
      ∃ counter, s.state.ram = some counter ∧ counter + amount ≤ addressSpace ∧
        t = { s with state := { s.state with ram := some (counter + amount) } } := by
  rw [expandRam_eq_ok]
  refine exists_congr fun counter => and_congr_right fun hcounter => ?_
  rw [Nat.mod_eq_of_lt (hlt counter hcounter)]

/-- Of an amount of ram only the last 32 bits count. -/
theorem expandRam_mod (amount : Nat) (pos : Position) :
    expandRam (amount % 0x100000000) pos = expandRam amount pos := by
  unfold expandRam
  simp only [Nat.add_mod_mod]

namespace Operation

/-- Wherever operations have led, the checks of the two kinds of space are exact: for ram, unless
the amount comes within an address space of a 32-bit number's limit, and for banks, unless it comes
within a bank's size of a 64-bit number's limit. Of an amount of ram only the last 32 bits count. In
a bank the reservation wraps around at 64 bits. -/
theorem capacity_checked {settings : Settings} {log : Log} {ops : List (Operation × Position)}
    {s : Logged Rom}
    (hamounts : ∀ op pos, (op, pos) ∈ ops → op.amount + bankSize < 0x10000000000000000)
    (hs : performAll ops { state := Rom.empty settings, log } = .ok () s) (amount : Nat)
    (pos : Position) :
    (amount + addressSpace < 0x100000000 → ∀ t, Rom.expandRam amount pos s = .ok () t ↔
      ∃ counter, s.state.ram = some counter ∧ counter + amount ≤ addressSpace ∧
        t = { s with state := { s.state with ram := some (counter + amount) } }) ∧
    Rom.expandRam amount pos s = Rom.expandRam (amount % 0x100000000) pos s ∧
    ∀ i (v : Logged Bank), v.state = s.state.bank i →
      (amount + bankSize < 0x10000000000000000 → ∀ t, Bank.expand amount pos v = .ok () t ↔
        ∃ origin, v.state.origin = some origin ∧
          origin.toNat + v.state.position + amount ≤ addressSpace ∧
          v.state.reserved + amount ≤ bankSize ∧
          t = { v with state := v.state.enlarged amount }) ∧
      ∀ t, Bank.expand amount pos v = .ok () t ↔
        ∃ origin, v.state.origin = some origin ∧
          (origin.toNat + v.state.position + amount) % 0x100000000 ≤ addressSpace ∧
          (v.state.reserved + amount) % 0x10000000000000000 ≤ bankSize ∧
          t = { v with state := v.state.extended amount } := by
  obtain ⟨hsound, -⟩ := leads_of_performAll (sound_empty settings) hamounts hs
  refine ⟨fun hlt t => expandRam_eq_ok_of_lt fun counter hcounter => ?_, ?_, fun i v hv => ⟨?_, ?_⟩⟩
  · have hram := hsound.ram counter hcounter
    omega
  · rw [expandRam_mod]
  · intro hlt t
    exact Bank.Sound.expand_eq_ok (hv ▸ hsound.bank i) hlt
  · intro t
    exact Bank.expand_eq_ok

/-- The last two bytes of ram are there, once the counter stands before them. -/
theorem capacity_checked_last :
    ∃ s t, performAll [(.moveRam 0xFFFE, {})]
        { state := Rom.empty { mapper := 0, prg := 1, chr := 1 }, log := .empty 5 } = .ok () s ∧
      Rom.expandRam 2 {} s = .ok () t ∧ t.state.ram = some 0x10000 := by
  have hamounts : ∀ op pos, (op, pos) ∈ [(Operation.moveRam 0xFFFE, ({} : Position))] →
      op.amount + bankSize < 0x10000000000000000 := by
    intro op pos hop
    cases List.mem_singleton.1 hop
    decide
  exact ⟨_, _, rfl, ((capacity_checked hamounts rfl 2 {}).1 (by decide) _).2
    ⟨0xFFFE, rfl, by decide, rfl⟩, rfl⟩

/-- An amount of ram as large as all 32-bit numbers is taken for nothing. -/
theorem expandRam_wraps :
    ∃ s t, performAll [(.moveRam 0, {})]
        { state := Rom.empty { mapper := 0, prg := 1, chr := 1 }, log := .empty 5 } = .ok () s ∧
      s.state.ram = some 0 ∧ ¬ 0 + 0x100000000 ≤ addressSpace ∧
      Rom.expandRam 0x100000000 {} s = .ok () t ∧ t.state.ram = some 0 :=
  ⟨_, _, rfl, rfl, by decide, expandRam_eq_ok.2 ⟨0, rfl, by decide, rfl⟩,
    congrArg some (by decide : (0 + 0x100000000) % 0x100000000 = 0)⟩

end Operation

end Rom

end Cartridge
