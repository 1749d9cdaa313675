import Cartridge.Proofs.Derivation
import Cartridge.Proofs.Image

/-!
# Using a rom in any order

The passes reserve first and write afterwards. A rom does not ask for that: banks may be enlarged
after they were written to, rewound halfway, and written to again. Here its operations follow each
other in any order, up to the first one that is abandoned. Amounts are kept in 64 bits, so all of
this holds as long as no amount comes close to that limit.

Main definitions:

- `Bank.Operation` and `Rom.Operation`: what can be done to a bank, and to a rom.
- `Bank.Sound` and `Rom.Sound`: what always holds of a bank, and of a rom.
- `Rom.Operation.written`: the bytes that operations write, as chunks in the order of writing.
- `Chunk.last?`: the byte that was written last at an offset.

Main results:

- Theorem `Bank.Sound.expand_eq_ok`: in a sound bank space is counted exactly.
- Theorem `Bank.Operation.effect_of_ok`: what an operation on a bank may do.
- Theorem `Rom.Operation.leads_of_ok`: what an operation on a rom may do.
- Theorem `Rom.Operation.performAll_allocates`: what holds after any number of operations.
-/

namespace Cartridge

/-! ## Banks -/

namespace Bank

/-- The cursor does not leave what is reserved, which lies in the bank. Without an origin nothing is
reserved. -/
structure Sound (b : Bank) : Prop where
  position : b.position ≤ b.reserved
  reserved : b.reserved ≤ bankSize
  empty : b.origin = none → b.reserved = 0

theorem sound_empty : ({} : Bank).Sound :=
  ⟨Nat.le_refl 0, Nat.zero_le _, fun _ => rfl⟩

/-- The cursor may go back to the start. -/
theorem Sound.rewind {b : Bank} (h : b.Sound) : b.rewind.Sound :=
  ⟨Nat.zero_le _, h.reserved, h.empty⟩

/-- The bank with more space reserved at its cursor, where nothing wraps around. -/
def enlarged (amount : Nat) (b : Bank) : Bank :=
  { b with reserved := b.reserved + amount, position := b.position + amount }

/-- In a bank whose cursor is inside of what is reserved, space is counted exactly, unless the
amount is so large that the reservation wraps around. -/
theorem expand_eq_ok_of_lt {amount : Nat} {pos : Position} {s t : Logged Bank} {u : Unit}
    (hposition : s.state.position ≤ s.state.reserved)
    (hlt : s.state.reserved + amount < 0x10000000000000000) :
    expand amount pos s = .ok u t ↔
      ∃ origin, s.state.origin = some origin ∧
        origin.toNat + s.state.position + amount ≤ addressSpace ∧
        s.state.reserved + amount ≤ bankSize ∧
        t = { s with state := s.state.enlarged amount } := by
  have hextended : s.state.extended amount = s.state.enlarged amount := by
    unfold extended enlarged
    rw [Nat.mod_eq_of_lt hlt, Nat.mod_eq_of_lt (by omega)]
  rw [expand_eq_ok, hextended]
  refine exists_congr fun origin => and_congr_right fun _ => ?_
  -- What fits into the bank is too small for the address to wrap around.
  have hexact (hroom : s.state.reserved + amount ≤ bankSize) :
      (origin.toNat + s.state.position + amount) % 0x100000000 =
        origin.toNat + s.state.position + amount := by
    have horigin := origin.toNat_lt
    unfold bankSize at hroom
    exact Nat.mod_eq_of_lt (by omega)
  constructor
  · rintro ⟨hspace, hroom, ht⟩
    rw [hexact hroom] at hspace
    exact ⟨hspace, hroom, ht⟩
  · rintro ⟨hspace, hroom, ht⟩
    rw [hexact hroom]
    exact ⟨hspace, hroom, ht⟩

/-- In a sound bank space is counted exactly, for every amount that is not within a bank's size of
the largest 64-bit number. -/
theorem Sound.expand_eq_ok {amount : Nat} {pos : Position} {s t : Logged Bank} {u : Unit}
    (hs : s.state.Sound) (hamount : amount + bankSize < 0x10000000000000000) :
    expand amount pos s = .ok u t ↔
      ∃ origin, s.state.origin = some origin ∧
        origin.toNat + s.state.position + amount ≤ addressSpace ∧
        s.state.reserved + amount ≤ bankSize ∧
        t = { s with state := s.state.enlarged amount } := by
  have hreserved := hs.reserved
  exact expand_eq_ok_of_lt hs.position (by omega)

/-- What can be done to a bank. -/
inductive Operation where
  | org (address : UInt16)
  | seek (address : UInt16)
  | expand (amount : Nat)
  | writeByte (value : UInt16)
  | writeWord (value : UInt16)
  | writeBytes (bytes : List UInt8)
  | rewind

namespace Operation

/-- Performs an operation, on behalf of a position. -/
def perform (pos : Position) : Operation → Run Bank Unit
  | org address => Bank.org address pos
  | seek address => Bank.seek address pos
  | expand amount => Bank.expand amount pos
  | writeByte value => Bank.writeByte value pos
  | writeWord value => Bank.writeWord value pos
  | writeBytes bytes => Bank.writeBytes bytes pos
  | rewind => Run.update Bank.rewind

/-- The space that an operation is told to reserve. -/
def amount : Operation → Nat
  | expand amount => amount
  | _ => 0

/-- The bytes that an operation puts at the cursor. Of a value that is too large for a byte it is
the low one. -/
def bytes : Operation → List UInt8
  | writeByte value => [value.toUInt8]
  | writeWord value => littleEndian value
  | writeBytes bytes => bytes
  | _ => []

/-- The bytes that an operation puts into the bank with the given index. -/
def chunk (op : Operation) (index : Nat) (b : Bank) : Chunk where
  bank := index
  offset := b.position
  bytes := op.bytes

/-- What an operation may do to a bank. -/
structure Effect (op : Operation) (b c : Bank) : Prop where
  sound : c.Sound
  origin : ∀ o, b.origin = some o → c.origin = some o
  reserved : b.reserved ≤ c.reserved
  room : b.position + op.bytes.length ≤ b.reserved
  data : c.data = overwrite b.data b.position op.bytes

/-- Reserving more writes no bytes. The amount is so small that nothing wraps around. -/
theorem effect_of_expand {amount : Nat} {op : Operation} {pos : Position} {s t : Logged Bank}
    {u : Unit} (hs : s.state.Sound) (hamount : amount + bankSize < 0x10000000000000000)
    (hbytes : op.bytes = []) (h : Bank.expand amount pos s = .ok u t) :
    op.Effect s.state t.state := by
  obtain ⟨origin, horigin, -, hroom, rfl⟩ := (hs.expand_eq_ok hamount).1 h
  have hempty (hnone : s.state.origin = none) : s.state.reserved + amount = 0 := by
    cases horigin.symm.trans hnone
  refine ⟨⟨Nat.add_le_add_right hs.position amount, hroom, hempty⟩, fun _ ho => ho,
    Nat.le_add_right _ _, ?_, ?_⟩
  · rw [hbytes]
    exact hs.position
  · rw [hbytes]
    rfl

/-- Bytes for which there is room are put at the cursor. -/
theorem effect_of_store (op : Operation) {b : Bank} (hb : b.Sound)
    (hroom : b.position + op.bytes.length ≤ b.reserved) : op.Effect b (b.store op.bytes) :=
  ⟨⟨hroom, hb.reserved, hb.empty⟩, fun _ ho => ho, Nat.le_refl _, hroom, rfl⟩

/-- An operation that finishes keeps a bank sound, and changes nothing but the bytes that it
writes. -/
theorem effect_of_ok {op : Operation} {pos : Position} {s t : Logged Bank} {u : Unit}
    (hs : s.state.Sound) (hamount : op.amount + bankSize < 0x10000000000000000)
    (h : op.perform pos s = .ok u t) : op.Effect s.state t.state := by
  cases op with
  | org address =>
    rcases org_eq_ok.1 h with ⟨hcounter, rfl⟩ | ⟨current, -, -, hexpand⟩
    · have hnone : s.state.origin = none := Option.map_eq_none_iff.1 hcounter
      refine ⟨⟨hs.position, hs.reserved, nofun⟩, fun o ho => ?_, Nat.le_refl _, hs.position, rfl⟩
      cases hnone.symm.trans ho
    · refine effect_of_expand hs ?_ rfl hexpand
      have haddress := address.toNat_lt
      unfold bankSize
      omega
  | seek address =>
    obtain ⟨origin, -, -, hinside, rfl⟩ := seek_eq_ok.1 h
    exact ⟨⟨hinside, hs.reserved, hs.empty⟩, fun _ ho => ho, Nat.le_refl _, hs.position, rfl⟩
  | expand amount => exact effect_of_expand hs hamount rfl h
  | writeByte value =>
    obtain ⟨hroom, hstore, -, -⟩ := writeByte_of_ok h
    rw [hstore]
    exact effect_of_store (.writeByte value) hs hroom
  | writeWord value =>
    obtain ⟨hroom, rfl⟩ := writeBytes_eq_ok.1 h
    exact effect_of_store (.writeWord value) hs hroom
  | writeBytes bytes =>
    obtain ⟨hroom, rfl⟩ := writeBytes_eq_ok.1 h
    exact effect_of_store (.writeBytes bytes) hs hroom
  | rewind =>
    cases h
    exact ⟨hs.rewind, fun _ ho => ho, Nat.le_refl _, hs.position, rfl⟩

end Operation

end Bank

/-! ## The byte that was written last -/

namespace Chunk

/-- The byte of a chunk at an offset of a bank. -/
def byteAt? (c : Chunk) (i k : Nat) : Option UInt8 :=
  if c.bank = i ∧ c.offset ≤ k then c.bytes[k - c.offset]? else none

/-- The byte that was written last at an offset of a bank, if there is one. -/
def last? (chunks : List Chunk) (i k : Nat) : Option UInt8 :=
  chunks.reverse.findSome? fun c => c.byteAt? i k

variable {c : Chunk} {i k : Nat}

@[simp] theorem last?_nil (i k : Nat) : last? [] i k = none :=
  rfl

@[simp] theorem last?_singleton (c : Chunk) (i k : Nat) : last? [c] i k = c.byteAt? i k := by
  simp [last?]

/-- What was written later hides what was written before. -/
theorem last?_append (cs ds : List Chunk) (i k : Nat) :
    last? (cs ++ ds) i k = (last? ds i k).or (last? cs i k) := by
  simp [last?, List.findSome?_append]

/-- A chunk says nothing about other banks. -/
theorem byteAt?_of_ne (h : c.bank ≠ i) : c.byteAt? i k = none :=
  if_neg fun hc => h hc.1

/-- Nothing is written past the end of all the chunks of a bank. -/
theorem last?_eq_none {chunks : List Chunk} (h : ∀ c ∈ chunks, c.bank = i → c.stop ≤ k) :
    last? chunks i k = none := by
  refine List.findSome?_eq_none_iff.2 fun c hc => ?_
  unfold byteAt?
  split
  · rename_i hin
    have hstop := h c (List.mem_reverse.1 hc) hin.1
    unfold stop at hstop
    exact List.getElem?_eq_none (by omega)
  · rfl

end Chunk

/-- What a bank holds after bytes were replaced: a byte of the chunk, or what was there before. -/
theorem Bank.getElem_overwrite {data : Vector UInt8 bankSize} {i offset k : Nat}
    {bytes : List UInt8} (hk : k < bankSize) :
    (overwrite data offset bytes)[k] =
      (Chunk.byteAt? { bank := i, offset, bytes } i k).getD data[k] := by
  unfold Chunk.byteAt?
  by_cases hin : offset ≤ k ∧ k < offset + bytes.length
  · obtain ⟨m, rfl⟩ := Nat.exists_eq_add_of_le hin.1
    have hm : m < bytes.length := by omega
    rw [getElem_overwrite_inside hk hm, if_pos ⟨rfl, hin.1⟩]
    simp [hm]
  · rw [getElem_overwrite_of_outside hk (by omega)]
    split
    · rw [List.getElem?_eq_none (by simp only at *; omega)]
      rfl
    · rfl

/-! ## Roms -/

namespace Rom

variable {s t u : Rom} {cs ds : List Chunk}

/-- There are as many banks as the settings ask for, the active bank is one of them, all banks are
sound, and the ram counter does not leave the address space. -/
structure Sound (settings : Settings) (rom : Rom) : Prop where
  size : rom.banks.size = settings.bankCount
  active : ∀ i ∈ rom.active, i < settings.bankCount
  ram : ∀ counter ∈ rom.ram, counter ≤ addressSpace
  bank : ∀ i, (rom.bank i).Sound

/-- From one moment to a later one between which chunks are written: origins stay, reservations do
not shrink and enclose what is written, and other bytes stay as they are. -/
structure Leads (chunks : List Chunk) (s t : Rom) : Prop where
  origin : ∀ i o, (s.bank i).origin = some o → (t.bank i).origin = some o
  reserved : ∀ i, (s.bank i).reserved ≤ (t.bank i).reserved
  inside : ∀ c ∈ chunks, c.stop ≤ (t.bank c.bank).reserved
  data : ∀ i k (hk : k < bankSize),
    (t.bank i).data[k] = (Chunk.last? chunks i k).getD (s.bank i).data[k]

/-- A new rom has as many empty banks as its settings ask for, and none is active. -/
theorem sound_empty (settings : Settings) : (empty settings).Sound settings :=
  ⟨size_empty settings, nofun, nofun, fun i => bank_empty settings i ▸ Bank.sound_empty⟩

/-- A step that writes nothing and changes no more than cursors. -/
theorem Leads.of_cursors
    (h : ∀ i, (t.bank i).origin = (s.bank i).origin ∧ (t.bank i).reserved = (s.bank i).reserved ∧
      (t.bank i).data = (s.bank i).data) : Leads [] s t where
  origin i o ho := (h i).1.trans ho
  reserved i := Nat.le_of_eq (h i).2.1.symm
  inside _ hc := absurd hc List.not_mem_nil
  data i k hk := by simp only [(h i).2.2, Chunk.last?_nil, Option.getD_none]

theorem Leads.refl (s : Rom) : Leads [] s s :=
  .of_cursors fun _ => ⟨rfl, rfl, rfl⟩

/-- Chunks that are written one after the other. -/
theorem Leads.trans (hst : Leads cs s t) (htu : Leads ds t u) : Leads (cs ++ ds) s u where
  origin i o ho := htu.origin i o (hst.origin i o ho)
  reserved i := Nat.le_trans (hst.reserved i) (htu.reserved i)
  inside c hc := by
    rcases List.mem_append.1 hc with hc | hc
    · exact Nat.le_trans (hst.inside c hc) (htu.reserved c.bank)
    · exact htu.inside c hc
  data i k hk := by
    rw [htu.data i k hk, hst.data i k hk, Chunk.last?_append]
    cases Chunk.last? ds i k <;> rfl

/-- A run over a bank changes nothing but this bank, however it ends. -/
theorem ending_onBank (i : Nat) (act : Run Bank Unit) (s : Logged Rom) :
    (Run.ending (onBank i act s)).state =
      s.state.setBank i (Run.ending (act { state := s.state.bank i, log := s.log })).state := by
  unfold onBank Run.focus bank
  cases act { state := s.state.banks.getD i {}, log := s.log } <;> rfl

/-- A run over the active bank. Without one there is nothing to do. -/
def onActive (act : Run Bank Unit) : Run Rom Unit := do
  match (← Run.read).active with
  | none => pure ()
  | some i => Rom.onBank i act

/-- With an active bank the run is one over that bank. -/
theorem onActive_of_some {act : Run Bank Unit} {s : Logged Rom} {i : Nat}
    (hi : s.state.active = some i) : onActive act s = onBank i act s := by
  unfold onActive
  rw [Run.read_bind_apply, hi]

/-- Without an active bank nothing happens. -/
theorem onActive_of_none {act : Run Bank Unit} {s : Logged Rom} (hnone : s.state.active = none) :
    onActive act s = .ok () s := by
  unfold onActive
  rw [Run.read_bind_apply, hnone]
  rfl

/-- What can be done to a rom. -/
inductive Operation where
  | switchBank (index : UInt16)
  | moveRam (address : UInt16)
  | expandRam (amount : Nat)
  | rewind
  /-- An operation on the active bank. -/
  | bank (op : Bank.Operation)

namespace Operation

/-- Performs an operation, on behalf of a position. -/
def perform (pos : Position) : Operation → Run Rom Unit
  | switchBank index => Rom.switchBank index pos
  | moveRam address => Run.update (Rom.moveRam address)
  | expandRam amount => Rom.expandRam amount pos
  | rewind => Run.update Rom.rewind
  | bank op => onActive (op.perform pos)

/-- Performs operations, up to the first one that is abandoned. -/
def performAll : List (Operation × Position) → Run Rom Unit
  | [] => pure ()
  | (op, pos) :: rest => do
    op.perform pos
    performAll rest

/-- The space that an operation is told to reserve. -/
def amount : Operation → Nat
  | expandRam amount => amount
  | bank op => op.amount
  | _ => 0

/-- The bytes that an operation puts into the active bank. -/
def chunks (rom : Rom) : Operation → List Chunk
  | bank op => rom.active.toList.map fun i => op.chunk i (rom.bank i)
  | _ => []

/-- The bytes that operations write, in the order of writing. -/
def written : List (Operation × Position) → Logged Rom → List Chunk
  | [], _ => []
  | (op, pos) :: rest, s => op.chunks s.state ++
    match op.perform pos s with
    | .ok _ t => written rest t
    | .error _ _ => []

variable {op : Operation} {ops more : List (Operation × Position)} {pos : Position}
  {settings : Settings} {s t u : Logged Rom}

/-- An operation on the active bank that finishes keeps the rom sound, and writes its bytes at the
cursor of this bank. -/
theorem leads_of_bank {op : Bank.Operation} {i : Nat} (hs : s.state.Sound settings)
    (hi : s.state.active = some i) (hamount : op.amount + bankSize < 0x10000000000000000)
    (h : Rom.onBank i (op.perform pos) s = .ok () t) :
    t.state.Sound settings ∧
      Leads [op.chunk i (s.state.bank i)] s.state t.state := by
  obtain ⟨b, hb, rfl⟩ := onBank_eq_ok.1 h
  have heffect := op.effect_of_ok (hs.bank i) hamount hb
  have hsize : i < s.state.banks.size := hs.size ▸ hs.active i hi
  have hself := bank_setBank_self hsize b.state
  have hother {j : Nat} (hj : j ≠ i) : (s.state.setBank i b.state).bank j = s.state.bank j :=
    bank_setBank_of_ne hj b.state
  constructor
  · refine ⟨?_, hs.active, hs.ram, fun j => ?_⟩
    · rw [size_setBank, hs.size]
    · by_cases hj : j = i
      · rw [hj, hself]
        exact heffect.sound
      · rw [hother hj]
        exact hs.bank j
  · refine ⟨fun j o ho => ?_, fun j => ?_, fun c hc => ?_, fun j k hk => ?_⟩
    · by_cases hj : j = i
      · subst hj
        rw [hself]
        exact heffect.origin o ho
      · rw [hother hj]
        exact ho
    · by_cases hj : j = i
      · subst hj
        rw [hself]
        exact heffect.reserved
      · apply Nat.le_of_eq
        rw [hother hj]
    · rw [List.mem_singleton.1 hc]
      show _ ≤ ((s.state.setBank i b.state).bank i).reserved
      rw [hself]
      exact Nat.le_trans heffect.room heffect.reserved
    · rw [Chunk.last?_singleton]
      by_cases hj : j = i
      · subst hj
        simp only [hself, heffect.data]
        exact Bank.getElem_overwrite hk
      · have hnone : (op.chunk i (s.state.bank i)).byteAt? j k = none :=
          Chunk.byteAt?_of_ne (Ne.symm hj)
        simp only [hother hj, hnone, Option.getD_none]

/-- An operation that finishes keeps a rom sound. -/
theorem leads_of_ok (hs : s.state.Sound settings)
    (hamount : op.amount + bankSize < 0x10000000000000000) (h : op.perform pos s = .ok () t) :
    t.state.Sound settings ∧ Leads (op.chunks s.state) s.state t.state := by
  cases op with
  | switchBank index =>
    obtain ⟨hindex, rfl⟩ := switchBank_eq_ok.1 h
    refine ⟨⟨hs.size, ?_, hs.ram, hs.bank⟩, .of_cursors fun _ => ⟨rfl, rfl, rfl⟩⟩
    rintro _ ⟨⟩
    exact hs.size ▸ hindex
  | moveRam address =>
    cases h
    refine ⟨⟨hs.size, hs.active, ?_, hs.bank⟩, .of_cursors fun _ => ⟨rfl, rfl, rfl⟩⟩
    rintro _ ⟨⟩
    exact Nat.le_of_lt address.toNat_lt
  | expandRam amount =>
    obtain ⟨counter, -, hspace, rfl⟩ := expandRam_eq_ok.1 h
    refine ⟨⟨hs.size, hs.active, ?_, hs.bank⟩, .of_cursors fun _ => ⟨rfl, rfl, rfl⟩⟩
    rintro _ ⟨⟩
    exact hspace
  | rewind =>
    cases h
    refine ⟨⟨?_, nofun, hs.ram, fun i => ?_⟩, .of_cursors fun i => ?_⟩
    · rw [← hs.size]
      exact Array.size_map
    · rw [bank_rewind]
      exact (hs.bank i).rewind
    · rw [bank_rewind]
      exact ⟨rfl, rfl, rfl⟩
  | bank op =>
    cases hi : s.state.active with
    | none =>
      cases (onActive_of_none hi).symm.trans h
      rw [chunks, hi]
      exact ⟨hs, .refl _⟩
    | some i =>
      rw [chunks, hi]
      exact leads_of_bank hs hi hamount ((onActive_of_some hi).symm.trans h)

/-- So do any number of operations that finish. -/
theorem leads_of_performAll (hs : s.state.Sound settings)
    (hamount : ∀ op pos, (op, pos) ∈ ops → op.amount + bankSize < 0x10000000000000000)
    (h : performAll ops s = .ok () t) :
    t.state.Sound settings ∧ Leads (written ops s) s.state t.state := by
  induction ops generalizing s with
  | nil =>
    cases h
    exact ⟨hs, .refl _⟩
  | cons first rest ih =>
    obtain ⟨op, pos⟩ := first
    obtain ⟨_, v, hv, hrest⟩ := Run.bind_eq_ok.1 h
    obtain ⟨hvsound, hsv⟩ := leads_of_ok hs (hamount op pos List.mem_cons_self) hv
    obtain ⟨htsound, hvt⟩ :=
      ih hvsound (fun op pos hop => hamount op pos (List.mem_cons_of_mem _ hop)) hrest
    refine ⟨htsound, ?_⟩
    simp only [written, hv]
    exact hsv.trans hvt

/-- Operations may be performed in two parts, and what they write is what both parts write. -/
theorem performAll_append (hs : performAll ops s = .ok () t) :
    performAll (ops ++ more) s = performAll more t ∧
      written (ops ++ more) s = written ops s ++ written more t := by
  induction ops generalizing s with
  | nil =>
    cases hs
    exact ⟨rfl, rfl⟩
  | cons first rest ih =>
    obtain ⟨op, pos⟩ := first
    obtain ⟨_, v, hv, hrest⟩ := Run.bind_eq_ok.1 hs
    obtain ⟨hperform, hwritten⟩ := ih hrest
    constructor
    · exact (Run.bind_apply_of_ok hv).trans hperform
    · simp only [List.cons_append, written, hv, hwritten, List.append_assoc]

/-- An operation on the active bank leaves every other bank as it is, however it ends. -/
theorem bank_ending_of_ne {i j : Nat} (hi : s.state.active = some i) (hj : j ≠ i)
    (op : Bank.Operation) (pos : Position) :
    (Run.ending ((bank op).perform pos s)).state.bank j = s.state.bank j := by
  have hperform : (bank op).perform pos s = onBank i (op.perform pos) s := onActive_of_some hi
  rw [hperform, ending_onBank]
  exact bank_setBank_of_ne hj _

/-- After any operations that finish, in any order, a rom is sound. Between an earlier moment and a
later one origins do not change and reservations do not shrink. Every byte is the one that was
written last at its offset, or padding; so there is nothing but padding past the reserved space. The
next operation on the active bank leaves every other bank as it is, even if it is abandoned. -/
theorem performAll_allocates {log : Log}
    (hamount : ∀ op pos, (op, pos) ∈ ops ++ more → op.amount < 0x80000000)
    (hs : performAll ops { state := Rom.empty settings, log } = .ok () s)
    (ht : performAll more s = .ok () t) :
    t.state.Sound settings ∧
      (∀ i, (t.state.bank i).data.toList.length = 8192) ∧
      (∀ i, (t.state.bank i).origin = none →
        (t.state.bank i).position = 0 ∧ (t.state.bank i).reserved = 0) ∧
      (∀ i origin, (s.state.bank i).origin = some origin →
        (t.state.bank i).origin = some origin) ∧
      (∀ i, (s.state.bank i).reserved ≤ (t.state.bank i).reserved) ∧
      (∀ i k (hk : k < bankSize), (t.state.bank i).data[k] =
        (Chunk.last? (written (ops ++ more) { state := Rom.empty settings, log }) i k).getD 0xFF) ∧
      (∀ i k (hk : k < bankSize), (t.state.bank i).reserved ≤ k →
        (t.state.bank i).data[k] = 0xFF) ∧
      ∀ i j, t.state.active = some i → j ≠ i → ∀ (op : Bank.Operation) pos,
        (Run.ending ((bank op).perform pos t)).state.bank j = t.state.bank j := by
  have hbound : ∀ op pos, (op, pos) ∈ ops ++ more →
      op.amount + bankSize < 0x10000000000000000 := by
    intro op pos hop
    have hlt := hamount op pos hop
    unfold bankSize
    omega
  have hboth : performAll (ops ++ more) { state := Rom.empty settings, log } = .ok () t :=
    (performAll_append hs).1.trans ht
  obtain ⟨hsound, hleads⟩ := leads_of_performAll (sound_empty settings) hbound hboth
  obtain ⟨hmiddle, -⟩ := leads_of_performAll (sound_empty settings)
    (fun op pos hop => hbound op pos (List.mem_append_left _ hop)) hs
  obtain ⟨-, hlater⟩ := leads_of_performAll hmiddle
    (fun op pos hop => hbound op pos (List.mem_append_right _ hop)) ht
  have hdata : ∀ i k (hk : k < bankSize), (t.state.bank i).data[k] =
      (Chunk.last? (written (ops ++ more) { state := Rom.empty settings, log }) i k).getD 0xFF := by
    intro i k hk
    rw [hleads.data i k hk]
    simp [bank_empty, padding]
  refine ⟨hsound, fun i => ?_, fun i hnone => ?_, hlater.origin, hlater.reserved, hdata,
    fun i k hk hpast => ?_, fun i j hi hj op pos => bank_ending_of_ne hi hj op pos⟩
  · exact Vector.length_toList
  · have hzero := (hsound.bank i).empty hnone
    exact ⟨Nat.le_zero.1 (hzero ▸ (hsound.bank i).position), hzero⟩
  · rw [hdata i k hk, Chunk.last?_eq_none]
    · rfl
    · intro c hc hbank
      exact Nat.le_trans (hbank ▸ hleads.inside c hc) hpast

/-- Writes that overlap, one of them of a value that is too large for a byte. -/
def overlapping : List (Operation × Position) :=
  [(.moveRam 0x200, {}), (.expandRam 16, {}), (.switchBank 1, {}), (.bank (.org 0xC000), {}),
    (.bank (.expand 4), {}), (.bank .rewind, {}), (.bank (.writeWord 0x1234), {}),
    (.bank (.writeByte 0x145), {}), (.bank (.seek 0xC001), {}), (.bank (.writeBytes [7, 8]), {})]

/-- More space in the middle of what is written, and one more write. -/
def enlarging : List (Operation × Position) :=
  [(.rewind, {}), (.switchBank 1, {}), (.bank (.expand 2), {}), (.bank (.writeByte 9), {})]

/-- The later of two writes counts where they overlap, in one run or in two, and an offset to which
nothing was written keeps its padding. -/
theorem performAll_allocates_overlapping :
    let start : Logged Rom :=
      { state := Rom.empty { mapper := 0, prg := 1, chr := 1 }, log := .empty 5 }
    ∃ s t, performAll overlapping start = .ok () s ∧ performAll enlarging s = .ok () t ∧
      t.state.Sound { mapper := 0, prg := 1, chr := 1 } ∧ (t.state.bank 1).reserved = 6 ∧
      (t.state.bank 1).data[1] = 7 ∧ (t.state.bank 1).data[2] = 9 ∧
      (t.state.bank 1).data[3] = 0xFF := by
  intro start
  have hfirst : Run.finishes (fun s => Run.finishes
      (fun t => decide ((t.state.bank 1).reserved = 6)) (performAll enlarging s))
      (performAll overlapping start) = true := by
    decide +kernel
  obtain ⟨_, s, hs, hsecond⟩ := Run.exists_of_finishes hfirst
  obtain ⟨_, t, ht, hreserved⟩ := Run.exists_of_finishes hsecond
  have hamount : ∀ op pos, (op, pos) ∈ overlapping ++ enlarging → op.amount < 0x80000000 := by
    intro op pos hop
    have hall : ∀ entry ∈ overlapping ++ enlarging, entry.1.amount < 0x80000000 := by decide
    exact hall (op, pos) hop
  obtain ⟨hsound, -, -, -, -, hdata, -⟩ := performAll_allocates hamount hs ht
  refine ⟨s, t, hs, ht, hsound, of_decide_eq_true hreserved, ?_, ?_, ?_⟩
  · exact (hdata 1 1 (by decide)).trans (by decide +kernel)
  · exact (hdata 1 2 (by decide)).trans (by decide +kernel)
  · exact (hdata 1 3 (by decide)).trans (by decide +kernel)

end Operation

end Rom

end Cartridge
