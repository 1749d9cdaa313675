import Cartridge.Proofs.Emission
import Cartridge.Proofs.EmissionFrame
import Cartridge.Proofs.Visits

/-!
# Nodes in the layout and in the emission

What the layout has settled for a node is what the emission does there. If both passes come to a
node with the same bank active and with every cursor in the same place, and the emission of the node
finishes, then the same is true after it.

Main definitions:

- `Context.Aligned`: the same bank is active, and the cursors stand in the same places.
- `LaidOut`: what the layout has settled for a node that has code.
- `Stage`: where the two passes stand.

Main results:

- Theorems `Statement.laidOut` and `Command.laidOut`: what the layout has settled.
- Theorem `LaidOut.wrote`: the emission writes as many bytes as were reserved.
- Theorem `LaidOut.finish`: the two passes stay aligned.
- Theorem `LaidOut.quiet`: nothing is reported about placement.
- Theorems `Relocation.emitBank_of_stage` and `Relocation.emitDest_of_stage`: relocations are
  repeated.
-/

namespace Cartridge

/-! ## Nodes that have code -/

namespace Context

/-- The same bank is active, and the cursors stand in the same places. -/
structure Aligned (s t : Context) : Prop where
  active : t.active? = s.active?
  cursor : ∀ i, (t.bank i).position = (s.bank i).position

/-- The banks of a context depend on its rom only. -/
theorem bank_of_rom {s t : Context} (h : t.rom = s.rom) (i : Nat) : t.bank i = s.bank i := by
  rw [bank, h, bank]

theorem active?_of_rom {s t : Context} (h : t.rom = s.rom) : t.active? = s.active? := by
  rw [active?, h, active?]

end Context

/-- Space was reserved in the active bank. -/
structure Reserved (i : Nat) (origin : UInt16) (n : Nat) (p q : Context) : Prop where
  active : p.active? = some i
  origin : (p.bank i).origin = some origin
  fits : ((p.bank i).extended n).reserved ≤ bankSize
  rom : q.rom = (p.setBank i ((p.bank i).extended n)).rom

/-- What the layout has settled for a node: either it has no code, and nothing is to be emitted, or
space was reserved for its code. A node that is there for its bytes has no code only if something
was reported. What is emitted is decided by what is recorded at a location. -/
inductive LaidOut (n : Node) (m : Location) (p : Context) (q : Logged Context) :
    Option Code → Pass Unit → Prop
  | nothing {emission : Pass Unit} (excuse : n.writes = true → 0 < q.log.count)
      (rom : q.state.rom = p.rom)
      (emits : ∀ e : Logged Context, q.state.SameAt m e.state → emission e = .ok () e) :
      LaidOut n m p q none emission
  | reserved {i : Nat} {origin : UInt16} {code : Code} {emission act : Pass Unit}
      (space : Reserved i origin code.size p q.state) (emits : Pass.Emits act code)
      (same : ∀ e : Logged Context, q.state.SameAt m e.state → emission e = act e) :
      LaidOut n m p q (some code) emission

namespace Reserved

variable {i n : Nat} {origin : UInt16} {p q : Context}

theorem bankCount (h : Reserved i origin n p q) : q.bankCount = p.bankCount := by
  rw [Context.bankCount, h.rom, ← Context.bankCount_setBank p i]
  rfl

theorem active?_eq (h : Reserved i origin n p q) : q.active? = p.active? := by
  rw [Context.active?_of_rom h.rom, Context.active?_setBank]

theorem bank_self (h : Reserved i origin n p q) (hp : p.Laid) :
    q.bank i = (p.bank i).extended n := by
  rw [Context.bank_of_rom h.rom, Context.bank_setBank_self (hp.active i h.active)]

theorem bank_of_ne (h : Reserved i origin n p q) {j : Nat} (hj : j ≠ i) : q.bank j = p.bank j := by
  rw [Context.bank_of_rom h.rom, Context.bank_setBank_of_ne hj]

/-- A moderate amount is reserved exactly. -/
theorem reserved_self (h : Reserved i origin n p q) (hp : p.Laid) (hn : n < Layout.moderate) :
    (q.bank i).reserved = (p.bank i).reserved + n := by
  rw [h.bank_self hp]
  exact Layout.reserved_extended (hp.bank i) hn

end Reserved

/-- Space was reserved for code. -/
theorem LaidOut.of_reserve {n : Node} {m : Location} {p : Context} {q s t : Logged Context}
    {what : String} {size : Nat} {pos : Position} {code : Code} {emission act : Pass Unit}
    (h : Pass.reserve what size pos s = .ok () t) (hp : s.state.rom = p.rom)
    (hq : q.state.rom = t.state.rom) (hsize : code.size = size) (emits : Pass.Emits act code)
    (same : ∀ e : Logged Context, q.state.SameAt m e.state → emission e = act e) :
    LaidOut n m p q (some code) emission := by
  subst hsize
  obtain ⟨i, origin, hi, ho, -, hfits, rfl⟩ := Pass.reserve_eq_ok.1 h
  rw [Context.active?_of_rom hp] at hi
  rw [Context.bank_of_rom hp] at ho hfits
  refine .reserved ⟨hi, ho, hfits, ?_⟩ emits same
  rw [hq]
  simp only [Context.setBank, Context.bank_of_rom hp, hp]

namespace Command

/-- Deciding the form of a memory operand leaves the rom alone. -/
theorem rom_of_encode {swapped : Bool} {receiver : Located} {argument : Option Located}
    {shape : Shape} {p t : Logged Context} {encoding : Encoding}
    (h : encode swapped receiver argument shape p = .ok encoding t) :
    t.state.rom = p.state.rom := by
  rcases shape with o | ⟨lead, o | ⟨short, long⟩, side⟩ | instructions
  case memory.either =>
    unfold encode at h
    obtain ⟨zero, v, hzero, hnext⟩ := Run.bind_eq_ok.1 h
    have hv : v.state.rom = p.state.rom := by
      rcases hpick : side.pick swapped receiver argument with _ | ⟨⟨mode, _ | e, _⟩, location⟩ <;>
        rw [hpick] at hzero
      case some.some =>
        obtain ⟨value, w, hw, hret⟩ := Run.bind_eq_ok.1 hzero
        cases hret
        rw [(Pass.fold_of_ok hw).1]
      all_goals
        cases hzero
        rfl
    cases zero <;> cases hnext <;> exact hv
  all_goals
    cases h
    rfl

/-- Selecting an encoding leaves the rom alone. -/
theorem rom_of_select {c : Command} {receiver : Operand} {receiverAt argumentAt : Location}
    {p t : Logged Context} {selection : Option Selection}
    (h : c.select receiver receiverAt argumentAt p = .ok selection t) :
    t.state.rom = p.state.rom := by
  obtain ⟨_, -, -, hstate, -⟩ | ⟨shape, encoding, -, hencode, -⟩ := select_of_ok h
  · rw [hstate]
  · exact rom_of_encode hencode

/-- A command without an encoding is reported. -/
theorem count_of_select {c : Command} {receiver : Operand} {receiverAt argumentAt : Location}
    {p t : Logged Context} (h : c.select receiver receiverAt argumentAt p = .ok none t) :
    0 < t.log.count := by
  obtain ⟨_, -, -, -, hcount⟩ | ⟨_, _, -, -, hsome⟩ := select_of_ok h
  · exact hcount
  · cases hsome

/-- What the layout settles for a command. -/
theorem laidOut {c : Command} {receiver : Operand} {receiverAt argumentAt : Location}
    {p q : Logged Context} (h : c.layOut receiver receiverAt argumentAt p = .ok () q) :
    LaidOut (.command receiver receiverAt c) argumentAt p.state q
        ((Node.command receiver receiverAt c).code? q.state argumentAt)
        (c.emit receiver receiverAt argumentAt) ∧
      ∀ code ∈ (Node.command receiver receiverAt c).code? q.state argumentAt, code.size ≤ 5 := by
  obtain ⟨selection, t, hsel, hat, hnext⟩ := recorded_of_layOut h
  have hrom := rom_of_select hsel
  cases selection with
  | none =>
    have hcount := count_of_select hsel
    simp only [Node.code?, hat, Option.map_none]
    cases hnext
    refine ⟨.nothing (fun _ => hcount) hrom fun e he => ?_, fun _ h => by cases h⟩
    unfold emit
    rw [Run.read_bind_apply, he.selections.trans hat]
    rfl
  | some selection =>
    simp only [Node.code?, hat, Option.map_some]
    have hsized := sized_of_select hsel
    have hsize := Selection.size_code hsized (receiver, receiverAt)
      (c.argument.map fun arg => (arg, argumentAt))
    constructor
    · refine .of_reserve hnext hrom rfl hsize (emits_selection selection _ _ c.pos) fun e he => ?_
      unfold emit
      rw [Run.read_bind_apply, he.selections, hat]
    · rintro _ ⟨⟩
      rw [hsize]
      exact hsized.size_le

end Command

/-- What the layout settles for a branch. -/
theorem Branch.laidOut {b : Branch} {location : Location} {p q : Logged Context}
    (h : b.layOut location p = .ok () q) :
    LaidOut (.statement (.branch b)) location p.state q
        ((Node.statement (.branch b)).code? q.state location) (b.emit location) ∧
      ∀ code ∈ (Node.statement (.branch b)).code? q.state location, code.size ≤ 5 := by
  obtain ⟨size, t, hcheck, hat, hnext⟩ := recorded_of_layOut h
  obtain ⟨_, -, rfl, hstate, hcount⟩ | ⟨n, hb, rfl, rfl⟩ := check_of_ok hcheck
  · simp only [Node.code?, hat, Option.map_none]
    cases hnext
    have hrom : t.state.rom = p.state.rom := by rw [hstate]
    refine ⟨.nothing (fun _ => hcount) hrom fun e he => ?_, fun _ h => by cases h⟩
    unfold emit
    rw [Run.read_bind_apply, he.branches.trans hat]
    rfl
  · simp only [Node.code?, hat, Option.map_some]
    have hsize := Branch.size_code hb location
    constructor
    · refine .of_reserve hnext rfl rfl hsize (Branch.emits_sized hb location) fun e he => ?_
      unfold emit
      rw [Run.read_bind_apply, he.branches, hat]
    · rintro _ ⟨⟩
      rw [hsize]
      exact Nat.le_trans (Branch.size_le hb) (by decide)

/-- What the layout records of an embedded file: its contents, or nothing if it cannot be read,
which is reported. -/
theorem Files.recorded_of_embed {files : Files} {location : Location} {path : String}
    {pos : Position} {p q : Logged Context} (h : files.embed location path pos p = .ok () q) :
    (∃ cause, files (pos.sibling path) = .error cause ∧ q.state = p.state ∧ 0 < q.log.count) ∨
      ∃ bytes t, files (pos.sibling path) = .ok bytes ∧
        Pass.reserve "embed statement" bytes.length pos p = .ok () t ∧
        q.state.contents.at? location = some bytes ∧ q.state.rom = t.state.rom := by
  unfold embed at h
  cases hf : files (pos.sibling path) with
  | error cause =>
    simp only [hf] at h
    obtain ⟨-, rfl⟩ := Run.error_eq_ok.1 h
    exact .inl ⟨cause, rfl, rfl, Nat.succ_pos _⟩
  | ok bytes =>
    simp only [hf] at h
    obtain ⟨_, t, ht, hnote⟩ := Run.bind_eq_ok.1 h
    unfold Pass.note at hnote
    rw [Run.update_bind_apply] at hnote
    cases hnote
    exact .inr ⟨bytes, t, rfl, ht, Record.set_self _ _ _, rfl⟩

/-- What the layout settles for an embedded file, of which nothing is recorded yet. -/
theorem Files.laidOut {files : Files} {location : Location} {path : String} {pos : Position}
    {p q : Logged Context} (h : files.embed location path pos p = .ok () q)
    (hnew : p.state.contents.at? location = none) :
    LaidOut (.statement (.embed path pos)) location p.state q
        ((Node.statement (.embed path pos)).code? q.state location)
        (Pass.emitContents location pos) ∧
      ∀ code ∈ (Node.statement (.embed path pos)).code? q.state location,
        code.size ∈ (Statement.embed path pos).amounts files := by
  obtain ⟨cause, -, hstate, hcount⟩ | ⟨bytes, t, hf, ht, hat, hrom⟩ := recorded_of_embed h
  · have hat : q.state.contents.at? location = none := by
      rw [hstate]
      exact hnew
    simp only [Node.code?, hat, Option.map_none]
    refine ⟨.nothing (fun _ => hcount) (by rw [hstate]) fun e he => ?_, fun _ h => by cases h⟩
    unfold Pass.emitContents
    rw [Run.read_bind_apply, he.contents, hat]
    rfl
  · simp only [Node.code?, hat, Option.map_some]
    constructor
    · refine .of_reserve ht rfl hrom rfl (Pass.emits_writeBytes bytes pos) fun e he => ?_
      unfold Pass.emitContents
      rw [Run.read_bind_apply, he.contents, hat]
    · rintro _ ⟨⟩
      simp [Statement.amounts, hf]

/-- What the layout settles for a statement that takes up the space of its code. -/
theorem Statement.laidOut {files : Files} {stmt : Statement} {location : Location}
    {p q : Logged Context} (h : stmt.layOut files location p = .ok () q)
    (hnew : p.state.contents.at? location = none) (hstays : (Node.statement stmt).stays = true) :
    LaidOut (.statement stmt) location p.state q ((Node.statement stmt).code? q.state location)
        (stmt.emit location) ∧
      ∀ code ∈ (Node.statement stmt).code? q.state location,
        code.size ≤ 5 ∨ code.size ∈ stmt.amounts files := by
  have empty : (Node.statement stmt).code? q.state location = none →
      (Node.statement stmt).writes = false → q.state.rom = p.state.rom →
      stmt.emit location = pure () →
      LaidOut (.statement stmt) location p.state q ((Node.statement stmt).code? q.state location)
          (stmt.emit location) ∧
        ∀ code ∈ (Node.statement stmt).code? q.state location,
          code.size ≤ 5 ∨ code.size ∈ stmt.amounts files := by
    intro hnone hwrites hrom hemit
    rw [hnone]
    refine ⟨.nothing (fun h => ?_) hrom fun e _ => ?_, fun _ h => by cases h⟩
    · rw [hwrites] at h
      cases h
    · rw [hemit]
      rfl
  unfold layOut at h
  cases stmt with
  | block kind statements pos => cases hstays
  | relocation target pos => cases hstays
  | command c => cases hstays
  | data d =>
    have hsize := Data.size_code location d
    constructor
    · refine .of_reserve h rfl rfl hsize (DataItem.emits_items location d.width 0 d.items)
        fun e _ => ?_
      unfold emit
      rfl
    · rintro _ ⟨⟩
      exact Or.inr (by simp [amounts, hsize])
  | branch b =>
    unfold emit
    obtain ⟨hlaid, hsize⟩ := Branch.laidOut h
    exact ⟨hlaid, fun code hcode => Or.inl (hsize code hcode)⟩
  | embed path pos =>
    unfold emit
    obtain ⟨hlaid, hsize⟩ := Files.laidOut h hnew
    exact ⟨hlaid, fun code hcode => Or.inr (hsize code hcode)⟩
  | label name =>
    refine empty rfl rfl ?_ (by unfold emit; rfl)
    unfold Name.placeLabel at h
    obtain ⟨counter, t, hc, hplace⟩ := Run.bind_eq_ok.1 h
    obtain ⟨i, -, -, rfl⟩ := Pass.programCounter_eq_ok.1 hc
    split at hplace
    · cases hplace
      rfl
    · obtain ⟨-, rfl⟩ := Run.error_eq_ok.1 hplace
      rfl
  | header header =>
    cases h
    exact empty rfl rfl rfl (by unfold emit; rfl)
  | constant name value =>
    cases h
    exact empty rfl rfl rfl (by unfold emit; rfl)
  | storage v =>
    cases h
    exact empty rfl rfl rfl (by unfold emit; rfl)

/-! ## Where the two passes stand -/

/-- The layout stands at `p`, and the emission, which started when the layout had ended with `l`,
stands at `e`, with the same bank active and the cursors in the same places. -/
structure Stage (l p e : Context) : Prop where
  laid : p.Laid
  final : l.Laid
  unmoved : l.Unmoved e
  aligned : p.Aligned e

/-- The bank in which the layout has reserved space is ready for the emission. -/
theorem Stage.ready {l p e q : Context} (h : Stage l p e) {K : Location → Prop}
    (hq : q.Follows K l) {i n : Nat} {origin : UInt16} (space : Reserved i origin n p q) :
    e.Ready i origin where
  active := h.aligned.active.trans space.active
  inRange := by
    rw [h.unmoved.bankCount, hq.bankCount, space.bankCount]
    exact h.laid.active i space.active
  origin := by
    rw [h.unmoved.origins]
    refine hq.origin i origin ?_
    rw [space.bank_self h.laid]
    exact space.origin
  reserved := by
    rw [h.unmoved.reserved]
    exact (h.final.bank i).reserved

namespace LaidOut

variable {n : Node} {m : Location} {l p : Context} {code? : Option Code} {emission : Pass Unit}
  {K : Location → Prop} {q e t : Logged Context}

/-- If the emission of a node finishes then it has written as many bytes as were reserved. -/
theorem wrote (h : LaidOut n m p q code? emission) (stage : Stage l p e.state)
    (hq : q.state.Follows K l) (hm : K m) (hok : emission e = .ok () t) :
    (code? = none ∧ (n.writes = true → 0 < q.log.count) ∧ q.state.rom = p.rom ∧ t = e) ∨
      ∃ code i origin bytes, code? = some code ∧ Reserved i origin bytes.length p q.state ∧
        e.state.Ready i origin ∧ bytes.length = code.size ∧ Pass.Wrote i bytes e t ∧
        (t.log.count = 0 → e.state.memo.Honest → t.state.memo.Honest ∧
          code.bytes? t.state.memo (origin.toNat + (e.state.bank i).position) = some bytes) := by
  have hsame : q.state.SameAt m e.state := (hq.same m hm).trans (stage.unmoved.same m trivial)
  cases h with
  | nothing excuse rom emits =>
    rw [emits e hsame] at hok
    cases hok
    exact Or.inl ⟨rfl, excuse, rom, rfl⟩
  | @reserved i origin code _ act space emits same =>
    rw [same e hsame] at hok
    have hready := stage.ready hq space
    obtain ⟨bytes, hlen, hw, hclean⟩ := emits.wrote hready hok
    rw [← hlen] at space
    exact Or.inr ⟨code, i, origin, bytes, rfl, space, hready, hlen, hw, hclean⟩

/-- Bytes that were written lie in a bank, so their number is moderate. -/
theorem moderate_of_wrote {i : Nat} {origin : UInt16} {bytes : List UInt8}
    (hready : e.state.Ready i origin) (hw : Pass.Wrote i bytes e t) :
    bytes.length < Layout.moderate := by
  have hres := hready.reserved
  rcases hw.room with rfl | hroom
  · decide
  · refine Layout.moderate_of_lt ?_
    unfold bankSize at hres
    unfold addressSpace
    omega

/-- If the emission of a node finishes then the cursors have advanced by what was reserved. -/
theorem finish (h : LaidOut n m p q code? emission) (stage : Stage l p e.state)
    (hq : q.state.Follows K l) (hm : K m) (hok : emission e = .ok () t) :
    q.state.Aligned t.state ∧ ∀ i, (q.state.bank i).reserved =
      (p.bank i).reserved + if p.active? = some i then code?.elim 0 Code.size else 0 := by
  rcases h.wrote stage hq hm hok with
    ⟨rfl, -, hrom, rfl⟩ | ⟨code, i, origin, bytes, rfl, space, hready, hlen, hw, -⟩
  · refine ⟨⟨?_, fun i => ?_⟩, fun i => ?_⟩
    · rw [stage.aligned.active, Context.active?_of_rom hrom]
    · rw [stage.aligned.cursor, Context.bank_of_rom hrom]
    · rw [Context.bank_of_rom hrom]
      split <;> rfl
  · have hres := space.reserved_self stage.laid (moderate_of_wrote hready hw)
    have hpos : (q.state.bank i).position = (q.state.bank i).reserved := by
      rw [space.bank_self stage.laid]
      exact ((stage.laid.bank i).extended space.origin space.fits).position
    refine ⟨⟨?_, fun j => ?_⟩, fun j => ?_⟩
    · rw [hw.state, space.active?_eq]
      exact (Context.active?_setBank _ _ _).trans stage.aligned.active
    · by_cases hj : j = i
      · subst hj
        rw [hw.bank hready.inRange, Bank.position_store, stage.aligned.cursor, hpos, hres,
          (stage.laid.bank j).position]
      · rw [hw.bank_of_ne hj, stage.aligned.cursor, space.bank_of_ne hj]
    · by_cases hj : j = i
      · subst hj
        rw [if_pos space.active, hres, hlen, Option.elim_some]
      · have hne : p.active? ≠ some j := by
          rw [space.active]
          exact fun h => hj (Option.some.inj h).symm
        rw [if_neg hne, space.bank_of_ne hj]
        rfl

/-- The emission of a node for which enough space is reserved is quiet. -/
theorem quiet (h : LaidOut n m p q code? emission) (stage : Stage l p e.state)
    (hq : q.state.Follows K l) (hm : K m) (hsize : ∀ code ∈ code?, code.size < Layout.moderate)
    (hgrow : ∀ i, (q.state.bank i).reserved ≤ (l.bank i).reserved) :
    (Run.Frame.quiet Context).Ends e (emission e) := by
  have hsame : q.state.SameAt m e.state := (hq.same m hm).trans (stage.unmoved.same m trivial)
  cases h with
  | nothing excuse rom emits =>
    rw [emits e hsame]
    exact (Run.Frame.quiet Context).refl e
  | @reserved i origin code _ act space emits same =>
    rw [same e hsame]
    refine emits.quiet (stage.ready hq space) ?_
    rw [stage.aligned.cursor, stage.unmoved.reserved, (stage.laid.bank i).position,
      ← space.reserved_self stage.laid (hsize code rfl)]
    exact hgrow i

end LaidOut

/-! ## Relocations -/

namespace Relocation

variable {l : Context} {location : Location} {pos : Position} {p q e t : Logged Context}

/-- What becomes of the context when a bank switch was laid out. -/
theorem layOutBank_of_ok {x : Expr} (h : layOutBank location pos (some x) p = .ok () q) :
    ∃ index : UInt16, q.state.memo.value? (.tree location) = some index ∧
      index.toNat < p.state.bankCount ∧
      q.state.rom = (p.state.activate index.toNat).rom := by
  unfold layOutBank at h
  obtain ⟨v, u, hu, hswitch⟩ := Run.bind_eq_ok.1 h
  obtain ⟨hstate, -, -, hv, -⟩ := Pass.fold_of_ok hu
  cases v with
  | none => cases hswitch
  | some index =>
    obtain ⟨hlt, rfl⟩ := Pass.switchBank_eq_ok.1 hswitch
    refine ⟨index, hv.symm, ?_, ?_⟩
    · rw [hstate] at hlt
      exact hlt
    · show (u.state.activate index.toNat).rom = _
      rw [hstate]
      rfl

/-- What becomes of the context when a move of the program counter was laid out. -/
theorem layOutDest_of_ok {x : Expr} (h : layOutDest location pos (some x) p = .ok () q) :
    ∃ (address : UInt16) (i : Nat) (b : Logged Bank),
      q.state.memo.value? (.tree location) = some address ∧ p.state.active? = some i ∧
      Bank.org address pos { state := p.state.bank i, log := b.log } = .ok () b ∧
      q.state.rom = (p.state.setBank i b.state).rom ∧ p.state.memo.Le q.state.memo := by
  unfold layOutDest at h
  obtain ⟨v, u, hu, horg⟩ := Run.bind_eq_ok.1 h
  obtain ⟨hstate, hle, -, hv, -⟩ := Pass.fold_of_ok hu
  cases v with
  | none => cases horg
  | some address =>
    obtain ⟨i, b, hi, hb, rfl⟩ := Pass.onBank_eq_ok.1 horg
    have hlog := Bank.log_of_org hb
    refine ⟨address, i, b, hv.symm, ?_, ?_, ?_, hle⟩
    · rw [hstate] at hi
      exact hi
    · rw [hstate] at hb
      rw [hlog]
      exact hb
    · show (u.state.setBank i b.state).rom = _
      rw [hstate]
      rfl

/-- The bank and the address of a relocation that was laid out are known. -/
theorem known_of_layOut {target : Relocation} (h : target.layOut location pos p = .ok () q) :
    ∀ x ∈ (Statement.relocation target pos).late,
      ∃ v, q.state.memo.value? (.tree (location.child x.1)) = some v := by
  cases target with
  | ram dest => exact fun _ hx => absurd hx List.not_mem_nil
  | rom bank dest =>
    unfold layOut at h
    obtain ⟨_, u, hbank, hdest⟩ := Run.bind_eq_ok.1 h
    intro x hx
    rcases List.mem_append.1 hx with hx | hx
    · obtain ⟨e, he, rfl⟩ := List.mem_map.1 hx
      rw [Option.mem_toList.1 he] at hbank
      obtain ⟨index, hindex, -⟩ := layOutBank_of_ok hbank
      cases dest with
      | none =>
        cases hdest
        exact ⟨index, hindex⟩
      | some d =>
        obtain ⟨_, _, _, -, -, -, -, hle⟩ := layOutDest_of_ok hdest
        exact ⟨index, hle.value? hindex⟩
    · obtain ⟨e, he, rfl⟩ := List.mem_map.1 hx
      rw [Option.mem_toList.1 he] at hdest
      obtain ⟨address, _, _, haddress, -⟩ := layOutDest_of_ok hdest
      exact ⟨address, haddress⟩

/-- Going to an address is laid out as the distance from the origin. -/
theorem distance_of_org {address : UInt16} {b : Bank} {log : Log} {c : Logged Bank} (hb : b.Laid)
    (h : Bank.org address pos { state := b, log } = .ok () c) :
    ∃ origin : UInt16, c.state.origin = some origin ∧ origin.toNat ≤ address.toNat ∧
      c.state.position = address.toNat - origin.toNat ∧ c.state.reserved = c.state.position ∧
      b.reserved ≤ c.state.reserved := by
  have hres := hb.reserved
  have hpos := hb.position
  rcases Bank.org_eq_ok.1 h with ⟨hnone, rfl⟩ | ⟨current, hcurrent, hle, hexpand⟩
  · have horigin : b.origin = none := by
      simpa [Bank.programCounter?] using hnone
    have hzero := hb.origin horigin
    refine ⟨address, rfl, Nat.le_refl _, ?_, hpos.symm, Nat.le_refl _⟩
    rw [Nat.sub_self]
    exact hpos.trans hzero
  · obtain ⟨origin, ho, -, -, rfl⟩ := Bank.expand_eq_ok.1 hexpand
    -- The cursor lies in the bank, so the program counter is the exact address.
    have hexact : current = origin.toNat + b.position := by
      have hlt := origin.toNat_lt
      have hb' : b.origin = some origin := ho
      simp only [Bank.programCounter?, hb', Option.map_some, Option.some.injEq] at hcurrent
      unfold bankSize at hres
      omega
    have hn : address.toNat - current < Layout.moderate :=
      Layout.moderate_of_lt (Nat.lt_of_le_of_lt (Nat.sub_le _ _) address.toNat_lt)
    have hreserved := Layout.reserved_extended hb hn
    have hposition : (b.extended (address.toNat - current)).position =
        (b.extended (address.toNat - current)).reserved := by
      simp only [Bank.extended, hpos]
    refine ⟨origin, ho, by omega, ?_, hposition.symm, ?_⟩
    · show (b.extended (address.toNat - current)).position = _
      rw [hposition, hreserved]
      omega
    · show b.reserved ≤ (b.extended (address.toNat - current)).reserved
      rw [hreserved]
      exact Nat.le_add_right _ _

/-- A bank switch is repeated. -/
theorem emitBank_of_stage {bank : Option Expr} (h : layOutBank location pos bank p = .ok () q)
    (stage : Stage l p.state e.state) (hmemo : q.state.memo.Le l.memo)
    (hcount : l.bankCount = p.state.bankCount) :
    ∃ t, emitBank location pos bank e = .ok () t ∧ t.log = e.log ∧ Stage l q.state t.state ∧
      ∀ i, q.state.bank i = p.state.bank i := by
  cases bank with
  | none =>
    cases h
    exact ⟨e, rfl, rfl, stage, fun _ => rfl⟩
  | some x =>
    obtain ⟨index, hvalue, hlt, hrom⟩ := layOutBank_of_ok h
    have hbank : ∀ i, q.state.bank i = p.state.bank i := by
      intro i
      rw [Context.bank_of_rom hrom, Context.bank_activate]
    have hknown : e.state.known? location (some x) = some index :=
      stage.unmoved.memo.value? (hmemo.value? hvalue)
    have hrange : index.toNat < e.state.bankCount := by
      rw [stage.unmoved.bankCount, hcount]
      exact hlt
    have hactive : q.state.active? = some index.toNat := by
      rw [Context.active?_of_rom hrom, Context.active?_activate hlt]
    refine ⟨{ e with state := e.state.activate index.toNat }, ?_, rfl,
      ⟨⟨fun i hi => ?_, fun i => ?_⟩,
      stage.final, stage.unmoved.trans (Context.unmoved_activate _ _), ⟨?_, fun i => ?_⟩⟩, hbank⟩
    · unfold emitBank
      rw [Run.read_bind_apply, hknown]
      exact Pass.switchBank_eq_ok.2 ⟨hrange, rfl⟩
    · rw [hactive] at hi
      cases hi
      have hq : q.state.bankCount = p.state.bankCount := by
        rw [Context.bankCount, hrom]
        exact Context.bankCount_activate _ _
      rw [hq]
      exact hlt
    · rw [hbank]
      exact stage.laid.bank i
    · rw [hactive, Context.active?_activate hrange]
    · rw [Context.bank_activate, hbank]
      exact stage.aligned.cursor i

/-- A move of the program counter is repeated, if it stays inside the reserved space. -/
theorem emitDest_of_stage {dest : Option Expr} {K : Location → Prop}
    (h : layOutDest location pos dest p = .ok () q) (stage : Stage l p.state e.state)
    (hq : q.state.Follows K l) :
    (∀ t, emitDest location pos dest e = .ok () t → q.state.Aligned t.state ∧
      ∀ i, (p.state.bank i).reserved ≤ (q.state.bank i).reserved) ∧
    ((∀ i, (q.state.bank i).reserved ≤ (l.bank i).reserved) →
      ∃ t, emitDest location pos dest e = .ok () t ∧ t.log = e.log) := by
  cases dest with
  | none =>
    cases h
    refine ⟨fun t ht => ?_, fun _ => ⟨e, rfl, rfl⟩⟩
    cases ht
    exact ⟨stage.aligned, fun _ => Nat.le_refl _⟩
  | some x =>
    obtain ⟨address, i, b, hvalue, hactive, horg, hrom, -⟩ := layOutDest_of_ok h
    obtain ⟨origin, ho, hle, hposition, hreserved, hgrow⟩ :=
      distance_of_org (stage.laid.bank i) horg
    have hi : i < p.state.bankCount := stage.laid.active i hactive
    have hself : q.state.bank i = b.state := by
      rw [Context.bank_of_rom hrom, Context.bank_setBank_self hi]
    have hother : ∀ j, j ≠ i → q.state.bank j = p.state.bank j := by
      intro j hj
      rw [Context.bank_of_rom hrom, Context.bank_setBank_of_ne hj]
    have hcount : e.state.bankCount = p.state.bankCount := by
      rw [stage.unmoved.bankCount, hq.bankCount, Context.bankCount, hrom]
      exact Context.bankCount_setBank _ _ _
    have horigin : (e.state.bank i).origin = some origin := by
      rw [stage.unmoved.origins]
      exact hq.origin i origin (by rw [hself]; exact ho)
    have hknown : e.state.known? location (some x) = some address :=
      stage.unmoved.memo.value? (hq.memo.value? hvalue)
    have hemit : emitDest location pos (some x) e =
        Pass.onBank "rom relocation" pos (Bank.seek address pos) e := by
      unfold emitDest
      rw [Run.read_bind_apply, hknown]
    have heactive : e.state.active? = some i := stage.aligned.active.trans hactive
    constructor
    · intro t ht
      rw [hemit] at ht
      obtain ⟨j, c, hj, hc, rfl⟩ := Pass.onBank_eq_ok.1 ht
      obtain rfl : i = j := Option.some.inj (heactive.symm.trans hj)
      obtain ⟨o, ho', -, -, rfl⟩ := Bank.seek_eq_ok.1 hc
      obtain rfl : origin = o := Option.some.inj (horigin.symm.trans ho')
      refine ⟨⟨?_, fun k => ?_⟩, fun k => ?_⟩
      · rw [Context.active?_setBank, Context.active?_of_rom hrom, Context.active?_setBank,
          stage.aligned.active]
      · by_cases hk : k = i
        · subst hk
          rw [Context.bank_setBank_self (hcount ▸ hi), hself]
          exact hposition.symm
        · rw [Context.bank_setBank_of_ne hk, hother k hk]
          exact stage.aligned.cursor k
      · by_cases hk : k = i
        · subst hk
          rw [hself]
          exact hgrow
        · apply Nat.le_of_eq
          rw [hother k hk]
    · intro hroom
      have hin : address.toNat - origin.toNat ≤ (e.state.bank i).reserved := by
        rw [stage.unmoved.reserved, ← hposition, ← hreserved, ← hself]
        exact hroom i
      rw [hemit]
      exact ⟨_, Pass.onBank_eq_ok.2 ⟨i, _, heactive,
        Bank.seek_eq_ok.2 ⟨origin, horigin, hle, hin, rfl⟩, rfl⟩, rfl⟩

end Relocation

end Cartridge
