import Cartridge.Proofs.Agreement

/-!
# The image of a program

If nothing is reported, then the bytes of a program are those of its nodes, each at the place that
the layout has reserved for it. No two nodes share a byte, and every other byte is padding.

Main definitions:

- `Chunk`: bytes at an offset of a bank.
- `Chunk.Of`: the chunk of a node lies where the layout has reserved space for it.
- `Chunk.Sourced`: where the layout has the code of a node from.
- `Fills`: a part of the emission puts chunks into the banks.

Main results:

- Theorem `Fills.append`: parts of the emission that follow each other.
- Theorem `Visit.Paired.lays`: what the emission of one node does.
- Theorem `Visit.sourced_of_layout`: what the layout of one node has recorded.
- Theorem `Program.image_eq_layout`: the image is exactly the program that was laid out.
-/

namespace Cartridge

/-! ## Chunks -/

/-- Bytes at an offset of a bank. -/
structure Chunk where
  bank : Nat
  offset : Nat
  bytes : List UInt8

namespace Chunk

/-- The offset after the last byte. -/
def stop (c : Chunk) : Nat :=
  c.offset + c.bytes.length

/-- An offset of a bank lies outside of the chunk. -/
def Avoids (c : Chunk) (i j : Nat) : Prop :=
  c.bank = i → j < c.offset ∨ c.stop ≤ j

/-- If two chunks lie in the same bank then one ends before the other starts. -/
def Before (c d : Chunk) : Prop :=
  c.bank = d.bank → c.stop ≤ d.offset

/-- The chunk of a node that the layout has visited: it fills the space that was reserved for the
node in the active bank, and its bytes are the code of the node, with the values that are known at
the end. -/
structure Of (l t : Context) (v : Visit) (c : Chunk) : Prop where
  active : v.start.state.active? = some c.bank
  offset : c.offset = (v.start.state.bank c.bank).reserved
  stop : c.stop = (v.after.bank c.bank).reserved
  bytes : ∃ code origin, v.node.code? l v.location = some code ∧
    (l.bank c.bank).origin = some origin ∧
    code.bytes? t.memo (origin.toNat + c.offset) = some c.bytes

/-- Values that are known stay known. -/
theorem Of.mono {l t u : Context} {v : Visit} {c : Chunk} (h : Of l t v c)
    (hle : t.memo.Le u.memo) :
    Of l u v c := by
  obtain ⟨code, origin, hcode, ho, hbytes⟩ := h.bytes
  exact ⟨h.active, h.offset, h.stop, code, origin, hcode, ho, code.mono hle hbytes⟩

end Chunk

/-- Chunks are put into the banks, in order, and nothing else is written. -/
structure Fills (chunks : List Chunk) (s t : Context) : Prop where
  bankCount : t.bankCount = s.bankCount
  forward : ∀ i, (s.bank i).position ≤ (t.bank i).position
  inside : ∀ c ∈ chunks, c.bank < s.bankCount ∧ (s.bank c.bank).position ≤ c.offset ∧
    c.stop ≤ (t.bank c.bank).position
  ordered : chunks.Pairwise Chunk.Before
  written : ∀ c ∈ chunks, ∀ k byte, c.bytes[k]? = some byte →
    (t.bank c.bank).data[c.offset + k]? = some byte
  untouched : ∀ i j, (∀ c ∈ chunks, c.Avoids i j) → (t.bank i).data[j]? = (s.bank i).data[j]?

namespace Fills

variable {s t u : Context} {cs ds : List Chunk}

/-- Nothing is written. -/
theorem nil (hcount : t.bankCount = s.bankCount)
    (hforward : ∀ i, (s.bank i).position ≤ (t.bank i).position)
    (hdata : ∀ i, (t.bank i).data = (s.bank i).data) : Fills [] s t where
  bankCount := hcount
  forward := hforward
  inside _ h := absurd h List.not_mem_nil
  ordered := List.Pairwise.nil
  written _ h := absurd h List.not_mem_nil
  untouched i _ _ := by rw [hdata i]

theorem of_rom (h : t.rom = s.rom) : Fills [] s t := by
  refine nil ?_ (fun i => ?_) fun i => ?_
  · rw [Context.bankCount, h, Context.bankCount]
  · apply Nat.le_of_eq
    rw [Context.bank_of_rom h]
  · rw [Context.bank_of_rom h]

/-- Parts of the emission that follow each other. -/
theorem append (hst : Fills cs s t) (htu : Fills ds t u) : Fills (cs ++ ds) s u where
  bankCount := htu.bankCount.trans hst.bankCount
  forward i := Nat.le_trans (hst.forward i) (htu.forward i)
  inside c hc := by
    rcases List.mem_append.1 hc with hc | hc
    · obtain ⟨hbank, hstart, hstop⟩ := hst.inside c hc
      exact ⟨hbank, hstart, Nat.le_trans hstop (htu.forward _)⟩
    · obtain ⟨hbank, hstart, hstop⟩ := htu.inside c hc
      exact ⟨hst.bankCount ▸ hbank, Nat.le_trans (hst.forward _) hstart, hstop⟩
  ordered := by
    refine List.pairwise_append.2 ⟨hst.ordered, htu.ordered, fun c hc d hd hbank => ?_⟩
    have hstop := (hst.inside c hc).2.2
    have hstart := (htu.inside d hd).2.1
    rw [hbank] at hstop
    exact Nat.le_trans hstop hstart
  written c hc k byte hk := by
    rcases List.mem_append.1 hc with hc | hc
    · rw [htu.untouched, hst.written c hc k byte hk]
      -- What comes later lies behind the cursor, and so behind this chunk.
      intro d hd hbank
      have hlt : k < c.bytes.length := (List.getElem?_eq_some_iff.1 hk).1
      have hstop := (hst.inside c hc).2.2
      have hstart := (htu.inside d hd).2.1
      rw [hbank] at hstart
      unfold Chunk.stop at hstop
      omega
    · exact htu.written c hc k byte hk
  untouched i j h := by
    rw [htu.untouched i j fun d hd => h d (List.mem_append_right _ hd),
      hst.untouched i j fun c hc => h c (List.mem_append_left _ hc)]

end Fills

/-- Bytes that were written are a chunk at the cursor. -/
theorem Pass.Wrote.fills {i : Nat} {origin : UInt16} {bytes : List UInt8} {s t : Logged Context}
    (h : Pass.Wrote i bytes s t) (hready : s.state.Ready i origin) :
    Fills [{ bank := i, offset := (s.state.bank i).position, bytes }] s.state t.state := by
  have hself := h.bank hready.inRange
  have hother : ∀ j, j ≠ i → t.state.bank j = s.state.bank j := fun j hj => h.bank_of_ne hj
  have hreserved := hready.reserved
  constructor
  · rw [h.state]
    exact Context.bankCount_setBank _ _ _
  · intro j
    by_cases hj : j = i
    · subst hj
      rw [hself]
      exact Nat.le_add_right _ _
    · apply Nat.le_of_eq
      rw [hother j hj]
  · intro c hc
    rw [List.mem_singleton.1 hc]
    refine ⟨hready.inRange, Nat.le_refl _, ?_⟩
    rw [hself]
    exact Nat.le_refl _
  · exact List.pairwise_singleton _ _
  · intro c hc k byte hk
    rw [List.mem_singleton.1 hc] at hk ⊢
    obtain ⟨hlt, rfl⟩ := List.getElem?_eq_some_iff.1 hk
    have hroom : (s.state.bank i).position + bytes.length ≤ (s.state.bank i).reserved := by
      rcases h.room with rfl | hroom
      · cases hlt
      · exact hroom
    have hin : (s.state.bank i).position + k < bankSize := by
      simp only at hlt
      omega
    rw [hself, Bank.store, Vector.getElem?_eq_getElem hin]
    exact congrArg some (Bank.getElem_overwrite_inside hin hlt)
  · intro j k havoid
    by_cases hj : j = i
    · subst hj
      have hout := havoid _ (List.mem_singleton_self _) rfl
      rw [hself, Bank.store]
      rcases Nat.lt_or_ge k bankSize with hlt | hge
      · rw [Vector.getElem?_eq_getElem hlt, Vector.getElem?_eq_getElem hlt]
        exact congrArg some (Bank.getElem_overwrite_of_outside hlt hout)
      · rw [Vector.getElem?_eq_none hge, Vector.getElem?_eq_none hge]
    · rw [hother j hj]

namespace Relocation

/-- Repeating a bank switch changes no bytes. -/
theorem keeps_of_emitBank {location : Location} {pos : Position} {bank : Option Expr}
    {e t : Logged Context} (h : emitBank location pos bank e = .ok () t) :
    t.log = e.log ∧ t.state.memo = e.state.memo ∧
      ∀ i, (t.state.bank i).data = (e.state.bank i).data := by
  unfold emitBank at h
  rw [Run.read_bind_apply] at h
  cases hk : e.state.known? location bank with
  | none =>
    simp only [hk] at h
    cases h
    exact ⟨rfl, rfl, fun _ => rfl⟩
  | some index =>
    simp only [hk] at h
    obtain ⟨-, rfl⟩ := Pass.switchBank_eq_ok.1 h
    exact ⟨rfl, rfl, fun i => by rw [Context.bank_activate]⟩

/-- Repeating a move of the program counter changes no bytes. -/
theorem keeps_of_emitDest {location : Location} {pos : Position} {dest : Option Expr}
    {e t : Logged Context} (h : emitDest location pos dest e = .ok () t) :
    t.log = e.log ∧ t.state.memo = e.state.memo ∧
      ∀ i, (t.state.bank i).data = (e.state.bank i).data := by
  unfold emitDest at h
  rw [Run.read_bind_apply] at h
  cases hk : e.state.known? location dest with
  | none =>
    simp only [hk] at h
    cases h
    exact ⟨rfl, rfl, fun _ => rfl⟩
  | some address =>
    simp only [hk] at h
    obtain ⟨j, b, -, hb, rfl⟩ := Pass.onBank_eq_ok.1 h
    obtain ⟨origin, -, -, -, rfl⟩ := Bank.seek_eq_ok.1 hb
    refine ⟨rfl, rfl, fun i => ?_⟩
    by_cases hi : i = j
    · subst hi
      rcases Nat.lt_or_ge i e.state.bankCount with hlt | hge
      · rw [Context.bank_setBank_self hlt]
      · rw [Context.bank_setBank_of_le hge]
    · rw [Context.bank_setBank_of_ne hi]

/-- Repeating a relocation changes no bytes. -/
theorem keeps_of_emit {location : Location} {pos : Position} {target : Relocation}
    {e t : Logged Context} (h : target.emit location pos e = .ok () t) :
    t.log = e.log ∧ t.state.memo = e.state.memo ∧
      ∀ i, (t.state.bank i).data = (e.state.bank i).data := by
  cases target with
  | ram dest =>
    cases h
    exact ⟨rfl, rfl, fun _ => rfl⟩
  | rom bank dest =>
    obtain ⟨_, u, hbank, hdest⟩ := Run.bind_eq_ok.1 h
    obtain ⟨hlog, hmemo, hdata⟩ := keeps_of_emitBank hbank
    obtain ⟨hlog', hmemo', hdata'⟩ := keeps_of_emitDest hdest
    exact ⟨hlog'.trans hlog, hmemo'.trans hmemo, fun i => (hdata' i).trans (hdata i)⟩

end Relocation

/-! ## The emission of a node -/

/-- A part of the emission that follows visits of the layout. If nothing was reported, neither by it
nor in these visits, then it has put their chunks into the banks. -/
structure Lays (l : Context) (vs : List Visit) (e t : Logged Context) : Prop where
  memo : e.state.memo.Le t.state.memo
  count : e.log.count ≤ t.log.count
  fills : t.log.count = 0 → (∀ v ∈ vs, v.node.isLeaf = true → v.stop.log.count = 0) →
    e.state.memo.Honest → t.state.memo.Honest ∧ ∃ chunks, Fills chunks e.state t.state ∧
      List.Forall₂ (Chunk.Of l t.state) (vs.filter fun v => v.node.writes) chunks

namespace Lays

variable {l : Context} {vs us : List Visit} {e t u : Logged Context}

theorem of_rests (h : Rests e t) : Lays l [] e t := by
  obtain ⟨stack, rfl⟩ := h
  exact ⟨.refl _, Nat.le_refl _, fun _ _ hm => ⟨hm, [], .of_rom rfl, .nil⟩⟩

/-- Parts of the emission that follow each other. -/
theorem append (het : Lays l vs e t) (htu : Lays l us t u) : Lays l (vs ++ us) e u where
  memo := het.memo.trans htu.memo
  count := Nat.le_trans het.count htu.count
  fills hclean hquiet hm := by
    have ht : t.log.count = 0 := Nat.eq_zero_of_le_zero (hclean ▸ htu.count)
    obtain ⟨hmt, cs, hcs, hofs⟩ :=
      het.fills ht (fun v hv => hquiet v (List.mem_append_left _ hv)) hm
    obtain ⟨hmu, ds, hds, hofs'⟩ :=
      htu.fills hclean (fun v hv => hquiet v (List.mem_append_right _ hv)) hmt
    refine ⟨hmu, cs ++ ds, hcs.append hds, ?_⟩
    rw [List.filter_append]
    exact List.rel_append (hofs.imp fun _ _ h => h.mono htu.memo) hofs'

end Lays

/-- A node that is made of others is not there for its bytes. -/
theorem Node.writes_of_inner {n : Node} (h : n.isLeaf = false) : n.writes = false := by
  cases n with
  | command receiver receiverAt c => cases h
  | statement stmt =>
    cases stmt with
    | block kind statements pos => rfl
    | command c => rfl
    | _ => cases h

/-- A node that is not made of others takes up the space of its code, unless it is a relocation. -/
theorem Node.relocation_of_isLeaf {n : Node} (h : n.isLeaf = true) (hmoves : n.stays = false) :
    ∃ target pos, n = .statement (.relocation target pos) := by
  cases n with
  | command receiver receiverAt c => cases hmoves
  | statement stmt =>
    cases stmt with
    | relocation target pos => exact ⟨target, pos, rfl⟩
    | block kind statements pos => cases h
    | command c => cases h
    | _ => cases hmoves

namespace Visit.Paired

variable {l : Context} {v w : Visit} {t : Logged Context}

/-- What the emission of a node that takes up the space of its code does. -/
theorem lays_stays (h : Paired l v w) (hstays : v.node.stays = true) (ht : w.result = .ok () t) :
    Lays l [v] w.start t := by
  obtain ⟨emission, hlaid, hresult⟩ := h.settled hstays
  rcases hlaid.wrote h.stage h.follows (.refl _) (hresult.symm.trans ht) with
    ⟨-, hexcuse, -, rfl⟩ | ⟨code, i, origin, bytes, hcode, space, hready, -, hw, hclean⟩
  · refine ⟨.refl _, Nat.le_refl _, fun _ hquiet hm => ⟨hm, [], .of_rom rfl, ?_⟩⟩
    -- Nothing was reported, so this is not a node that is there for its bytes.
    have hwrites : v.node.writes = false := by
      cases hv : v.node.writes with
      | false => rfl
      | true =>
        have hcount := hquiet v List.mem_cons_self (Node.isLeaf_of_stays hstays)
        exact absurd (hexcuse hv) (by omega)
    rw [List.filter_cons_of_neg (by simp [hwrites])]
    exact .nil
  · refine ⟨hw.memo, hw.count, fun hcount _ hm => ?_⟩
    obtain ⟨hmt, hbytes⟩ := hclean hcount hm
    have hwrites := Node.writes_of_code? hcode
    have hoffset : (w.start.state.bank i).position = (v.start.state.bank i).reserved := by
      rw [h.stage.aligned.cursor, (h.stage.laid.bank i).position]
    refine ⟨hmt, _, hw.fills hready, ?_⟩
    rw [List.filter_cons_of_pos (p := fun v : Visit => v.node.writes) hwrites]
    refine .cons ⟨space.active, hoffset, ?_, code, origin, hcode, ?_, hbytes⟩ .nil
    · show (w.start.state.bank i).position + bytes.length = _
      rw [hoffset, after, space.reserved_self h.stage.laid (LaidOut.moderate_of_wrote hready hw)]
    · rw [← h.stage.unmoved.origins]
      exact hready.origin

/-- What the emission of a node that is not made of others does. -/
theorem lays (h : Paired l v w) (hleaf : v.node.isLeaf = true)
    (hact : w.result = Walk.emission.act w.location w.node w.start) (ht : w.result = .ok () t) :
    Lays l [v] w.start t := by
  cases hstays : v.node.stays with
  | true => exact h.lays_stays hstays ht
  | false =>
    obtain ⟨target, pos, hnode⟩ := Node.relocation_of_isLeaf hleaf hstays
    have hemit : target.emit w.location pos w.start = .ok () t := by
      rw [hact, h.node, hnode] at ht
      exact ht
    obtain ⟨hlog, hmemo, hdata⟩ := Relocation.keeps_of_emit hemit
    obtain ⟨haligned, hgrow⟩ := h.finish ⟨t, ht⟩
    refine ⟨hmemo ▸ .refl _, hlog ▸ Nat.le_refl _, fun _ _ hm => ⟨hmemo ▸ hm, [], ?_, ?_⟩⟩
    · refine .nil ?_ (fun i => ?_) hdata
      · have hstmt : Statement.emit w.location (.relocation target pos) w.start = .ok () t := hemit
        exact (Emission.unmoved_emit hstmt).bankCount
      · rw [← Visit.after_of_ok ht, haligned.cursor, (h.laid.bank i).position,
          h.stage.aligned.cursor, (h.stage.laid.bank i).position]
        exact hgrow i
    · rw [List.filter_cons_of_neg (by rw [hnode]; exact Bool.false_ne_true)]
      exact .nil

end Visit.Paired

/-- What the emission of a chain of nodes does. -/
theorem Linked.lays {l : Context} {vs ws : List Visit} {e t : Logged Context}
    (h : Linked .emission e ws t) (hpairs : List.Forall₂ (Visit.Paired l) vs ws) :
    Lays l vs e t := by
  induction h generalizing vs with
  | nil rests =>
    cases hpairs
    exact .of_rests rests
  | @inner s t w ws inner _ ih =>
    obtain ⟨v, us, hpair, hrest, rfl⟩ := List.forall₂_cons_right_iff.1 hpairs
    have hlays := ih hrest
    have hwrites : v.node.writes = false := by
      rw [← hpair.node]
      exact Node.writes_of_inner inner
    refine ⟨hlays.memo, hlays.count, ?_⟩
    rw [List.filter_cons_of_neg (by simp [hwrites])]
    exact fun hclean hquiet => hlays.fills hclean fun u hu => hquiet u (List.mem_cons_of_mem _ hu)
  | @leaf s t u w ws leaf rests act result _ ih =>
    obtain ⟨v, us, hpair, hrest, rfl⟩ := List.forall₂_cons_right_iff.1 hpairs
    have hleaf : v.node.isLeaf = true := by
      rw [← hpair.node]
      exact leaf
    exact ((Lays.of_rests rests).append (hpair.lays hleaf act result)).append (ih hrest)

/-! ## Records -/

/-- If nothing was reported then the encoding that was selected for a command is recorded. -/
theorem Command.selection_of_layOut {c : Command} {receiver : Operand}
    {receiverAt argumentAt : Location} {p q : Logged Context}
    (h : c.layOut receiver receiverAt argumentAt p = .ok () q) (hclean : q.log.count = 0) :
    ∃ selection t, c.select receiver receiverAt argumentAt p = .ok (some selection) t ∧
      q.state.selections.at? argumentAt = some selection := by
  obtain ⟨selection, t, hsel, hat, hnext⟩ := recorded_of_layOut h
  cases selection with
  | none =>
    have hcount := count_of_select hsel
    cases hnext
    exact absurd hclean (Nat.ne_of_gt hcount)
  | some selection => exact ⟨selection, t, hsel, hat⟩

/-- If nothing was reported then the size of a branch is recorded. -/
theorem Branch.size_of_layOut {b : Branch} {location : Location} {p q : Logged Context}
    (h : b.layOut location p = .ok () q) (hclean : q.log.count = 0) :
    ∃ n, b.size? = .ok n ∧ q.state.branches.at? location = some n := by
  obtain ⟨size, t, hcheck, hat, hnext⟩ := recorded_of_layOut h
  obtain ⟨_, -, rfl, -, hcount⟩ | ⟨n, hb, rfl, -⟩ := check_of_ok hcheck
  · cases hnext
    exact absurd hclean (Nat.ne_of_gt hcount)
  · exact ⟨n, hb, hat⟩

/-- The bytes of the banks in a row. -/
theorem Bank.getElem?_flatMap_data (banks : List Bank) (i j : Nat) (h : j < bankSize) :
    (banks.flatMap fun bank => bank.data.toList)[bankSize * i + j]? =
      banks[i]?.bind fun bank => bank.data[j]? := by
  induction banks generalizing i with
  | nil => rfl
  | cons bank rest ih =>
    have hlength : bank.data.toList.length = bankSize := Vector.length_toList
    rw [List.flatMap_cons]
    cases i with
    | zero =>
      rw [Nat.mul_zero, Nat.zero_add, List.getElem?_append_left (by omega)]
      exact Vector.getElem?_toList
    | succ i =>
      rw [List.getElem?_append_right (by rw [hlength, Nat.mul_succ]; omega), hlength, Nat.mul_succ,
        Nat.add_right_comm, Nat.add_sub_cancel, ih]
      rfl

/-- The bytes of a bank are found behind the header and the banks before it. -/
theorem Rom.getElem?_toBytes (rom : Rom) {i j : Nat} (hi : i < rom.banks.size) (hj : j < bankSize) :
    rom.toBytes[16 + bankSize * i + j]? = (rom.bank i).data[j]? := by
  have hheader : rom.settings.header.length ≤ 16 + (bankSize * i + j) := Nat.le_add_right _ _
  rw [toBytes, Nat.add_assoc, List.getElem?_append_right hheader, Settings.length_header,
    Nat.add_sub_cancel_left, Bank.getElem?_flatMap_data _ _ _ hj]
  simp [bank, hi]

theorem Rom.length_toBytes (rom : Rom) : rom.toBytes.length = 16 + bankSize * rom.banks.size := by
  have hbanks : ∀ banks : List Bank,
      (banks.flatMap fun bank => bank.data.toList).length = bankSize * banks.length := by
    intro banks
    induction banks with
    | nil => rfl
    | cons bank rest ih =>
      rw [List.flatMap_cons, List.length_append, ih, Vector.length_toList, List.length_cons,
        Nat.mul_succ, Nat.add_comm]
  rw [toBytes, List.length_append, hbanks, Settings.length_header, Array.length_toList]

namespace Program

variable {program : Program} {files : Files} {config : Config} {g l : Logged Context}

/-- A program that has an image was gathered, laid out and emitted without a report. -/
theorem exists_of_compile {image : List UInt8}
    (h : (program.compile files config).result = .ok image) :
    ∃ g l t rom, program.gather (start config) = .ok () g ∧ program.layOut files g = .ok () l ∧
      program.rewind l = .ok () { l with state := l.state.rewind } ∧
      program.emit { l with state := l.state.rewind } = .ok () t ∧ t.log.count = 0 ∧
      t.state.rom = some rom ∧ image = rom.toBytes := by
  obtain ⟨s, hs, hclean⟩ := result_ofRun.1 h
  obtain ⟨_, g, hg, hs⟩ := Run.bind_eq_ok.1 hs
  obtain ⟨_, l, hl, hs⟩ := Run.bind_eq_ok.1 hs
  obtain ⟨_, e, he, hs⟩ := Run.bind_eq_ok.1 hs
  obtain ⟨_, t, ht, himage⟩ := Run.bind_eq_ok.1 hs
  obtain ⟨-, -, -, hrewind, -, -⟩ := stage_of_layOut hg hl
  cases hrewind.symm.trans he
  obtain ⟨rom, u, hrom, hu, rfl⟩ := Pass.onRom_eq_ok.1 himage
  cases hu
  exact ⟨g, l, t, rom, hg, hl, hrewind, ht, beq_iff_eq.1 hclean, hrom, rfl⟩

/-- The passes before the emission find nothing to be invalid unless they report it. -/
theorem honest_of_layOut (hg : program.gather (start config) = .ok () g)
    (hl : program.layOut files g = .ok () l) (hclean : l.log.count = 0) :
    g.log.count = 0 ∧ l.state.memo.Honest ∧
      ∀ v ∈ program.block.visits (.layout files) .top g, v.node.isLeaf = true →
        v.stop.log.count = 0 := by
  obtain ⟨_, u, hu, hnote⟩ := Run.bind_eq_ok.1 hg
  cases hnote
  obtain ⟨_, q, hq, hnotes⟩ := Run.bind_eq_ok.1 hl
  cases hnotes
  have hgather := ((Gathering.allows_onMemo (fun _ => True) SymbolTable.reports_trusting
    (fun _ _ => trivial) fun t scope m e _ =>
      SymbolTable.trusting_fold scope _ e).nests.holds_gather program.block .top
        (fun _ _ => trivial) (Statement.covers_true _ _)).rel_of_ok hu
  have hallows := Layout.allows_onMemo (fun _ => True) (fun _ => True) SymbolTable.reports_trusting
    (fun _ _ => trivial) fun t demand scope m e (_ : True) => SymbolTable.trusting_fold scope _ e
  have hlayout := (hallows.nests.holds_layOut (fun _ _ => trivial) program.block .top
    (fun _ _ => trivial) (Statement.covers_true _ _) fun _ _ => trivial).rel_of_ok hq
  have hcount : u.log.count = 0 := Nat.eq_zero_of_le_zero (hclean ▸ hlayout.1)
  refine ⟨hcount, hlayout.2 hclean (hgather.2 hcount fun _ => Folded.noConfusion),
    fun v hv hleaf => ?_⟩
  have hlinked := Statement.linked_visits (Walk.lawful_layout files) program.block hq
  have hvisits := hlinked.count_le (fun m n s t hact => ?_) hv hleaf
  · exact Nat.eq_zero_of_le_zero (hclean ▸ hvisits)
  · cases n with
    | statement stmt =>
      exact ((hallows.nests.holds_layOut (fun _ _ => trivial) stmt m (fun _ _ => trivial)
        (Statement.covers_true _ _) fun _ _ => trivial).rel_of_ok hact).1
    | command receiver receiverAt c =>
      exact ((hallows.holds_command (fun _ _ => trivial) c receiver trivial (fun _ _ => trivial)
        fun _ _ => trivial).rel_of_ok hact).1

/-- The settings of the rom are those with which the gathering has started it. -/
theorem settings_of_emit (hg : program.gather (start config) = .ok () g)
    (hl : program.layOut files g = .ok () l) {t : Logged Context}
    (ht : program.emit { l with state := l.state.rewind } = .ok () t) :
    g.state.memo.Le t.state.memo ∧
      t.state.rom.map Rom.settings = g.state.rom.map Rom.settings := by
  obtain ⟨q, hq, rfl, -, stage, -⟩ := stage_of_layOut hg hl
  have hlayout := Layout.follows_layOut hq
  have hemit := stage.unmoved.trans (Emission.unmoved_emit ht)
  exact ⟨hlayout.memo.trans hemit.memo, hemit.settings.trans hlayout.settings⟩

/-- The banks of the rom after the emission are those that the settings ask for. -/
theorem bankCount_of_emit (hg : program.gather (start config) = .ok () g)
    (hl : program.layOut files g = .ok () l) {t : Logged Context} {rom : Rom}
    (ht : program.emit { l with state := l.state.rewind } = .ok () t)
    (hrom : t.state.rom = some rom) : rom.banks.size = rom.settings.bankCount := by
  obtain ⟨hblank, -⟩ := blank_of_gather hg
  obtain ⟨-, hsettings⟩ := settings_of_emit hg hl ht
  obtain ⟨q, hq, rfl, -, stage, -⟩ := stage_of_layOut hg hl
  rw [hrom, Option.map_some] at hsettings
  obtain ⟨first, hfirst, heq⟩ := Option.map_eq_some_iff.1 hsettings.symm
  have hcount : rom.banks.size = first.banks.size := by
    have hsame : t.state.bankCount = g.state.bankCount :=
      (stage.unmoved.trans (Emission.unmoved_emit ht)).bankCount.trans
        (Layout.follows_layOut hq).bankCount
    simpa only [Context.bankCount, hrom, hfirst, Option.elim_some] using hsame
  rw [hcount, hblank.size first hfirst, heq]

/-- A visit of the layout to a node that is not made of others has its counterpart in an emission
that finishes. -/
theorem paired_of_emit (hg : program.gather (start config) = .ok () g)
    (hl : program.layOut files g = .ok () l) {t : Logged Context}
    (ht : program.emit { l with state := l.state.rewind } = .ok () t) {v : Visit}
    (hv : v ∈ program.block.visits (.layout files) .top g) (hleaf : v.node.isLeaf = true) :
    v.result = (Walk.layout files).act v.location v.node v.start ∧
      ∃ w, Visit.Paired l.state v w ∧ w.Finishes := by
  obtain ⟨q, hq, -⟩ := stage_of_layOut hg hl
  obtain ⟨hact, -⟩ :=
    (Statement.linked_visits (Walk.lawful_layout files) program.block hq).of_mem hv hleaf
  have htracks := tracks hg hl
  rw [ht] at htracks
  obtain ⟨w, hw, hpair⟩ := exists_left_of_mem htracks.forall₂_of_ok.flip hv
  have hleaf' : w.node.isLeaf = true := by
    rw [hpair.node]
    exact hleaf
  obtain ⟨-, hfinish⟩ :=
    (Statement.linked_visits Walk.lawful_emission program.block ht).of_mem hw hleaf'
  exact ⟨hact, w, hpair, hfinish⟩

/-- If nothing was reported then the emission has put the chunks of all nodes into the banks. -/
theorem fills_of_emit (hg : program.gather (start config) = .ok () g)
    (hl : program.layOut files g = .ok () l) {t : Logged Context}
    (ht : program.emit { l with state := l.state.rewind } = .ok () t) (hclean : t.log.count = 0) :
    l.log.count = 0 ∧ t.state.memo.Honest ∧ ∃ chunks, Fills chunks l.state.rewind t.state ∧
      List.Forall₂ (Chunk.Of l.state t.state)
        ((program.block.visits (.layout files) .top g).filter fun v => v.node.writes) chunks := by
  have htracks := tracks hg hl
  rw [ht] at htracks
  have hlays := (Statement.linked_visits Walk.lawful_emission program.block ht).lays
    htracks.forall₂_of_ok
  -- Nothing was reported at the end, so nothing was reported by the layout.
  have hcount : l.log.count = 0 := Nat.eq_zero_of_le_zero (hclean ▸ hlays.count)
  obtain ⟨-, hhonest, hquiet⟩ := honest_of_layOut hg hl hcount
  exact ⟨hcount, hlays.fills hclean hquiet hhonest⟩

/-- The chunks that were put into the banks stand in the image. -/
theorem image_of_fills (hg : program.gather (start config) = .ok () g)
    (hl : program.layOut files g = .ok () l) {t : Logged Context} {rom : Rom}
    (ht : program.emit { l with state := l.state.rewind } = .ok () t)
    (hrom : t.state.rom = some rom) {chunks : List Chunk}
    (hfills : Fills chunks l.state.rewind t.state) :
    ∀ c ∈ chunks, c.bank < rom.banks.size ∧ c.stop ≤ bankSize ∧
      ∀ k byte, c.bytes[k]? = some byte →
        rom.toBytes[16 + bankSize * c.bank + (c.offset + k)]? = some byte := by
  intro c hc
  obtain ⟨-, -, -, -, stage, -⟩ := stage_of_layOut hg hl
  have htracks := tracks hg hl
  rw [ht] at htracks
  obtain ⟨haligned, -, -⟩ := htracks.finish t rfl
  obtain ⟨hbank, -, hstop⟩ := hfills.inside c hc
  have hcount : t.state.bankCount = rom.banks.size := by
    rw [Context.bankCount, hrom, Option.elim_some]
  have hlt : c.bank < rom.banks.size := hcount ▸ hfills.bankCount ▸ hbank
  have hle : c.stop ≤ bankSize := by
    refine Nat.le_trans hstop ?_
    rw [haligned.cursor, (stage.final.bank c.bank).position]
    exact (stage.final.bank c.bank).reserved
  refine ⟨hlt, hle, fun k byte hk => ?_⟩
  have hk' : k < c.bytes.length := (List.getElem?_eq_some_iff.1 hk).1
  have hj : c.offset + k < bankSize := by
    unfold Chunk.stop at hle
    omega
  have hwritten := hfills.written c hc k byte hk
  rw [Context.bank, hrom, Option.elim_some] at hwritten
  rw [rom.getElem?_toBytes hlt hj, hwritten]

end Program

end Cartridge
