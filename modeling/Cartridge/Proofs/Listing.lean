import Cartridge.Proofs.Disassembly
import Cartridge.Proofs.Image

/-!
# Runs of code

As long as the program counter is not moved and no data stands in between, commands and branches lie
in one bank, each one right after the one before it. So the space that a run of them takes up is
read back from the image as their instructions, in order.

Main definitions:

- `Node.isStraight`: the node has instructions, or it has no bytes and moves nothing.
- `Node.instructions?`: the instructions of a node.
- `Contiguous`: chunks lie in a bank one right after the other.
- `Spans`: the space that a run takes up.
- `ReadsBack`: the bytes of a run are disassembled to its instructions.

Main results:

- Theorem `Visit.Paired.runsOn`: what is known of one visit of a run.
- Theorem `Linked.contiguous`: the chunks of a run are contiguous.
- Theorem `Linked.readsBack`: a run whose chunks stand in an image is read back from it.
- Theorem `Program.disassemble_run`: every run of a program is read back from its image.
-/

namespace Cartridge

/-! ## Nodes -/

namespace Node

/-- The node has instructions, or it has no bytes and does not move the program counter. -/
def isStraight : Node → Bool
  | .command _ _ _ | .statement (.branch _) | .statement (.header _) | .statement (.label _)
  | .statement (.constant _ _) | .statement (.storage _) => true
  | .statement _ => false

/-- The instructions of a node at an address, by what is recorded at its location and given the
values of expressions. -/
def instructions? (ctx : Context) (memo : Memo) (location : Location) (address : Nat) :
    Node → Option (List Instruction)
  | .command receiver receiverAt c =>
    (ctx.selections.at? location).bind fun selection =>
      selection.instructions? memo (receiver, receiverAt)
        (c.argument.map fun arg => (arg, location))
  | .statement (.branch b) => (b.instruction? memo location address).map ([·])
  | .statement (.header _) | .statement (.label _) | .statement (.constant _ _)
  | .statement (.storage _) => some []
  | .statement _ => none

/-- A node of a run takes up the space of its code. -/
theorem stays_of_isStraight {n : Node} (h : n.isStraight = true) : n.stays = true := by
  cases n with
  | command receiver receiverAt c => rfl
  | statement stmt => cases stmt <;> first | rfl | cases h

theorem isLeaf_of_isStraight {n : Node} (h : n.isStraight = true) : n.isLeaf = true :=
  isLeaf_of_stays (stays_of_isStraight h)

/-- A node of a run that is not there for its bytes has no instructions. -/
theorem instructions?_of_idle {n : Node} (h : n.isStraight = true) (hwrites : n.writes = false)
    (ctx : Context) (memo : Memo) (m : Location) (address : Nat) :
    n.instructions? ctx memo m address = some [] := by
  cases n with
  | command receiver receiverAt c => cases hwrites
  | statement stmt =>
    cases stmt with
    | branch b => cases hwrites
    | block kind statements pos => cases h
    | relocation target pos => cases h
    | command c => cases h
    | data d => cases h
    | embed path pos => cases h
    | _ => rfl

end Node

/-! ## Visits -/

namespace Visit

/-- What is known of a visit of a run: the bank stays active, space is reserved only for nodes that
are there for their bytes, and the bytes of these are their instructions. -/
structure RunsOn (l : Context) (v : Visit) : Prop where
  straight : v.node.isStraight = true
  active : v.after.active? = v.start.state.active?
  idle : v.node.writes = false → ∀ i, (v.after.bank i).reserved = (v.start.state.bank i).reserved
  spells : ∀ {code memo address bytes}, v.node.writes = true →
    v.node.code? l v.location = some code → code.bytes? memo address = some bytes →
    ∃ is, v.node.instructions? l memo v.location address = some is ∧ Spells bytes is

theorem RunsOn.isLeaf {l : Context} {v : Visit} (h : v.RunsOn l) : v.node.isLeaf = true :=
  Node.isLeaf_of_isStraight h.straight

/-- A node that the layout has visited without a report has the instructions of its code. -/
theorem spells_of_layout {files : Files} {l : Context} {v : Visit}
    (hact : v.result = (Walk.layout files).act v.location v.node v.start) (hfinish : v.Finishes)
    (hclean : v.stop.log.count = 0) (hsame : v.after.SameAt v.location l)
    (hstraight : v.node.isStraight = true) (hwrites : v.node.writes = true) {code : Code}
    {memo : Memo} {address : Nat} {bytes : List UInt8}
    (hcode : v.node.code? l v.location = some code)
    (hbytes : code.bytes? memo address = some bytes) :
    ∃ is, v.node.instructions? l memo v.location address = some is ∧ Spells bytes is := by
  obtain ⟨q, hq⟩ := hfinish
  rw [stop_of_ok hq] at hclean
  rw [after_of_ok hq] at hsame
  rw [hact] at hq
  cases hn : v.node with
  | command receiver receiverAt c =>
    rw [hn] at hq hcode
    obtain ⟨s, u, hsel, hs⟩ := Command.selection_of_layOut hq hclean
    rw [← hsame.selections] at hs
    simp only [Node.code?, hs, Option.map_some, Option.some.injEq] at hcode
    subst hcode
    simp only [Node.instructions?, hs, Option.bind_some]
    exact Selection.instructions_of_code (Command.sized_of_select hsel)
      (Command.exact_of_select hsel) hbytes
  | statement stmt =>
    rw [hn] at hq hcode hstraight hwrites
    cases stmt with
    | branch b =>
      have hlayOut : Statement.layOut files v.location (.branch b) v.start = .ok () q := hq
      unfold Statement.layOut at hlayOut
      obtain ⟨n, hsize, hs⟩ := Branch.size_of_layOut hlayOut hclean
      rw [← hsame.branches] at hs
      simp only [Node.code?, hs, Option.map_some, Option.some.injEq] at hcode
      subst hcode
      obtain ⟨i, hi, hspells⟩ := Branch.instruction_of_code hsize hbytes
      simp only [Node.instructions?, hi, Option.map_some]
      exact ⟨_, rfl, hspells⟩
    | data d => cases hstraight
    | embed path pos => cases hstraight
    | _ => cases hwrites

/-- What is known of one visit of a run. -/
theorem Paired.runsOn {files : Files} {l : Context} {v w : Visit} (h : Paired l v w)
    (hact : v.result = (Walk.layout files).act v.location v.node v.start) (hw : w.Finishes)
    (hclean : v.stop.log.count = 0) (hstraight : v.node.isStraight = true) : v.RunsOn l := by
  obtain ⟨emission, hlaid, hresult⟩ := h.settled (Node.stays_of_isStraight hstraight)
  obtain ⟨t, ht⟩ := hw
  refine ⟨hstraight, ?_, fun hwrites i => ?_, fun hwrites =>
    spells_of_layout hact h.finishes hclean (h.follows.same _ (.refl _)) hstraight hwrites⟩
  · generalize v.node.code? l v.location = code? at hlaid
    cases hlaid with
    | nothing _ rom _ => exact Context.active?_of_rom rom
    | reserved space _ _ => exact space.active?_eq
  · have hreserved := (hlaid.finish h.stage h.follows (.refl _) (hresult.symm.trans ht)).2 i
    rw [Node.code?_of_idle hwrites, Option.elim_none, ite_self] at hreserved
    exact hreserved

end Visit

/-! ## Chunks -/

/-- Chunks lie in a bank one right after the other. -/
inductive Contiguous (i : Nat) : Nat → List Chunk → Nat → Prop
  | nil (start : Nat) : Contiguous i start [] start
  | cons {c : Chunk} {cs : List Chunk} {stop : Nat} (bank : c.bank = i)
      (rest : Contiguous i c.stop cs stop) : Contiguous i c.offset (c :: cs) stop

namespace Contiguous

variable {i start stop : Nat} {cs : List Chunk}

theorem bank_of_mem (h : Contiguous i start cs stop) : ∀ c ∈ cs, c.bank = i := by
  induction h with
  | nil _ => exact fun _ hc => absurd hc List.not_mem_nil
  | cons bank _ ih => exact List.forall_mem_cons.2 ⟨bank, ih⟩

theorem stop_eq (h : Contiguous i start cs stop) :
    stop = start + (cs.flatMap Chunk.bytes).length := by
  induction h with
  | nil _ => rfl
  | cons _ _ ih =>
    rw [ih, Chunk.stop, List.flatMap_cons, List.length_append, Nat.add_assoc]

/-- Where chunks end is where the last one ends. -/
theorem exists_last (h : Contiguous i start cs stop) (hcs : cs ≠ []) : ∃ c ∈ cs, c.stop = stop := by
  induction h with
  | nil _ => exact absurd rfl hcs
  | @cons c cs stop _ rest ih =>
    cases cs with
    | nil => exact ⟨c, List.mem_cons_self, rest.stop_eq.symm⟩
    | cons d ds =>
      obtain ⟨e, he, hstop⟩ := ih (List.cons_ne_nil d ds)
      exact ⟨e, List.mem_cons_of_mem _ he, hstop⟩

/-- Bytes that stand in an image one after another are a slice of it. -/
theorem take_drop {image bytes : List UInt8} {n : Nat}
    (h : ∀ k byte, bytes[k]? = some byte → image[n + k]? = some byte) :
    (image.drop n).take bytes.length = bytes := by
  refine (List.prefix_iff_eq_take.1 (List.prefix_iff_getElem?.2 fun k hk => ?_)).symm
  rw [List.getElem?_drop]
  exact h k _ (List.getElem?_eq_getElem hk)

/-- Contiguous chunks that stand in an image are a slice of it. -/
theorem slice {image : List UInt8} (h : Contiguous i start cs stop) (base : Nat)
    (hbytes : ∀ c ∈ cs, ∀ k byte, c.bytes[k]? = some byte →
      image[base + (c.offset + k)]? = some byte) :
    (image.drop (base + start)).take (stop - start) = cs.flatMap Chunk.bytes := by
  induction h with
  | nil start => rw [Nat.sub_self, List.take_zero, List.flatMap_nil]
  | @cons c cs stop bank rest ih =>
    obtain ⟨hfirst, hrest⟩ := List.forall_mem_cons.1 hbytes
    have hlength : stop - c.offset = c.bytes.length + (stop - c.stop) := by
      rw [rest.stop_eq, Chunk.stop]
      omega
    have hc : (image.drop (base + c.offset)).take c.bytes.length = c.bytes := by
      refine take_drop fun k byte hk => ?_
      rw [Nat.add_assoc]
      exact hfirst k byte hk
    rw [hlength, List.take_add, hc, List.drop_drop, Nat.add_assoc, ← Chunk.stop, ih hrest,
      List.flatMap_cons]

end Contiguous

/-! ## Runs -/

/-- The space that a run takes up: while it is laid out the bank is active, and as much is reserved
in it as before the first visit and after the last one. -/
structure Spans (run : List Visit) (i start stop : Nat) : Prop where
  active : ∀ v ∈ run, v.start.state.active? = some i
  start : ∀ v ∈ run.head?, (v.start.state.bank i).reserved = start
  stop : ∀ v ∈ run.getLast?, (v.after.bank i).reserved = stop

namespace Linked

variable {w : Walk} {p q : Logged Context} {run : List Visit} {l t : Context} {i : Nat}

/-- The same bank is active all through a run. -/
theorem active_of_runsOn (h : Linked w p run q) (hrun : ∀ v ∈ run, v.RunsOn l) :
    ∀ v ∈ run, v.start.state.active? = p.state.active? := by
  induction h with
  | nil _ => exact fun _ hv => absurd hv List.not_mem_nil
  | inner inner _ _ => cases inner.symm.trans (hrun _ List.mem_cons_self).isLeaf
  | @leaf p q u v vs _ rests _ result _ ih =>
    obtain ⟨hv, hvs⟩ := List.forall_mem_cons.1 hrun
    have hstart := Context.active?_of_rom rests.rom
    refine List.forall_mem_cons.2 ⟨hstart, fun x hx => ?_⟩
    rw [ih hvs x hx, ← hstart, ← hv.active, Visit.after_of_ok result]

/-- A run takes up the space between where it starts and where it ends. -/
theorem spans (h : Linked w p run q) (hrun : ∀ v ∈ run, v.RunsOn l)
    (hi : p.state.active? = some i) :
    Spans run i (p.state.bank i).reserved (q.state.bank i).reserved where
  active v hv := (h.active_of_runsOn hrun v hv).trans hi
  start v hv := by
    obtain ⟨rest, rfl⟩ := List.head?_eq_some_iff.1 hv
    cases h with
    | inner inner _ => cases inner.symm.trans (hrun _ List.mem_cons_self).isLeaf
    | leaf _ rests _ _ _ => rw [Context.bank_of_rom rests.rom]
  stop v hv := by
    obtain ⟨init, rfl⟩ := List.getLast?_eq_some_iff.1 hv
    obtain ⟨u, -, hlast⟩ := h.of_append
    cases hlast with
    | inner inner _ =>
      have hmem : v ∈ init ++ [v] := List.mem_append_right _ List.mem_cons_self
      cases inner.symm.trans (hrun v hmem).isLeaf
    | leaf _ _ _ result rest =>
      cases rest with
      | nil rests => rw [Visit.after_of_ok result, Context.bank_of_rom rests.rom]

/-- The chunks of a run are contiguous. -/
theorem contiguous (h : Linked w p run q) (hrun : ∀ v ∈ run, v.RunsOn l) {cs : List Chunk}
    (hchunks : List.Forall₂ (Chunk.Of l t) (run.filter fun v => v.node.writes) cs)
    (hi : p.state.active? = some i) :
    Contiguous i (p.state.bank i).reserved cs (q.state.bank i).reserved := by
  induction h generalizing cs with
  | nil rests =>
    cases hchunks
    rw [Context.bank_of_rom rests.rom]
    exact .nil _
  | inner inner _ _ => cases inner.symm.trans (hrun _ List.mem_cons_self).isLeaf
  | @leaf p q u v vs _ rests _ result _ ih =>
    obtain ⟨hv, hvs⟩ := List.forall_mem_cons.1 hrun
    have hstart := Context.active?_of_rom rests.rom
    have hafter := Visit.after_of_ok result
    have hu : u.state.active? = some i := by
      rw [← hafter, hv.active, hstart, hi]
    cases hwrites : v.node.writes with
    | false =>
      rw [List.filter_cons_of_neg (by simp [hwrites])] at hchunks
      rw [← Context.bank_of_rom rests.rom, ← hv.idle hwrites, hafter]
      exact ih hvs hchunks hu
    | true =>
      rw [List.filter_cons_of_pos (p := fun v : Visit => v.node.writes) hwrites] at hchunks
      obtain ⟨c, cs, hc, hcs, rfl⟩ := List.forall₂_cons_left_iff.1 hchunks
      have hbank : c.bank = i := by
        have hactive := hc.active
        rw [hstart, hi] at hactive
        exact (Option.some.inj hactive).symm
      have hrest := ih hvs hcs hu
      rw [← hafter, ← hbank, ← hc.stop, hbank] at hrest
      rw [← Context.bank_of_rom rests.rom, ← hbank, ← hc.offset, hbank]
      exact .cons hbank hrest

end Linked

/-- The bytes of a run are its instructions. -/
theorem Visit.spells_of_chunks {l t : Context} {i : Nat} {origin : UInt16}
    (ho : (l.bank i).origin = some origin) {run : List Visit} (hrun : ∀ v ∈ run, v.RunsOn l)
    {cs : List Chunk} (hbank : ∀ c ∈ cs, c.bank = i)
    (hchunks : List.Forall₂ (Chunk.Of l t) (run.filter fun v => v.node.writes) cs) :
    ∃ parts, List.Forall₂ (fun v is => v.node.instructions? l t.memo v.location
      (origin.toNat + (v.start.state.bank i).reserved) = some is) run parts ∧
        Spells (cs.flatMap Chunk.bytes) parts.flatten := by
  induction run generalizing cs with
  | nil =>
    cases hchunks
    exact ⟨[], .nil, rfl, fun _ h => absurd h List.not_mem_nil⟩
  | cons v vs ih =>
    obtain ⟨hv, hvs⟩ := List.forall_mem_cons.1 hrun
    cases hwrites : v.node.writes with
    | false =>
      rw [List.filter_cons_of_neg (by simp [hwrites])] at hchunks
      obtain ⟨parts, hparts, hspells⟩ := ih hvs hbank hchunks
      exact ⟨[] :: parts, .cons (Node.instructions?_of_idle hv.straight hwrites ..) hparts, hspells⟩
    | true =>
      rw [List.filter_cons_of_pos (p := fun v : Visit => v.node.writes) hwrites] at hchunks
      obtain ⟨c, cs, hc, hcs, rfl⟩ := List.forall₂_cons_left_iff.1 hchunks
      obtain ⟨rfl, hbanks⟩ := List.forall_mem_cons.1 hbank
      obtain ⟨parts, hparts, hspells⟩ := ih hvs hbanks hcs
      obtain ⟨code, origin', hcode, ho', hbytes⟩ := hc.bytes
      cases ho.symm.trans ho'
      obtain ⟨is, his, hfirst⟩ := hv.spells hwrites hcode hbytes
      rw [hc.offset] at his
      exact ⟨is :: parts, .cons his hparts, hfirst.append hspells⟩

/-- A run is read back from an image. It takes up one piece of a bank, and the bytes of this piece,
read with the instruction lengths of the processor, are exactly the instructions of its nodes, in
order, for the values that are known at the end. -/
structure ReadsBack (l t : Context) (image : List UInt8) (run : List Visit) (i first last : Nat)
    (parts : List (List Instruction)) : Prop where
  spans : Spans run i first last
  forward : first ≤ last
  inside : last ≤ bankSize
  length : 16 + bankSize * i + last ≤ image.length
  /-- The instructions that were selected for each of the nodes, at its address. -/
  selected : ∃ origin : UInt16, (l.bank i).origin = some origin ∧
    List.Forall₂ (fun v is => v.node.instructions? l t.memo v.location
      (origin.toNat + (v.start.state.bank i).reserved) = some is) run parts
  read : disassemble ((image.drop (16 + bankSize * i + first)).take (last - first)) =
    some parts.flatten

/-- A run whose chunks stand in an image is read back from it. -/
theorem Linked.readsBack {w : Walk} {p q : Logged Context} {run : List Visit} {l t : Context}
    {cs : List Chunk} {image : List UInt8} {banks : Nat} (h : Linked w p run q)
    (hrun : ∀ v ∈ run, v.RunsOn l) (hsome : ∃ v ∈ run, v.node.writes = true)
    (hchunks : List.Forall₂ (Chunk.Of l t) (run.filter fun v => v.node.writes) cs)
    (hlength : image.length = 16 + bankSize * banks)
    (himage : ∀ c ∈ cs, c.bank < banks ∧ c.stop ≤ bankSize ∧ ∀ k byte, c.bytes[k]? = some byte →
      image[16 + bankSize * c.bank + (c.offset + k)]? = some byte) :
    ∃ i first last parts, ReadsBack l t image run i first last parts := by
  -- The bank is the one in which a command or a branch of the run stands.
  obtain ⟨v, hv, hwrites⟩ := hsome
  obtain ⟨c, hc, hvc⟩ := exists_left_of_mem hchunks.flip (List.mem_filter.2 ⟨hv, hwrites⟩)
  obtain ⟨-, origin, -, ho, -⟩ := hvc.bytes
  have hi : p.state.active? = some c.bank := by
    rw [← h.active_of_runsOn hrun v hv]
    exact hvc.active
  have hcontiguous := h.contiguous hrun hchunks hi
  obtain ⟨parts, hparts, hspells⟩ :=
    Visit.spells_of_chunks ho hrun hcontiguous.bank_of_mem hchunks
  have hlast : (q.state.bank c.bank).reserved ≤ bankSize := by
    obtain ⟨d, hd, hstop⟩ := hcontiguous.exists_last (List.ne_nil_of_mem hc)
    rw [← hstop]
    exact (himage d hd).2.1
  refine ⟨c.bank, _, _, parts, h.spans hrun hi, ?_, hlast, ?_, ⟨origin, ho, hparts⟩, ?_⟩
  · rw [hcontiguous.stop_eq]
    exact Nat.le_add_right _ _
  · have hbank := Nat.mul_le_mul_left bankSize (Nat.succ_le_of_lt (himage c hc).1)
    rw [Nat.mul_succ] at hbank
    rw [hlength]
    omega
  · rw [hcontiguous.slice (16 + bankSize * c.bank) fun d hd k byte hk => ?_]
    · exact disassemble_eq_some_iff.2 hspells
    · rw [← hcontiguous.bank_of_mem d hd]
      exact (himage d hd).2.2 k byte hk

namespace Program

variable {program : Program} {files : Files} {config : Config} {g l : Logged Context}

/-- In a program that was emitted without a report, commands and branches run on. -/
theorem runsOn_of_emit (hg : program.gather (start config) = .ok () g)
    (hl : program.layOut files g = .ok () l) {t : Logged Context}
    (ht : program.emit { l with state := l.state.rewind } = .ok () t) (hclean : l.log.count = 0) :
    ∀ v ∈ program.block.visits (.layout files) .top g, v.node.isStraight = true →
      v.RunsOn l.state := by
  intro v hv hstraight
  have hleaf := Node.isLeaf_of_isStraight hstraight
  obtain ⟨hact, w, hpair, hfinish⟩ := paired_of_emit hg hl ht hv hleaf
  exact hpair.runsOn hact hfinish ((honest_of_layOut hg hl hclean).2.2 v hv hleaf) hstraight

/-- The chunks of a part of the visits are a part of the chunks. -/
theorem chunks_of_split {l t : Context} {visits before run after : List Visit}
    {chunks : List Chunk}
    (hsplit : visits.filter (fun v => v.node.isLeaf) = before ++ run ++ after)
    (h : List.Forall₂ (Chunk.Of l t) (visits.filter fun v => v.node.writes) chunks) :
    ∃ cs, cs ⊆ chunks ∧ List.Forall₂ (Chunk.Of l t) (run.filter fun v => v.node.writes) cs := by
  have hleaves : visits.filter (fun v => v.node.writes) =
      (visits.filter fun v => v.node.isLeaf).filter fun v => v.node.writes := by
    rw [List.filter_filter]
    refine List.filter_congr fun v _ => ?_
    cases hleaf : v.node.isLeaf with
    | true => rw [Bool.and_true]
    | false => rw [Node.writes_of_inner hleaf, Bool.and_false]
  rw [hleaves, hsplit, List.append_assoc, List.filter_append, List.filter_append] at h
  have hrest := (List.forall₂_drop_append _ _ _ h.flip).flip
  exact ⟨_, fun _ hc => List.mem_of_mem_drop (List.mem_of_mem_take hc),
    (List.forall₂_take_append _ _ _ hrest.flip).flip⟩

/-- Code is read back from the image. If a program has an image, then so is every run of consecutive
visits to commands, to branches and to statements that have no bytes, with no relocation, data
statement or embedded file among them, and with a command or a branch in it. The instructions are
those that were selected: for a command those of its encoding with the value of its operand, and for
a branch its opcode with the target or the distance to it. -/
theorem disassemble_run (program : Program) (files : Files) (config : Config) {image : List UInt8}
    (h : (program.compile files config).result = .ok image) :
    ∃ g l e t : Logged Context,
      program.gather (start config) = .ok () g ∧ program.layOut files g = .ok () l ∧
      program.rewind l = .ok () e ∧ program.emit e = .ok () t ∧
      (program.block.visits (.layout files) .top g).map Visit.place = program.block.places .top ∧
      ∀ before run after : List Visit,
        (program.block.visits (.layout files) .top g).filter (fun v => v.node.isLeaf) =
          before ++ run ++ after →
        (∀ v ∈ run, v.node.isStraight = true) → (∃ v ∈ run, v.node.writes = true) →
        ∃ i first last parts, ReadsBack l.state t.state image run i first last parts := by
  obtain ⟨g, l, t, rom, hg, hl, hrewind, ht, hclean, hrom, rfl⟩ := exists_of_compile h
  obtain ⟨q, hq, -⟩ := stage_of_layOut hg hl
  have hplaces := Statement.places_visits (Walk.lawful_layout files) program.block .top hq
  obtain ⟨hcount, -, chunks, hfills, hchunks⟩ := fills_of_emit hg hl ht hclean
  refine ⟨g, l, _, t, hg, hl, hrewind, ht, hplaces, ?_⟩
  intro before run after hsplit hstraight hsome
  have hlinked := (Statement.linked_visits (Walk.lawful_layout files) program.block hq).leaves
  rw [hsplit] at hlinked
  obtain ⟨u, hlinked, -⟩ := hlinked.of_append
  obtain ⟨p, -, hlinked⟩ := hlinked.of_append
  have hrun : ∀ v ∈ run, v.RunsOn l.state := by
    intro v hv
    have hmem : v ∈ before ++ run ++ after := List.mem_append_left _ (List.mem_append_right _ hv)
    rw [← hsplit] at hmem
    exact runsOn_of_emit hg hl ht hcount v (List.mem_filter.1 hmem).1 (hstraight v hv)
  obtain ⟨cs, hcs, hof⟩ := chunks_of_split hsplit hchunks
  have himage := image_of_fills hg hl ht hrom hfills
  exact hlinked.readsBack hrun hsome hof rom.length_toBytes fun c hc => himage c (hcs hc)

/-- In the sample two commands stand next to each other, between a label and an embedded file. With
the label they are a run. -/
theorem disassemble_run_sample :
    ∃ (image : List UInt8) (run : List Visit) (l t : Context) (i first last : Nat)
      (parts : List (List Instruction)),
      (sample.compile (fun _ => .ok [1, 2, 3]) {}).result = .ok image ∧
      run.map (fun v => v.node.writes) = [false, true, true] ∧
      ReadsBack l t image run i first last parts := by
  have hok : (sample.compile (fun _ => .ok [1, 2, 3]) {}).result.isOk = true := by
    decide +kernel
  cases himage : (sample.compile (fun _ => .ok [1, 2, 3]) {}).result with
  | error failure =>
    rw [himage] at hok
    cases hok
  | ok image =>
    obtain ⟨g, l, e, t, -, -, -, -, hplaces, hruns⟩ := disassemble_run sample _ {} himage
    -- The run is found by its place among the nodes of the program.
    have hleaves := congrArg (List.filter fun p => p.2.isLeaf) hplaces
    rw [List.filter_map] at hleaves
    generalize hvisits : (sample.block.visits (.layout fun _ => .ok [1, 2, 3]) .top g).filter
      ((fun p => p.2.isLeaf) ∘ Visit.place) = visits at hleaves
    have hsplit : visits =
        visits.take 3 ++ (visits.drop 3).take 3 ++ (visits.drop 3).drop 3 := by
      rw [List.append_assoc, List.take_append_drop, List.take_append_drop]
    generalize hrun : (visits.drop 3).take 3 = run at hsplit
    have hnodes : ∀ f : Node → Bool, run.map (fun v => f v.node) =
        ((((sample.block.places .top).filter fun p => p.2.isLeaf).drop 3).take 3).map
          fun p => f p.2 := by
      intro f
      rw [← hleaves, ← hrun, ← List.map_drop, ← List.map_take, List.map_map]
      rfl
    have hwrites : run.map (fun v => v.node.writes) = [false, true, true] := hnodes Node.writes
    have hsome : ∃ v ∈ run, v.node.writes = true := by
      refine List.mem_map.1 ?_
      rw [hwrites]
      decide
    have hstraight : ∀ v ∈ run, v.node.isStraight = true := by
      intro v hv
      have hmem := List.mem_map_of_mem (f := fun v : Visit => v.node.isStraight) hv
      rw [hnodes Node.isStraight] at hmem
      exact List.eq_of_mem_replicate (n := 3) hmem
    obtain ⟨i, first, last, parts, hreads⟩ :=
      hruns _ run _ (hvisits.trans hsplit) hstraight hsome
    exact ⟨image, run, l.state, t.state, i, first, last, parts, rfl, hwrites, hreads⟩

end Program

end Cartridge
