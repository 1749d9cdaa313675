import Cartridge.Proofs.Course
import Cartridge.Proofs.Image
import Cartridge.Proofs.Session

/-!
# No fold fails in silence

An expression without a value is written as a zero, so that the bytes after it stay in their places.
This is only sound because a fold that fails has reported something by then. A result may be invalid
because of an earlier fold, so the argument has to follow all that was folded before: as long as
nothing is reported, no result in the memo is invalid.

Main definitions:

- `Context.Trusted`: nothing in the memo is invalid unless something was reported.
- `Node.Blanks`: the emission of a node writes a zero for an expression that has no value.

Main results:

- Theorem `Action.trusted_performAll`: every session leaves a memo that is trusted.
- Theorem `Emission.allows_trusting`: the emission keeps the memo trusted.
- Theorem `Node.Blanks.count_pos`: when a zero was written something was reported.
- Theorem `no_silent_failure`: folds that fail have been reported, in every session and in every
  compilation.
-/

namespace Cartridge

open Run.Frame SymbolTable

/-- Nothing in the memo is invalid unless something was reported. -/
def Context.Trusted (s : Logged Context) : Prop :=
  s.log.count = 0 → s.state.memo.Honest

/-- The memo stays trusted inside the frame for this. -/
theorem Context.Trusted.step {s t : Logged Context} (hs : Trusted s)
    (h : (onMemo trusting).rel s t) : Trusted t :=
  fun ht => h.2 ht (hs (Nat.eq_zero_of_le_zero (ht ▸ h.1)))

/-! ## Sessions -/

/-- After a session that has started with nothing known the memo is trusted. -/
theorem Action.trusted_performAll {limit : Nat} {actions : List Action} {s : Logged Context}
    (h : performAll actions { state := {}, log := .empty limit } = .ok () s) :
    Context.Trusted s := by
  have hkept : (onMemo trusting).Holds (performAll actions) :=
    onMemo_performAll (G := trusting) (fun _ _ => trivial)
      (fun s t hstate hcount => ⟨hcount, fun _ hs => hstate.symm ▸ hs⟩)
      (fun _ _ scope anchor e => trusting_fold scope anchor e) actions
  exact .step (fun _ _ => Folded.noConfusion) (hkept.rel_of_ok h)

namespace Pass

variable {demand : Demand} {scope : ScopeId} {anchor : Anchor} {e : Expr} {s t : Logged Context}
  {folded : Folded}

/-- A fold whose result is not invalid reports nothing. -/
theorem log_of_foldIn (h : foldIn demand scope anchor e s = .ok folded t)
    (hne : folded ≠ .invalid) : t.log = s.log := by
  obtain ⟨u, hu, rfl⟩ := foldIn_eq_ok.1 h
  obtain ⟨events, hfolds⟩ := fold_iff.2 hu.symm
  exact hfolds.silent hne

/-- What has to be folded does not stay pending. -/
theorem ne_pending_of_foldIn (h : foldIn demand scope anchor e s = .ok folded t)
    (hmust : demand.mustFold = true) : folded ≠ .pending := by
  obtain ⟨u, hu, rfl⟩ := foldIn_eq_ok.1 h
  obtain ⟨events, hfolds⟩ := fold_iff.2 hu.symm
  exact hfolds.ne_pending hmust

/-- When a result is invalid something was reported. -/
theorem count_of_foldIn (hs : Context.Trusted s)
    (h : foldIn demand scope anchor e s = .ok .invalid t) : 0 < t.log.count := by
  refine Nat.pos_of_ne_zero fun hcount => ?_
  obtain ⟨u, hu, rfl⟩ := foldIn_eq_ok.1 h
  have hclean : s.log.count = 0 :=
    Nat.eq_zero_of_le_zero (hcount ▸ (counting_fold scope anchor e).rel_of_ok hu)
  exact (clean_fold scope anchor e _ _ _ hu hcount (hs hclean)).2.1 rfl

/-- When an expression that has to be folded has no value something was reported. -/
theorem count_of_foldAt (hs : Context.Trusted s) (hmust : demand.mustFold = true)
    (h : foldAt demand anchor e s = .ok none t) : 0 < t.log.count := by
  rw [foldAt_eq] at h
  obtain ⟨folded, u, hu, hret⟩ := Run.bind_eq_ok.1 h
  cases folded with
  | pending => exact absurd rfl (ne_pending_of_foldIn hu hmust)
  | value v => cases hret
  | invalid =>
    cases hret
    exact count_of_foldIn hs hu

end Pass

/-! ## The emission -/

namespace Emission

/-- A change to a bank keeps the memo trusted. -/
theorem trusting_onBank {what : String} {pos : Position} {act : Run Bank Unit}
    (h : ∀ s u t, act s = .ok u t → s.log.count ≤ t.log.count) :
    (onMemo trusting).Holds (Pass.onBank what pos act) :=
  holds_of_ok (fun _ _ => trivial) fun s _ t hok => by
    obtain ⟨i, b, -, hb, rfl⟩ := Pass.onBank_eq_ok.1 hok
    exact ⟨h _ _ _ hb, fun _ hs => hs⟩

/-- The emission keeps the memo trusted. -/
theorem allows_trusting : Allows (onMemo trusting) (fun _ _ => True) where
  reports e _ := (reports_trusting e).onMemo
  internal _ := (reports_trusting _).onMemo
  scopes := scoped_onMemo _
  fold m e _ := holds_fold (fun t scope => trusting_fold scope _ e) (fun _ _ h => h) fun _ _ h => h
  byte value pos := trusting_onBank fun s _ t h => (Bank.writeByte_of_ok h).2.2.2
  word value pos := trusting_onBank fun s _ t h => by
    obtain ⟨-, rfl⟩ := Bank.writeBytes_eq_ok.1 h
    exact Nat.le_refl _
  bytes bytes pos := trusting_onBank fun s _ t h => by
    obtain ⟨-, rfl⟩ := Bank.writeBytes_eq_ok.1 h
    exact Nat.le_refl _
  counter what missing pos _ := holds_of_ok (fun _ _ => trivial) fun s _ t h => by
    obtain ⟨i, -, -, rfl⟩ := Pass.programCounter_eq_ok.1 h
    exact (onMemo trusting).refl t
  switch index pos := holds_of_ok (fun _ _ => trivial) fun s _ t h => by
    obtain ⟨-, rfl⟩ := Pass.switchBank_eq_ok.1 h
    exact ⟨Nat.le_refl _, fun _ hs => hs⟩
  seek address pos := trusting_onBank fun s _ t h => by
    obtain ⟨origin, -, -, -, rfl⟩ := Bank.seek_eq_ok.1 h
    exact Nat.le_refl _

/-- So does what it does at a node. -/
theorem trusting_act (m : Location) (n : Node) :
    (onMemo trusting).Holds (Walk.emission.act m n) := by
  cases n with
  | statement stmt => exact allows_trusting.nests.holds_emit stmt m (Statement.covers_true _ _)
  | command receiver receiverAt c =>
    exact allows_trusting.holds_command c receiver (fun _ _ => trivial) fun _ _ => trivial

/-- If what has to be folded has no value, and the number of errors is not lowered afterwards, then
something is reported at the end. -/
theorem count_of_unfolded {m : Location} {e : Expr} {next : Option UInt16 → Pass Unit}
    {s t u : Logged Context} (hs : Context.Trusted s)
    (hfold : Pass.fold .final m e s = .ok none u) (hnext : (onMemo trusting).Holds (next none))
    (h : (Pass.fold .final m e >>= next) s = .ok () t) : 0 < t.log.count := by
  obtain ⟨_, u', hu, hrest⟩ := Run.bind_eq_ok.1 h
  cases hfold.symm.trans hu
  exact Nat.lt_of_lt_of_le (Pass.count_of_foldAt hs rfl hfold) (hnext.rel_of_ok hrest).1

end Emission

/-- Items are written one after the other. -/
theorem DataItem.emitAll_append (location : Location) (width : Width) (index : Nat)
    (before rest : List DataItem) :
    emitAll location width index (before ++ rest) = (do
      emitAll location width index before
      emitAll location width (index + before.length) rest) := by
  induction before generalizing index with
  | nil => rfl
  | cons item before ih =>
    rw [List.cons_append, emitAll, emitAll, ih, bind_assoc, List.length_cons,
      Nat.add_right_comm index 1, Nat.add_assoc]

/-- What is left of the emission of items once the ones before an expression are written. -/
theorem DataItem.emitAll_of_written {location : Location} {width : Width}
    {before rest : List DataItem} {e : Expr} {s t u : Logged Context}
    (hwritten : emitAll location width 0 before s = .ok () u)
    (h : emitAll location width 0 (before ++ .value e :: rest) s = .ok () t) :
    (do
      let v ← Pass.fold .final (location.child before.length) e
      Pass.writeUnit width (v.getD 0) e.pos
      emitAll location width (before.length + 1) rest) u = .ok () t := by
  rw [emitAll_append, Nat.zero_add] at h
  obtain ⟨_, u', hu, h⟩ := Run.bind_eq_ok.1 h
  cases hwritten.symm.trans hu
  rw [emitAll, emit, bind_assoc] at h
  exact h

/-- What is left of the emission of a command once its opcodes are written. -/
theorem Command.emit_of_written {c : Command} {receiver operand : Operand}
    {receiverAt argumentAt operandAt : Location} {selection : Selection} {lead : Option Opcode}
    {opcode : Opcode} {side : Side} {e : Expr} {s t u : Logged Context}
    (hselected : s.state.selections.at? argumentAt = some selection)
    (hencoding : selection.encoding = .instruction lead opcode (some side))
    (hcarried : side.pick selection.swapped (receiver, receiverAt)
      (c.argument.map fun arg => (arg, argumentAt)) = some (operand, operandAt))
    (haddress : operand.expr = some e)
    (hwritten : (do Pass.writeSomeOpcode lead c.pos; Pass.writeOpcode opcode c.pos) s = .ok () u)
    (h : c.emit receiver receiverAt argumentAt s = .ok () t) :
    (do
      let v ← Pass.fold .final operandAt e
      if opcode.form.operandSize = 1 then Pass.writeByte (v.getD 0) e.pos
      else Pass.writeWord (v.getD 0) e.pos) u = .ok () t := by
  obtain ⟨mode, expr, place⟩ := operand
  cases haddress
  unfold emit at h
  rw [Run.read_bind_apply, hselected] at h
  simp only [emitSelection, hencoding, hcarried] at h
  rw [← bind_assoc] at h
  obtain ⟨_, u', hu, h⟩ := Run.bind_eq_ok.1 h
  cases hwritten.symm.trans hu
  exact h

/-- What is left of the emission of a branch once its opcode is written. -/
theorem Branch.emit_of_written {b : Branch} {location : Location} {size : Nat} {opcode : Opcode}
    {e : Expr} {s t u : Logged Context} (hsize : s.state.branches.at? location = some size)
    (hlong : size ≠ 1) (hopcode : b.opcode? = some opcode)
    (hdestination : b.destination.bind Operand.expr = some e)
    (hwritten : Pass.writeOpcode opcode b.pos s = .ok () u) (h : b.emit location s = .ok () t) :
    (do
      let target ← Pass.fold .final (location.child 0) e
      if size = 3 then Pass.writeWord (target.getD 0) e.pos
      else emitDisplacement target e b.pos) u = .ok () t := by
  unfold emit at h
  rw [Run.read_bind_apply, hsize] at h
  simp only [emitSized, hopcode, hdestination, if_neg hlong] at h
  obtain ⟨_, u', hu, h⟩ := Run.bind_eq_ok.1 h
  cases hwritten.symm.trans hu
  exact h

/-- A target that is out of range is reported. -/
theorem Branch.count_of_far {target : UInt16} {counter : Nat} {e : Expr} {pos : Position}
    {s t : Logged Context}
    (hcounter : Pass.programCounter "branch" .noOrigin pos s = .ok counter s)
    (hrange : displacement target counter < -128 ∨ 127 < displacement target counter)
    (h : emitDisplacement (some target) e pos s = .ok () t) : 0 < t.log.count := by
  obtain ⟨_, u, hu, h⟩ := Run.bind_eq_ok.1 h
  cases hcounter.symm.trans hu
  simp only [if_pos hrange] at h
  obtain ⟨_, v, hv, hwrite⟩ := Run.bind_eq_ok.1 h
  obtain ⟨-, rfl⟩ := Run.error_eq_ok.1 hv
  exact Nat.lt_of_lt_of_le (Nat.succ_pos _) ((Emission.allows_trusting.byte _ _).rel_of_ok hwrite).1

namespace Node

/-- The emission of a node writes a zero in place of a value: an item of data, the operand of an
instruction or the target of a branch has no value, or the target is out of range. -/
inductive Blanks (location : Location) (s : Logged Context) : Node → Prop
  | item {d : Data} {before rest : List DataItem} {e : Expr} {u w : Logged Context}
      (items : d.items = before ++ .value e :: rest)
      (written : DataItem.emitAll location d.width 0 before s = .ok () u)
      (folded : Pass.fold .final (location.child before.length) e u = .ok none w) :
      Blanks location s (.statement (.data d))
  | operand {receiver operand : Operand} {receiverAt operandAt : Location} {c : Command}
      {selection : Selection} {lead : Option Opcode} {opcode : Opcode} {side : Side} {e : Expr}
      {u w : Logged Context} (selected : s.state.selections.at? location = some selection)
      (encoding : selection.encoding = .instruction lead opcode (some side))
      (carried : side.pick selection.swapped (receiver, receiverAt)
        (c.argument.map fun arg => (arg, location)) = some (operand, operandAt))
      (address : operand.expr = some e)
      (written : (do Pass.writeSomeOpcode lead c.pos; Pass.writeOpcode opcode c.pos) s = .ok () u)
      (folded : Pass.fold .final operandAt e u = .ok none w) :
      Blanks location s (.command receiver receiverAt c)
  | target {b : Branch} {size : Nat} {opcode : Opcode} {e : Expr} {u w : Logged Context}
      (sized : s.state.branches.at? location = some size) (long : size ≠ 1)
      (branches : b.opcode? = some opcode) (destination : b.destination.bind Operand.expr = some e)
      (written : Pass.writeOpcode opcode b.pos s = .ok () u)
      (folded : Pass.fold .final (location.child 0) e u = .ok none w) :
      Blanks location s (.statement (.branch b))
  | far {b : Branch} {opcode : Opcode} {e : Expr} {address : UInt16} {counter : Nat}
      {u w : Logged Context} (sized : s.state.branches.at? location = some 2)
      (branches : b.opcode? = some opcode) (destination : b.destination.bind Operand.expr = some e)
      (written : Pass.writeOpcode opcode b.pos s = .ok () u)
      (folded : Pass.fold .final (location.child 0) e u = .ok (some address) w)
      (counted : Pass.programCounter "branch" .noOrigin b.pos w = .ok counter w)
      (range : Branch.displacement address counter < -128 ∨
        127 < Branch.displacement address counter) :
      Blanks location s (.statement (.branch b))

open Emission

theorem isLeaf_of_blanks {location : Location} {s : Logged Context} {n : Node}
    (h : n.Blanks location s) : n.isLeaf = true := by
  cases h <;> rfl

/-- When a zero was written something was reported. -/
theorem Blanks.count_pos {location : Location} {s t : Logged Context} {n : Node}
    (h : n.Blanks location s) (hs : Context.Trusted s)
    (hact : Walk.emission.act location n s = .ok () t) : 0 < t.log.count := by
  cases h with
  | @item d before rest e u w items written folded =>
    have hu := hs.step ((allows_trusting.holds_items d.width before 0 fun _ _ _ =>
      trivial).rel_of_ok written)
    have hact : DataItem.emitAll location d.width 0 d.items s = .ok () t := by
      simpa only [Walk.act, Walk.emission, Statement.emit] using hact
    rw [items] at hact
    refine count_of_unfolded hu folded ?_ (DataItem.emitAll_of_written written hact)
    exact holds_bind (allows_trusting.holds_unit d.width _ _) fun _ =>
      allows_trusting.holds_items d.width rest _ fun _ _ _ => trivial
  | operand selected encoding carried address written folded =>
    have hu := hs.step ((holds_bind (allows_trusting.holds_lead _ _) fun _ =>
      allows_trusting.byte _ _).rel_of_ok written)
    refine count_of_unfolded hu folded ?_
      (Command.emit_of_written selected encoding carried address written hact)
    split
    · exact allows_trusting.byte _ _
    · exact allows_trusting.word _ _
  | target sized long branches destination written folded =>
    have hu := hs.step ((allows_trusting.byte _ _).rel_of_ok written)
    have hact := Branch.emit_of_written sized long branches destination written
      (by simpa only [Walk.act, Walk.emission, Statement.emit] using hact)
    refine count_of_unfolded hu folded ?_ hact
    split
    · exact allows_trusting.word _ _
    · exact allows_trusting.holds_displacement _ _ _
  | far sized branches destination written folded counted range =>
    have hact := Branch.emit_of_written sized (by decide) branches destination written
      (by simpa only [Walk.act, Walk.emission, Statement.emit] using hact)
    obtain ⟨_, w', hw, hact⟩ := Run.bind_eq_ok.1 hact
    cases folded.symm.trans hw
    exact Branch.count_of_far counted range hact

end Node

/-! ## Compilations -/

namespace Program

open Emission

/-- A program for which a zero was written in place of a value has no image. -/
theorem ne_ok_of_blanks {program : Program} {files : Files} {config : Config} {v : Visit}
    (hv : v ∈ program.course files config .emission) (h : v.node.Blanks v.location v.start)
    (image : List UInt8) : (program.compile files config).result ≠ .ok image := by
  intro hok
  obtain ⟨g, l, t, rom, hg, hl, hrewind, ht, hclean, -, -⟩ := exists_of_compile hok
  have hvisits : v ∈ program.block.visits .emission .top { l with state := l.state.rewind } := by
    unfold course at hv
    obtain ⟨_, hg', hv⟩ := Walk.mem_next.1 hv
    cases hg.symm.trans hg'
    obtain ⟨_, hl', hv⟩ := Walk.mem_next.1 hv
    cases hl.symm.trans hl'
    obtain ⟨_, hrewind', hv⟩ := Walk.mem_next.1 hv
    cases hrewind.symm.trans hrewind'
    exact hv
  have hleaf := Node.isLeaf_of_blanks h
  have hlinked := Statement.linked_visits Walk.lawful_emission program.block ht
  have htrusted : Context.Trusted { l with state := l.state.rewind } :=
    fun hcount => (honest_of_layOut hg hl hcount).2.1
  have hstart : Context.Trusted v.start := by
    refine hlinked.start_of_mem ?_
      (fun m n s u _ hact hs => hs.step ((trusting_act m n).rel_of_ok hact)) htrusted hvisits hleaf
    rintro s _ ⟨stack, rfl⟩ hs
    exact hs
  obtain ⟨hact, u, hu⟩ := hlinked.of_mem hvisits hleaf
  have hpos := h.count_pos hstart (hact.symm.trans hu)
  have hle := hlinked.count_le (fun m n s u hact => ((trusting_act m n).rel_of_ok hact).1) hvisits
    hleaf
  rw [Visit.stop_of_ok hu, hclean] at hle
  exact absurd hpos (Nat.not_lt.2 hle)

end Program

/-- In every session a fold that comes to a value, or is left pending, reports nothing; what has to
be folded is not left pending; and when a result is invalid, or what has to be folded has no value,
something was reported. So a program in which a zero stands for an operand, for an item of data or
for the target of a branch has no image. -/
theorem no_silent_failure :
    (∀ limit actions s, Action.performAll actions { state := {}, log := .empty limit } = .ok () s →
      (∀ demand scope anchor e folded t, Pass.foldIn demand scope anchor e s = .ok folded t →
        (folded ≠ .invalid → t.log = s.log) ∧
        (demand.mustFold = true → folded ≠ .pending) ∧
        (folded = .invalid → 0 < t.log.count)) ∧
      ∀ demand anchor e t, Pass.foldAt demand anchor e s = .ok none t → demand.mustFold = true →
        0 < t.log.count) ∧
    ∀ (program : Program) files config, ∀ v ∈ program.course files config .emission,
      v.node.Blanks v.location v.start →
      ∀ image, (program.compile files config).result ≠ .ok image := by
  refine ⟨fun limit actions s h => ?_, fun program files config v hv hblanks => ?_⟩
  · have hs := Action.trusted_performAll h
    refine ⟨fun demand scope anchor e folded t hfold => ?_, fun demand anchor e t hfold hmust => ?_⟩
    · refine ⟨Pass.log_of_foldIn hfold, Pass.ne_pending_of_foldIn hfold, ?_⟩
      rintro rfl
      exact Pass.count_of_foldIn hs hfold
    · exact Pass.count_of_foldAt hs hmust hfold
  · exact Program.ne_ok_of_blanks hv hblanks

/-- A program with an item of data that refers to an unknown name. -/
def unknownItem : Program where
  statements :=
    [.header
        { settings :=
            [⟨{ text := "mapper" }, .number 0 {}⟩, ⟨{ text := "prg" }, .number 1 {}⟩,
              ⟨{ text := "chr" }, .number 1 {}⟩] },
      .relocation (.rom (some (.number 0 {})) (some (.number 0x8000 {}))) {},
      .data { width := .byte, items := [.value (.reference [{ text := "missing" }] {})] }]

/-- Whether the first item of data at a node has no value. -/
def Visit.blanksFirst (v : Visit) : Bool :=
  match v.node with
  | .statement (.data { items := .value e :: _, .. }) =>
    match Pass.fold .final (v.location.child 0) e v.start with
    | .ok none _ => true
    | _ => false
  | _ => false

theorem Visit.blanks_of_blanksFirst {v : Visit} (h : v.blanksFirst = true) :
    v.node.Blanks v.location v.start := by
  unfold blanksFirst at h
  split at h
  · rename_i hnode
    split at h
    · rename_i hfold
      rw [hnode]
      exact .item (List.nil_append _).symm rfl hfold
    · cases h
  · cases h

/-- The emission has written a zero for the unknown name, as a fold of it is invalid. -/
theorem no_silent_failure_unknownItem :
    (∃ t, Pass.foldIn .final root (.detached 0) (.reference [{ text := "missing" }] {})
        { state := {}, log := .empty 5 } = .ok .invalid t ∧ 0 < t.log.count) ∧
    ∃ v ∈ unknownItem.course (fun _ => .ok []) {} .emission, v.node.Blanks v.location v.start ∧
      ∀ image, (unknownItem.compile (fun _ => .ok []) {}).result ≠ .ok image := by
  have hany : (unknownItem.course (fun _ => .ok []) {} .emission).any Visit.blanksFirst = true := by
    decide +kernel
  obtain ⟨v, hv, hfirst⟩ := List.any_eq_true.1 hany
  have hblanks := Visit.blanks_of_blanksFirst hfirst
  refine ⟨?_, v, hv, hblanks, no_silent_failure.2 _ _ _ v hv hblanks⟩
  have hfold : ∃ t, Pass.foldIn .final root (.detached 0) (.reference [{ text := "missing" }] {})
      { state := {}, log := .empty 5 } = .ok .invalid t := ⟨_, rfl⟩
  obtain ⟨t, ht⟩ := hfold
  exact ⟨t, ht, ((no_silent_failure.1 5 [] _ rfl).1 _ _ _ _ _ _ ht).2.2 rfl⟩

end Cartridge
