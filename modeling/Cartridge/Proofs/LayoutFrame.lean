import Cartridge.Proofs.Encoding
import Cartridge.Proofs.Passes

/-!
# Frames of the layout

The layout of a statement is built from a few primitives. A frame that allows each of them is kept
by the whole layout, so what the layout leaves alone is shown for the primitives only.

Main definitions:

- `Statement.amounts`: the sizes of the data and of the embedded files of a statement.
- `Layout.Steps`: a frame allows what the layout does at a single node, but for placing labels.
- `Layout.Nests`: a frame also allows labels and blocks.
- `Layout.Allows`: a frame allows the primitives of the layout.

Main results:

- Theorem `Layout.Nests.holds_layOut`: a frame that allows nodes and blocks holds of the layout of a
  statement.
- Theorem `Layout.Allows.nests`: a frame that allows the primitives allows nodes and blocks.
-/

namespace Cartridge

mutual

/-- The sizes of the data statements and of the embedded files of a statement. -/
def Statement.amounts (files : Files) : Statement → List Nat
  | .block _ statements _ => Statement.amountsAll files statements
  | .data d => [d.size]
  | .embed path pos =>
    match files (pos.sibling path) with
    | .ok bytes => [bytes.length]
    | .error _ => []
  | .header _ | .relocation _ _ | .label _ | .constant _ _ | .storage _ | .command _
  | .branch _ => []

/-- The sizes of the data statements and of the embedded files of statements. -/
def Statement.amountsAll (files : Files) : List Statement → List Nat
  | [] => []
  | s :: rest => s.amounts files ++ Statement.amountsAll files rest

end

namespace Layout

/-- A frame allows what the layout does at a single node, but for placing labels: records at the
locations in `P`, folds of the expressions in `E`, and reservations of the amounts in `A`. -/
structure Steps (F : Run.Frame Context) (P : Location → Prop) (E : Location → Expr → Prop)
    (A : Nat → Prop) : Prop where
  reports : ∀ e : Error, e.isInternal = false → F.Reports e
  fold : ∀ demand m e, E m e → F.Holds (Pass.fold demand m e)
  reserve : ∀ what n pos, A n → F.Holds (Pass.reserve what n pos)
  counter : ∀ what (missing : Error) pos, missing.isInternal = false →
    F.Holds (Pass.programCounter what missing pos)
  switch : ∀ index pos, F.Holds (Pass.onRom pos (Rom.switchBank index pos))
  org : ∀ address pos, F.Holds (Pass.onBank "rom relocation" pos (Bank.org address pos))
  note : ∀ n, F.Holds (Pass.note n)
  selections : ∀ m entry, P m →
    F.Holds (Run.update fun ctx => { ctx with selections := ctx.selections.set m entry })
  branches : ∀ m entry, P m →
    F.Holds (Run.update fun ctx => { ctx with branches := ctx.branches.set m entry })
  contents : ∀ m entry, P m →
    F.Holds (Run.update fun ctx => { ctx with contents := ctx.contents.set m entry })

/-- A frame allows the nodes of a tree, and blocks of what it allows. -/
structure Nests (F : Run.Frame Context) (P : Location → Prop) (E : Location → Expr → Prop)
    (A : Nat → Prop) : Prop extends Steps F P E A where
  label : ∀ m (name : Name), P m → F.Holds (name.placeLabel m)
  block : ∀ m pos (act : Pass Unit), F.Holds act → F.Holds (do
    let scope ← Pass.scopeOf m pos
    Pass.within scope act)

/-- A frame allows the primitives of the layout. -/
structure Allows (F : Run.Frame Context) (P : Location → Prop) (E : Location → Expr → Prop)
    (A : Nat → Prop) : Prop extends Steps F P E A where
  scopes : F.Scoped
  internal : ∀ what, F.Reports (.internal what)
  place : ∀ m address, P m →
    F.Holds (Run.update fun ctx => { ctx with symbols := ctx.placeLabel m address })

end Layout

namespace Command

/-- What is selected is sized. -/
theorem sized_of_encode {swapped : Bool} {receiver : Located} {argument : Option Located}
    {shape : Shape} (hshape : shape.Sized) {s t : Logged Context} {e : Encoding}
    (h : encode swapped receiver argument shape s = .ok e t) : e.Sized := by
  cases shape with
  | implied o =>
    cases h
    exact hshape
  | sequence instructions =>
    cases h
    exact hshape
  | memory lead access side =>
    cases access with
    | only o =>
      cases h
      exact hshape
    | either short long =>
      unfold encode at h
      obtain ⟨zero, u, -, hnext⟩ := Run.bind_eq_ok.1 h
      cases zero with
      | true =>
        cases hnext
        exact Or.inl hshape.1
      | false =>
        cases hnext
        exact Or.inr hshape.2

/-- What holds of the expressions of a receiver and of an argument holds of the one that is
picked. -/
theorem forall_pick {E : Location → Expr → Prop} {c : Command} {receiver : Operand}
    {receiverAt argumentAt : Location} (hr : ∀ e ∈ receiver.expr, E receiverAt e)
    (ha : ∀ e ∈ c.argument.bind Operand.expr, E argumentAt e) (side : Side) (swapped : Bool) :
    ∀ o ∈ side.pick swapped (receiver, receiverAt) (c.argument.map fun arg => (arg, argumentAt)),
      ∀ e ∈ o.1.expr, E o.2 e := by
  refine Side.forall_pick (p := fun o : Located => ∀ e ∈ o.1.expr, E o.2 e) hr
    (fun o ho e he => ?_) side swapped
  obtain ⟨arg, harg, rfl⟩ := Option.map_eq_some_iff.1 ho
  exact ha e (Option.bind_eq_some_iff.2 ⟨arg, harg, he⟩)

/-- A selection reports what is wrong with a command, or finds an encoding of its shape. -/
theorem select_of_ok {c : Command} {receiver : Operand} {receiverAt argumentAt : Location}
    {s t : Logged Context} {selection : Option Selection}
    (h : c.select receiver receiverAt argumentAt s = .ok selection t) :
    (∃ objection, c.kind.shapeOf receiver c.argument = .error objection ∧ selection = none ∧
      t.state = s.state ∧ 0 < t.log.count) ∨
    ∃ shape encoding, c.kind.shapeOf receiver c.argument = .ok shape ∧
      encode (c.kind.normal receiver c.argument).swapped (receiver, receiverAt)
        (c.argument.map fun arg => (arg, argumentAt)) shape s = .ok encoding t ∧
      selection = some
        { kind := (c.kind.normal receiver c.argument).kind
          convertedFrom := (c.kind.normal receiver c.argument).convertedFrom
          encoding } := by
  unfold select at h
  cases hs : c.kind.shapeOf receiver c.argument with
  | error objection =>
    simp only [hs] at h
    obtain ⟨_, u, hu, hret⟩ := Run.bind_eq_ok.1 h
    obtain ⟨-, rfl⟩ := Run.error_eq_ok.1 hu
    cases hret
    exact Or.inl ⟨objection, rfl, rfl, rfl, Nat.succ_pos _⟩
  | ok shape =>
    simp only [hs] at h
    obtain ⟨encoding, u, hu, hret⟩ := Run.bind_eq_ok.1 h
    cases hret
    exact Or.inr ⟨shape, encoding, rfl, hu, rfl⟩

/-- What is selected for a command is an encoding of its shape. -/
theorem encode_of_select {c : Command} {receiver : Operand} {receiverAt argumentAt : Location}
    {s t : Logged Context} {selection : Selection}
    (h : c.select receiver receiverAt argumentAt s = .ok (some selection) t) :
    selection.swapped = (c.kind.normal receiver c.argument).swapped ∧
      ∃ shape, c.kind.shapeOf receiver c.argument = .ok shape ∧
        encode selection.swapped (receiver, receiverAt)
          (c.argument.map fun arg => (arg, argumentAt)) shape s = .ok selection.encoding t := by
  obtain ⟨_, -, hnone, -⟩ | ⟨shape, encoding, hs, hencode, hsome⟩ := select_of_ok h
  · cases hnone
  · cases hsome
    exact ⟨rfl, shape, hs, hencode⟩

/-- What is selected for a command is sized. -/
theorem sized_of_select {c : Command} {receiver : Operand} {receiverAt argumentAt : Location}
    {s t : Logged Context} {selection : Selection}
    (h : c.select receiver receiverAt argumentAt s = .ok (some selection) t) :
    selection.encoding.Sized := by
  obtain ⟨-, shape, hs, he⟩ := encode_of_select h
  exact sized_of_encode (CommandKind.sized_of_shapeOf hs) he

end Command

/-- The check of a branch finds its size, or reports what is wrong with it. -/
theorem Branch.check_of_ok {b : Branch} {size : Option Nat} {s t : Logged Context}
    (h : b.check s = .ok size t) :
    (∃ cause, b.size? = .error cause ∧ size = none ∧ t.state = s.state ∧ 0 < t.log.count) ∨
      ∃ n, b.size? = .ok n ∧ size = some n ∧ t = s := by
  unfold check at h
  cases hb : b.size? with
  | error cause =>
    simp only [hb] at h
    obtain ⟨_, u, hu, hret⟩ := Run.bind_eq_ok.1 h
    obtain ⟨-, rfl⟩ := Run.error_eq_ok.1 hu
    cases hret
    exact Or.inl ⟨cause, rfl, rfl, rfl, Nat.succ_pos _⟩
  | ok n =>
    simp only [hb] at h
    cases h
    exact Or.inr ⟨n, rfl, rfl, rfl⟩

/-- A branch has at most three bytes. -/
theorem Branch.size_le {b : Branch} {n : Nat} (h : b.size? = .ok n) : n ≤ 3 := by
  obtain ⟨o, -, rfl⟩ := Branch.exists_opcode?_of_size? h
  have ho : o.form.operandSize ≤ 2 := by
    cases o.form <;> decide
  omega

/-- What is wrong with a branch is not internal. -/
theorem Branch.isInternal_of_size? {b : Branch} {cause : Error × Position}
    (h : b.size? = .error cause) : cause.1.isInternal = false := by
  unfold Branch.size? at h
  repeat' split at h
  all_goals cases h
  all_goals rfl

namespace Layout

variable {F : Run.Frame Context} {P : Location → Prop} {E : Location → Expr → Prop} {A : Nat → Prop}

namespace Steps

variable (h : Steps F P E A)

include h

/-- An operand is folded to see where it lies. -/
theorem holds_inZeroPage {operand : Option Command.Located}
    (hE : ∀ o ∈ operand, ∀ e ∈ o.1.expr, E o.2 e) : F.Holds (Command.inZeroPage operand) := by
  unfold Command.inZeroPage
  split
  · exact Run.Frame.holds_bind (h.fold _ _ _ (hE _ rfl _ rfl)) fun _ => F.holds_pure _
  · exact F.holds_pure _

/-- A command is selected within a frame that allows for folding its receiver and its argument. -/
theorem holds_select (c : Command) (receiver : Operand) {receiverAt argumentAt : Location}
    (hr : ∀ e ∈ receiver.expr, E receiverAt e)
    (ha : ∀ e ∈ c.argument.bind Operand.expr, E argumentAt e) :
    F.Holds (c.select receiver receiverAt argumentAt) := by
  unfold Command.select
  split
  · exact Run.Frame.holds_bind ((h.reports _ rfl).holds_error _) fun _ => F.holds_pure _
  · refine Run.Frame.holds_bind ?_ fun _ => F.holds_pure _
    unfold Command.encode
    split
    · exact F.holds_pure _
    · exact F.holds_pure _
    · exact F.holds_pure _
    · refine Run.Frame.holds_bind (h.holds_inZeroPage ?_) fun zero => ?_
      · exact Command.forall_pick hr ha _ _
      · split <;> exact F.holds_pure _

/-- A command is laid out with a record at its location and at most five bytes. -/
theorem holds_command (hA : ∀ n, n ≤ 5 → A n) (c : Command) (receiver : Operand)
    {receiverAt argumentAt : Location} (hP : P argumentAt)
    (hr : ∀ e ∈ receiver.expr, E receiverAt e)
    (ha : ∀ e ∈ c.argument.bind Operand.expr, E argumentAt e) :
    F.Holds (c.layOut receiver receiverAt argumentAt) := by
  intro s
  unfold Command.layOut
  refine Run.Frame.ends_bind (h.holds_select c receiver hr ha s) fun selection t hsel => ?_
  refine Run.Frame.ends_bind (h.selections _ _ hP t) fun _ u _ => ?_
  unfold Pass.reserveSome
  cases selection with
  | none => exact F.refl u
  | some found =>
    exact h.reserve _ _ _ (hA _ (Command.sized_of_select hsel).size_le) u

/-- Commands are laid out one after the other, all with the receiver at the first child. -/
theorem holds_commands (hA : ∀ n, n ≤ 5 → A n) {location : Location} {receiver : Operand}
    (hr : ∀ e ∈ receiver.expr, E (location.child 0) e) (commands : List Command) (index : Nat)
    (hP : ∀ i, index ≤ i → P (location.child (i + 1)))
    (ha : ∀ k c, commands[k]? = some c → ∀ e ∈ c.argument.bind Operand.expr,
      E (location.child (index + k + 1)) e) :
    F.Holds (Command.layOutAll location receiver index commands) := by
  induction commands generalizing index with
  | nil => exact F.holds_pure _
  | cons c rest ih =>
    unfold Command.layOutAll
    refine Run.Frame.holds_bind ?_ fun _ => ih _ (fun i hi => hP i (Nat.le_of_succ_le hi)) ?_
    · exact h.holds_command hA c receiver (hP index (Nat.le_refl _)) hr (ha 0 c rfl)
    · intro k d hd
      rw [Nat.add_right_comm index 1 k]
      exact ha (k + 1) d hd

/-- A branch is laid out without a fold: its size does not depend on the target. -/
theorem holds_branch (hA : ∀ n, n ≤ 5 → A n) {location : Location} (hP : P location)
    (b : Branch) : F.Holds (b.layOut location) := by
  intro s
  unfold Branch.layOut Branch.check
  cases hb : b.size? with
  | error cause =>
    refine Run.Frame.ends_bind ?_ fun size t hsize => ?_
    · have hcause := Branch.isInternal_of_size? hb
      exact Run.Frame.holds_bind ((h.reports _ hcause).holds_error _) (fun _ => F.holds_pure _) s
    · obtain ⟨_, u, -, hret⟩ := Run.bind_eq_ok.1 hsize
      cases hret
      exact Run.Frame.ends_bind (h.branches _ _ hP _) fun _ v _ => F.refl v
  | ok n =>
    refine Run.Frame.ends_bind (F.refl s) fun size t hsize => ?_
    cases hsize
    refine Run.Frame.ends_bind (h.branches _ _ hP _) fun _ v _ => ?_
    exact h.reserve _ _ _ (hA n (Nat.le_trans (Branch.size_le hb) (by decide))) v

/-- A relocation folds the bank and the destination, and reserves what it skips. -/
theorem holds_relocation {location : Location} (pos : Position) (target : Relocation)
    (hE : ∀ x ∈ (Statement.relocation target pos).late, E (location.child x.1) x.2) :
    F.Holds (target.layOut location pos) := by
  cases target with
  | ram dest => exact F.holds_pure _
  | rom bank dest =>
    unfold Statement.late at hE
    unfold Relocation.layOut
    refine Run.Frame.holds_bind ?_ fun _ => ?_
    · cases bank with
      | none => exact F.holds_pure _
      | some e =>
        unfold Relocation.layOutBank
        refine Run.Frame.holds_bind (h.fold _ _ _ (hE (0, e) (by simp))) fun v => ?_
        cases v with
        | none => exact (h.reports _ rfl).holds_fatal _
        | some index => exact h.switch _ _
    · cases dest with
      | none => exact F.holds_pure _
      | some e =>
        unfold Relocation.layOutDest
        refine Run.Frame.holds_bind (h.fold _ _ _ (hE (1, e) (by simp))) fun v => ?_
        cases v with
        | none => exact (h.reports _ rfl).holds_fatal _
        | some address => exact h.org _ _

/-- A label asks for the program counter, and is then placed or reported. -/
theorem holds_placeLabel {m : Location} (name : Name)
    (hplace : ∀ address,
      F.Holds (Run.update fun ctx => { ctx with symbols := ctx.placeLabel m address })) :
    F.Holds (name.placeLabel m) := by
  unfold Name.placeLabel
  refine Run.Frame.holds_bind (h.counter _ _ _ rfl) fun counter => ?_
  split
  · exact Run.Frame.holds_bind (hplace _) fun _ => h.note _
  · exact (h.reports _ rfl).holds_error _

/-- An embedded file is laid out with a record of its contents and as many bytes as it has. -/
theorem holds_embed (files : Files) {location : Location} (hP : P location) (path : String)
    (pos : Position) (hA : ∀ n ∈ (Statement.embed path pos).amounts files, A n) :
    F.Holds (files.embed location path pos) := by
  unfold Statement.amounts at hA
  unfold Files.embed
  cases hf : files (pos.sibling path) with
  | error cause =>
    simp only [hf]
    exact (h.reports _ rfl).holds_error _
  | ok bytes =>
    simp only [hf] at hA ⊢
    refine Run.Frame.holds_bind (h.reserve _ _ _ (hA _ (by simp))) fun _ => ?_
    exact Run.Frame.holds_bind (h.note _) fun _ => h.contents _ _ hP

end Steps

/-- A frame that allows the primitives allows nodes and blocks. -/
theorem Allows.nests (h : Allows F P E A) : Nests F P E A where
  toSteps := h.toSteps
  label m name hm := h.holds_placeLabel name (h.place m · hm)
  block m pos act hact := by
    refine Run.Frame.holds_bind (Run.Frame.holds_scopeOf h.internal _ _) fun scope => ?_
    exact h.scopes.holds_within hact

namespace Nests

mutual

/-- A frame that allows nodes and blocks holds of the layout of a statement. -/
theorem holds_layOut {files : Files} (h : Nests F P E A) (hA : ∀ n, n ≤ 5 → A n) :
    ∀ (stmt : Statement) (location : Location), (∀ m, location.Under m → P m) →
      Statement.Covers Statement.late E (stmt.places location) →
      (∀ n ∈ stmt.amounts files, A n) → F.Holds (stmt.layOut files location)
  | .block _ statements pos, location, hP, hE, hamounts => by
    unfold Statement.layOut
    exact h.block location pos _ (holds_layOutAll h hA statements location 0
      (fun m _ _ hm => hP m hm.of_child) hE.block hamounts)
  | .relocation target pos, location, _, hE, _ => by
    unfold Statement.layOut
    exact h.holds_relocation pos target hE.self
  | .label name, location, hP, _, _ => by
    unfold Statement.layOut
    exact h.label location name (hP _ (.refl _))
  | .data d, location, _, _, hamounts => by
    unfold Statement.layOut
    exact h.reserve _ _ _ (hamounts _ (by simp [Statement.amounts]))
  | .embed path pos, location, hP, _, hamounts => by
    unfold Statement.layOut
    exact h.holds_embed files (hP _ (.refl _)) path pos hamounts
  | .command c, location, hP, hE, _ => by
    unfold Statement.layOut
    refine h.holds_commands hA
      (fun e he => hE.self (0, e) (Statement.mem_late_receiver he)) c.commands 0
      (fun _ _ => hP _ (Location.under_child _ _)) fun k d hd e he => ?_
    rw [Nat.zero_add]
    exact hE.self (k + 1, e) (Statement.mem_late_argument hd he)
  | .branch b, location, hP, _, _ => by
    unfold Statement.layOut
    exact h.holds_branch hA (hP _ (.refl _)) b
  | .header _, _, _, _, _ => by
    unfold Statement.layOut
    exact F.holds_pure _
  | .constant _ _, _, _, _, _ => by
    unfold Statement.layOut
    exact F.holds_pure _
  | .storage _, _, _, _, _ => by
    unfold Statement.layOut
    exact F.holds_pure _

/-- A frame that allows nodes and blocks holds of the layout of the statements of a block, where
only the subtrees from an index on matter. -/
theorem holds_layOutAll {files : Files} (h : Nests F P E A) (hA : ∀ n, n ≤ 5 → A n) :
    ∀ (statements : List Statement) (location : Location) (index : Nat),
      (∀ m i, index ≤ i → (location.child i).Under m → P m) →
      Statement.Covers Statement.late E (Statement.placesAll location index statements) →
      (∀ n ∈ Statement.amountsAll files statements, A n) →
      F.Holds (Statement.layOutAll files location index statements)
  | [], _, _, _, _, _ => F.holds_pure _
  | stmt :: rest, location, index, hP, hE, hamounts => by
    unfold Statement.layOutAll
    unfold Statement.amountsAll at hamounts
    refine Run.Frame.holds_bind ?_ fun _ => ?_
    · exact holds_layOut h hA stmt (location.child index)
        (fun m hm => hP m index (Nat.le_refl _) hm) hE.head
        fun n hn => hamounts n (List.mem_append_left _ hn)
    · exact holds_layOutAll h hA rest location (index + 1)
        (fun m i hi hm => hP m i (Nat.le_of_succ_le hi) hm) hE.tail
        fun n hn => hamounts n (List.mem_append_right _ hn)

end

end Nests

end Layout

end Cartridge
