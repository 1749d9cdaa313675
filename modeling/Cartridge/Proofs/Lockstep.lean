import Cartridge.Compile.Basic
import Cartridge.Proofs.Twins

/-!
# Programs in lockstep

Two programs that consist of the same statements, which may stand at different locations, are
compiled in lockstep: their passes are coupled, and keep contexts that are twins.

Main definitions:

- `Header.Matches`: two lists of statements have the same headers, with as much before them.
- `Statement.Coupled`: the passes over two statements are coupled.
- `Statement.AllCoupled`: the passes over two lists of statements are coupled.

Main results:

- Theorem `Statement.Coupled.block`: the passes over two blocks are coupled if those over their
  statements are.
- Theorem `Statement.Coupled.self`: the passes over a statement and over the same statement at
  another location are coupled.
- Theorem `Program.meet_passes`: how the compilations of two programs are related.
-/

namespace Cartridge

open Run

variable {C : Log.Coupling} {X : Atlas} {m n : Location}

/-! ## Headers -/

namespace Header

/-- Reading a setting needs only that its value is found at the moved site. -/
theorem couples_readSetting (h : X.sites m = n) (setting : Setting) (tally : Tally) :
    Couples C (Context.Alike X) (readSetting m setting tally) (readSetting n setting tally) := by
  unfold readSetting
  dsimp only
  split
  · exact (Couples.error _ _).bind fun _ => .pure _
  · split
    · exact (Couples.error _ _).bind fun _ => .pure _
    · refine (Pass.couples_fold h _ _).bind fun value => ?_
      split
      · exact .pure _
      · split
        · exact .pure _
        · exact (Couples.error _ _).bind fun _ => .pure _

/-- Reading all settings of a header is coupled when the header has moved as a whole. -/
theorem couples_readSettings (h : X.Sends m n) (settings : List Setting) (index : Nat)
    (tally : Tally) :
    Couples C (Context.Alike X) (readSettings m index settings tally)
      (readSettings n index settings tally) := by
  induction settings generalizing index tally with
  | nil => exact .pure _
  | cons setting rest ih =>
    exact (couples_readSetting (h.child index).site setting tally).bind fun tally => ih _ tally

/-- The settings that are missing are reported alike, since the tallies are the same. -/
theorem couples_reportMissing (pos : Position) (rules : List SettingRule) (tally : Tally) :
    Couples C (Context.Alike X) (reportMissing pos rules tally)
      (reportMissing pos rules tally) := by
  induction rules generalizing tally with
  | nil => exact .pure _
  | cons rule rest ih =>
    unfold reportMissing
    split
    · exact (Couples.error _ _).bind fun _ => ih _
    · exact ih _

/-- A header that has moved as a whole resolves to the same settings. -/
theorem couples_resolve (h : X.Sends m n) (header : Header) :
    Couples C (Context.Alike X) (header.resolve m) (header.resolve n) := by
  unfold resolve
  refine (couples_readSettings h _ _ _).bind fun tally => ?_
  refine (couples_reportMissing _ _ _).bind fun tally => ?_
  split
  · exact .pure _
  · exact .fatal _ _

/-- The position of the first statement before an index that is no constant. -/
def intruder? (statements : List Statement) (index : Nat) : Option Position :=
  ((statements.take index).find? fun s => !s.isConstant).map Statement.pos

/-- Two lists of statements have the same headers, which stand at indices that may have moved. What
is refused for standing before a header need not be told apart. -/
structure Matches (C : Log.Coupling) (X : Atlas) (τ : Nat → Nat) (m : Location)
    (l : List Statement) (n : Location) (l' : List Statement) : Prop where
  headers : indexed 0 l' = (indexed 0 l).map fun entry => (τ entry.1, entry.2)
  intruder : ∀ entry ∈ indexed 0 l,
    Option.Rel (C.confuses .statementBeforeHeader · .statementBeforeHeader ·)
      (intruder? l entry.1) (intruder? l' (τ entry.1))
  sends : ∀ entry ∈ indexed 0 l, X.Sends (m.child entry.1) (n.child (τ entry.1))

namespace Matches

variable {τ : Nat → Nat} {l l' : List Statement}

/-- Blocks with matching headers get the same rom, whatever indices the headers stand at. -/
theorem couples_install (h : Matches C X τ m l n l') (pos : Position) :
    Couples C (Context.Alike X) (install m l pos) (install n l' pos) := by
  obtain ⟨hheaders, hbefore, hsends⟩ := h
  unfold install
  rw [hheaders]
  rcases hl : indexed 0 l with _ | ⟨⟨index, header⟩, _ | ⟨second, rest⟩⟩
  · exact .fatal _ _
  · have hmem : (index, header) ∈ indexed 0 l := hl ▸ List.mem_cons_self
    have hpos := hbefore _ hmem
    unfold intruder? at hpos
    simp only [List.map_cons, List.map_nil]
    cases hearly : (l.take index).find? fun s => !s.isConstant with
    | some early =>
      cases hearly' : (l'.take (τ index)).find? fun s => !s.isConstant with
      | some early' =>
        rw [hearly, hearly', Option.map_some, Option.map_some] at hpos
        cases hpos with
        | some hpos => exact .fatal_of_confuses hpos
      | none =>
        rw [hearly, hearly', Option.map_some, Option.map_none] at hpos
        cases hpos
    | none =>
      have hearly' : (l'.take (τ index)).find? (fun s => !s.isConstant) = none := by
        rw [hearly, Option.map_none] at hpos
        generalize hmap : Option.map Statement.pos _ = pos' at hpos
        cases hpos
        exact Option.map_eq_none_iff.1 hmap
      rw [hearly']
      refine (couples_resolve (hsends _ hmem) header).bind fun settings => ?_
      refine (Pass.couples_note _).bind fun _ => ?_
      exact .update fun _ _ ⟨ρ, h⟩ => ⟨ρ, { h with rom := rfl }⟩
  · exact .fatal _ _

/-- An inner block has a header on both sides or on neither, and the first one is refused. -/
theorem couples_refuse (h : Matches C X τ m l n l') :
    Couples C (Context.Alike X) (refuse l) (refuse l') := by
  unfold refuse
  rw [h.headers]
  cases indexed 0 l with
  | nil => exact .pure _
  | cons entry rest => exact .fatal _ _

/-- An outermost block starts the same rom, and other blocks refuse the same headers. -/
theorem couples_startRom (h : Matches C X τ m l n l') (kind : BlockKind) (pos : Position) :
    Couples C (Context.Alike X) (kind.startRom m l pos) (kind.startRom n l' pos) := by
  cases kind with
  | main => exact h.couples_install pos
  | scope => exact h.couples_refuse
  | package name => exact h.couples_refuse

/-- Positions that are the same need not be told apart. -/
theorem confuses_refl (C : Log.Coupling) (e : Error) (pos : Option Position) :
    Option.Rel (C.confuses e · e ·) pos pos := by
  cases pos with
  | none => exact .none
  | some pos => exact .some (C.confuses_self e pos)

/-- A block's own headers match when the block has moved as a whole. -/
theorem self (h : X.Sends m n) (l : List Statement) : Matches C X id m l n l :=
  ⟨(List.map_id _).symm, fun _ _ => confuses_refl C _ _, fun _ _ => h.child _⟩

/-- The headers match when a statement that is none of them is replaced. -/
theorem replace {s s' : Statement} {before after : List Statement}
    (hconstant : s'.isConstant = s.isConstant) (hheader : s.isHeader = false)
    (hheader' : s'.isHeader = false)
    (hpos : C.confuses .statementBeforeHeader s.pos .statementBeforeHeader s'.pos)
    (h : ∀ index, index ≠ before.length → X.Sends (m.child index) (m.child index)) :
    Matches C X id m (before ++ s :: after) m (before ++ s' :: after) where
  headers := by
    have hcons {s : Statement} (hs : s.isHeader = false) (i : Nat) :
        indexed i (s :: after) = indexed (i + 1) after := by
      rw [← List.singleton_append, indexed_append, indexed_eq_nil hs]
      rfl
    rw [indexed_append, indexed_append, hcons hheader, hcons hheader']
    exact (List.map_id _).symm
  intruder entry _ := by
    unfold intruder?
    generalize entry.1 = index
    rcases Nat.lt_or_ge before.length index with hlt | hle
    · obtain ⟨k, rfl⟩ := Nat.exists_eq_add_of_lt hlt
      rw [id_eq, Nat.add_assoc, List.take_length_add_append, List.take_length_add_append,
        List.take_succ_cons, List.take_succ_cons, List.find?_append, List.find?_append]
      cases before.find? fun s => !s.isConstant with
      | some early => exact confuses_refl C _ _
      | none =>
        rw [Option.none_or, Option.none_or, List.find?_cons, List.find?_cons, hconstant]
        cases s.isConstant with
        | true => exact confuses_refl C _ _
        | false => exact .some hpos
    · rw [id_eq, List.take_append_of_le_length hle, List.take_append_of_le_length hle]
      exact confuses_refl C _ _
  sends entry hentry := by
    refine h entry.1 fun heq => ?_
    obtain ⟨-, hget⟩ := getElem?_of_mem_indexed hentry
    rw [heq, Nat.sub_zero, List.getElem?_append_right (Nat.le_refl _), Nat.sub_self] at hget
    obtain rfl : s = .header entry.2 := Option.some.inj hget
    cases hheader

end Matches

end Header

/-! ## Gathering -/

namespace Variables

/-- The number of variables that a declaration asks for is the same on both sides. -/
theorem couples_count (h : X.Sends m n) (v : Variables) :
    Couples C (Context.Alike X) (v.count? m) (v.count? n) := by
  unfold count?
  split
  · exact .pure _
  · refine (Pass.couples_fold (h.child 0).site _ _).bind fun value => ?_
    split
    · exact .pure _
    · split
      · exact (Couples.error _ _).bind fun _ => .pure _
      · exact .pure _

/-- Allocation looks at the rom only, so it does not see the renaming. -/
theorem couples_allocate (size : Nat) (pos : Position) :
    Couples C (Context.Alike X) (allocate size pos) (allocate size pos) := by
  refine Pass.couples_onRom (.read_eq fun rom => ?_) pos
  split
  · exact .fatal _ _
  · exact (Rom.couples_expandRam size pos).bind fun _ => .pure _

/-- Declaring the names one after the other is coupled, name by name. -/
theorem couples_declareAll (size : Nat) (names : List Name) :
    Couples C (Context.Alike X) (declareAll size names) (declareAll size names) := by
  induction names with
  | nil => exact .pure _
  | cons name rest ih =>
    refine (couples_allocate size name.pos).bind fun address => ?_
    exact (Pass.couples_onSymbols fun _ _ => SymbolTable.couples_put ..).bind fun _ => ih

/-- A variable declaration is coupled: the count first, then every name. -/
theorem couples_declare (h : X.Sends m n) (v : Variables) :
    Couples C (Context.Alike X) (v.declare m) (v.declare n) := by
  refine (couples_count h v).bind fun count => ?_
  cases count with
  | none => exact .pure _
  | some count => exact couples_declareAll _ _

end Variables

/-- Gathering a relocation moves the ram counter alike on both sides. -/
theorem Relocation.couples_gather (h : X.Sends m n) (pos : Position) (target : Relocation) :
    Couples C (Context.Alike X) (target.gather m pos) (target.gather n pos) := by
  cases target with
  | rom bank dest => exact .pure _
  | ram dest =>
    refine (Pass.couples_fold (h.child 1).site _ _).bind fun address => ?_
    cases address with
    | none => exact .fatal _ _
    | some address =>
      exact (Pass.couples_onRom (.update_eq _) pos).bind fun _ => Pass.couples_note _

namespace Statement

/-- Constants are declared alike when the statements are the same. -/
theorem couples_gatherConstants (l : List Statement) :
    Couples C (Context.Alike X) (gatherConstants l) (gatherConstants l) := by
  induction l with
  | nil => exact .pure _
  | cons s rest ih =>
    cases s with
    | constant name value => exact (Expr.couples_declare name value).bind fun _ => ih
    | _ => exact ih

/-- A statement that is no constant may be dropped from the round that declares the constants. -/
theorem gatherConstants_cons {s : Statement} (h : s.isConstant = false) (l : List Statement) :
    gatherConstants (s :: l) = gatherConstants l := by
  cases s with
  | constant name value => cases h
  | _ => rfl

/-- The constants of a list are declared part after part. -/
theorem gatherConstants_append (l r : List Statement) :
    gatherConstants (l ++ r) = gatherConstants l >>= fun _ => gatherConstants r := by
  induction l with
  | nil => rfl
  | cons s l ih =>
    cases s with
    | constant name value =>
      have hcons (l : List Statement) : gatherConstants (.constant name value :: l) =
          value.declare name >>= fun _ => gatherConstants l := rfl
      rw [List.cons_append, hcons, hcons, ih, bind_assoc]
    | _ => exact ih

/-- A statement that is no constant may be dropped anywhere in the list. -/
theorem gatherConstants_skip {s : Statement} (h : s.isConstant = false)
    (before after : List Statement) :
    gatherConstants (before ++ s :: after) = gatherConstants (before ++ after) := by
  rw [gatherConstants_append, gatherConstants_append, gatherConstants_cons h]

end Statement

/-! ## Layout -/

/-- Picking an operand commutes with whatever is done to operands. -/
theorem Side.pick_map {α β : Type} (f : α → β) (side : Side) (swapped : Bool) (receiver : α)
    (argument : Option α) :
    side.pick swapped (f receiver) (argument.map f) =
      (side.pick swapped receiver argument).map f := by
  cases side <;> cases swapped <;> cases argument <;> rfl

namespace Command

/-- An operand with the location at which it is found. -/
def Located.sent (X : Atlas) (operand : Located) : Located :=
  (operand.1, X.sites operand.2)

/-- Whether an operand lies in the zero page does not depend on where it has moved. -/
theorem couples_inZeroPage (operand : Option Located) :
    Couples C (Context.Alike X) (inZeroPage operand)
      (inZeroPage (operand.map (Located.sent X))) := by
  rcases operand with _ | ⟨⟨mode, expr, pos⟩, location⟩
  · exact .pure _
  · cases expr with
    | none => exact .pure _
    | some e => exact (Pass.couples_fold rfl _ e).bind fun _ => .pure _

/-- The encoding that fits a shape is the same for operands that have moved. -/
theorem couples_encode (swapped : Bool) (receiver : Located) (argument : Option Located)
    (shape : Shape) :
    Couples C (Context.Alike X) (encode swapped receiver argument shape)
      (encode swapped (receiver.sent X) (argument.map (Located.sent X)) shape) := by
  unfold encode
  split
  · exact .pure _
  · exact .pure _
  · exact .pure _
  · rw [Side.pick_map]
    refine (couples_inZeroPage _).bind fun short => ?_
    cases short with
    | true => exact .pure _
    | false => exact .pure _

/-- One command selects the same encoding at both locations. -/
theorem couples_select (h : X.Sends m n) (receiver : Operand) (c : Command) (i : Nat) :
    Couples C (Context.Alike X) (c.select receiver (m.child 0) (m.child i))
      (c.select receiver (n.child 0) (n.child i)) := by
  unfold select
  rw [← (h.child 0).site, ← (h.child i).site]
  dsimp only
  split
  · exact (Couples.error _ _).bind fun _ => .pure _
  · rename_i shape _
    have hencode := couples_encode (C := C) (X := X)
      (c.kind.normal receiver c.argument).swapped (receiver, m.child 0)
      (c.argument.map fun arg => (arg, m.child i)) shape
    rw [Option.map_map] at hencode
    exact hencode.bind fun _ => .pure _

/-- Laying out a command records the selection at locations that match and reserves the same
size. -/
theorem couples_layOut (h : X.Sends m n) (receiver : Operand) (c : Command) (i : Nat) :
    Couples C (Context.Alike X) (c.layOut receiver (m.child 0) (m.child i))
      (c.layOut receiver (n.child 0) (n.child i)) := by
  refine (couples_select h receiver c i).bind fun selection => ?_
  refine Couples.bind (.update fun _ _ ⟨ρ, hc⟩ => ⟨ρ, ?_⟩) fun _ => Pass.couples_reserveSome _ _ _
  exact { hc with
    selections := hc.selections.put X.places_inj (h.child i).place (h.child i).spelling selection }

/-- Laying out the commands of a list is coupled, command by command. -/
theorem couples_layOutAll (h : X.Sends m n) (receiver : Operand) (commands : List Command)
    (index : Nat) :
    Couples C (Context.Alike X) (layOutAll m receiver index commands)
      (layOutAll n receiver index commands) := by
  induction commands generalizing index with
  | nil => exact .pure _
  | cons c rest ih => exact (couples_layOut h receiver c _).bind fun _ => ih _

end Command

/-- Laying out a branch records one size at locations that match. -/
theorem Branch.couples_layOut (h : X.places m = n) (b : Branch) :
    Couples C (Context.Alike X) (b.layOut m) (b.layOut n) := by
  unfold Branch.layOut Branch.check
  refine Couples.bind ?_ fun size => ?_
  · split
    · exact .pure _
    · exact (Couples.error _ _).bind fun _ => .pure _
  · refine Couples.bind (.update fun _ _ ⟨ρ, hc⟩ => ⟨ρ, ?_⟩) fun _ => Pass.couples_reserveSome _ _ _
    exact { hc with branches := hc.branches.put X.places_inj h size }

/-- A label is placed at the same address, under definitions that are renamed. -/
theorem Name.couples_placeLabel (h : X.places m = n) (name : Name) :
    Couples C (Context.Alike X) (name.placeLabel m) (name.placeLabel n) := by
  unfold Name.placeLabel
  refine (Pass.couples_programCounter _ _ _).bind fun counter => ?_
  split
  · dsimp only
    refine Couples.bind (.update fun c c' ⟨ρ, hc⟩ => ⟨ρ, ?_⟩) fun _ => Pass.couples_note _
    have hlabel := hc.labels m
    rw [h] at hlabel
    unfold Context.placeLabel
    rw [hlabel]
    cases c.labels.at? m with
    | none => exact hc
    | some id =>
      exact hc.withSymbols (hc.symbols.placeLabel id _) (Nat.le_of_eq Array.size_modify.symm)
  · exact .error _ _

namespace Relocation

/-- Laying out a relocation switches to the same bank and moves to the same address. -/
theorem couples_layOut (h : X.Sends m n) (pos : Position) (target : Relocation) :
    Couples C (Context.Alike X) (target.layOut m pos) (target.layOut n pos) := by
  cases target with
  | ram dest => exact .pure _
  | rom bank dest =>
    refine Couples.bind ?_ fun _ => ?_
    · cases bank with
      | none => exact .pure _
      | some e =>
        refine (Pass.couples_fold (h.child 0).site _ e).bind fun index => ?_
        cases index with
        | none => exact .fatal _ _
        | some index => exact Pass.couples_onRom (Rom.couples_switchBank index pos) pos
    · cases dest with
      | none => exact .pure _
      | some e =>
        refine (Pass.couples_fold (h.child 1).site _ e).bind fun address => ?_
        cases address with
        | none => exact .fatal _ _
        | some address => exact Pass.couples_onBank (Bank.couples_org address pos) _ pos

end Relocation

/-- An embedded file reads the same on both sides, and its contents are recorded at locations that
match. -/
theorem Files.couples_embed (h : X.places m = n) (files : Files) (name : String) (pos : Position) :
    Couples C (Context.Alike X) (files.embed m name pos) (files.embed n name pos) := by
  unfold Files.embed
  dsimp only
  split
  · exact .error _ _
  · rename_i bytes _
    refine (Pass.couples_reserve _ _ _).bind fun _ => (Pass.couples_note _).bind fun _ => ?_
    refine .update fun _ _ ⟨ρ, hc⟩ => ⟨ρ, ?_⟩
    exact { hc with contents := hc.contents.put X.places_inj h (some bytes) }

/-! ## Emission -/

namespace Command

/-- The bytes of an operand are the same after a move. -/
theorem couples_emitOperand (opcode : Opcode) (pos : Position) (operand : Option Located) :
    Couples C (Context.Alike X) (emitOperand opcode pos operand)
      (emitOperand opcode pos (operand.map (Located.sent X))) := by
  rcases operand with _ | ⟨⟨mode, expr, pos'⟩, location⟩
  · exact .internal _ _
  · cases expr with
    | none => exact .internal _ _
    | some e =>
      refine (Pass.couples_fold rfl _ e).bind fun value => ?_
      dsimp only
      split
      · exact Pass.couples_writeByte _ _
      · exact Pass.couples_writeWord _ _

/-- The selection that was recorded is emitted with the same bytes. -/
theorem couples_emitSelection (s : Selection) (receiver : Located) (argument : Option Located)
    (pos : Position) :
    Couples C (Context.Alike X) (emitSelection s receiver argument pos)
      (emitSelection s (receiver.sent X) (argument.map (Located.sent X)) pos) := by
  unfold emitSelection
  split
  · exact Pass.couples_writeBytes _ _
  · rename_i lead opcode carrier _
    refine Couples.bind ?_ fun _ => (Pass.couples_writeByte _ _).bind fun _ => ?_
    · cases lead with
      | none => exact .pure _
      | some lead => exact Pass.couples_writeByte _ _
    · cases carrier with
      | none => exact .pure _
      | some side =>
        dsimp only
        rw [Side.pick_map]
        exact couples_emitOperand _ _ _

/-- A command emits what its location has recorded, which is the same on both sides. -/
theorem couples_emit (h : X.Sends m n) (receiver : Operand) (c : Command) (i : Nat) :
    Couples C (Context.Alike X) (c.emit receiver (m.child 0) (m.child i))
      (c.emit receiver (n.child 0) (n.child i)) := by
  refine Pass.couples_recorded Context.selections
    (fun hc => hc.selections.at? (h.child i).place (h.child i).spelling)
    (fun r => ⟨{ selections := r }, rfl⟩) fun s t hst => ?_
  rw [hst]
  split
  · exact .pure _
  · rename_i selection _
    have hemit := couples_emitSelection (C := C) (X := X) selection (receiver, m.child 0)
      (c.argument.map fun arg => (arg, m.child i)) c.pos
    rw [Option.map_map] at hemit
    rw [← (h.child 0).site, ← (h.child i).site]
    exact hemit

/-- Emitting the commands of a list is coupled, command by command. -/
theorem couples_emitAll (h : X.Sends m n) (receiver : Operand) (commands : List Command)
    (index : Nat) :
    Couples C (Context.Alike X) (emitAll m receiver index commands)
      (emitAll n receiver index commands) := by
  induction commands generalizing index with
  | nil => exact .pure _
  | cons c rest ih => exact (couples_emit h receiver c _).bind fun _ => ih _

end Command

namespace DataItem

/-- The bytes of a string are written as units of the same width. -/
theorem couples_emitBytes (width : Width) (pos : Position) (bytes : List UInt8) :
    Couples C (Context.Alike X) (width.emitBytes pos bytes) (width.emitBytes pos bytes) := by
  induction bytes with
  | nil => exact .pure _
  | cons b rest ih => exact (Pass.couples_writeUnit _ _ _).bind fun _ => ih

/-- A data item is emitted alike when its expression is found at the moved site. -/
theorem couples_emit (h : X.sites m = n) (width : Width) (item : DataItem) :
    Couples C (Context.Alike X) (item.emit m width) (item.emit n width) := by
  cases item with
  | value e => exact (Pass.couples_fold h _ e).bind fun _ => Pass.couples_writeUnit _ _ _
  | string text pos => exact couples_emitBytes width pos _

/-- Emitting the items of a data statement is coupled, item by item. -/
theorem couples_emitAll (h : X.Sends m n) (width : Width) (items : List DataItem) (index : Nat) :
    Couples C (Context.Alike X) (emitAll m width index items) (emitAll n width index items) := by
  induction items generalizing index with
  | nil => exact .pure _
  | cons item rest ih =>
    exact (couples_emit (h.child index).site width item).bind fun _ => ih _

end DataItem

namespace Branch

/-- The displacement depends on the target and on the program counter only. -/
theorem couples_emitDisplacement (target : Option UInt16) (e : Expr) (pos : Position) :
    Couples C (Context.Alike X) (emitDisplacement target e pos)
      (emitDisplacement target e pos) := by
  refine (Pass.couples_programCounter _ _ _).bind fun counter => ?_
  cases target with
  | none => exact Pass.couples_writeByte _ _
  | some address =>
    dsimp only
    split
    · exact (Couples.error _ _).bind fun _ => Pass.couples_writeByte _ _
    · exact Pass.couples_writeByte _ _

/-- Branches that have reserved the same size are emitted alike. -/
theorem couples_emitSized (h : X.Sends m n) (size : Nat) (b : Branch) :
    Couples C (Context.Alike X) (b.emitSized m size) (b.emitSized n size) := by
  unfold emitSized
  split
  · exact .internal _ _
  · refine (Pass.couples_writeByte _ _).bind fun _ => ?_
    split
    · exact .pure _
    · split
      · exact .internal _ _
      · refine (Pass.couples_fold (h.child 0).site _ _).bind fun target => ?_
        split
        · exact Pass.couples_writeWord _ _
        · exact couples_emitDisplacement _ _ _

/-- A branch is emitted with the size that its location has recorded. -/
theorem couples_emit (h : X.Sends m n) (b : Branch) :
    Couples C (Context.Alike X) (b.emit m) (b.emit n) := by
  refine Pass.couples_recorded Context.branches (fun hc => h.place ▸ hc.branches.at? m)
    (fun r => ⟨{ branches := r }, rfl⟩) fun s t hst => ?_
  rw [hst]
  split
  · exact .pure _
  · exact couples_emitSized h _ b

end Branch

namespace Relocation

/-- Runs that start by reading a value that is remembered. -/
theorem couples_known (h : X.sites m = n) (e : Option Expr) {next next' : Context → Pass Unit}
    (hnext : ∀ s t, t.known? n e = s.known? m e →
      Couples C (Context.Alike X) (next s) (next' t)) :
    Couples C (Context.Alike X) (Run.read >>= next) (Run.read >>= next') := by
  cases e with
  | none => exact .read_same (fun _ => none) (fun _ _ _ => rfl) hnext
  | some e =>
    refine .read (fun ctx => ctx.memo.value? (.tree m)) (fun ctx => ctx.memo.value? (.tree n))
      (fun c c' ⟨_, hc⟩ => h ▸ hc.memo.value? m) (fun t => ?_) hnext
    let known := Memo.empty.set { anchor := .tree m } (t.memo.result { anchor := .tree n })
    exact ⟨{ memo := known }, congrArg Folded.value? (Memo.set_self ..).symm⟩

/-- A relocation is repeated from what is remembered, which is the same on both sides. -/
theorem couples_emit (h : X.Sends m n) (pos : Position) (target : Relocation) :
    Couples C (Context.Alike X) (target.emit m pos) (target.emit n pos) := by
  cases target with
  | ram dest => exact .pure _
  | rom bank dest =>
    refine Couples.bind ?_ fun _ => ?_
    · refine couples_known (h.child 0).site bank fun s t hst => ?_
      rw [hst]
      split
      · exact .pure _
      · exact Pass.couples_onRom (Rom.couples_switchBank _ pos) pos
    · refine couples_known (h.child 1).site dest fun s t hst => ?_
      rw [hst]
      split
      · exact .pure _
      · exact Pass.couples_onBank (Bank.couples_seek _ pos) _ pos

end Relocation

/-- The contents that were recorded for a file are written on both sides. -/
theorem Pass.couples_emitContents (h : X.places m = n) (pos : Position) :
    Couples C (Context.Alike X) (Pass.emitContents m pos) (Pass.emitContents n pos) := by
  refine Pass.couples_recorded Context.contents (fun hc => h ▸ hc.contents.at? m)
    (fun r => ⟨{ contents := r }, rfl⟩) fun s t hst => ?_
  rw [hst]
  split
  · exact .pure _
  · exact Pass.couples_writeBytes _ _

/-! ## Statements -/

namespace Statement

/-- The passes over two statements are coupled. -/
structure Coupled (C : Log.Coupling) (X : Atlas) (files : Files) (m : Location) (s : Statement)
    (n : Location) (s' : Statement) : Prop where
  isConstant : s'.isConstant = s.isConstant
  isHeader : s'.isHeader = s.isHeader
  gather : Couples C (Context.Alike X) (s.gather m) (s'.gather n)
  layOut : Couples C (Context.Alike X) (s.layOut files m) (s'.layOut files n)
  emit : Couples C (Context.Alike X) (s.emit m) (s'.emit n)

/-- The passes over the statements of two blocks, from given indices on, are coupled. -/
structure AllCoupled (C : Log.Coupling) (X : Atlas) (files : Files) (m : Location) (i : Nat)
    (l : List Statement) (n : Location) (j : Nat) (l' : List Statement) : Prop where
  gather : Couples C (Context.Alike X) (gatherOthers m i l) (gatherOthers n j l')
  layOut : Couples C (Context.Alike X) (layOutAll files m i l) (layOutAll files n j l')
  emit : Couples C (Context.Alike X) (emitAll m i l) (emitAll n j l')

variable {files : Files} {i j : Nat} {l l' : List Statement}

theorem AllCoupled.nil : AllCoupled C X files m i [] n j [] :=
  ⟨.pure _, .pure _, .pure _⟩

theorem AllCoupled.cons {s s' : Statement} (h : Coupled C X files (m.child i) s (n.child j) s')
    (hrest : AllCoupled C X files m (i + 1) l n (j + 1) l') :
    AllCoupled C X files m i (s :: l) n j (s' :: l') where
  gather := by
    unfold gatherOthers
    refine Couples.bind ?_ fun _ => hrest.gather
    rw [h.isConstant, h.isHeader]
    split
    · exact .pure _
    · exact h.gather
  layOut := h.layOut.bind fun _ => hrest.layOut
  emit := h.emit.bind fun _ => hrest.emit

/-- Constants do nothing in these passes, so one may be missing on the right. -/
theorem AllCoupled.skip_left {s : Statement} (hs : s.isConstant = true)
    (h : AllCoupled C X files m (i + 1) l n j l') : AllCoupled C X files m i (s :: l) n j l' := by
  cases s with
  | constant name value => exact ⟨h.gather, h.layOut, h.emit⟩
  | _ => cases hs

/-- Constants do nothing in these passes, so one may be missing on the left. -/
theorem AllCoupled.skip_right {s : Statement} (hs : s.isConstant = true)
    (h : AllCoupled C X files m i l n (j + 1) l') : AllCoupled C X files m i l n j (s :: l') := by
  cases s with
  | constant name value => exact ⟨h.gather, h.layOut, h.emit⟩
  | _ => cases hs

/-- The passes over two blocks are coupled if those over their statements are. -/
theorem Coupled.block (hplace : X.places m = n) (kind : BlockKind) (pos : Position)
    (hconstants : Couples C (Context.Alike X) (gatherConstants l) (gatherConstants l'))
    (hrom : Couples C (Context.Alike X) (kind.startRom m l pos) (kind.startRom n l' pos))
    (h : AllCoupled C X files m 0 l n 0 l') :
    Coupled C X files m (.block kind l pos) n (.block kind l' pos) where
  isConstant := rfl
  isHeader := rfl
  gather := by
    unfold Statement.gather
    refine (BlockKind.couples_openScope kind).bind fun scope => ?_
    refine Couples.bind (.update fun _ _ ⟨ρ, hc⟩ => ⟨ρ, ?_⟩) fun _ => Pass.couples_within scope ?_
    · exact { hc with scopes := hc.scopes.put X.places_inj hplace (some scope) }
    · exact hconstants.bind fun _ => hrom.bind fun _ => h.gather
  layOut := by
    unfold Statement.layOut
    exact (Pass.couples_scopeOf hplace pos).bind fun scope => Pass.couples_within scope h.layOut
  emit := by
    unfold Statement.emit
    exact (Pass.couples_scopeOf hplace pos).bind fun scope => Pass.couples_within scope h.emit

mutual

/-- The passes over a statement and over the same statement at another location are coupled. -/
theorem Coupled.self : ∀ (s : Statement) {m n : Location}, X.Sends m n → Coupled C X files m s n s
  | .block kind l pos, _, _, h =>
    .block h.place kind pos (couples_gatherConstants l)
      ((Header.Matches.self h l).couples_startRom kind pos) (AllCoupled.self l h 0)
  | .relocation target pos, _, _, h =>
    ⟨rfl, rfl, target.couples_gather h pos, target.couples_layOut h pos, target.couples_emit h pos⟩
  | .label name, _, _, h =>
    ⟨rfl, rfl, name.couples_declareLabel h.place, name.couples_placeLabel h.place, .pure _⟩
  | .constant name value, _, _, _ => ⟨rfl, rfl, value.couples_declare name, .pure _, .pure _⟩
  | .storage v, _, _, h => ⟨rfl, rfl, v.couples_declare h, .pure _, .pure _⟩
  | .header _, _, _, _ => ⟨rfl, rfl, .pure _, .pure _, .pure _⟩
  | .data d, _, _, h =>
    ⟨rfl, rfl, .pure _, Pass.couples_reserve _ _ _, DataItem.couples_emitAll h d.width d.items 0⟩
  | .command c, _, _, h =>
    ⟨rfl, rfl, .pure _, Command.couples_layOutAll h c.receiver c.commands 0,
      Command.couples_emitAll h c.receiver c.commands 0⟩
  | .branch b, _, _, h => ⟨rfl, rfl, .pure _, b.couples_layOut h.place, b.couples_emit h⟩
  | .embed path pos, _, _, h =>
    ⟨rfl, rfl, .pure _, files.couples_embed h.place path pos, Pass.couples_emitContents h.place pos⟩

/-- The passes over the statements of a block and over those of the same block at another location
are coupled. -/
theorem AllCoupled.self : ∀ (l : List Statement) {m n : Location}, X.Sends m n → ∀ i,
    AllCoupled C X files m i l n i l
  | [], _, _, _, _ => .nil
  | s :: rest, _, _, h, i => .cons (Coupled.self s (h.child i)) (AllCoupled.self rest h (i + 1))

end

/-- Statements that stay where they are may stand before others. -/
theorem AllCoupled.same {m n : Location} {tail tail' : List Statement} (l : List Statement)
    {i : Nat}
    (h : ∀ index, i ≤ index → index < i + l.length → X.Sends (m.child index) (n.child index))
    (htail : AllCoupled C X files m (i + l.length) tail n (i + l.length) tail') :
    AllCoupled C X files m i (l ++ tail) n i (l ++ tail') := by
  induction l generalizing i with
  | nil => exact htail
  | cons s l ih =>
    have hlength : i + (s :: l).length = i + 1 + l.length := by
      rw [List.length_cons]
      omega
    rw [hlength] at h htail
    refine .cons (.self s (h i (Nat.le_refl _) (by omega))) (ih (fun index hi hlt => ?_) htail)
    exact h index (Nat.le_of_succ_le hi) hlt

/-- The statements from an index on may all stay where they are. -/
theorem AllCoupled.rest {m n : Location} (l : List Statement) {i : Nat}
    (h : ∀ index, i ≤ index → X.Sends (m.child index) (n.child index)) :
    AllCoupled C X files m i l n i l := by
  have hsame : AllCoupled C X files m i (l ++ []) n i (l ++ []) :=
    .same l (fun index hi _ => h index hi) .nil
  rwa [List.append_nil] at hsame

/-- The passes over two blocks are coupled if one of their statements is replaced by one over which
the passes are coupled. -/
theorem Coupled.replace {s s' : Statement} {before after : List Statement} (hplace : X.places m = m)
    (kind : BlockKind) (pos : Position) (hconstant : s.isConstant = false)
    (hheader : s.isHeader = false)
    (hpos : C.confuses .statementBeforeHeader s.pos .statementBeforeHeader s'.pos)
    (hsends : ∀ index, index ≠ before.length → X.Sends (m.child index) (m.child index))
    (h : Coupled C X files (m.child before.length) s (m.child before.length) s') :
    Coupled C X files m (.block kind (before ++ s :: after) pos) m
      (.block kind (before ++ s' :: after) pos) := by
  have hmatches : Header.Matches C X id m (before ++ s :: after) m (before ++ s' :: after) :=
    .replace h.isConstant hheader (h.isHeader.trans hheader) hpos hsends
  refine .block hplace kind pos ?_ (hmatches.couples_startRom kind pos) ?_
  · rw [gatherConstants_skip hconstant, gatherConstants_skip (h.isConstant.trans hconstant)]
    exact couples_gatherConstants _
  · refine .same before (fun index _ hlt => hsends index (by omega)) ?_
    rw [Nat.zero_add]
    exact .cons h (.rest after fun index hi => hsends index (by omega))

end Statement

/-! ## Programs -/

namespace Program

variable {files : Files} {program program' : Program}

/-- All passes of a compilation are coupled if those over the top blocks are. -/
theorem couples_passes
    (h : Statement.Coupled C X files .top program.block .top program'.block)
    (hpos : program'.pos = program.pos) :
    Couples C (Context.Alike X) (program.passes files) (program'.passes files) := by
  unfold passes gather layOut rewind emit image
  rw [hpos]
  refine Couples.bind (h.gather.bind fun _ => ?_) fun _ => Couples.bind (h.layOut.bind fun _ => ?_)
    fun _ => Couples.bind ?_ fun _ => h.emit.bind fun _ => ?_
  · refine .read_same (fun ctx => ctx.symbols.size) (fun _ _ ⟨_, hc⟩ => hc.symbols.size)
      fun s t hsize => ?_
    rw [hsize]
    exact Pass.couples_note _
  · exact .update fun _ _ ⟨ρ, hc⟩ => ⟨ρ, { hc with }⟩
  · exact Pass.couples_onRom (.update_eq _) _
  · exact Pass.couples_onRom (.read_eq fun _ => .pure _) _

/-- The compilations of two programs are related if their passes and their first logs are. -/
theorem meet_passes (h : Statement.Coupled C X files .top program.block .top program'.block)
    (hpos : program'.pos = program.pos) {config config' : Config}
    (hlog : C.rel (Log.empty config.errorLimit) (Log.empty config'.errorLimit)) :
    Meet C (Context.Alike X) (program.passes files (start config))
      (program'.passes files (start config')) :=
  (couples_passes h hpos).both _ _ (Context.alike_start X) hlog

end Program

end Cartridge
