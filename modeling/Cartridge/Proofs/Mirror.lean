import Cartridge.Proofs.Exchange
import Cartridge.Proofs.Lockstep

/-!
# The two spellings of a transfer

One operand gets the value of another one, or the other one is put into it. It does not matter which
of the two is written: one spelling is turned into the other one or names the same instruction, and
what is refused in one spelling is refused in the other one.

Main definitions:

- `Log.counting`: the logs of two runs that report as many errors.
- `Selection.Mirrors`: the selections for the two spellings of a command.
- `Statement.Mirrors`: a command is spelled the other way round.

Main results:

- Theorem `CommandKind.shapeOf_mirror`: the shapes of the two spellings.
- Theorem `Statement.Mirrors.coupled`: programs are compiled in lockstep when a command is spelled
  the other way round.
- Theorem `Program.compile_of_mirrored`: programs have the same image, or as many errors, when a
  command is spelled the other way round.
-/

namespace Cartridge

open Run

/-! ## Shapes -/

/-- Two entries of the table without operand bytes: the same instruction, or two objections. -/
inductive Shape.Transfers : Except Objection Shape → Except Objection Shape → Prop
  | implied (opcode : Opcode) : Transfers (.ok (.implied opcode)) (.ok (.implied opcode))
  | refused (objection objection' : Objection) : Transfers (.error objection) (.error objection')

namespace CommandKind

/-- What one register gets from another one is put into it by that one. Nothing is put into an
immediate value. -/
theorem transfers {r q : Mode} (hr : r.isAddressable = false) (hq : q.isMemory = false) :
    Shape.Transfers (shapeOfGet r q) (shapeOfPut q r) := by
  cases r with
  | builtin b =>
    cases q with
    | builtin b' => cases b <;> cases b' <;> first | exact .implied _ | exact .refused _ _
    | label | indirectLabel => cases b <;> exact .refused _ _
    | _ => cases hq
  | label | indirectLabel | immediate =>
    cases q with
    | builtin b' => cases b' <;> exact .refused _ _
    | label | indirectLabel => exact .refused _ _
    | _ => cases hq
  | _ => cases hr

/-- The shapes of the two spellings of a command. Where one operand is in memory, its bytes come
from the same operand, since the operands change places in one of the spellings only. -/
theorem shapeOf_mirror (r q : Operand) :
    Shape.Transfers (get.shapeOf r (some q)) (put.shapeOf q (some r)) ∨
      put.shapeOf q (some r) = get.shapeOf r (some q) ∧
        (put.normal q (some r)).swapped = !(get.normal r (some q)).swapped := by
  cases hq : q.mode.isMemory with
  | true =>
    cases hr : r.mode.isMemory with
    | true =>
      left
      simp only [shapeOf, hq, hr, Option.any_some, Bool.and_self, ↓reduceIte]
      exact .refused _ _
    | false =>
      right
      simp [shapeOf, normal, NormalCommand.swapped, hq, hr]
  | false =>
    cases ha : r.mode.isAddressable with
    | true =>
      right
      simp [shapeOf, normal, NormalCommand.swapped, hq, ha, Mode.isMemory_of_isAddressable ha]
    | false =>
      left
      have hget : get.shapeOf r (some q) = shapeOfGet r.mode q.mode := by
        simp [shapeOf, normal, shape, shapeWith, takesArgument, hq, ha]
      have hput : put.shapeOf q (some r) = shapeOfPut q.mode r.mode := by
        simp [shapeOf, normal, shape, shapeWith, takesArgument, hq]
      rw [hget, hput]
      exact transfers ha hq

end CommandKind

/-! ## Selections -/

/-- The selections for the two spellings of a command. They have one encoding. If it has operand
bytes, the operands have changed places in one of the spellings only. -/
def Selection.Mirrors (s s' : Selection) : Prop :=
  s'.encoding = s.encoding ∧
    (s'.swapped = !s.swapped ∨ ∃ opcode, s.encoding = .instruction none opcode none)

/-- A command is spelled the other way round: its operands have changed places. -/
def Atlas.mirror (m : Location) : Atlas where
  places := id
  sites := Equiv.swap (m.child 0) (m.child 1)
  places_inj h := h
  sites_inj h := (Equiv.swap _ _).injective h
  spelling l := if l = m.child 1 then Selection.Mirrors else Eq

/-- What is not below the command stays as it is. -/
theorem Atlas.mirror_sends_self {base l : Location} {j k : Nat} (h : (l.child k).Under base)
    (hne : j ≠ k) : (mirror base).Sends (l.child j) (l.child j) := by
  intro path
  have hchild (i : Nat) : (l.child j).descend path ≠ base.child i := fun heq =>
    Location.not_under_descend h hne path (heq ▸ base.under_child i)
  exact ⟨rfl, Equiv.swap_apply_of_ne_of_ne (hchild 0) (hchild 1), if_neg (hchild 1)⟩

/-- Whichever side is picked, it is the same operand in both spellings. -/
theorem Side.pick_mirror (m : Location) (side : Side) (swapped : Bool) (r q : Operand) :
    side.pick (!swapped) (q, m.child 0) (some (r, m.child 1)) =
      (side.pick swapped (r, m.child 0) (some (q, m.child 1))).map
        (Command.Located.sent (.mirror m)) := by
  have hzero : Equiv.swap (m.child 0) (m.child 1) (m.child 0) = m.child 1 :=
    Equiv.swap_apply_left _ _
  have hone : Equiv.swap (m.child 0) (m.child 1) (m.child 1) = m.child 0 :=
    Equiv.swap_apply_right _ _
  cases side <;> cases swapped <;>
    simp [Side.pick, Command.Located.sent, Atlas.mirror, hzero, hone]

/-! ## Logs -/

/-- The logs of two runs that report as many errors, whatever these are. -/
def Log.counting : Log.Coupling where
  rel a b := b.count = a.count ∧ b.limit = a.limit ∧ b.entries.length = a.entries.length
  abort a b := b.count = a.count ∧ b.entries.length = a.entries.length
  early _ _ := False
  confuses _ _ _ _ := True
  confuses_self _ _ := trivial
  soft := by
    rintro a b e pos e' pos' - ⟨hcount, hlimit, hlength⟩ hroom
    simp [Log.soft, hcount, hlimit, hlength, hroom]
  full := by
    rintro a b e pos e' pos' - ⟨hcount, -, hlength⟩ - -
    simp [Log.soft, Log.giveUp, hcount, hlength]
  leave := by
    rintro a b e pos e' pos' - ⟨hcount, hlimit, -⟩ hfull hroom
    omega
  fatal := by
    rintro a b e pos e' pos' - ⟨hcount, -, hlength⟩
    simp [Log.fatal, hcount, hlength]
  early_soft _ _ h := h
  early_full _ _ h := h.elim
  early_fatal _ _ h := h.elim

/-! ## Commands -/

namespace Command

variable {C : Log.Coupling} {m : Location}

/-- The form of a memory operand is decided in the same way in both spellings. -/
theorem couples_encode_mirror (m : Location) (swapped : Bool) (r q : Operand) (shape : Shape) :
    Couples C (Context.Alike (.mirror m))
      (encode swapped (r, m.child 0) (some (q, m.child 1)) shape)
      (encode (!swapped) (q, m.child 0) (some (r, m.child 1)) shape) := by
  unfold encode
  split
  · exact .pure _
  · exact .pure _
  · exact .pure _
  · rw [Side.pick_mirror]
    refine (couples_inZeroPage _).bind fun short => ?_
    cases short with
    | true => exact .pure _
    | false => exact .pure _

/-- Keeps what was selected for a command, and reserves its space. -/
def record (argumentAt : Location) (selection : Option Selection) (pos : Position) : Pass Unit := do
  Run.update fun ctx => { ctx with selections := ctx.selections.set argumentAt selection }
  Pass.reserveSome "command" (selection.map Selection.size) pos

/-- The layout of a command that is refused. -/
theorem layOut_of_error {receiver : Operand} {l₀ l₁ : Location} {c : Command}
    {objection : Objection} (h : c.kind.shapeOf receiver c.argument = .error objection) :
    c.layOut receiver l₀ l₁ =
      Run.error (c.kind.refusal receiver c.argument objection) c.pos >>=
        fun _ => record l₁ none c.pos := by
  unfold layOut select
  simp only [h, bind_assoc, pure_bind]
  rfl

/-- The layout of a command that has a shape. -/
theorem layOut_of_ok {receiver : Operand} {l₀ l₁ : Location} {c : Command} {shape : Shape}
    (h : c.kind.shapeOf receiver c.argument = .ok shape) :
    let n := c.kind.normal receiver c.argument
    c.layOut receiver l₀ l₁ =
      encode n.swapped (receiver, l₀) (c.argument.map fun arg => (arg, l₁)) shape >>=
        fun encoding =>
          record l₁ (some { kind := n.kind, convertedFrom := n.convertedFrom, encoding })
            c.pos := by
  unfold layOut select
  simp only [h, bind_assoc, pure_bind]
  rfl

/-- Selections for the two spellings of a command are kept in lockstep. -/
theorem couples_record_mirror {selection selection' : Option Selection}
    (h : Option.Rel Selection.Mirrors selection selection') (pos : Position) :
    Couples C (Context.Alike (.mirror m)) (record (m.child 1) selection pos)
      (record (m.child 1) selection' pos) := by
  have hsize : selection'.map Selection.size = selection.map Selection.size := by
    cases h with
    | none => rfl
    | some h => exact congrArg some (congrArg Encoding.size h.1)
  have hspelling : (Atlas.mirror m).spelling (m.child 1) = Selection.Mirrors := if_pos rfl
  unfold record
  rw [hsize]
  refine Couples.bind (.update fun _ _ ⟨ρ, hc⟩ => ⟨ρ, ?_⟩) fun _ => Pass.couples_reserveSome _ _ _
  exact { hc with
    selections := hc.selections.set (Atlas.mirror m).places_inj rfl (hspelling ▸ h) }

/-- The two spellings of a command are laid out in lockstep. -/
theorem couples_layOut_mirror (m : Location) (r q : Operand) (pos : Position) :
    Couples Log.counting (Context.Alike (.mirror m))
      (layOut r (m.child 0) (m.child 1) ⟨.get, some q, pos⟩)
      (layOut q (m.child 0) (m.child 1) ⟨.put, some r, pos⟩) := by
  have hrefused (e e' : Error) : Couples Log.counting (Context.Alike (.mirror m))
      (Run.error e pos >>= fun _ => record (m.child 1) none pos)
      (Run.error e' pos >>= fun _ => record (m.child 1) none pos) :=
    Couples.bind (.error_of_confuses trivial) fun _ => couples_record_mirror .none pos
  rcases CommandKind.shapeOf_mirror r q with htransfers | ⟨hshape, hswapped⟩
  · generalize hget : CommandKind.get.shapeOf r (some q) = get at htransfers
    generalize hput : CommandKind.put.shapeOf q (some r) = put at htransfers
    cases htransfers with
    | refused objection objection' =>
      rw [layOut_of_error hget, layOut_of_error hput]
      exact hrefused _ _
    | implied opcode =>
      rw [layOut_of_ok hget, layOut_of_ok hput]
      simp only [encode, pure_bind]
      refine couples_record_mirror (.some ?_) pos
      exact ⟨rfl, .inr ⟨opcode, rfl⟩⟩
  · cases hget : CommandKind.get.shapeOf r (some q) with
    | error objection =>
      rw [layOut_of_error hget, layOut_of_error (hshape.trans hget)]
      exact hrefused _ _
    | ok shape =>
      rw [layOut_of_ok hget, layOut_of_ok (hshape.trans hget)]
      dsimp only
      rw [hswapped]
      refine (couples_encode_mirror m _ r q shape).bind fun encoding => ?_
      refine couples_record_mirror (.some ?_) pos
      exact ⟨rfl, .inl hswapped⟩

/-- Selections for the two spellings of a command are written in lockstep. -/
theorem couples_emitSelection_mirror {s s' : Selection} (h : s.Mirrors s') (r q : Operand)
    (pos : Position) :
    Couples C (Context.Alike (.mirror m))
      (emitSelection s (r, m.child 0) (some (q, m.child 1)) pos)
      (emitSelection s' (q, m.child 0) (some (r, m.child 1)) pos) := by
  obtain ⟨hencoding, hcarrier⟩ := h
  unfold emitSelection
  rw [hencoding]
  cases hs : s.encoding with
  | sequence instructions => exact Pass.couples_writeBytes _ _
  | instruction lead opcode carrier =>
    refine Couples.bind ?_ fun _ => (Pass.couples_writeByte _ _).bind fun _ => ?_
    · cases lead with
      | none => exact .pure _
      | some lead => exact Pass.couples_writeByte _ _
    · cases carrier with
      | none => exact .pure _
      | some side =>
        have hswapped : s'.swapped = !s.swapped := by
          refine hcarrier.resolve_right fun ⟨opcode, heq⟩ => ?_
          cases hs.symm.trans heq
        dsimp only
        rw [hswapped, Side.pick_mirror]
        exact couples_emitOperand _ _ _

/-- The two spellings of a command are written in lockstep. -/
theorem couples_emit_mirror (m : Location) (r q : Operand) (pos : Position) :
    Couples C (Context.Alike (.mirror m)) (emit r (m.child 0) (m.child 1) ⟨.get, some q, pos⟩)
      (emit q (m.child 0) (m.child 1) ⟨.put, some r, pos⟩) where
  both s t := by
    rintro ⟨ρ, hs⟩ hl
    have hspelling : (Atlas.mirror m).spelling (m.child 1) = Selection.Mirrors := if_pos rfl
    have hselections : Option.Rel Selection.Mirrors (s.state.selections.at? (m.child 1))
        (t.state.selections.at? (m.child 1)) := hspelling ▸ hs.selections (m.child 1)
    unfold emit
    rw [read_bind_apply, read_bind_apply]
    generalize s.state.selections.at? (m.child 1) = selection at hselections
    generalize t.state.selections.at? (m.child 1) = selection' at hselections
    cases hselections with
    | none => exact (Couples.pure ()).both s t ⟨ρ, hs⟩ hl
    | some h => exact (couples_emitSelection_mirror h r q pos).both s t ⟨ρ, hs⟩ hl
  alone := (couples_emit (Atlas.sends_same m) q ⟨.put, some r, pos⟩ 1).alone

end Command

/-! ## Programs -/

namespace Statement

/-- A command that gets a value is spelled as one that puts it, in a block that may be inside other
blocks. -/
inductive Mirrors : List Statement → List Statement → Prop
  | here (receiver argument : Operand) (pos : Position) (before after : List Statement) :
      Mirrors (before ++ .command ⟨receiver, [⟨.get, some argument, pos⟩]⟩ :: after)
        (before ++ .command ⟨argument, [⟨.put, some receiver, pos⟩]⟩ :: after)
  | inside {l l' : List Statement} (h : Mirrors l l') (before after : List Statement)
      (kind : BlockKind) (pos : Position) :
      Mirrors (before ++ .block kind l pos :: after) (before ++ .block kind l' pos :: after)

/-- The passes over the two spellings of a command are coupled. -/
theorem Coupled.mirror (files : Files) (m : Location) (receiver argument : Operand)
    (pos : Position) :
    Coupled Log.counting (.mirror m) files m (.command ⟨receiver, [⟨.get, some argument, pos⟩]⟩) m
      (.command ⟨argument, [⟨.put, some receiver, pos⟩]⟩) where
  isConstant := rfl
  isHeader := rfl
  gather := .pure _
  layOut := (Command.couples_layOut_mirror m receiver argument pos).bind fun _ => .pure _
  emit := (Command.couples_emit_mirror m receiver argument pos).bind fun _ => .pure _

/-- Programs are compiled in lockstep when a command in one of their blocks is spelled the other way
round. -/
theorem Mirrors.coupled {l l' : List Statement} (h : Mirrors l l') (files : Files) (m : Location) :
    ∃ base, m.Under base ∧ ∀ kind pos,
      Coupled Log.counting (.mirror base) files m (.block kind l pos) m (.block kind l' pos) := by
  induction h generalizing m with
  | here receiver argument pos before after =>
    refine ⟨m.child before.length, m.under_child _, fun outer outerPos => ?_⟩
    exact .replace rfl outer outerPos rfl rfl trivial
      (fun _ => Atlas.mirror_sends_self (.refl _)) (.mirror files _ receiver argument pos)
  | inside _ before after kind pos ih =>
    obtain ⟨base, hbase, hblock⟩ := ih (m.child before.length)
    refine ⟨base, hbase.of_child, fun outer outerPos => ?_⟩
    exact .replace rfl outer outerPos rfl rfl trivial
      (fun _ => Atlas.mirror_sends_self hbase) (hblock kind pos)

end Statement

namespace Compilation

theorem exists_image {c : Compilation} (h : c.result.isOk = true) :
    ∃ image, c.result = .ok image := by
  cases hc : c.result with
  | ok image => exact ⟨image, rfl⟩
  | error f =>
    rw [hc] at h
    cases h

theorem exists_failure {c : Compilation} (h : c.result.isOk = false) :
    ∃ f, c.result = .error f := by
  cases hc : c.result with
  | ok image =>
    rw [hc] at h
    cases h
  | error f => exact ⟨f, rfl⟩

end Compilation

namespace Program

/-- What comes out of two runs that report as many errors. -/
theorem result_of_meet_counting {S : Context → Context → Prop}
    {r r' : EStateM.Result Abort (Logged Context) (List UInt8)} (h : Meet Log.counting S r r') :
    (∃ image, (ofRun r).result = .ok image ∧ (ofRun r').result = .ok image) ∨
      ∃ f f', (ofRun r).result = .error f ∧ (ofRun r').result = .error f' ∧
        f'.errors = f.errors ∧ f'.diagnostics.length = f.diagnostics.length := by
  cases r with
  | error x s =>
    cases r' with
    | error y t => exact .inr ⟨_, _, rfl, rfl, h.1, h.2⟩
    | ok image t => exact h.elim
  | ok image s =>
    cases r' with
    | error y t => exact h.elim
    | ok image' t =>
      obtain ⟨rfl, -, hcount, -, hlength⟩ := h
      have hclean : t.log.isClean = s.log.isClean := congrArg (· == 0) hcount
      unfold ofRun
      dsimp only
      rw [hclean]
      cases s.log.isClean with
      | true => exact .inl ⟨image, rfl, rfl⟩
      | false => exact .inr ⟨_, _, rfl, rfl, hcount, hlength⟩

/-- A command that gets a value is spelled as one that puts it. -/
def Mirrored (program program' : Program) : Prop :=
  Statement.Mirrors program.statements program'.statements ∧ program'.pos = program.pos

/-- A program and the one in which a command is spelled the other way round have the same image, or
none of them has one and they report as many errors. -/
theorem compile_of_mirrored (files : Files) (config : Config) {program program' : Program}
    (h : program.Mirrored program') :
    (∀ image, (program.compile files config).result = .ok image ↔
        (program'.compile files config).result = .ok image) ∧
      ∀ f f', (program.compile files config).result = .error f →
        (program'.compile files config).result = .error f' →
          f'.errors = f.errors ∧ f'.diagnostics.length = f.diagnostics.length := by
  obtain ⟨l, pos⟩ := program
  obtain ⟨l', pos'⟩ := program'
  obtain ⟨hmirrors, rfl⟩ := h
  obtain ⟨base, -, hcoupled⟩ := hmirrors.coupled files .top
  have hmeet : Meet Log.counting (Context.Alike (.mirror base))
      (passes files ⟨l, pos'⟩ (start config)) (passes files ⟨l', pos'⟩ (start config)) :=
    meet_passes (hcoupled .main pos') rfl ⟨rfl, rfl, rfl⟩
  unfold compile
  rcases result_of_meet_counting hmeet with
    ⟨image, hleft, hright⟩ | ⟨f, f', hleft, hright, herrors, hlength⟩
  · rw [hleft, hright]
    exact ⟨fun _ => .rfl, nofun⟩
  · rw [hleft, hright]
    refine ⟨fun _ => ⟨nofun, nofun⟩, ?_⟩
    rintro _ _ ⟨⟩ ⟨⟩
    exact ⟨herrors, hlength⟩

/-- A program that carries out a command, in a scope. -/
def performing (command : CommandList) : Program where
  statements :=
    [.header { settings := [⟨{ text := "mapper" }, .number 0 {}⟩, ⟨{ text := "prg" }, .number 1 {}⟩,
        ⟨{ text := "chr" }, .number 1 {}⟩] },
      .relocation (.rom (some (.number 0 {})) (some (.number 0x8000 {}))) {},
      .block .scope [.command command] {}]

/-- Register `a` is stored in the zero page by either spelling, and in an immediate value by
none. -/
theorem compile_of_mirrored_store :
    let get (mode : Mode) : CommandList :=
      ⟨⟨mode, some (.number 5 {}), {}⟩, [⟨.get, some ⟨.builtin .a, none, {}⟩, {}⟩]⟩
    let put (mode : Mode) : CommandList :=
      ⟨⟨.builtin .a, none, {}⟩, [⟨.put, some ⟨mode, some (.number 5 {}), {}⟩, {}⟩]⟩
    (∀ mode, (performing (get mode)).Mirrored (performing (put mode))) ∧
      (∃ image, ((performing (get .direct)).compile (fun _ => .error .notFound) {}).result =
          .ok image ∧
        ((performing (put .direct)).compile (fun _ => .error .notFound) {}).result = .ok image) ∧
      ∃ f f', ((performing (get .immediate)).compile (fun _ => .error .notFound) {}).result =
          .error f ∧
        ((performing (put .immediate)).compile (fun _ => .error .notFound) {}).result =
          .error f' ∧ f'.errors = f.errors := by
  intro get put
  have hmirrored (mode : Mode) : (performing (get mode)).Mirrored (performing (put mode)) :=
    ⟨.inside (.here _ _ {} [] []) [_, _] [] .scope {}, rfl⟩
  have hok : ((performing (get .direct)).compile (fun _ => .error .notFound) {}).result.isOk =
      true := by
    decide +kernel
  have hget : ((performing (get .immediate)).compile (fun _ => .error .notFound) {}).result.isOk =
      false := by
    decide +kernel
  have hput : ((performing (put .immediate)).compile (fun _ => .error .notFound) {}).result.isOk =
      false := by
    decide +kernel
  obtain ⟨image, himage⟩ := Compilation.exists_image hok
  obtain ⟨f, hf⟩ := Compilation.exists_failure hget
  obtain ⟨f', hf'⟩ := Compilation.exists_failure hput
  exact ⟨hmirrored, ⟨image, himage, ((compile_of_mirrored _ _ (hmirrored _)).1 image).1 himage⟩,
    f, f', hf, hf', ((compile_of_mirrored _ _ (hmirrored _)).2 f f' hf hf').1⟩

end Program

end Cartridge
