import Cartridge.Proofs.Spelling

/-!
# Trees survive being written and read

Every kind of tree is read from exactly the spellings of its written form. So a tree that is written
is read again as it was, and whatever a tree is read from, its written form is a normal form.

Main results:

- Theorems `Expr.codec`, `Statement.ofJson?_iff` and the like: which values are read as a tree.
- Theorem `Program.written_form_normal`: programs survive being written and read.
-/

namespace Cartridge

open Json (Codec has_iff field_eq_object field_eq_string field_eq_array field_spells_iff
  spells_alternative not_spells_alternative spells_object spells_record spells_self)

/-! ## Positions and names -/

/-- Positions are read from exactly the spellings of what is written; no part may be left out. -/
theorem Position.codec : Codec Position.ofJson? Position.toJson where
  written pos := by
    refine spells_self rfl (by simp) ?_
    simp [Codec.text.written, Codec.size.written]
  reads j pos := by
    obtain ⟨file, line, col⟩ := pos
    have hread : ofJson? j = some ⟨file, line, col⟩ ↔ (j.field "file").string? = some file ∧
        (j.field "line").size?.map UInt64.ofNat = some line ∧
        (j.field "col").size?.map UInt64.ofNat = some col := by
      simp only [ofJson?, Option.bind_eq_bind, Option.bind_eq_some_iff, Option.map_eq_some_iff]
      grind
    rw [hread, toJson, spells_record rfl List.mem_cons_self]
    · simp [has_iff, ← Codec.text.reads, ← Codec.size.reads]
    · simp [Json.Omissible]

/-- The position of a record, which may be left out if it is the default. -/
theorem Json.pos?_eq_some {j : Json} {pos : Position} :
    j.pos? = some pos ↔ j.Has "pos" pos.toJson := by
  unfold Json.pos?
  constructor
  · intro h
    cases hv : j.field? "pos" with
    | none =>
      simp only [hv, Option.some.injEq] at h
      subst h
      exact .absent hv (Or.inr (Or.inl ⟨rfl, rfl⟩))
    | some v =>
      simp only [hv] at h
      exact .present hv ((Codec.reads Position.codec v pos).1 h)
  · intro h
    cases h with
    | present hv h =>
      simp only [hv]
      exact (Codec.reads Position.codec _ pos).2 h
    | absent hv hw =>
      simp only [hv]
      rcases hw with hnull | ⟨-, hdefault⟩ | ⟨hset, -⟩
      · cases hnull
      · exact congrArg some ((Codec.write_inj Position.codec).1 hdefault).symm
      · simp at hset

/-- A text with a position. -/
theorem Json.spells_text {j : Json} {text : String} {pos : Position} :
    j.Spells (.object [("text", .string text), ("pos", pos.toJson)]) ↔
      (j.field "text").string? = some text ∧ j.pos? = some pos := by
  rw [spells_record rfl List.mem_cons_self]
  · simp [has_iff, ← Codec.text.reads, Json.pos?_eq_some]
  · simp [Json.Omissible]

/-- A record with a text and a position is a spelling of itself. -/
theorem Json.text_spells_self (text : String) (pos : Position) :
    (Json.object [("text", .string text), ("pos", pos.toJson)]).Spells
      (.object [("text", .string text), ("pos", pos.toJson)]) := by
  refine spells_self rfl (by simp) ?_
  simp [Codec.text.written, Codec.written Position.codec]

/-- Names are read from exactly the spellings of what is written. -/
theorem Name.codec : Codec Name.ofJson? Name.toJson where
  written name := Json.text_spells_self name.text name.pos
  reads j name := by
    obtain ⟨text, pos⟩ := name
    rw [toJson, Json.spells_text]
    simp [ofJson?, Option.bind_eq_some_iff]

/-! ## Names of kinds -/

/-- The tags of the operators tell them apart, so reading inverts writing. -/
theorem BinaryOp.codec : Codec (Json.named? ofTag?) fun op => .string op.tag :=
  .named ofTag?_tag fun _ _ h => by simpa using List.find?_some h

/-- The tags of the addressing modes tell them apart. -/
theorem Mode.codec : Codec (Json.named? ofTag?) fun mode => .string mode.tag :=
  .named ofTag?_tag fun _ _ h => by simpa using List.find?_some h

/-- The names of the commands tell them apart. -/
theorem CommandKind.codec : Codec (Json.named? ofName?) fun kind => .string kind.name :=
  .named ofName?_name fun _ _ h => by simpa using List.find?_some h

/-- The names of the branches tell them apart. -/
theorem BranchKind.codec : Codec (Json.named? ofName?) fun kind => .string kind.name :=
  .named ofName?_name fun _ _ h => by simpa using List.find?_some h

/-- The names of the widths tell them apart. -/
theorem Width.codec : Codec (Json.named? ofName?) fun width => .string width.name :=
  .named ofName?_name fun _ _ h => by simpa using List.find?_some h

/-! ## Expressions -/

namespace Expr

/-- What the reader finds in a value that it reads as an expression. -/
def ReadFrom (j : Json) : Expr → Prop
  | number v pos => (∃ value, j.field? "kind" = some (.object [("number", value)]) ∧
      value.word? = some v) ∧ j.pos? = some pos
  | reference path pos => (∃ names, j.field? "kind" = some (.object [("attribute", names)]) ∧
      names.list? Name.ofJson? = some path) ∧ j.pos? = some pos
  | operation op left right pos =>
    (∃ body, j.field? "kind" = some (.object [("operation", body)]) ∧
      (body.field "op").named? BinaryOp.ofTag? = some op ∧
      (∃ l, body.field? "left" = some l ∧ ofJson? l = some left) ∧
      (∃ r, body.field? "right" = some r ∧ ofJson? r = some right)) ∧ j.pos? = some pos

/-- What a value must hold to be read as a given expression, form by form. -/
theorem ofJson?_eq_some {j : Json} {e : Expr} : ofJson? j = some e ↔ e.ReadFrom j := by
  rw [ofJson?]
  split
  · rename_i hkind
    cases e <;> simp [ReadFrom, hkind, Option.bind_eq_some_iff]
  · rename_i hkind
    cases e <;> simp [ReadFrom, hkind, Option.bind_eq_some_iff]
  · rename_i body hkind
    split
    · rename_i hleft hright
      cases e <;> simp [ReadFrom, hkind, hleft, hright, Option.bind_eq_some_iff, and_assoc]
    · rename_i hmissing
      cases e <;> simp [ReadFrom, hkind]
      grind
  · rename_i hkind
    cases e <;> simp [ReadFrom]
    all_goals grind

/-- A written expression is never taken for one that is missing. -/
theorem toJson_ne_null (e : Expr) : e.toJson ≠ .null := by
  cases e <;> simp [toJson]

/-- Expressions are read from exactly the spellings of what is written, by induction on the
expression. -/
theorem codec : Codec ofJson? toJson where
  written e := by
    induction e with
    | number v pos =>
      refine spells_self rfl (by simp) ?_
      simp [spells_alternative, Json.alternatives, Codec.word.written, Codec.written Position.codec]
    | reference path pos =>
      refine spells_self rfl (by simp) ?_
      simp [spells_alternative, Json.alternatives, Codec.written (Codec.list Name.codec),
        Codec.written Position.codec]
    | operation op left right pos ihl ihr =>
      have hbody : (Json.object [("op", .string op.tag), ("left", left.toJson),
          ("right", right.toJson)]).Spells (.object [("op", .string op.tag),
            ("left", left.toJson), ("right", right.toJson)]) :=
        spells_self rfl (by simp) (by simp [Codec.written BinaryOp.codec, ihl, ihr])
      refine spells_self rfl (by simp) ?_
      simp [spells_alternative, Json.alternatives, hbody, Codec.written Position.codec]
  reads j e := by
    rw [ofJson?_eq_some]
    induction e generalizing j with
    | number v pos =>
      rw [toJson, spells_record rfl List.mem_cons_self]
      · simp [ReadFrom, has_iff, field_eq_object, spells_alternative, Json.alternatives,
          ← Codec.word.reads, Json.pos?_eq_some]
      · simp [Json.Omissible]
    | reference path pos =>
      rw [toJson, spells_record rfl List.mem_cons_self]
      · simp [ReadFrom, has_iff, field_eq_object, spells_alternative, Json.alternatives,
          ← Codec.reads (Codec.list Name.codec), Json.pos?_eq_some]
      · simp [Json.Omissible]
    | operation op left right pos ihl ihr =>
      have hbody (body : Json) : body.Spells (.object [("op", .string op.tag),
          ("left", left.toJson), ("right", right.toJson)]) ↔
            (body.field "op").named? BinaryOp.ofTag? = some op ∧
            (∃ l, body.field? "left" = some l ∧ ofJson? l = some left) ∧
            (∃ r, body.field? "right" = some r ∧ ofJson? r = some right) := by
        rw [spells_record rfl List.mem_cons_self]
        · simp [has_iff, ← Codec.reads BinaryOp.codec, field_spells_iff, toJson_ne_null,
            ofJson?_eq_some, ihl, ihr]
        · simp [Json.Omissible]
      rw [toJson, spells_record rfl List.mem_cons_self]
      · simp [ReadFrom, has_iff, field_eq_object, spells_alternative, Json.alternatives, hbody,
          Json.pos?_eq_some]
      · simp [Json.Omissible]

theorem codec_optional : Codec (Json.optional? ofJson?) (Json.ofOption toJson) :=
  Codec.optional codec toJson_ne_null

end Expr

/-! ## Operands, commands and branches -/

/-- Operands are read from exactly the spellings of what is written. -/
theorem Operand.codec : Codec Operand.ofJson? Operand.toJson where
  written operand := by
    refine spells_self rfl (by simp) ?_
    simp [Codec.written Mode.codec, Codec.written Expr.codec_optional, Codec.written Position.codec]
  reads j operand := by
    obtain ⟨mode, expr, pos⟩ := operand
    rw [toJson, spells_record rfl List.mem_cons_self]
    · simp [ofJson?, has_iff, ← Codec.reads Mode.codec, ← Codec.reads Expr.codec_optional,
        Json.pos?_eq_some, Option.bind_eq_some_iff]
    · simp [Json.Omissible]

theorem Operand.codec_optional : Codec (Json.optional? ofJson?) (Json.ofOption toJson) :=
  Codec.optional codec fun operand => by simp [toJson]

/-- Commands are read from exactly the spellings of what is written. -/
theorem Command.codec : Codec Command.ofJson? Command.toJson where
  written command := by
    refine spells_self rfl (by simp) ?_
    simp [Codec.written CommandKind.codec, Codec.written Operand.codec_optional,
      Codec.written Position.codec]
  reads j command := by
    obtain ⟨kind, argument, pos⟩ := command
    rw [toJson, spells_record rfl List.mem_cons_self]
    · simp [ofJson?, has_iff, ← Codec.reads CommandKind.codec, ← Codec.reads Operand.codec_optional,
        Json.pos?_eq_some, Option.bind_eq_some_iff]
    · simp [Json.Omissible]

/-- The state of a flag, which may be left out if the flag has to be set. -/
theorem Json.has_set {j : Json} {set : Bool} :
    j.Has "set" (.bool set) ↔ j.field? "set" = none ∧ set = true ∨
      ∃ v, j.field? "set" = some v ∧ v.bool? = some set := by
  constructor
  · intro h
    cases h with
    | present hv h => exact Or.inr ⟨_, hv, (Codec.flag.reads _ set).2 h⟩
    | absent hv hw =>
      refine Or.inl ⟨hv, ?_⟩
      simpa [Json.Omissible] using hw
  · rintro (⟨hv, rfl⟩ | ⟨v, hv, h⟩)
    · exact .absent hv (Or.inr (Or.inr ⟨rfl, rfl⟩))
    · exact .present hv ((Codec.flag.reads v set).1 h)

/-- Conditions are read from exactly the spellings of what is written; a flag that is to be set may
be left out. -/
theorem Condition.codec : Codec Condition.ofJson? Condition.toJson where
  written condition := by
    refine spells_self rfl (by simp) ?_
    simp [Codec.flag.written, Codec.written Operand.codec]
  reads j condition := by
    obtain ⟨set, flag⟩ := condition
    rw [toJson, spells_record rfl (List.mem_cons_of_mem _ List.mem_cons_self)]
    · cases hset : j.field? "set" <;> cases set <;>
        simp [ofJson?, has_iff, Json.has_set, hset, ← Codec.reads Operand.codec,
          Option.bind_eq_some_iff, and_comm]
    · simp [Json.Omissible, Operand.toJson]

theorem Condition.codec_optional : Codec (Json.optional? ofJson?) (Json.ofOption toJson) :=
  Codec.optional codec fun condition => by simp [toJson]

/-! ## Data, settings and targets -/

/-- Data items are read from exactly the spellings of what is written; the two forms have different
names. -/
theorem DataItem.codec : Codec DataItem.ofJson? DataItem.toJson where
  written item := by
    cases item with
    | value e => exact .alternative rfl (Codec.written Expr.codec e)
    | string text pos => exact .alternative rfl (Json.text_spells_self text pos)
  reads j item := by
    unfold ofJson?
    split
    · cases item <;> simp [toJson, spells_alternative, Json.alternatives, ← Codec.reads Expr.codec,
        Option.bind_eq_some_iff]
    · cases item <;> simp [toJson, spells_alternative, Json.alternatives, Json.spells_text,
        Option.bind_eq_some_iff]
    · rename_i hvalue hstring
      cases item with
      | value e => exact iff_of_false nofun (not_spells_alternative rfl hvalue)
      | string text pos => exact iff_of_false nofun (not_spells_alternative rfl hstring)

/-- Settings are read from exactly the spellings of what is written. -/
theorem Setting.codec : Codec Setting.ofJson? Setting.toJson where
  written setting := by
    refine spells_self rfl (by simp) ?_
    simp [Codec.written Name.codec, Codec.written Expr.codec]
  reads j setting := by
    obtain ⟨name, value⟩ := setting
    rw [toJson, spells_record rfl List.mem_cons_self]
    · simp [ofJson?, has_iff, ← Codec.reads Name.codec, ← Codec.reads Expr.codec,
        Option.bind_eq_some_iff]
    · simp [Json.Omissible, Name.toJson]

/-- Relocations are read from exactly the spellings of what is written; the two forms have different
names. -/
theorem Relocation.codec : Codec Relocation.ofJson? Relocation.toJson where
  written target := by
    cases target with
    | rom bank dest =>
      refine .alternative rfl (spells_self rfl (by simp) ?_)
      simp [Codec.written Expr.codec_optional]
    | ram dest =>
      refine .alternative rfl (spells_self rfl (by simp) ?_)
      simp [Codec.written Expr.codec]
  reads j target := by
    have hrom (body : Json) (bank dest : Option Expr) :
        body.Spells (.object [("bank", .ofOption Expr.toJson bank),
          ("dest", .ofOption Expr.toJson dest)]) ↔ ∃ fields, body = .object fields ∧
            (body.field "bank").optional? Expr.ofJson? = some bank ∧
            (body.field "dest").optional? Expr.ofJson? = some dest := by
      rw [spells_object rfl]
      simp [has_iff, ← Codec.reads Expr.codec_optional]
    have hram (body : Json) (dest : Expr) : body.Spells (.object [("dest", dest.toJson)]) ↔
        Expr.ofJson? (body.field "dest") = some dest := by
      rw [spells_record rfl List.mem_cons_self]
      · simp [has_iff, ← Codec.reads Expr.codec]
      · simp [Json.Omissible, Expr.toJson_ne_null]
    unfold ofJson?
    split
    · cases target <;> simp [toJson, spells_alternative, Json.alternatives, hrom,
        Option.bind_eq_some_iff]
    · cases target <;> simp [toJson, spells_alternative, Json.alternatives, hram,
        Option.bind_eq_some_iff]
    · rename_i hnotRom hnotRam
      cases target with
      | rom bank dest =>
        refine iff_of_false nofun fun h => ?_
        obtain ⟨body, rfl, hbody⟩ := (spells_alternative rfl).1 h
        obtain ⟨fields, rfl, -⟩ := (hrom body bank dest).1 hbody
        exact hnotRom fields rfl
      | ram dest => exact iff_of_false nofun (not_spells_alternative rfl hnotRam)

/-- The kinds of blocks are read from exactly the spellings of what is written. -/
theorem BlockKind.codec : Codec BlockKind.ofJson? BlockKind.toJson where
  written kind := by
    cases kind with
    | main => exact .string "main"
    | scope => exact .string "scope"
    | package name => exact .alternative rfl (Codec.written Name.codec name)
  reads j kind := by
    unfold ofJson?
    split
    · cases kind <;> simp [toJson, Json.spells_string, spells_alternative, Json.alternatives]
    · cases kind <;> simp [toJson, Json.spells_string, spells_alternative, Json.alternatives]
    · cases kind <;> simp [toJson, Json.spells_string, spells_alternative, Json.alternatives,
        ← Codec.reads Name.codec, Option.bind_eq_some_iff]
    · rename_i hmain hscope hpackage
      cases kind with
      | main => simpa [toJson, Json.spells_string] using hmain
      | scope => simpa [toJson, Json.spells_string] using hscope
      | package name => exact iff_of_false nofun (not_spells_alternative rfl hpackage)

/-! ## Statements -/

namespace Statement

/-- The tag of a statement. -/
def tag : Statement → String
  | block _ _ _ => "block"
  | header _ => "header"
  | relocation _ _ => "relocation"
  | label _ => "label"
  | constant _ _ => "constant"
  | storage _ => "variable"
  | data _ => "data"
  | command _ => "command"
  | branch _ => "branch"
  | embed _ _ => "embed"

/-- What the reader finds beside the tag in a value that it reads as a statement. -/
def ReadFrom (j : Json) : Statement → Prop
  | block kind statements pos => BlockKind.ofJson? (j.field "kind") = some kind ∧
      (∃ items, j.field? "statements" = some (.array items) ∧
        listOfJson? items = some statements) ∧ j.pos? = some pos
  | header h => Header.ofJson? j = some h
  | relocation target pos => Relocation.ofJson? (j.field "target") = some target ∧
      j.pos? = some pos
  | label name => Name.ofJson? (j.field "name") = some name
  | constant name value => Name.ofJson? (j.field "name") = some name ∧
      Expr.ofJson? (j.field "value") = some value
  | storage v => Variables.ofJson? j = some v
  | data d => Data.ofJson? j = some d
  | command c => CommandList.ofJson? j = some c
  | branch b => Branch.ofJson? j = some b
  | embed path pos => (j.field "path").string? = some path ∧ j.pos? = some pos

/-- What a value must hold to be read as a given statement: its tag, and what the tag asks for. -/
theorem ofJson?_eq_some {j : Json} {s : Statement} :
    ofJson? j = some s ↔ j.field? "statement" = some (.string s.tag) ∧ s.ReadFrom j := by
  rw [ofJson?]
  split
  case h_1 htag =>
    split
    · rename_i items hitems
      cases s <;> simp [tag, ReadFrom, htag, hitems, Option.bind_eq_some_iff]
    · rename_i hitems
      cases s <;> simp [tag, ReadFrom, htag]
      grind
  case h_2 htag | h_3 htag | h_4 htag | h_5 htag | h_6 htag | h_7 htag | h_8 htag | h_9 htag |
      h_10 htag =>
    cases s <;> simp [tag, ReadFrom, htag, Option.bind_eq_some_iff]
  case h_11 =>
    -- No statement has another tag.
    cases s <;> simp_all [tag]

/-- A statement is spelled by its tag and its parts. -/
theorem spells_tagged {text : String} {parts : List (String × Json)} {j : Json} :
    j.Spells (.object (("statement", .string text) :: parts)) ↔
      j.field? "statement" = some (.string text) ∧ ∀ part ∈ parts, j.Has part.1 part.2 := by
  have hrecord : (Json.object (("statement", .string text) :: parts)).isAlternative = false := by
    cases parts <;> rfl
  rw [spells_record hrecord List.mem_cons_self (by simp [Json.Omissible]), List.forall_mem_cons,
    has_iff (by simp) (by simp), Json.spells_string, field_eq_string]

mutual

/-- What is written for a statement is a spelling of itself. -/
theorem spells_self : ∀ s : Statement, s.toJson.Spells s.toJson
  | block kind statements pos => by
    unfold toJson
    have hstatements := Json.Spells.array (spells_self_all statements)
    refine Json.spells_self rfl (by simp) ?_
    simp [Codec.text.written, Codec.written BlockKind.codec, hstatements,
      Codec.written Position.codec]
  | header h => by
    unfold toJson
    refine Json.spells_self rfl (by simp) ?_
    simp [Codec.text.written, Codec.written (Codec.list Setting.codec),
      Codec.written Position.codec]
  | relocation target pos => by
    unfold toJson
    refine Json.spells_self rfl (by simp) ?_
    simp [Codec.text.written, Codec.written Relocation.codec, Codec.written Position.codec]
  | label name => by
    unfold toJson
    refine Json.spells_self rfl (by simp) ?_
    simp [Codec.text.written, Codec.written Name.codec]
  | constant name value => by
    unfold toJson
    refine Json.spells_self rfl (by simp) ?_
    simp [Codec.text.written, Codec.written Name.codec, Codec.written Expr.codec]
  | storage v => by
    unfold toJson
    refine Json.spells_self rfl (by simp) ?_
    simp [Codec.text.written, Codec.written (Codec.list Name.codec),
      Codec.written Expr.codec_optional, Codec.written Position.codec]
  | data d => by
    unfold toJson
    refine Json.spells_self rfl (by simp) ?_
    simp [Codec.text.written, Codec.written (Codec.list DataItem.codec),
      Codec.written Position.codec]
  | command c => by
    unfold toJson
    refine Json.spells_self rfl (by simp) ?_
    simp [Codec.text.written, Codec.written Operand.codec, Codec.written (Codec.list Command.codec)]
  | branch b => by
    unfold toJson
    refine Json.spells_self rfl (by simp) ?_
    simp [Codec.text.written, Codec.written Operand.codec_optional,
      Codec.written Condition.codec_optional, Codec.written Position.codec]
  | embed path pos => by
    unfold toJson
    refine Json.spells_self rfl (by simp) ?_
    simp [Codec.text.written, Codec.written Position.codec]

/-- What is written for statements is a spelling of itself, item by item. -/
theorem spells_self_all :
    ∀ l : List Statement, List.Forall₂ Json.Spells (listToJson l) (listToJson l)
  | [] => .nil
  | s :: rest => .cons (spells_self s) (spells_self_all rest)

end

mutual

/-- A statement is read from exactly the spellings of what is written for it. -/
theorem ofJson?_iff : ∀ (s : Statement) (j : Json), ofJson? j = some s ↔ j.Spells s.toJson
  | block kind statements pos, j => by
    have hstatements : (j.field "statements").Spells (.array (listToJson statements)) ↔
        ∃ items, j.field? "statements" = some (.array items) ∧
          listOfJson? items = some statements := by
      simp [Json.spells_array, field_eq_array, listOfJson?_iff statements]
    rw [ofJson?_eq_some, toJson, spells_tagged]
    simp [tag, ReadFrom, has_iff, ← Codec.reads BlockKind.codec, hstatements, Json.pos?_eq_some]
  | header h, j => by
    obtain ⟨settings, pos⟩ := h
    rw [ofJson?_eq_some, toJson, spells_tagged]
    simp [tag, ReadFrom, Header.ofJson?, has_iff, ← Codec.reads (Codec.list Setting.codec),
      Json.pos?_eq_some, Option.bind_eq_some_iff]
  | relocation target pos, j => by
    rw [ofJson?_eq_some, toJson, spells_tagged]
    simp [tag, ReadFrom, has_iff, ← Codec.reads Relocation.codec, Json.pos?_eq_some]
  | label name, j => by
    rw [ofJson?_eq_some, toJson, spells_tagged]
    simp [tag, ReadFrom, has_iff, ← Codec.reads Name.codec]
  | constant name value, j => by
    rw [ofJson?_eq_some, toJson, spells_tagged]
    simp [tag, ReadFrom, has_iff, ← Codec.reads Name.codec, ← Codec.reads Expr.codec]
  | storage v, j => by
    obtain ⟨width, names, arraySize, pos⟩ := v
    rw [ofJson?_eq_some, toJson, spells_tagged]
    simp [tag, ReadFrom, Variables.ofJson?, has_iff, ← Codec.reads Width.codec,
      ← Codec.reads (Codec.list Name.codec), ← Codec.reads Expr.codec_optional, Json.pos?_eq_some,
      Option.bind_eq_some_iff]
  | data d, j => by
    obtain ⟨width, items, pos⟩ := d
    rw [ofJson?_eq_some, toJson, spells_tagged]
    simp [tag, ReadFrom, Data.ofJson?, has_iff, ← Codec.reads Width.codec,
      ← Codec.reads (Codec.list DataItem.codec), Json.pos?_eq_some, Option.bind_eq_some_iff]
  | command c, j => by
    obtain ⟨receiver, commands⟩ := c
    rw [ofJson?_eq_some, toJson, spells_tagged]
    simp [tag, ReadFrom, CommandList.ofJson?, has_iff, ← Codec.reads Operand.codec,
      ← Codec.reads (Codec.list Command.codec), Option.bind_eq_some_iff]
  | branch b, j => by
    obtain ⟨kind, destination, condition, pos⟩ := b
    rw [ofJson?_eq_some, toJson, spells_tagged]
    simp [tag, ReadFrom, Branch.ofJson?, has_iff, ← Codec.reads BranchKind.codec,
      ← Codec.reads Operand.codec_optional, ← Codec.reads Condition.codec_optional,
      Json.pos?_eq_some, Option.bind_eq_some_iff]
  | embed path pos, j => by
    rw [ofJson?_eq_some, toJson, spells_tagged]
    simp [tag, ReadFrom, has_iff, ← Codec.text.reads, Json.pos?_eq_some]

/-- Statements are read from exactly the lists of spellings of what is written for them. -/
theorem listOfJson?_iff : ∀ (l : List Statement) (items : List Json),
    listOfJson? items = some l ↔ List.Forall₂ Json.Spells items (listToJson l)
  | [], [] => by simp [listOfJson?, listToJson]
  | [], item :: items => by simp [listOfJson?, listToJson, Option.bind_eq_some_iff]
  | s :: rest, [] => by simp [listOfJson?, listToJson]
  | s :: rest, item :: items => by
    simp [listOfJson?, listToJson, Option.bind_eq_some_iff, ofJson?_iff s, listOfJson?_iff rest]

end

end Statement

/-! ## Programs -/

namespace Program

/-- Programs are read from exactly the spellings of what is written. -/
theorem codec : Codec ofJson? toJson where
  written program := by
    unfold toJson
    have hstatements := Json.Spells.array (Statement.spells_self_all program.statements)
    refine spells_self rfl (by simp) ?_
    simp [hstatements, Codec.written Position.codec]
  reads j program := by
    obtain ⟨statements, pos⟩ := program
    have hstatements : (j.field "statements").Spells (.array (Statement.listToJson statements)) ↔
        ∃ items, (j.field "statements").array? = some items ∧
          Statement.listOfJson? items = some statements := by
      rw [Json.spells_array]
      cases j.field "statements" <;> simp [Json.array?, Statement.listOfJson?_iff statements]
    rw [toJson, spells_record rfl List.mem_cons_self]
    · simp [ofJson?, has_iff, hstatements, Json.pos?_eq_some, Option.bind_eq_some_iff,
        ← exists_and_right, and_assoc]
    · simp [Json.Omissible]

/-- A program survives being written and read. What reads as a program are exactly the spellings of
its written form, which is therefore a normal form: writing what was read and reading it again
changes nothing, and only one program is written in each way. -/
theorem written_form_normal :
    (∀ program : Program, ofJson? program.toJson = some program) ∧
    (∀ (j : Json) (program : Program),
      ofJson? j = some program ↔ j.Spells program.toJson) ∧
    (∀ j : Json, (ofJson? j).bind (fun program => ofJson? program.toJson) = ofJson? j) ∧
    ∀ first second : Program, first.toJson = second.toJson ↔ first = second := by
  refine ⟨codec.round_trip, codec.reads, ?_, fun _ _ => codec.write_inj⟩
  intro j
  simp only [codec.round_trip]
  exact Option.bind_fun_some _

end Program

end Cartridge
