import Cartridge.Proofs.Values

/-!
# Labels and values in an image

A label stands for the address of the byte that follows it, and an expression for what the final
table says. Both are true of everything that is folded after the gathering. What the gathering has
folded stays as it was, even if a name in it means something else in the end.

Main results:

- Theorem `Program.label_of_visit`: the definition of a label holds the address at which the
  emission passes the label.
- Theorem `Program.references_fold_to_address`: a reference to a label comes to its address, unless
  the gathering remembers another value for it.
- Theorem `Program.values_follow_table`: every value follows from the final table and from what the
  gathering remembers.
-/

namespace Cartridge

/-! ## Labels -/

/-- A label is placed at the program counter, unless that is reported to be out of range. -/
theorem Name.placeLabel_of_ok {location : Location} {name : Name} {s t : Logged Context}
    (h : name.placeLabel location s = .ok () t) (hs : s.state.Laid) (hclean : t.log.count = 0) :
    ∃ i origin, s.state.active? = some i ∧ (s.state.bank i).origin = some origin ∧
      origin.toNat + (s.state.bank i).position < addressSpace ∧ t.state.rom = s.state.rom ∧
      t.state.symbols = s.state.placeLabel location
        (UInt16.ofNat (origin.toNat + (s.state.bank i).position)) := by
  unfold placeLabel at h
  obtain ⟨counter, u, hu, hnext⟩ := Run.bind_eq_ok.1 h
  obtain ⟨i, hi, hcounter, rfl⟩ := Pass.programCounter_eq_ok.1 hu
  obtain ⟨origin, horigin, rfl⟩ := Option.map_eq_some_iff.1 hcounter
  have hwrap : (origin.toNat + (u.state.bank i).position) % 0x100000000 =
      origin.toNat + (u.state.bank i).position := by
    have horigin := origin.toNat_lt
    have hposition : (u.state.bank i).position ≤ bankSize :=
      (hs.bank i).position ▸ (hs.bank i).reserved
    unfold bankSize at hposition
    exact Nat.mod_eq_of_lt (by omega)
  rw [hwrap] at hnext
  refine ⟨i, origin, hi, horigin, ?_⟩
  split at hnext
  · rename_i hlt
    cases hnext
    exact ⟨hlt, rfl, rfl⟩
  · obtain ⟨-, rfl⟩ := Run.error_eq_ok.1 hnext
    exact absurd hclean (Nat.succ_ne_zero _)

namespace Program

variable {program : Program} {files : Files} {config : Config} {g l t : Logged Context}

/-- The layout gives a label the address of the byte for which it reserves space next. -/
theorem address_of_layOut (hg : program.gather (start config) = .ok () g)
    (hl : program.layOut files g = .ok () l) (hclean : l.log.count = 0) {v : Visit}
    (hv : v ∈ program.block.visits (.layout files) .top g) (hlaid : v.start.state.Laid)
    {name : Name} (hnode : v.node = .statement (.label name)) {id : DefId}
    (hid : g.state.labels.at? v.location = some id) {address : Option UInt16}
    (hlabel : l.state.symbols.meaning? id = some (.label address)) :
    ∃ i origin, v.start.state.active? = some i ∧ (v.after.bank i).origin = some origin ∧
      origin.toNat + (v.start.state.bank i).position < addressSpace ∧
      address = some (UInt16.ofNat (origin.toNat + (v.start.state.bank i).position)) := by
  obtain ⟨-, -, hquiet⟩ := honest_of_layOut hg hl hclean
  obtain ⟨q, hq, -, -, -, -⟩ := stage_of_layOut hg hl
  have hleaf : v.node.isLeaf = true := by
    rw [hnode]
    rfl
  have hlinked := Statement.linked_visits (Walk.lawful_layout files) program.block hq
  obtain ⟨hact, u, hu⟩ := hlinked.of_mem hv hleaf
  have hplace : name.placeLabel v.location v.start = .ok () u := by
    have hstmt : Statement.layOut files v.location (.label name) v.start = .ok () u := by
      rw [hact, hnode] at hu
      exact hu
    unfold Statement.layOut at hstmt
    exact hstmt
  obtain ⟨i, origin, hi, horigin, hlt, hrom, htable⟩ := Name.placeLabel_of_ok hplace hlaid
    (Visit.stop_of_ok hu ▸ hquiet v hv hleaf)
  -- The definition is that of a label at the end, so it is one when the label is placed.
  obtain ⟨hprecedes, hkept⟩ := (placed_of_layOut hg hl).2 v hv hleaf
  obtain ⟨d, before, hd, hmeaning⟩ := hprecedes.label_of_label hlabel
  have hlabels : v.start.state.labels.at? v.location = some id := by
    rw [hlinked.labels hv hleaf]
    exact hid
  have haddress := hkept id hid
  rw [Visit.after_of_ok hu, htable, Context.placeLabel, hlabels,
    SymbolTable.definition?_placeLabel_self hd hmeaning] at haddress
  rw [SymbolTable.meaning?, haddress] at hlabel
  cases hlabel
  refine ⟨i, origin, hi, ?_, hlt, rfl⟩
  rw [Visit.after_of_ok hu, Context.bank_of_rom hrom]
  exact horigin

/-- In the final table the name of a label is bound in the scope of its block, to the address of the
byte that the emission writes next when it passes the label. -/
theorem label_of_visit (hg : program.gather (start config) = .ok () g)
    (hl : program.layOut files g = .ok () l)
    (ht : program.emit { l with state := l.state.rewind } = .ok () t) (hclean : t.log.count = 0)
    {w : Visit} (hw : w ∈ program.block.visits .emission .top { l with state := l.state.rewind })
    {name : Name} (hnode : w.node = .statement (.label name)) :
    ∃ id scope i origin address, t.state.labels.at? w.location = some id ∧
      t.state.scopes.at? w.location.parent = some scope ∧
      t.state.Declares scope name id (.label (some address)) ∧
      w.start.state.active? = some i ∧ (w.start.state.bank i).origin = some origin ∧
      address.toNat = origin.toNat + (w.start.state.bank i).position := by
  have hmem : (w.location, Node.statement (.label name)) ∈ program.block.places .top := by
    rw [← Statement.places_visits Walk.lawful_emission program.block .top ht, ← hnode]
    exact List.mem_map_of_mem hw
  obtain ⟨scope, id, meaning, hscope, hdeclares, hmeans⟩ :=
    (gathered_of_emit hg hl ht hclean hmem).names name List.mem_cons_self
  cases hmeans with
  | label recorded =>
    have htracks := tracks hg hl
    rw [ht] at htracks
    obtain ⟨v, hv, hpair⟩ := exists_left_of_mem htracks.forall₂_of_ok hw
    obtain ⟨hsymbols, -, hlabels⟩ := symbols_of_emit ht
    have hid : g.state.labels.at? v.location = some id := by
      rw [← (placed_of_layOut hg hl).1.labels, ← hlabels, ← hpair.location]
      exact recorded
    obtain ⟨hlclean, -, -⟩ := fills_of_emit hg hl ht hclean
    obtain ⟨i, origin, hi, horigin, hlt, rfl⟩ :=
      address_of_layOut hg hl hlclean hv hpair.stage.laid (hpair.node.symm.trans hnode) hid
        (hsymbols ▸ Option.map_eq_some_iff.2 ⟨_, hdeclares.definition, rfl⟩)
    refine ⟨id, scope, i, origin, _, recorded, hscope, hdeclares,
      hpair.stage.aligned.active.trans hi, ?_, ?_⟩
    · rw [hpair.stage.unmoved.origins]
      exact hpair.follows.origin i origin horigin
    · rw [hpair.stage.aligned.cursor]
      exact UInt16.toNat_ofNat_of_lt hlt

/-! ## References and values -/

/-- If a program has an image, then the emission passes every label, and the final table gives the
label the address of the byte that is written next there. Every reference to the label in an
operand, a data item, a destination or a relocation that has a part in the image comes to this
address. So does any other reference to the label that has a value, exactly if the gathering has not
remembered another value for it. -/
theorem references_fold_to_address (program : Program) (files : Files) (config : Config)
    {image : List UInt8} (h : (program.compile files config).result = .ok image) :
    ∃ g l e t : Logged Context,
      program.gather (start config) = .ok () g ∧ program.layOut files g = .ok () l ∧
      program.rewind l = .ok () e ∧ program.emit e = .ok () t ∧
      (program.block.visits .emission .top e).map Visit.place = program.block.places .top ∧
      ∀ w ∈ program.block.visits .emission .top e, ∀ name, w.node = .statement (.label name) →
        ∃ id scope i origin address, t.state.labels.at? w.location = some id ∧
          t.state.scopes.at? w.location.parent = some scope ∧
          t.state.Declares scope name id (.label (some address)) ∧
          w.start.state.active? = some i ∧ (w.start.state.bank i).origin = some origin ∧
          address.toNat = origin.toNat + (w.start.state.bank i).position ∧
          ∀ site scope path pos,
            t.state.symbols.Stands (program.Root t.state.scopes) site scope (.reference path pos) →
            t.state.symbols.target? scope path = some id →
            (∀ m, program.Contributes l.state m → program.Late m → site.anchor = .tree m →
              t.state.memo.result site = .value address) ∧
            ∀ v, t.state.memo.result site = .value v →
              (v = address ↔ ∀ u, g.state.memo.result site = .value u → u = address) := by
  obtain ⟨g, l, t, rom, hg, hl, hrewind, ht, hclean, -, -⟩ := exists_of_compile h
  have hcoherent := coherent_of_emit hg hl ht
  have hplaces := Statement.places_visits Walk.lawful_emission program.block .top ht
  refine ⟨g, l, _, t, hg, hl, hrewind, ht, hplaces, fun w hw name hnode => ?_⟩
  obtain ⟨id, scope, i, origin, address, hid, hscope, hdeclares, hi, horigin, haddress⟩ :=
    label_of_visit hg hl ht hclean hw hnode
  have hmeaning : t.state.symbols.meaning? id = some (.label (some address)) :=
    Option.map_eq_some_iff.2 ⟨_, hdeclares.definition, rfl⟩
  refine ⟨id, scope, i, origin, address, hid, hscope, hdeclares, hi, horigin, haddress,
    fun site scope' path pos hstands htarget => ⟨fun m hm hlate hsite => ?_, fun v hv =>
      hcoherent.eq_address_iff hstands htarget hmeaning hv⟩⟩
  obtain ⟨_, _, v, -, hv⟩ := known_of_contributes hg hl ht hclean hm
  have hfresh : ∀ other : Site, other.anchor = .tree m → g.state.memo.result other = .pending :=
    fun other hother => pending_of_late hg hlate hother
  obtain ⟨a, ha⟩ := hcoherent.value_of_stands hfresh (Memo.value?_eq_some.1 hv) hstands hsite
  rw [ha, (hcoherent.eq_address_iff hstands htarget hmeaning ha).2 fun b hb => ?_]
  cases (hfresh site hsite).symm.trans hb

/-- The references in the sample come to the addresses of its labels. -/
theorem references_fold_to_address_sample :
    ∃ image g l e t, (sample.compile (fun _ => .ok [1, 2, 3]) {}).result = .ok image ∧
      sample.gather (start {}) = .ok () g ∧ sample.layOut (fun _ => .ok [1, 2, 3]) g = .ok () l ∧
      sample.rewind l = .ok () e ∧ sample.emit e = .ok () t ∧
      ∀ w ∈ sample.block.visits .emission .top e, ∀ name, w.node = .statement (.label name) →
        ∃ id scope address, t.state.Declares scope name id (.label (some address)) ∧
          ∀ site scope path pos m,
            t.state.symbols.Stands (sample.Root t.state.scopes) site scope (.reference path pos) →
            t.state.symbols.target? scope path = some id → sample.Contributes l.state m →
            sample.Late m → site.anchor = .tree m → t.state.memo.result site = .value address := by
  have hok : (sample.compile (fun _ => .ok [1, 2, 3]) {}).result.isOk = true := by
    decide +kernel
  cases himage : (sample.compile (fun _ => .ok [1, 2, 3]) {}).result with
  | error failure =>
    rw [himage] at hok
    cases hok
  | ok image =>
    obtain ⟨g, l, e, t, hg, hl, he, ht, -, hlabels⟩ := references_fold_to_address sample _ {} himage
    refine ⟨image, g, l, e, t, rfl, hg, hl, he, ht, fun w hw name hnode => ?_⟩
    obtain ⟨id, scope, i, origin, address, -, -, hdeclares, -, -, -, hrefs⟩ :=
      hlabels w hw name hnode
    exact ⟨id, scope, address, hdeclares,
      fun site scope path pos m hstands htarget hm hlate hsite =>
      (hrefs site scope path pos hstands htarget).1 m hm hlate hsite⟩

/-- A program in which a constant refers to a label, but the size of an array needs the constant
before the label is declared. At that time the name of the label still is that of a constant
outside. -/
def shadowedLabel : Program where
  statements :=
    [.header { settings := [⟨{ text := "mapper" }, .number 0 {}⟩, ⟨{ text := "prg" }, .number 1 {}⟩,
        ⟨{ text := "chr" }, .number 1 {}⟩] },
      .constant { text := "x" } (.number 3 {}),
      .block .scope
        [.constant { text := "c" } (.reference [{ text := "x" }] {}),
          .relocation (.ram (.number 0x10 {})) {},
          .storage
            { width := .byte
              names := [{ text := "a" }]
              arraySize := some (.reference [{ text := "c" }] {}) },
          .relocation (.rom (some (.number 0 {})) (some (.number 0x8000 {}))) {},
          .label { text := "x" },
          .data
            { width := .word
              items := [.value (.reference [{ text := "c" }] {}),
                .value (.reference [{ text := "x" }] {})] }] {}]

/-- The reference to the label in the constant has another value than the address of the label, and
the data that is made from the constant shows it. -/
theorem shadowedLabel_reference_ne_address :
    ((shadowedLabel.compile (fun _ => .error .notFound) {}).result.toOption.map fun image =>
      (image.drop 16).take 4) = some [0x03, 0x00, 0x00, 0x80] ∧
    ∃ g l e t : Logged Context,
      shadowedLabel.gather (start {}) = .ok () g ∧
      shadowedLabel.layOut (fun _ => .error .notFound) g = .ok () l ∧
      shadowedLabel.rewind l = .ok () e ∧ shadowedLabel.emit e = .ok () t ∧
      ∃ site scope path pos id address v,
        t.state.symbols.Stands (shadowedLabel.Root t.state.scopes) site scope
          (.reference path pos) ∧
        t.state.symbols.target? scope path = some id ∧
        t.state.symbols.meaning? id = some (.label (some address)) ∧
        t.state.memo.result site = .value v ∧ v ≠ address := by
  refine ⟨by decide +kernel, ?_⟩
  have hrun : Run.finishes (fun t : Logged Context =>
      t.state.symbols.meaning? ⟨12⟩ = some (.constant (.reference [{ text := "x" }] {}) ⟨2⟩) ∧
      t.state.symbols.target? ⟨2⟩ [{ text := "x" }] = some ⟨14⟩ ∧
      t.state.symbols.meaning? ⟨14⟩ = some (.label (some 0x8000)) ∧
      t.state.memo.result { anchor := .constant ⟨12⟩ } = .value 3)
      ((do
        shadowedLabel.gather
        shadowedLabel.layOut fun _ => .error .notFound
        shadowedLabel.rewind
        shadowedLabel.emit) (start {})) = true := by
    decide +kernel
  obtain ⟨_, t, hrun, hfinal⟩ := Run.exists_of_finishes hrun
  obtain ⟨_, g, hg, hnext⟩ := Run.bind_eq_ok.1 hrun
  obtain ⟨_, l, hl, hlast⟩ := Run.bind_eq_ok.1 hnext
  obtain ⟨_, e, he, ht⟩ := Run.bind_eq_ok.1 hlast
  obtain ⟨hconstant, htarget, hlabel, hvalue⟩ := of_decide_eq_true hfinal
  exact ⟨g, l, e, t, hg, hl, he, ht, _, _, _, _, _, _, _, .constant hconstant, htarget, hlabel,
    hvalue, by decide⟩

/-- If a program has an image, then the final table shows its declarations. Every expression that
has a part in the image has a value, and every value is what its expression settles to in the final
table, given what the gathering remembers. So all values are those that the final table says exactly
if this is true of those that the gathering remembers. It remembers nothing of operands, data items,
destinations and rom relocations, and two references by one path in one scope of which it remembers
nothing have the same value. -/
theorem values_follow_table (program : Program) (files : Files) (config : Config)
    {image : List UInt8} (h : (program.compile files config).result = .ok image) :
    ∃ g l e t : Logged Context,
      program.gather (start config) = .ok () g ∧ program.layOut files g = .ok () l ∧
      program.rewind l = .ok () e ∧ program.emit e = .ok () t ∧
      (∀ m stmt, (m, Node.statement stmt) ∈ program.block.places .top → t.state.Gathered m stmt) ∧
      (∀ m, program.Contributes l.state m → ∃ scope x v, program.Root t.state.scopes m scope x ∧
        t.state.memo.value? (.tree m) = some v) ∧
      (∀ site scope x v, t.state.symbols.Stands (program.Root t.state.scopes) site scope x →
        t.state.memo.result site = .value v →
        t.state.symbols.Settles g.state.memo site scope x v) ∧
      ((∀ site scope x v, t.state.symbols.Stands (program.Root t.state.scopes) site scope x →
          t.state.memo.result site = .value v → t.state.symbols.Denotes scope x v) ↔
        ∀ site scope x v, t.state.symbols.Stands (program.Root t.state.scopes) site scope x →
          g.state.memo.result site = .value v → t.state.symbols.Denotes scope x v) ∧
      (∀ m, program.Late m → ∀ site : Site, site.anchor = .tree m →
        g.state.memo.result site = .pending) ∧
      ∀ site site' scope path pos pos' v v',
        t.state.symbols.Stands (program.Root t.state.scopes) site scope (.reference path pos) →
        t.state.symbols.Stands (program.Root t.state.scopes) site' scope (.reference path pos') →
        g.state.memo.result site = .pending → g.state.memo.result site' = .pending →
        t.state.memo.result site = .value v → t.state.memo.result site' = .value v' → v = v' := by
  obtain ⟨g, l, t, rom, hg, hl, hrewind, ht, hclean, -, -⟩ := exists_of_compile h
  have hcoherent := coherent_of_emit hg hl ht
  refine ⟨g, l, _, t, hg, hl, hrewind, ht,
    fun m stmt hm => gathered_of_emit hg hl ht hclean hm,
    fun m hm => known_of_contributes hg hl ht hclean hm,
    fun site scope x v hstands hv => hcoherent.values hstands hv, ⟨?_, ?_⟩,
    fun m hm site hsite => pending_of_late hg hm hsite,
    fun site site' scope path pos pos' v v' hstands hstands' hfresh hfresh' hv hv' =>
      hcoherent.reference_unique hstands hstands' hv hv' hfresh hfresh'⟩
  · intro hall site scope x v hstands hv
    exact hall site scope x v hstands ((hcoherent.le site (hv ▸ Folded.noConfusion)).trans hv)
  · intro hright site scope x v hstands hv
    have hroots := (root_unique program t.state.scopes).rooted t.state.symbols
    exact (hcoherent.values hstands hv).denotes hroots hright hstands

/-- The values in the sample follow from its final table. -/
theorem values_follow_table_sample :
    ∃ image g l e t, (sample.compile (fun _ => .ok [1, 2, 3]) {}).result = .ok image ∧
      sample.gather (start {}) = .ok () g ∧ sample.layOut (fun _ => .ok [1, 2, 3]) g = .ok () l ∧
      sample.rewind l = .ok () e ∧ sample.emit e = .ok () t ∧
      (∀ m stmt, (m, Node.statement stmt) ∈ sample.block.places .top → t.state.Gathered m stmt) ∧
      (∀ m, sample.Contributes l.state m → ∃ scope x v, sample.Root t.state.scopes m scope x ∧
        t.state.memo.value? (.tree m) = some v) ∧
      ∀ site scope x v, t.state.symbols.Stands (sample.Root t.state.scopes) site scope x →
        t.state.memo.result site = .value v →
        t.state.symbols.Settles g.state.memo site scope x v := by
  have hok : (sample.compile (fun _ => .ok [1, 2, 3]) {}).result.isOk = true := by
    decide +kernel
  cases himage : (sample.compile (fun _ => .ok [1, 2, 3]) {}).result with
  | error failure =>
    rw [himage] at hok
    cases hok
  | ok image =>
    obtain ⟨g, l, e, t, hg, hl, he, ht, htable, hknown, hsettles, -, -, -⟩ :=
      values_follow_table sample _ {} himage
    exact ⟨image, g, l, e, t, rfl, hg, hl, he, ht, htable, hknown, hsettles⟩

/-- A program in which the size of an array is the value of a constant outside, because the variable
of this name is declared only later in the block. -/
def shadowedVariable : Program where
  statements :=
    [.header { settings := [⟨{ text := "mapper" }, .number 0 {}⟩, ⟨{ text := "prg" }, .number 1 {}⟩,
        ⟨{ text := "chr" }, .number 1 {}⟩] },
      .constant { text := "x" } (.number 3 {}),
      .block .scope
        [.relocation (.ram (.number 0x10 {})) {},
          .storage
            { width := .byte
              names := [{ text := "a" }]
              arraySize := some (.reference [{ text := "x" }] {}) },
          .storage { width := .byte, names := [{ text := "b" }] },
          .relocation (.ram (.number 0x40 {})) {},
          .storage { width := .byte, names := [{ text := "x" }] },
          .relocation (.rom (some (.number 0 {})) (some (.number 0x8000 {}))) {},
          .data
            { width := .byte
              items := [.value (.reference [{ text := "b" }] {}),
                .value (.reference [{ text := "x" }] {})] }] {}]

/-- Two references by one path in one block have different values, and only one of them is what the
path denotes in the final table. -/
theorem shadowedVariable_values_differ :
    ((shadowedVariable.compile (fun _ => .error .notFound) {}).result.toOption.map fun image =>
      (image.drop 16).take 2) = some [0x13, 0x40] ∧
    ∃ g l e t : Logged Context,
      shadowedVariable.gather (start {}) = .ok () g ∧
      shadowedVariable.layOut (fun _ => .error .notFound) g = .ok () l ∧
      shadowedVariable.rewind l = .ok () e ∧ shadowedVariable.emit e = .ok () t ∧
      ∃ m m' scope path pos v v',
        shadowedVariable.Contributes l.state m ∧ shadowedVariable.Contributes l.state m' ∧
        shadowedVariable.Root t.state.scopes m scope (.reference path pos) ∧
        shadowedVariable.Root t.state.scopes m' scope (.reference path pos) ∧
        t.state.memo.value? (.tree m) = some v ∧ t.state.memo.value? (.tree m') = some v' ∧
        v ≠ v' ∧ t.state.symbols.Denotes scope (.reference path pos) v' ∧
        ¬ t.state.symbols.Denotes scope (.reference path pos) v := by
  refine ⟨by decide +kernel, ?_⟩
  have hrun : Run.finishes (fun t : Logged Context =>
      t.state.scopes.at? (Location.top.child 2) = some ⟨2⟩ ∧
      t.state.symbols.target? ⟨2⟩ [{ text := "x" }] = some ⟨14⟩ ∧
      t.state.symbols.meaning? ⟨14⟩ = some (.storage 0x40) ∧
      t.state.memo.value? (.tree (((Location.top.child 2).child 1).child 0)) = some 3 ∧
      t.state.memo.value? (.tree (((Location.top.child 2).child 6).child 1)) = some 0x40)
      ((do
        shadowedVariable.gather
        shadowedVariable.layOut fun _ => .error .notFound
        shadowedVariable.rewind
        shadowedVariable.emit) (start {})) = true := by
    decide +kernel
  obtain ⟨_, t, hrun, hfinal⟩ := Run.exists_of_finishes hrun
  obtain ⟨_, g, hg, hnext⟩ := Run.bind_eq_ok.1 hrun
  obtain ⟨_, l, hl, hlast⟩ := Run.bind_eq_ok.1 hnext
  obtain ⟨_, e, he, ht⟩ := Run.bind_eq_ok.1 hlast
  obtain ⟨hscope, htarget, hstorage, hsize, hitem⟩ := of_decide_eq_true hfinal
  have hdenotes : t.state.symbols.Denotes ⟨2⟩ (.reference [{ text := "x" }] {}) 0x40 :=
    .storage htarget hstorage
  -- The array and the data are the sixth and the eleventh of the places.
  refine ⟨g, l, e, t, hg, hl, he, ht, ((Location.top.child 2).child 1).child 0,
    ((Location.top.child 2).child 6).child 1, ⟨2⟩, _, _, 3, 0x40, ?_, ?_, ?_, ?_, hsize, hitem,
    by decide, hdenotes, fun h => absurd (h.unique hdenotes) (by decide)⟩
  · exact .early (x := (0, .reference [{ text := "x" }] {})) (List.mem_of_getElem? (i := 5) rfl)
      (List.mem_of_getElem? (i := 0) rfl)
  · exact .operand (List.mem_of_getElem? (i := 10) rfl) rfl (List.mem_of_getElem? (i := 1) rfl)
  · exact ⟨_, _, _, List.mem_of_getElem? (i := 5) rfl, List.mem_cons_self, rfl, hscope⟩
  · exact ⟨_, _, _, List.mem_of_getElem? (i := 10) rfl, List.mem_of_getElem? (i := 1) rfl, rfl,
      hscope⟩

end Program

end Cartridge
