import Cartridge.Proofs.Denotation
import Cartridge.Proofs.EmissionFrame
import Cartridge.Proofs.Visits

/-!
# Names after the gathering

When everything is declared, the later passes leave the names alone. The layout gives every label
its address, once, and every statement is visited in the scope of its block.

Main definitions:

- `Context.SameNames`: the same names are declared, but labels may have been placed.

Main results:

- Theorems `Layout.allows_naming` and `Emission.allows_naming`: what the passes do to names.
- Theorem `Linked.placed`: during the layout the table differs from the final one only in labels
  that are not placed yet, and an address that a label was given stays.
- Theorem `Statement.home_visits`: a pass stands in the scope of the block around a node.
-/

namespace Cartridge

/-! ## Placing a label -/

namespace SymbolTable

variable {t : SymbolTable} {id : DefId} {d : Definition}

/-- Placing a label leaves all other definitions. -/
theorem definition?_placeLabel_of_ne {other : DefId} (h : other ≠ id) (address : UInt16) :
    (t.placeLabel id address).definition? other = t.definition? other := by
  have hne : id.index ≠ other.index := fun heq => h (congrArg DefId.mk heq.symm)
  unfold definition? placeLabel
  rw [Array.getElem?_modify, if_neg hne]

/-- A label gets its address, and keeps everything else. -/
theorem definition?_placeLabel_self {address : UInt16} {before : Option UInt16}
    (h : t.definition? id = some d) (hd : d.meaning = .label before) :
    (t.placeLabel id address).definition? id =
      some { d with meaning := .label (some address) } := by
  unfold definition? at h
  unfold definition? placeLabel
  rw [Array.getElem?_modify, if_pos rfl, h, Option.map_some, hd]

/-- Whatever is no label stays as it is. -/
theorem definition?_placeLabel_cases (t : SymbolTable) (id : DefId) (address : UInt16) :
    (t.placeLabel id address).definition? id = t.definition? id ∨
      ∃ d before, d.meaning = .label before ∧ t.definition? id = some d := by
  unfold definition? placeLabel
  rw [Array.getElem?_modify, if_pos rfl]
  cases hd : t.definitions[id.index]? with
  | none => exact Or.inl rfl
  | some d =>
    rw [Option.map_some]
    split
    · rename_i before hmeaning
      exact Or.inr ⟨d, before, hmeaning, rfl⟩
    · exact Or.inl rfl

end SymbolTable

/-! ## The same names -/

namespace Context

/-- The same names are declared, but the labels at the locations in `P` may have been placed. -/
structure SameNames (P : Location → Prop) (s t : Context) : Prop where
  scopes : t.scopes = s.scopes
  labels : t.labels = s.labels
  table : t.symbols.scopes = s.symbols.scopes
  definition : ∀ id, t.symbols.definition? id = s.symbols.definition? id ∨
    (∃ m, P m ∧ s.labels.at? m = some id) ∧ ∃ d before after, d.meaning = .label before ∧
      s.symbols.definition? id = some d ∧
      t.symbols.definition? id = some { d with meaning := .label after }

namespace SameNames

variable {P Q : Location → Prop} {s t u : Context}

/-- Names stay the same where the table, the scopes and the labels do. -/
theorem of_eq (hsymbols : t.symbols = s.symbols) (hscopes : t.scopes = s.scopes)
    (hlabels : t.labels = s.labels) : s.SameNames P t :=
  ⟨hscopes, hlabels, congrArg _ hsymbols, fun id => Or.inl (by rw [hsymbols])⟩

theorem refl (P : Location → Prop) (s : Context) : s.SameNames P s :=
  of_eq rfl rfl rfl

theorem trans (hst : s.SameNames P t) (htu : t.SameNames P u) : s.SameNames P u where
  scopes := htu.scopes.trans hst.scopes
  labels := htu.labels.trans hst.labels
  table := htu.table.trans hst.table
  definition id := by
    rcases htu.definition id with hu | ⟨hm, d, before, after, hd, ht, hu⟩
    · rcases hst.definition id with ht | ⟨hm, d, before, after, hd, hs, ht⟩
      · exact Or.inl (hu.trans ht)
      · exact Or.inr ⟨hm, d, before, after, hd, hs, hu.trans ht⟩
    · rw [hst.labels] at hm
      rcases hst.definition id with ht' | ⟨-, d', before', after', hd', hs, ht'⟩
      · exact Or.inr ⟨hm, d, before, after, hd, ht'.symm.trans ht, hu⟩
      · cases ht.symm.trans ht'
        exact Or.inr ⟨hm, d', before', after, hd', hs, hu⟩

theorem mono (h : s.SameNames P t) (hPQ : ∀ m, P m → Q m) : s.SameNames Q t where
  scopes := h.scopes
  labels := h.labels
  table := h.table
  definition id := by
    rcases h.definition id with heq | ⟨⟨m, hm, hid⟩, hplaced⟩
    · exact Or.inl heq
    · exact Or.inr ⟨⟨m, hPQ m hm, hid⟩, hplaced⟩

/-- A definition that belongs to no label in `P` stays. -/
theorem definition_of_ne (h : s.SameNames P t) {id : DefId}
    (hid : ∀ m, P m → s.labels.at? m ≠ some id) :
    t.symbols.definition? id = s.symbols.definition? id := by
  rcases h.definition id with heq | ⟨⟨m, hm, hlabel⟩, -⟩
  · exact heq
  · exact absurd hlabel (hid m hm)

/-- If the labels in `P` were not placed, then the table differs only in these labels. -/
theorem precedes (h : s.SameNames P t)
    (hwait : ∀ m id, P m → s.labels.at? m = some id → s.symbols.meaning? id = some (.label none)) :
    s.symbols.Precedes t.symbols where
  scopes := h.table
  meaning id := by
    rcases h.definition id with heq | ⟨⟨m, hm, hid⟩, d, before, after, -, -, ht⟩
    · exact Or.inl (congrArg _ heq)
    · refine Or.inr ⟨hwait m id hm hid, after, ?_⟩
      rw [SymbolTable.meaning?, ht]
      rfl

end SameNames

end Context

/-- The frame of passes that leave the names alone, but may place labels, and that come back to the
scope in which they have started, however they end. -/
def Run.Frame.naming (P : Location → Prop) : Run.Frame Context :=
  .total (fun s t => s.state.SameNames P t.state ∧
      t.state.symbols.stack = s.state.symbols.stack)
    (fun s => ⟨.refl P s.state, rfl⟩)
    fun hst htu => ⟨hst.1.trans htu.1, htu.2.trans hst.2⟩

namespace Run.Frame

variable {P : Location → Prop}

/-- The names are left alone where the table, the scopes and the labels are the same. -/
theorem naming_of_eq {s t : Logged Context} (hsymbols : t.state.symbols = s.state.symbols)
    (hscopes : t.state.scopes = s.state.scopes) (hlabels : t.state.labels = s.state.labels) :
    (naming P).rel s t :=
  ⟨.of_eq hsymbols hscopes hlabels, congrArg _ hsymbols⟩

theorem reports_naming (e : Error) : (naming P).Reports e :=
  reports_of_log (F := naming P) (fun _ _ => naming_of_eq rfl rfl rfl)
    (fun _ _ => naming_of_eq rfl rfl rfl) e

/-- A pass inside a scope comes back to the scope outside. -/
theorem scoped_naming : (naming P).Scoped := by
  have hrel : ∀ scope (s t : Logged Context),
      (naming P).rel { s with state := s.state.enter scope } t →
        (naming P).rel s { t with state := t.state.exit } := by
    rintro scope s t ⟨⟨hscopes, hlabels, htable, hdefinition⟩, hstack⟩
    refine ⟨⟨hscopes, hlabels, htable, hdefinition⟩, ?_⟩
    show t.state.symbols.stack.tail = s.state.symbols.stack
    rw [hstack]
    rfl
  exact ⟨hrel, hrel⟩

/-- Folding changes only what is known of expressions. -/
theorem naming_fold (demand : Demand) (m : Location) (e : Expr) :
    (naming P).Holds (Pass.fold demand m e) :=
  holds_fold_of_blind (fun _ _ _ => naming_of_eq rfl rfl rfl)
    (fun _ _ _ => naming_of_eq rfl rfl rfl) _ _ _

/-- Runs over the rom do not see names. -/
theorem naming_onRom {α : Type} (pos : Position) (act : Run Rom α) :
    (naming P).Holds (Pass.onRom pos act) :=
  holds_onRom_of_blind reports_naming (fun _ _ _ => naming_of_eq rfl rfl rfl)
    (fun _ _ _ => naming_of_eq rfl rfl rfl) pos act

end Run.Frame

namespace Layout

open Run.Frame in
/-- The layout leaves names alone, but for placing labels. -/
theorem allows_naming (P : Location → Prop) :
    Allows (naming P) P (fun _ _ => True) (fun _ => True) where
  reports e _ := reports_naming e
  internal _ := reports_naming _
  scopes := scoped_naming
  fold demand m e _ := naming_fold demand m e
  reserve _ _ _ _ := naming_onRom _ _
  counter _ _ _ _ := naming_onRom _ _
  switch _ _ := naming_onRom _ _
  org _ _ := naming_onRom _ _
  note _ := holds_update fun _ => naming_of_eq rfl rfl rfl
  selections _ _ _ := holds_update fun _ => naming_of_eq rfl rfl rfl
  branches _ _ _ := holds_update fun _ => naming_of_eq rfl rfl rfl
  contents _ _ _ := holds_update fun _ => naming_of_eq rfl rfl rfl
  place m address hm := holds_update fun s => by
    unfold Context.placeLabel
    cases hid : s.state.labels.at? m with
    | none => exact naming_of_eq rfl rfl rfl
    | some id =>
      refine ⟨⟨rfl, rfl, rfl, fun other => ?_⟩, rfl⟩
      by_cases hother : other = id
      · subst hother
        rcases s.state.symbols.definition?_placeLabel_cases other address with
          heq | ⟨d, before, hmeaning, hd⟩
        · exact Or.inl heq
        · exact Or.inr ⟨⟨m, hm, hid⟩, d, before, some address, hmeaning, hd,
            SymbolTable.definition?_placeLabel_self hd hmeaning⟩
      · exact Or.inl (SymbolTable.definition?_placeLabel_of_ne hother address)

end Layout

namespace Emission

open Run.Frame in
/-- The emission leaves names alone. -/
theorem allows_naming (P : Location → Prop) : Allows (naming P) (fun _ _ => True) where
  reports e _ := reports_naming e
  internal _ := reports_naming _
  scopes := scoped_naming
  fold m e _ := naming_fold _ m e
  byte _ _ := naming_onRom _ _
  word _ _ := naming_onRom _ _
  bytes _ _ := naming_onRom _ _
  counter _ _ _ _ := naming_onRom _ _
  switch _ _ := naming_onRom _ _
  seek _ _ := naming_onRom _ _

end Emission

/-! ## What happens at a node -/

/-- A frame that allows the steps of the layout holds of what it does at a node that is not made of
others, if it does so at labels. -/
theorem Layout.Steps.holds_act {F : Run.Frame Context} {P : Location → Prop}
    {E : Location → Expr → Prop} (h : Layout.Steps F P E fun _ => True) {files : Files}
    {m : Location} {n : Node} (hleaf : n.isLeaf = true)
    (hlabel : ∀ name, n = .statement (.label name) → F.Holds (name.placeLabel m)) (hP : P m)
    (hE : ∀ x ∈ n.occurrences m, E x.1 x.2) : F.Holds ((Walk.layout files).act m n) := by
  cases n with
  | command receiver receiverAt c =>
    exact h.holds_command (fun _ _ => trivial) c receiver hP
      (fun e he => hE (receiverAt, e) (Node.mem_occurrences_receiver he))
      fun e he => hE (m, e) (Node.mem_occurrences_argument he)
  | statement stmt =>
    show F.Holds (stmt.layOut files m)
    cases stmt with
    | block kind statements pos => cases hleaf
    | command c => cases hleaf
    | label name =>
      unfold Statement.layOut
      exact hlabel name rfl
    | relocation target pos =>
      unfold Statement.layOut
      exact h.holds_relocation pos target fun x hx => hE _ (Node.mem_occurrences_late hx)
    | data d =>
      unfold Statement.layOut
      exact h.reserve _ _ _ trivial
    | embed path pos =>
      unfold Statement.layOut
      exact h.holds_embed files hP path pos fun _ _ => trivial
    | branch b =>
      unfold Statement.layOut
      exact h.holds_branch (fun _ _ => trivial) hP b
    | header header =>
      unfold Statement.layOut
      exact F.holds_pure _
    | constant name value =>
      unfold Statement.layOut
      exact F.holds_pure _
    | storage v =>
      unfold Statement.layOut
      exact F.holds_pure _

/-- A frame that allows nodes holds of what the layout does at one that is not made of others. -/
theorem Layout.Nests.holds_act {F : Run.Frame Context} {P : Location → Prop}
    {E : Location → Expr → Prop} (h : Layout.Nests F P E fun _ => True) {files : Files}
    {m : Location} {n : Node} (hleaf : n.isLeaf = true) (hP : P m)
    (hE : ∀ x ∈ n.occurrences m, E x.1 x.2) : F.Holds ((Walk.layout files).act m n) :=
  h.toSteps.holds_act hleaf (fun name _ => h.label m name hP) hP hE

/-- A frame that allows to write holds of what the emission does at a node that is not made of
others, if it does so at commands and branches. -/
theorem Emission.Writes.holds_act {F : Run.Frame Context} {E : Location → Expr → Prop}
    (h : Emission.Writes F E) {m : Location} {n : Node} (hleaf : n.isLeaf = true)
    (hE : ∀ x ∈ n.occurrences m, E x.1 x.2)
    (hcommand : ∀ receiver receiverAt c, n = .command receiver receiverAt c →
      F.Holds (c.emit receiver receiverAt m))
    (hbranch : ∀ b, n = .statement (.branch b) → F.Holds (b.emit m)) :
    F.Holds (Walk.emission.act m n) := by
  cases n with
  | command receiver receiverAt c => exact hcommand receiver receiverAt c rfl
  | statement stmt =>
    show F.Holds (stmt.emit m)
    cases stmt with
    | block kind statements pos => cases hleaf
    | command c => cases hleaf
    | relocation target pos =>
      unfold Statement.emit
      exact h.holds_relocation m pos target
    | data d =>
      unfold Statement.emit
      refine h.holds_items _ _ _ fun k e he => ?_
      rw [Nat.zero_add]
      exact hE _ (Node.mem_occurrences_late (Statement.mem_late_item he))
    | embed path pos =>
      unfold Statement.emit
      exact h.holds_contents _ _
    | branch b =>
      unfold Statement.emit
      exact hbranch b rfl
    | label name =>
      unfold Statement.emit
      exact F.holds_pure _
    | header header =>
      unfold Statement.emit
      exact F.holds_pure _
    | constant name value =>
      unfold Statement.emit
      exact F.holds_pure _
    | storage v =>
      unfold Statement.emit
      exact F.holds_pure _

/-- A frame that allows the steps of the emission holds of what it does at a node that is not made
of others. -/
theorem Emission.Steps.holds_act {F : Run.Frame Context} {E : Location → Expr → Prop}
    (h : Emission.Steps F E) {m : Location} {n : Node} (hleaf : n.isLeaf = true)
    (hE : ∀ x ∈ n.occurrences m, E x.1 x.2) : F.Holds (Walk.emission.act m n) := by
  refine h.toWrites.holds_act hleaf hE ?_ ?_
  · rintro receiver receiverAt c rfl
    exact h.holds_command c receiver
      (fun e he => hE (receiverAt, e) (Node.mem_occurrences_receiver he))
      fun e he => hE (m, e) (Node.mem_occurrences_argument he)
  · rintro b rfl
    exact h.holds_branch b fun e he =>
      hE _ (Node.mem_occurrences_late (Statement.mem_late_destination he))

/-! ## Labels are placed once -/

/-- What the layout does at a node places at most the label of the node. -/
theorem Layout.sameNames_act {files : Files} {m : Location} {n : Node} (hleaf : n.isLeaf = true)
    {s t : Logged Context} (h : (Walk.layout files).act m n s = .ok () t) :
    s.state.SameNames (fun m' => m' = m) t.state :=
  (((allows_naming fun m' => m' = m).nests.holds_act hleaf rfl fun _ _ => trivial).rel_of_ok h).1

/-- Entering and leaving scopes leaves the names alone. -/
theorem Rests.sameNames {P : Location → Prop} {s t : Logged Context} (h : Rests s t) :
    s.state.SameNames P t.state := by
  obtain ⟨stack, rfl⟩ := h
  exact ⟨rfl, rfl, rfl, fun _ => Or.inl rfl⟩

/-- The layout leaves the record of labels alone. -/
theorem Linked.labels {files : Files} {vs : List Visit} {s t : Logged Context}
    (h : Linked (.layout files) s vs t) {v : Visit} (hv : v ∈ vs) (hleaf : v.node.isLeaf = true) :
    v.start.state.labels = s.state.labels := by
  refine h.start_of_mem (Q := fun x => x.state.labels = s.state.labels) ?_ ?_ rfl hv hleaf
  · exact fun rests hx => (rests.sameNames (P := fun _ => True)).labels.trans hx
  · exact fun m n x u leaf hact hx => (Layout.sameNames_act leaf hact).labels.trans hx

/-- During the layout the table differs from the final one only in labels that are not placed yet,
and an address that a label was given stays. -/
theorem Linked.placed {files : Files} {vs : List Visit} {s t : Logged Context}
    (h : Linked (.layout files) s vs t) (hnodup : (vs.map Visit.location).Nodup)
    (hunique : ∀ m n id, s.state.labels.at? m = some id → s.state.labels.at? n = some id → m = n)
    (hwait : ∀ m id, m ∈ vs.map Visit.location → s.state.labels.at? m = some id →
      s.state.symbols.meaning? id = some (.label none)) :
    s.state.SameNames (fun m => m ∈ vs.map Visit.location) t.state ∧
      ∀ v ∈ vs, v.node.isLeaf = true → v.start.state.symbols.Precedes t.state.symbols ∧
        ∀ id, s.state.labels.at? v.location = some id →
          t.state.symbols.definition? id = v.after.symbols.definition? id := by
  induction h with
  | nil rests => exact ⟨rests.sameNames, fun _ hv => absurd hv List.not_mem_nil⟩
  | @inner s t v vs inner _ ih =>
    obtain ⟨hsame, hvisits⟩ := ih (List.nodup_cons.1 hnodup).2 hunique
      fun m id hm => hwait m id (List.mem_cons_of_mem _ hm)
    refine ⟨hsame.mono fun m hm => List.mem_cons_of_mem _ hm, fun w hw hleaf => ?_⟩
    rcases List.mem_cons.1 hw with rfl | hw
    · rw [inner] at hleaf
      cases hleaf
    · exact hvisits w hw hleaf
  | @leaf s t u v vs leaf rests act result _ ih =>
    obtain ⟨hnew, hnodup⟩ := List.nodup_cons.1 hnodup
    have hrests : s.state.SameNames (fun m => m = v.location) v.start.state := rests.sameNames
    have hstep := hrests.trans (Layout.sameNames_act leaf (act.symm.trans result))
    have hfirst : ∀ m ∈ vs.map Visit.location, m ≠ v.location := by
      rintro m hm rfl
      exact hnew hm
    -- The labels that come later are not placed by this visit.
    have hrest : ∀ m id, m ∈ vs.map Visit.location → u.state.labels.at? m = some id →
        u.state.symbols.meaning? id = some (.label none) := by
      intro m id hm hid
      rw [hstep.labels] at hid
      rw [SymbolTable.meaning?, hstep.definition_of_ne fun m' hm' hid' => ?_]
      · exact hwait m id (List.mem_cons_of_mem _ hm) hid
      · exact hfirst m hm ((hunique m m' id hid hid').trans hm')
    obtain ⟨hsame, hvisits⟩ := ih hnodup (by rw [hstep.labels]; exact hunique) hrest
    have hlater := hsame.mono (Q := fun m => m ∈ v.location :: vs.map Visit.location)
      fun m hm => List.mem_cons_of_mem _ hm
    have hearlier := (Layout.sameNames_act leaf (act.symm.trans result)).mono
      (Q := fun m => m ∈ v.location :: vs.map Visit.location)
      fun m hm => List.mem_cons.2 (Or.inl hm)
    refine ⟨rests.sameNames.trans (hearlier.trans hlater), fun w hw hleaf => ?_⟩
    rcases List.mem_cons.1 hw with rfl | hw
    · refine ⟨(hearlier.trans hlater).precedes fun m id hm hid => ?_, fun id hid => ?_⟩
      · obtain ⟨stack, hstart⟩ := rests
        rw [hstart] at hid ⊢
        exact hwait m id hm hid
      · rw [Visit.after_of_ok result]
        refine hsame.definition_of_ne fun m hm hid' => ?_
        rw [hstep.labels] at hid'
        exact hfirst m hm (hunique m w.location id hid' hid)
    · rw [← hstep.labels]
      exact hvisits w hw hleaf

/-! ## Scopes of nodes -/

/-- A pass comes back to the scope in which it has started, and leaves the scopes of blocks
alone. -/
def Walk.Returns (w : Walk) : Prop :=
  ∀ m n s t, w.act m n s = .ok () t →
    t.state.scopes = s.state.scopes ∧ t.state.symbols.current = s.state.symbols.current

namespace Walk

/-- A pass that leaves the names alone at every node comes back to its scope. -/
theorem returns_of_naming {w : Walk}
    (h : ∀ m n, (Run.Frame.naming fun _ => True).Holds (w.act m n)) : w.Returns := by
  intro m n s t hok
  obtain ⟨hsame, hstack⟩ := (h m n).rel_of_ok hok
  refine ⟨hsame.scopes, ?_⟩
  unfold SymbolTable.current
  rw [hstack]

/-- The layout comes back to its scope. -/
theorem returns_layout (files : Files) : (layout files).Returns := by
  refine returns_of_naming fun m n => ?_
  cases n with
  | statement stmt =>
    exact (Layout.allows_naming _).nests.holds_layOut (fun _ _ => trivial) stmt m
      (fun _ _ => trivial) (Statement.covers_true _ _) fun _ _ => trivial
  | command receiver receiverAt c =>
    exact (Layout.allows_naming _).holds_command (fun _ _ => trivial) c receiver trivial
      (fun _ _ => trivial) fun _ _ => trivial

/-- The emission comes back to its scope. -/
theorem returns_emission : emission.Returns := by
  refine returns_of_naming fun m n => ?_
  cases n with
  | statement stmt =>
    exact (Emission.allows_naming _).nests.holds_emit stmt m (Statement.covers_true _ _)
  | command receiver receiverAt c =>
    exact (Emission.allows_naming _).holds_command c receiver (fun _ _ => trivial)
      fun _ _ => trivial

end Walk

/-- A pass stands in the scope of the block around the node that it visits. -/
def Visit.AtHome (scopes : Record ScopeId) (v : Visit) : Prop :=
  scopes.at? (v.node.home v.location) = some v.start.state.symbols.current

namespace Walk.Returns

variable {w : Walk} {location : Location} {s t : Logged Context}

/-- A pass over a list of statements comes back to its scope. -/
theorem statements (hr : w.Returns) {statements : List Statement} {index : Nat}
    (h : w.statements location index statements s = .ok () t) :
    t.state.scopes = s.state.scopes ∧ t.state.symbols.current = s.state.symbols.current := by
  induction statements generalizing index s with
  | nil =>
    cases h
    exact ⟨rfl, rfl⟩
  | cons stmt rest ih =>
    obtain ⟨_, u, hu, hrest⟩ := Run.bind_eq_ok.1 h
    obtain ⟨hscopes, hcurrent⟩ := hr _ (.statement stmt) s u hu
    obtain ⟨hscopes', hcurrent'⟩ := ih hrest
    exact ⟨hscopes'.trans hscopes, hcurrent'.trans hcurrent⟩

/-- A pass over a list of commands comes back to its scope. -/
theorem commands (hr : w.Returns) {receiver : Operand} {commands : List Command} {index : Nat}
    (h : w.commands location receiver index commands s = .ok () t) :
    t.state.scopes = s.state.scopes ∧ t.state.symbols.current = s.state.symbols.current := by
  induction commands generalizing index s with
  | nil =>
    cases h
    exact ⟨rfl, rfl⟩
  | cons c rest ih =>
    obtain ⟨_, u, hu, hrest⟩ := Run.bind_eq_ok.1 h
    obtain ⟨hscopes, hcurrent⟩ := hr _ (.command receiver (location.child 0) c) s u hu
    obtain ⟨hscopes', hcurrent'⟩ := ih hrest
    exact ⟨hscopes'.trans hscopes, hcurrent'.trans hcurrent⟩

end Walk.Returns

/-- A pass that stands in the scope of the block around a statement, unless this is a block itself,
does so at every node inside the statement. -/
theorem Comes.atHome {w : Walk} {v : Visit} (hr : w.Returns) {scopes : Record ScopeId}
    {location : Location} {stmt : Statement} {s : Logged Context} (h : Comes w v location stmt s)
    (hleaf : v.node.isLeaf = true) (hscopes : s.state.scopes = scopes)
    (hhome : (∀ kind statements pos, stmt ≠ .block kind statements pos) →
      scopes.at? location.parent = some s.state.symbols.current) : v.AtHome scopes := by
  induction h with
  | here visit =>
    subst visit
    refine hhome ?_
    rintro kind statements pos rfl
    cases hleaf
  | command reached visit =>
    subst visit
    exact (hhome nofun).trans (congrArg some (hr.commands reached).2.symm)
  | block entered reached _ ih =>
    obtain ⟨hsame, hcurrent⟩ := hr.statements reached
    refine ih (hsame.trans hscopes) fun _ => ?_
    rw [hcurrent]
    exact hscopes ▸ entered

namespace Statement

/-- A pass over a block stands in the scope of the block around each node inside it. -/
theorem home_visits {w : Walk} (hr : w.Returns) {kind : BlockKind} {statements : List Statement}
    {pos : Position} {location : Location} {s : Logged Context} {v : Visit}
    (hv : v ∈ (Statement.block kind statements pos).visits w location s)
    (hleaf : v.node.isLeaf = true) : v.AtHome s.state.scopes :=
  (comes_of_mem_visits _ hv).atHome hr hleaf rfl fun hblock =>
    absurd rfl (hblock kind statements pos)

end Statement

end Cartridge
