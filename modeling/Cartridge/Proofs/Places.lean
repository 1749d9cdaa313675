import Cartridge.Source.Location
import Cartridge.Source.Statement

/-!
# The places of a program

The nodes of a program are its statements and the commands of its command statements, each at a
location of its own. The expressions of a statement stand at its children. Those that settle the rom
and the ram are folded while declarations are still being gathered, the others later.

Main definitions:

- `Location.Under`: a location lies in the subtree of another one.
- `Node`: what a pass visits.
- `Statement.places`: the nodes of a statement with their locations.
- `Statement.early` and `Statement.late`: the expressions of a statement.
- `Node.occurrences`: the late expressions of a node.

Main results:

- Theorem `Statement.nodup_places`: different nodes have different locations.
- Theorem `Statement.expr_unique`: only one expression stands at a location.
-/

namespace Cartridge

/-! ## Subtrees -/

namespace Location

/-- A location lies in the subtree of another one. -/
def Under (top m : Location) : Prop :=
  top.indices <:+ m.indices

theorem Under.refl (l : Location) : l.Under l :=
  List.suffix_refl _

theorem Under.trans {l m n : Location} (hlm : l.Under m) (hmn : m.Under n) : l.Under n :=
  List.IsSuffix.trans hlm hmn

theorem under_child (l : Location) (i : Nat) : l.Under (l.child i) :=
  List.suffix_cons _ _

/-- The subtree of a child is a part of the whole subtree. -/
theorem Under.of_child {l m : Location} {i : Nat} (h : (l.child i).Under m) : l.Under m :=
  (under_child l i).trans h

/-- The subtrees of different children have nothing in common. -/
theorem Under.child_unique {l m : Location} {i j : Nat} (hi : (l.child i).Under m)
    (hj : (l.child j).Under m) : i = j := by
  have hlen : (l.child i).indices.length ≤ (l.child j).indices.length := Nat.le_refl _
  have hsuffix := List.suffix_of_suffix_length_le hi hj hlen
  have heq := hsuffix.eq_of_length rfl
  exact (List.cons.inj heq).1

/-- A location does not lie below its own child. -/
theorem not_under_child (l : Location) (i : Nat) : ¬ (l.child i).Under l := by
  intro h
  have hlen := h.length_le
  exact Nat.not_succ_le_self _ hlen

/-- The location of which a location is a child. -/
def parent (l : Location) : Location where
  depth := l.depth - 1
  indices := l.indices.tail

theorem child_ne_top (l : Location) (i : Nat) : l.child i ≠ .top :=
  fun h => absurd (congrArg depth h) (Nat.succ_ne_zero _)

/-- Only the outermost location is its own parent. -/
theorem parent_ne {l : Location} (h : l ≠ .top) : l.parent ≠ l := by
  intro heq
  apply h
  cases l with
  | mk depth indices =>
    simp only [parent, mk.injEq] at heq
    obtain ⟨hdepth, htail⟩ := heq
    have hnil : indices = [] := by
      cases indices with
      | nil => rfl
      | cons i rest => exact absurd htail (List.ne_cons_self)
    have hzero : depth = 0 := by omega
    rw [hzero, hnil]
    rfl

theorem under_parent (l : Location) : l.parent.Under l :=
  List.tail_suffix _

end Location

/-! ## Nodes -/

/-- What a pass visits: a statement, or a command of a command statement with the receiver and its
location. -/
inductive Node where
  | statement (stmt : Statement)
  | command (receiver : Operand) (receiverAt : Location) (command : Command)

/-- Whether a node is there for its bytes: a command, a branch, data or an embedded file. -/
def Node.writes : Node → Bool
  | .command _ _ _ | .statement (.data _) | .statement (.branch _) | .statement (.embed _ _) => true
  | .statement _ => false

/-- Whether a node is not made of other nodes. -/
def Node.isLeaf : Node → Bool
  | .statement (.block _ _ _) | .statement (.command _) => false
  | _ => true

/-- Whether a node is neither made of other nodes nor moves the program counter by itself: it takes
up the space of its code, if it has any. -/
def Node.stays : Node → Bool
  | .statement (.block _ _ _) | .statement (.command _) | .statement (.relocation _ _) => false
  | _ => true

/-- The location of the block around a node. A command stands in a command statement. -/
def Node.home (location : Location) : Node → Location
  | .statement _ => location.parent
  | .command _ _ _ => location.parent.parent

namespace Statement

/-! ## Places -/

/-- The places of commands that share a receiver, from the one with the given index on. -/
def placesOfCommands (location : Location) (receiver : Operand) :
    Nat → List Command → List (Location × Node)
  | _, [] => []
  | index, c :: rest =>
    (location.child (index + 1), .command receiver (location.child 0) c) ::
      placesOfCommands location receiver (index + 1) rest

mutual

/-- The places inside a statement. -/
def placesInside (location : Location) : Statement → List (Location × Node)
  | .block _ statements _ => placesAll location 0 statements
  | .command c => placesOfCommands location c.receiver 0 c.commands
  | .header _ | .relocation _ _ | .label _ | .constant _ _ | .storage _ | .data _ | .branch _
  | .embed _ _ => []

/-- The places of the statements of a block from the one with the given index on, and of everything
inside them. -/
def placesAll (location : Location) : Nat → List Statement → List (Location × Node)
  | _, [] => []
  | index, stmt :: rest =>
    (location.child index, .statement stmt) :: stmt.placesInside (location.child index) ++
      placesAll location (index + 1) rest

end

/-- The places of a statement and of everything inside it. -/
def places (location : Location) (stmt : Statement) : List (Location × Node) :=
  (location, .statement stmt) :: stmt.placesInside location

theorem placesAll_cons (location : Location) (index : Nat) (stmt : Statement)
    (rest : List Statement) :
    placesAll location index (stmt :: rest) =
      stmt.places (location.child index) ++ placesAll location (index + 1) rest := by
  rw [placesAll, places, List.cons_append]

/-- The places of commands tell the command, its index and the receiver's location. -/
theorem mem_placesOfCommands {location : Location} {receiver : Operand} {commands : List Command}
    {index : Nat} {m : Location} {n : Node}
    (h : (m, n) ∈ placesOfCommands location receiver index commands) :
    ∃ k c, commands[k]? = some c ∧ m = location.child (index + k + 1) ∧
      n = .command receiver (location.child 0) c := by
  induction commands generalizing index with
  | nil => cases h
  | cons c rest ih =>
    rcases List.mem_cons.1 h with heq | hrest
    · cases heq
      exact ⟨0, c, rfl, rfl, rfl⟩
    · obtain ⟨k, d, hd, rfl, rfl⟩ := ih hrest
      refine ⟨k + 1, d, hd, ?_, rfl⟩
      rw [Nat.add_right_comm index 1 k, ← Nat.add_assoc]

/-- Commands of one statement stand at different locations. -/
theorem nodup_placesOfCommands (location : Location) (receiver : Operand)
    (commands : List Command) (index : Nat) :
    ((placesOfCommands location receiver index commands).map Prod.fst).Nodup := by
  induction commands generalizing index with
  | nil => exact List.nodup_nil
  | cons c rest ih =>
    refine List.nodup_cons.2 ⟨fun hmem => ?_, ih _⟩
    obtain ⟨⟨m, n⟩, hp, heq⟩ := List.mem_map.1 hmem
    obtain ⟨k, d, -, rfl, -⟩ := mem_placesOfCommands hp
    have hindex := (Location.child_inj.1 heq).1
    omega

mutual

/-- Everything inside a statement stands below one of its children. -/
theorem under_of_mem_placesInside :
    ∀ (stmt : Statement) {location : Location} {p : Location × Node},
      p ∈ stmt.placesInside location → ∃ i, (location.child i).Under p.1
  | .block _ statements _, _, _, h => by
    obtain ⟨i, -, hi⟩ := under_of_mem_placesAll statements h
    exact ⟨i, hi⟩
  | .command c, _, (_, _), h => by
    obtain ⟨k, d, -, rfl, -⟩ := mem_placesOfCommands h
    exact ⟨_, .refl _⟩
  | .header _, _, _, h | .relocation _ _, _, _, h | .label _, _, _, h | .constant _ _, _, _, h
  | .storage _, _, _, h | .data _, _, _, h | .branch _, _, _, h | .embed _ _, _, _, h => by
    cases h

/-- The statements of a block stand below its children. -/
theorem under_of_mem_placesAll :
    ∀ (statements : List Statement) {location : Location} {index : Nat} {p : Location × Node},
      p ∈ placesAll location index statements → ∃ i, index ≤ i ∧ (location.child i).Under p.1
  | [], _, _, _, h => by cases h
  | stmt :: rest, location, index, p, h => by
    rcases List.mem_append.1 h with hstmt | hrest
    · rcases List.mem_cons.1 hstmt with rfl | hinside
      · exact ⟨index, Nat.le_refl _, .refl _⟩
      · obtain ⟨i, hi⟩ := under_of_mem_placesInside stmt hinside
        exact ⟨index, Nat.le_refl _, hi.of_child⟩
    · obtain ⟨i, hi, hm⟩ := under_of_mem_placesAll rest hrest
      exact ⟨i, Nat.le_of_succ_le hi, hm⟩

end

/-- The places of a statement lie below it. -/
theorem under_of_mem_places {stmt : Statement} {location : Location} {p : Location × Node}
    (h : p ∈ stmt.places location) : location.Under p.1 := by
  rcases List.mem_cons.1 h with rfl | hinside
  · exact .refl _
  · obtain ⟨i, hi⟩ := under_of_mem_placesInside stmt hinside
    exact hi.of_child

mutual

/-- The places inside a statement are different locations. -/
theorem nodup_placesInside :
    ∀ (stmt : Statement) (location : Location), ((stmt.placesInside location).map Prod.fst).Nodup
  | .block _ statements _, location => nodup_placesAll statements location 0
  | .command c, location => nodup_placesOfCommands location c.receiver c.commands 0
  | .header _, _ | .relocation _ _, _ | .label _, _ | .constant _ _, _ | .storage _, _ | .data _, _
  | .branch _, _ | .embed _ _, _ => List.nodup_nil

/-- The places of a list of statements are different locations: each statement has a subtree of its
own. -/
theorem nodup_placesAll :
    ∀ (statements : List Statement) (location : Location) (index : Nat),
      ((placesAll location index statements).map Prod.fst).Nodup
  | [], _, _ => List.nodup_nil
  | stmt :: rest, location, index => by
    have hself :
        location.child index ∉ (stmt.placesInside (location.child index)).map Prod.fst := by
      intro hmem
      obtain ⟨p, hp, heq⟩ := List.mem_map.1 hmem
      obtain ⟨i, hi⟩ := under_of_mem_placesInside stmt hp
      rw [heq] at hi
      exact Location.not_under_child _ _ hi
    have hfirst : ∀ m ∈ ((location.child index, Node.statement stmt) ::
        stmt.placesInside (location.child index)).map Prod.fst, (location.child index).Under m := by
      intro m hm
      obtain ⟨p, hp, rfl⟩ := List.mem_map.1 hm
      exact under_of_mem_places hp
    rw [placesAll, List.map_append]
    refine List.nodup_append.2 ⟨?_, nodup_placesAll rest location (index + 1), ?_⟩
    · exact List.nodup_cons.2 ⟨hself, nodup_placesInside stmt (location.child index)⟩
    · rintro m hm _ hm' rfl
      obtain ⟨p, hp, rfl⟩ := List.mem_map.1 hm'
      obtain ⟨i, hi, hunder⟩ := under_of_mem_placesAll rest hp
      have heq := hunder.child_unique (hfirst _ hm)
      omega

end

/-- Different nodes have different locations. -/
theorem nodup_places (stmt : Statement) (location : Location) :
    ((stmt.places location).map Prod.fst).Nodup := by
  refine List.nodup_cons.2 ⟨fun hmem => ?_, nodup_placesInside stmt location⟩
  obtain ⟨p, hp, heq⟩ := List.mem_map.1 hmem
  obtain ⟨i, hi⟩ := under_of_mem_placesInside stmt hp
  rw [heq] at hi
  exact Location.not_under_child _ _ hi

/-! ## Expressions -/

/-- The expressions of a statement that are folded while declarations are gathered, each with the
index of the child at which it stands. -/
def early : Statement → List (Nat × Expr)
  | .header h => h.settings.zipIdx.map fun x => (x.2, x.1.value)
  | .storage v => v.arraySize.toList.map fun e => (0, e)
  | .relocation (.ram dest) _ => [(1, dest)]
  | _ => []

/-- The expressions of a statement that are folded when everything is declared. -/
def late : Statement → List (Nat × Expr)
  | .relocation (.rom bank dest) _ =>
    (bank.toList.map fun e => (0, e)) ++ dest.toList.map fun e => (1, e)
  | .data d => d.items.zipIdx.filterMap fun
    | (.value e, i) => some (i, e)
    | (.string _ _, _) => none
  | .command c =>
    (c.receiver.expr.toList.map fun e => (0, e)) ++ c.commands.zipIdx.filterMap fun x =>
      (x.1.argument.bind Operand.expr).map fun e => (x.2 + 1, e)
  | .branch b => (b.destination.bind Operand.expr).toList.map fun e => (0, e)
  | _ => []

/-- The value of a setting is folded while gathering. -/
theorem mem_early_setting {header : Header} {setting : Setting} {k : Nat}
    (h : header.settings[k]? = some setting) :
    (k, setting.value) ∈ (Statement.header header).early :=
  List.mem_map.2 ⟨(setting, k), List.mk_mem_zipIdx_iff_getElem?.2 h, rfl⟩

/-- The size of an array is folded while gathering. -/
theorem mem_early_size {v : Variables} {e : Expr} (h : v.arraySize = some e) :
    (0, e) ∈ (Statement.storage v).early :=
  List.mem_map.2 ⟨e, Option.mem_toList.2 h, rfl⟩

/-- The receiver of a command statement is folded later, as its first child. -/
theorem mem_late_receiver {c : CommandList} {e : Expr} (h : e ∈ c.receiver.expr) :
    (0, e) ∈ (Statement.command c).late := by
  refine List.mem_append_left _ (List.mem_map.2 ⟨e, ?_, rfl⟩)
  exact Option.mem_toList.2 h

/-- The argument of a command is folded later, at the child that belongs to the command. -/
theorem mem_late_argument {c : CommandList} {d : Command} {e : Expr} {k : Nat}
    (hd : c.commands[k]? = some d) (h : e ∈ d.argument.bind Operand.expr) :
    (k + 1, e) ∈ (Statement.command c).late := by
  refine List.mem_append_right _ (List.mem_filterMap.2 ⟨(d, k), ?_, ?_⟩)
  · exact List.mk_mem_zipIdx_iff_getElem?.2 hd
  · exact Option.map_eq_some_iff.2 ⟨e, h, rfl⟩

/-- The value of a data item is folded later. -/
theorem mem_late_item {d : Data} {e : Expr} {k : Nat} (h : d.items[k]? = some (.value e)) :
    (k, e) ∈ (Statement.data d).late :=
  List.mem_filterMap.2 ⟨(.value e, k), List.mk_mem_zipIdx_iff_getElem?.2 h, rfl⟩

/-- The destination of a branch is folded later. -/
theorem mem_late_destination {b : Branch} {e : Expr} (h : e ∈ b.destination.bind Operand.expr) :
    (0, e) ∈ (Statement.branch b).late :=
  List.mem_map.2 ⟨e, Option.mem_toList.2 h, rfl⟩

/-- A statement has expressions of one kind only. -/
theorem early_eq_nil_or_late_eq_nil (stmt : Statement) : stmt.early = [] ∨ stmt.late = [] := by
  cases stmt with
  | relocation target pos =>
    cases target with
    | ram dest => exact Or.inr rfl
    | rom bank dest => exact Or.inl rfl
  | header h => exact Or.inr rfl
  | storage v => exact Or.inr rfl
  | _ => exact Or.inl rfl

/-- Only one expression stands at a child. -/
theorem expr_unique {stmt : Statement} {j : Nat} {e e' : Expr}
    (h : (j, e) ∈ stmt.early ++ stmt.late)
    (h' : (j, e') ∈ stmt.early ++ stmt.late) : e = e' := by
  cases stmt with
  | header header =>
    simp only [early, late, List.append_nil, List.mem_map, Prod.mk.injEq] at h h'
    obtain ⟨⟨a, i⟩, hi, rfl, rfl⟩ := h
    obtain ⟨⟨b, k⟩, hk, rfl, rfl⟩ := h'
    cases (List.mk_mem_zipIdx_iff_getElem?.1 hi).symm.trans (List.mk_mem_zipIdx_iff_getElem?.1 hk)
    rfl
  | storage v =>
    simp only [early, late, List.append_nil, List.mem_map, Prod.mk.injEq, Option.mem_toList] at h h'
    obtain ⟨a, ha, -, rfl⟩ := h
    obtain ⟨b, hb, -, rfl⟩ := h'
    exact Option.some.inj (ha.symm.trans hb)
  | relocation target pos =>
    cases target with
    | ram dest =>
      simp only [early, late, List.append_nil, List.mem_singleton, Prod.mk.injEq] at h h'
      exact h.2.trans h'.2.symm
    | rom bank dest =>
      simp only [early, late, List.nil_append, List.mem_append, List.mem_map, Prod.mk.injEq,
        Option.mem_toList] at h h'
      rcases h with ⟨a, ha, rfl, rfl⟩ | ⟨a, ha, rfl, rfl⟩ <;>
        rcases h' with ⟨b, hb, hj, rfl⟩ | ⟨b, hb, hj, rfl⟩
      · exact Option.some.inj (ha.symm.trans hb)
      · cases hj
      · cases hj
      · exact Option.some.inj (ha.symm.trans hb)
  | data d =>
    obtain ⟨⟨a, i⟩, hi, ha⟩ := List.mem_filterMap.1 h
    obtain ⟨⟨b, k⟩, hk, hb⟩ := List.mem_filterMap.1 h'
    cases a with
    | string text pos => cases ha
    | value a =>
      cases b with
      | string text pos => cases hb
      | value b =>
        cases ha
        cases hb
        cases (List.mk_mem_zipIdx_iff_getElem?.1 hi).symm.trans
          (List.mk_mem_zipIdx_iff_getElem?.1 hk)
        rfl
  | command c =>
    simp only [early, late, List.nil_append, List.mem_append, List.mem_map, Prod.mk.injEq,
      Option.mem_toList, List.mem_filterMap, Option.map_eq_some_iff] at h h'
    rcases h with ⟨a, ha, rfl, rfl⟩ | ⟨⟨c, i⟩, hi, a, ha, rfl, rfl⟩ <;>
      rcases h' with ⟨b, hb, hj, rfl⟩ | ⟨⟨d, k⟩, hk, b, hb, hj, rfl⟩
    · exact Option.some.inj (ha.symm.trans hb)
    · cases hj
    · cases hj
    · cases Nat.succ.inj hj
      cases (List.mk_mem_zipIdx_iff_getElem?.1 hi).symm.trans (List.mk_mem_zipIdx_iff_getElem?.1 hk)
      exact Option.some.inj (ha.symm.trans hb)
  | branch b =>
    simp only [early, late, List.nil_append, List.mem_map, Prod.mk.injEq, Option.mem_toList] at h h'
    obtain ⟨a, ha, -, rfl⟩ := h
    obtain ⟨b, hb, -, rfl⟩ := h'
    exact Option.some.inj (ha.symm.trans hb)
  | block kind statements pos => cases h
  | label name => cases h
  | constant name value => cases h
  | embed path pos => cases h

/-- The expressions of a kind that belong to the statements at certain places are all in `E`. -/
def Covers (kind : Statement → List (Nat × Expr)) (E : Location → Expr → Prop)
    (places : List (Location × Node)) : Prop :=
  ∀ m stmt, (m, Node.statement stmt) ∈ places → ∀ x ∈ kind stmt, E (m.child x.1) x.2

section

variable {kind : Statement → List (Nat × Expr)} {E : Location → Expr → Prop}

theorem covers_true (kind : Statement → List (Nat × Expr)) (places : List (Location × Node)) :
    Covers kind (fun _ _ => True) places :=
  fun _ _ _ _ _ => trivial

/-- What covers a statement with everything inside covers its own expressions. -/
theorem Covers.self {stmt : Statement} {location : Location}
    (h : Covers kind E (stmt.places location)) : ∀ x ∈ kind stmt, E (location.child x.1) x.2 :=
  h location stmt List.mem_cons_self

/-- What covers a block covers its statements. -/
theorem Covers.block {blockKind : BlockKind} {statements : List Statement} {pos : Position}
    {location : Location}
    (h : Covers kind E ((Statement.block blockKind statements pos).places location)) :
    Covers kind E (placesAll location 0 statements) :=
  fun m stmt hm => h m stmt (List.mem_cons_of_mem _ hm)

/-- What covers a list covers its first statement. -/
theorem Covers.head {stmt : Statement} {rest : List Statement} {location : Location} {index : Nat}
    (h : Covers kind E (placesAll location index (stmt :: rest))) :
    Covers kind E (stmt.places (location.child index)) :=
  fun m other hm => h m other (List.mem_append_left _ hm)

/-- What covers a list covers the rest of it. -/
theorem Covers.tail {stmt : Statement} {rest : List Statement} {location : Location} {index : Nat}
    (h : Covers kind E (placesAll location index (stmt :: rest))) :
    Covers kind E (placesAll location (index + 1) rest) :=
  fun m other hm => h m other (List.mem_append_right _ hm)

end

mutual

/-- A command is one of the commands of a statement. -/
theorem command_of_mem_placesInside :
    ∀ (stmt : Statement) {location m receiverAt : Location} {receiver : Operand} {c : Command},
      (m, Node.command receiver receiverAt c) ∈ stmt.placesInside location →
      (∃ cs k, stmt = .command cs ∧ cs.commands[k]? = some c ∧ m = location.child (k + 1) ∧
        receiver = cs.receiver ∧ receiverAt = location.child 0) ∨
      ∃ home cs k, (home, Node.statement (.command cs)) ∈ stmt.placesInside location ∧
        cs.commands[k]? = some c ∧ m = home.child (k + 1) ∧ receiver = cs.receiver ∧
        receiverAt = home.child 0
  | .block _ statements _, _, _, _, _, _, h => Or.inr (command_of_mem_placesAll statements h)
  | .command cs, _, _, _, _, _, h => by
    obtain ⟨k, d, hd, rfl, heq⟩ := mem_placesOfCommands h
    cases heq
    rw [Nat.zero_add]
    exact Or.inl ⟨cs, k, rfl, hd, rfl, rfl, rfl⟩
  | .header _, _, _, _, _, _, h | .relocation _ _, _, _, _, _, _, h | .label _, _, _, _, _, _, h
  | .constant _ _, _, _, _, _, _, h | .storage _, _, _, _, _, _, h | .data _, _, _, _, _, _, h
  | .branch _, _, _, _, _, _, h | .embed _ _, _, _, _, _, _, h => by
    cases h

/-- A command among the places of a list belongs to a command statement there. -/
theorem command_of_mem_placesAll :
    ∀ (statements : List Statement) {location m receiverAt : Location} {index : Nat}
      {receiver : Operand} {c : Command},
      (m, Node.command receiver receiverAt c) ∈ placesAll location index statements →
      ∃ home cs k, (home, Node.statement (.command cs)) ∈ placesAll location index statements ∧
        cs.commands[k]? = some c ∧ m = home.child (k + 1) ∧ receiver = cs.receiver ∧
        receiverAt = home.child 0
  | [], _, _, _, _, _, _, h => by cases h
  | stmt :: rest, location, m, _, index, _, _, h => by
    rcases List.mem_append.1 h with hstmt | hrest
    · rcases List.mem_cons.1 hstmt with heq | hinside
      · cases heq
      · rcases command_of_mem_placesInside stmt hinside with
          ⟨cs, k, rfl, hcommand⟩ | ⟨home, cs, k, hmem, hcommand⟩
        · exact ⟨_, cs, k, List.mem_append_left _ List.mem_cons_self, hcommand⟩
        · exact ⟨home, cs, k, List.mem_append_left _ (List.mem_cons_of_mem _ hmem), hcommand⟩
    · obtain ⟨home, cs, k, hmem, hcommand⟩ := command_of_mem_placesAll rest hrest
      exact ⟨home, cs, k, List.mem_append_right _ hmem, hcommand⟩

end

end Statement

/-- The expressions of a node that are folded when everything is declared, with their locations. -/
def Node.occurrences (location : Location) : Node → List (Location × Expr)
  | .statement stmt => stmt.late.map fun x => (location.child x.1, x.2)
  | .command receiver receiverAt c =>
    (receiver.expr.toList.map fun e => (receiverAt, e)) ++
      (c.argument.bind Operand.expr).toList.map fun e => (location, e)

theorem Node.mem_occurrences_late {location : Location} {stmt : Statement} {x : Nat × Expr}
    (h : x ∈ stmt.late) : (location.child x.1, x.2) ∈ (Node.statement stmt).occurrences location :=
  List.mem_map.2 ⟨x, h, rfl⟩

/-- The receiver of a command is one of its occurrences, at the location that it shares with
others. -/
theorem Node.mem_occurrences_receiver {location receiverAt : Location} {receiver : Operand}
    {c : Command} {e : Expr} (h : e ∈ receiver.expr) :
    (receiverAt, e) ∈ (Node.command receiver receiverAt c).occurrences location :=
  List.mem_append_left _ (List.mem_map.2 ⟨e, Option.mem_toList.2 h, rfl⟩)

/-- The argument of a command is one of its occurrences, at the command's own location. -/
theorem Node.mem_occurrences_argument {location receiverAt : Location} {receiver : Operand}
    {c : Command} {e : Expr} (h : e ∈ c.argument.bind Operand.expr) :
    (location, e) ∈ (Node.command receiver receiverAt c).occurrences location :=
  List.mem_append_right _ (List.mem_map.2 ⟨e, Option.mem_toList.2 h, rfl⟩)

/-- The expressions of the nodes of a statement are those of the statements inside it. -/
theorem Statement.mem_late_of_occurrences {stmt : Statement} {location m : Location} {n : Node}
    (h : (m, n) ∈ stmt.places location) {x : Location × Expr} (hx : x ∈ n.occurrences m) :
    ∃ place inner j, (place, Node.statement inner) ∈ stmt.places location ∧ (j, x.2) ∈ inner.late ∧
      x.1 = place.child j ∧ place.parent = n.home m := by
  cases n with
  | statement inner =>
    obtain ⟨⟨j, e⟩, hj, rfl⟩ := List.mem_map.1 hx
    exact ⟨m, inner, j, h, hj, rfl, rfl⟩
  | command receiver receiverAt c =>
    have hcommand : ∃ home cs k, (home, Node.statement (.command cs)) ∈ stmt.places location ∧
        cs.commands[k]? = some c ∧ m = home.child (k + 1) ∧ receiver = cs.receiver ∧
        receiverAt = home.child 0 := by
      rcases List.mem_cons.1 h with heq | hinside
      · cases heq
      · rcases command_of_mem_placesInside stmt hinside with
          ⟨cs, k, rfl, hc⟩ | ⟨home, cs, k, hmem, hc⟩
        · exact ⟨location, cs, k, List.mem_cons_self, hc⟩
        · exact ⟨home, cs, k, List.mem_cons_of_mem _ hmem, hc⟩
    obtain ⟨home, cs, k, hmem, hk, rfl, rfl, rfl⟩ := hcommand
    rcases List.mem_append.1 hx with hx | hx
    · obtain ⟨e, he, rfl⟩ := List.mem_map.1 hx
      exact ⟨home, _, 0, hmem, mem_late_receiver (Option.mem_toList.1 he), rfl, rfl⟩
    · obtain ⟨e, he, rfl⟩ := List.mem_map.1 hx
      exact ⟨home, _, k + 1, hmem, mem_late_argument hk (Option.mem_toList.1 he), rfl, rfl⟩

end Cartridge
