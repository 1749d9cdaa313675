import Cartridge.Proofs.Code
import Cartridge.Proofs.LayoutFrame

/-!
# The visits of a pass

A pass over the tree visits every statement, and every command of a command statement, in the order
of the text. A visit is a start and a result. The statements of a block are visited in its scope,
each one from where the one before it has ended, up to the first one at which the pass is abandoned.

Main definitions:

- `Node.code?`: the code that a node stands for.
- `Walk`: a pass, by what it does at a statement and at a command.
- `Statement.visits`: the visits of a pass to a statement and to everything inside it.
- `Comes`: the way of a pass to a visit, also if the pass is abandoned there or later.
- `Linked`: the visits to the nodes that are not made of others follow each other.

Main results:

- Theorem `Walk.Lawful.holds_statement`: a frame of what happens at every place is one of the pass.
- Theorem `Statement.comes_of_mem_visits`: a pass comes to each of its visits.
- Theorem `Statement.places_visits`: a pass that finishes has visited every place.
- Theorem `Statement.linked_visits`: a pass that finishes is the chain of its visits.
- Theorem `Linked.invariant`: what every visit keeps is kept by the pass.
- Theorem `Linked.split_of_mem`: a visit parts the chain in two.
-/

namespace Cartridge

/-- The code that a node stands for, by what is recorded at its location. Without a record there is
none: no encoding was selected for the command, the branch was refused, or the file could not be
read. Nodes that are not there for their bytes have no code. -/
def Node.code? (ctx : Context) (location : Location) : Node → Option Code
  | .statement (.data d) => some (d.code location)
  | .statement (.branch b) => (ctx.branches.at? location).map fun size => b.code location size
  | .statement (.embed _ _) => (ctx.contents.at? location).map .fixed
  | .statement _ => none
  | .command receiver receiverAt c =>
    (ctx.selections.at? location).map fun selection =>
      selection.code (receiver, receiverAt) (c.argument.map fun arg => (arg, location))

/-- A node that has code is there for its bytes. -/
theorem Node.writes_of_code? {ctx : Context} {location : Location} {n : Node} {code : Code}
    (h : n.code? ctx location = some code) : n.writes = true := by
  cases n with
  | command receiver receiverAt c => rfl
  | statement stmt =>
    cases stmt with
    | data d => rfl
    | branch b => rfl
    | embed path pos => rfl
    | _ => cases h

/-- A node that is not there for its bytes has no code. -/
theorem Node.code?_of_idle {ctx : Context} {location : Location} {n : Node}
    (h : n.writes = false) : n.code? ctx location = none := by
  cases hcode : n.code? ctx location with
  | none => rfl
  | some code => cases h.symm.trans (writes_of_code? hcode)

/-- A node that is there for its bytes takes up the space of its code. -/
theorem Node.stays_of_writes {n : Node} (h : n.writes = true) : n.stays = true := by
  cases n with
  | command receiver receiverAt c => rfl
  | statement stmt => cases stmt <;> first | rfl | cases h

/-- A node that takes up the space of its code is not made of others. -/
theorem Node.isLeaf_of_stays {n : Node} (h : n.stays = true) : n.isLeaf = true := by
  cases n with
  | command receiver receiverAt c => rfl
  | statement stmt => cases stmt <;> first | rfl | cases h

/-- What the code of a node reads is one of the expressions of the node. -/
theorem Node.occurrence_of_reads {ctx : Context} {location m : Location} {n : Node} {code : Code}
    (h : n.code? ctx location = some code) (hm : m ∈ code.reads) :
    ∃ e, (m, e) ∈ n.occurrences location := by
  cases n with
  | command receiver receiverAt c =>
    obtain ⟨selection, -, rfl⟩ := Option.map_eq_some_iff.1 h
    obtain ⟨side, o, ho, e, he, rfl⟩ := Selection.expr_of_mem_code hm
    exact ⟨e, Command.forall_pick
      (E := fun m e => (m, e) ∈ (Node.command receiver receiverAt c).occurrences location)
      (fun _ he => Node.mem_occurrences_receiver he) (fun _ he => Node.mem_occurrences_argument he)
      side selection.swapped o ho e he⟩
  | statement stmt =>
    cases stmt with
    | data d =>
      cases h
      obtain ⟨k, e, hk, rfl⟩ := DataItem.expr_of_mem_codeAll hm
      rw [Nat.zero_add]
      exact ⟨e, Node.mem_occurrences_late (Statement.mem_late_item hk)⟩
    | branch b =>
      obtain ⟨size, -, rfl⟩ := Option.map_eq_some_iff.1 h
      obtain ⟨e, he, rfl⟩ := Branch.expr_of_mem_code hm
      exact ⟨e, Node.mem_occurrences_late (Statement.mem_late_destination he)⟩
    | embed path pos =>
      obtain ⟨bytes, -, rfl⟩ := Option.map_eq_some_iff.1 h
      exact absurd hm List.not_mem_nil
    | _ => cases h

/-- A visit to a node. -/
structure Visit where
  location : Location
  node : Node
  start : Logged Context
  result : EStateM.Result Abort (Logged Context) Unit

namespace Visit

/-- Where a visit goes. -/
def place (v : Visit) : Location × Node :=
  (v.location, v.node)

/-- The end of a visit, which may be where the pass was abandoned. -/
def stop (v : Visit) : Logged Context :=
  match v.result with
  | .ok _ t => t
  | .error _ t => t

/-- The context at the end of a visit. -/
def after (v : Visit) : Context :=
  v.stop.state

/-- The pass went on after the visit. -/
def Finishes (v : Visit) : Prop :=
  ∃ t, v.result = .ok () t

/-- The number of bytes that a visit has reserved in a bank. -/
def reserves (v : Visit) (i : Nat) : Nat :=
  (v.after.bank i).reserved - (v.start.state.bank i).reserved

/-- A visit after which the pass went on ends where its result says. -/
theorem stop_of_ok {v : Visit} {t : Logged Context} (h : v.result = .ok () t) : v.stop = t := by
  unfold stop
  rw [h]

theorem after_of_ok {v : Visit} {t : Logged Context} (h : v.result = .ok () t) :
    v.after = t.state := by
  rw [after, stop_of_ok h]

end Visit

/-- A pass, by what it does at a statement and at a command of a command statement. -/
structure Walk where
  statement : Location → Statement → Pass Unit
  /-- What it does at a command, given the receiver, its location and that of the command. -/
  command : Operand → Location → Location → Command → Pass Unit

namespace Walk

/-- The pass that reserves space. -/
def layout (files : Files) : Walk where
  statement location stmt := stmt.layOut files location
  command receiver receiverAt argumentAt c := c.layOut receiver receiverAt argumentAt

/-- The pass that writes bytes. -/
def emission : Walk where
  statement location stmt := stmt.emit location
  command receiver receiverAt argumentAt c := c.emit receiver receiverAt argumentAt

/-- The visit to a statement. -/
def toStatement (w : Walk) (location : Location) (stmt : Statement) (s : Logged Context) :
    Visit where
  location
  node := .statement stmt
  start := s
  result := w.statement location stmt s

/-- The visit to the command with the given index of a command statement. The receiver is the first
child of the statement, and the commands follow it. -/
def toCommand (w : Walk) (location : Location) (receiver : Operand) (index : Nat) (c : Command)
    (s : Logged Context) : Visit where
  location := location.child (index + 1)
  node := .command receiver (location.child 0) c
  start := s
  result := w.command receiver (location.child 0) (location.child (index + 1)) c s

/-- What the pass does at a node. -/
def act (w : Walk) (location : Location) : Node → Pass Unit
  | .statement stmt => w.statement location stmt
  | .command receiver receiverAt c => w.command receiver receiverAt location c

/-- The pass over the statements of a block from the one with the given index on. -/
def statements (w : Walk) (location : Location) : Nat → List Statement → Pass Unit
  | _, [] => pure ()
  | index, stmt :: rest => do
    w.statement (location.child index) stmt
    w.statements location (index + 1) rest

/-- The pass over commands that share a receiver, from the one with the given index on. -/
def commands (w : Walk) (location : Location) (receiver : Operand) : Nat → List Command → Pass Unit
  | _, [] => pure ()
  | index, c :: rest => do
    w.command receiver (location.child 0) (location.child (index + 1)) c
    w.commands location receiver (index + 1) rest

/-- Statements are passed in two parts. -/
theorem statements_append (w : Walk) (location : Location) (before rest : List Statement)
    (index : Nat) :
    w.statements location index (before ++ rest) = (do
      w.statements location index before
      w.statements location (index + before.length) rest) := by
  induction before generalizing index with
  | nil => rfl
  | cons stmt before ih =>
    rw [List.cons_append, statements, ih, statements, bind_assoc, List.length_cons,
      Nat.add_right_comm, Nat.add_assoc]

/-- So are commands. -/
theorem commands_append (w : Walk) (location : Location) (receiver : Operand)
    (before rest : List Command) (index : Nat) :
    w.commands location receiver index (before ++ rest) = (do
      w.commands location receiver index before
      w.commands location receiver (index + before.length) rest) := by
  induction before generalizing index with
  | nil => rfl
  | cons c before ih =>
    rw [List.cons_append, commands, ih, commands, bind_assoc, List.length_cons,
      Nat.add_right_comm, Nat.add_assoc]

/-- The pass goes through blocks, in their scopes, and through lists of commands. -/
structure Lawful (w : Walk) : Prop where
  block : ∀ location kind statements pos, w.statement location (.block kind statements pos) = do
    let scope ← Pass.scopeOf location pos
    Pass.within scope (w.statements location 0 statements)
  command : ∀ location c,
    w.statement location (.command c) = w.commands location c.receiver 0 c.commands

/-- A pass is lawful if it goes through statements and commands by recursion. -/
theorem lawful_of_recursion {w : Walk} (onStatements : Location → Nat → List Statement → Pass Unit)
    (onCommands : Location → Operand → Nat → List Command → Pass Unit)
    (hblock : ∀ location kind statements pos,
      w.statement location (.block kind statements pos) = do
        let scope ← Pass.scopeOf location pos
        Pass.within scope (onStatements location 0 statements))
    (hcommand : ∀ location c,
      w.statement location (.command c) = onCommands location c.receiver 0 c.commands)
    (hstatements : ∀ location index, onStatements location index [] = pure () ∧
      ∀ stmt rest, onStatements location index (stmt :: rest) = do
        w.statement (location.child index) stmt
        onStatements location (index + 1) rest)
    (hcommands : ∀ location receiver index, onCommands location receiver index [] = pure () ∧
      ∀ c rest, onCommands location receiver index (c :: rest) = do
        w.command receiver (location.child 0) (location.child (index + 1)) c
        onCommands location receiver (index + 1) rest) : w.Lawful := by
  have heq : ∀ location statements index,
      onStatements location index statements = w.statements location index statements := by
    intro location statements
    induction statements with
    | nil => exact fun index => (hstatements location index).1
    | cons stmt rest ih =>
      intro index
      rw [(hstatements location index).2, statements, ih]
  have heq' : ∀ location receiver commands index,
      onCommands location receiver index commands =
        w.commands location receiver index commands := by
    intro location receiver commands
    induction commands with
    | nil => exact fun index => (hcommands location receiver index).1
    | cons c rest ih =>
      intro index
      rw [(hcommands location receiver index).2, Walk.commands, ih]
  constructor
  · intro location kind statements pos
    rw [hblock, heq]
  · intro location c
    rw [hcommand, heq']

/-- The layout goes through blocks in their scopes and through lists of commands. -/
theorem lawful_layout (files : Files) : (layout files).Lawful :=
  lawful_of_recursion (Statement.layOutAll files) Command.layOutAll
    (fun _ _ _ _ => by simp only [layout, Statement.layOut])
    (fun _ _ => by simp only [layout, Statement.layOut])
    (fun _ _ => ⟨by rw [Statement.layOutAll], fun _ _ => by rw [Statement.layOutAll, layout]⟩)
    fun _ _ _ => ⟨rfl, fun _ _ => rfl⟩

/-- The emission goes through blocks in their scopes and through lists of commands. -/
theorem lawful_emission : emission.Lawful :=
  lawful_of_recursion Statement.emitAll Command.emitAll
    (fun _ _ _ _ => by simp only [emission, Statement.emit])
    (fun _ _ => by simp only [emission, Statement.emit])
    (fun _ _ => ⟨by rw [Statement.emitAll], fun _ _ => by rw [Statement.emitAll, emission]⟩)
    fun _ _ _ => ⟨rfl, fun _ _ => rfl⟩

/-- What holds for every command of a list holds for the pass over it. -/
theorem holds_commands {F : Run.Frame Context} {w : Walk} {location : Location}
    {receiver : Operand} {commands : List Command} {index : Nat}
    (h : ∀ m n, (m, n) ∈ Statement.placesOfCommands location receiver index commands →
      F.Holds (w.act m n)) : F.Holds (w.commands location receiver index commands) := by
  induction commands generalizing index with
  | nil => exact F.holds_pure _
  | cons c rest ih =>
    refine Run.Frame.holds_bind ?_ fun _ => ih fun m n hmem => h m n (List.mem_cons_of_mem _ hmem)
    exact h _ _ List.mem_cons_self

mutual

/-- A frame that does not see scopes holds of a pass over a statement if it holds at each place
inside: where the scope of a block is looked for, and at the nodes that are not made of others. -/
theorem Lawful.holds_statement {F : Run.Frame Context} {w : Walk} (hw : w.Lawful)
    (hF : F.Scoped) :
    ∀ (stmt : Statement) (location : Location),
      (∀ m kind statements pos,
        (m, Node.statement (.block kind statements pos)) ∈ stmt.places location →
        F.Holds (Pass.scopeOf m pos)) →
      (∀ m n, (m, n) ∈ stmt.places location → n.isLeaf = true → F.Holds (w.act m n)) →
      F.Holds (w.statement location stmt)
  | .block kind statements pos, location, hblock, hleaf => by
    rw [hw.block]
    refine Run.Frame.holds_bind (hblock _ _ _ _ List.mem_cons_self) fun scope => ?_
    refine hF.holds_within (hw.holds_statements hF statements location 0 ?_ ?_)
    · exact fun m kind statements pos hmem => hblock _ _ _ _ (List.mem_cons_of_mem _ hmem)
    · exact fun m n hmem => hleaf m n (List.mem_cons_of_mem _ hmem)
  | .command c, location, _, hleaf => by
    rw [hw.command]
    refine holds_commands fun m n hmem => hleaf m n (List.mem_cons_of_mem _ hmem) ?_
    obtain ⟨k, d, -, -, rfl⟩ := Statement.mem_placesOfCommands hmem
    rfl
  | .header _, _, _, hleaf => hleaf _ _ List.mem_cons_self rfl
  | .relocation _ _, _, _, hleaf => hleaf _ _ List.mem_cons_self rfl
  | .label _, _, _, hleaf => hleaf _ _ List.mem_cons_self rfl
  | .constant _ _, _, _, hleaf => hleaf _ _ List.mem_cons_self rfl
  | .storage _, _, _, hleaf => hleaf _ _ List.mem_cons_self rfl
  | .data _, _, _, hleaf => hleaf _ _ List.mem_cons_self rfl
  | .branch _, _, _, hleaf => hleaf _ _ List.mem_cons_self rfl
  | .embed _ _, _, _, hleaf => hleaf _ _ List.mem_cons_self rfl

/-- So it does of a pass over the statements of a block. -/
theorem Lawful.holds_statements {F : Run.Frame Context} {w : Walk} (hw : w.Lawful)
    (hF : F.Scoped) :
    ∀ (statements : List Statement) (location : Location) (index : Nat),
      (∀ m kind inner pos, (m, Node.statement (.block kind inner pos)) ∈
        Statement.placesAll location index statements → F.Holds (Pass.scopeOf m pos)) →
      (∀ m n, (m, n) ∈ Statement.placesAll location index statements → n.isLeaf = true →
        F.Holds (w.act m n)) →
      F.Holds (w.statements location index statements)
  | [], _, _, _, _ => F.holds_pure _
  | stmt :: rest, location, index, hblock, hleaf => by
    refine Run.Frame.holds_bind (hw.holds_statement hF stmt (location.child index) ?_ ?_) fun _ =>
      hw.holds_statements hF rest location (index + 1) ?_ ?_
    · exact fun m kind inner pos hmem => hblock m kind inner pos (List.mem_append_left _ hmem)
    · exact fun m n hmem => hleaf m n (List.mem_append_left _ hmem)
    · exact fun m kind inner pos hmem => hblock m kind inner pos (List.mem_append_right _ hmem)
    · exact fun m n hmem => hleaf m n (List.mem_append_right _ hmem)

end

/-- The visits after a result: there are none if the pass was abandoned. -/
def next (result : EStateM.Result Abort (Logged Context) Unit)
    (visits : Logged Context → List Visit) : List Visit :=
  match result with
  | .ok _ t => visits t
  | .error _ _ => []

/-- The visits after a result come after a run that has finished. -/
theorem mem_next {r : EStateM.Result Abort (Logged Context) Unit}
    {visits : Logged Context → List Visit} {v : Visit} :
    v ∈ next r visits ↔ ∃ t, r = .ok () t ∧ v ∈ visits t := by
  cases r with
  | ok _ t =>
    constructor
    · exact fun h => ⟨t, rfl, h⟩
    · rintro ⟨_, ⟨⟩, h⟩
      exact h
  | error x t =>
    constructor
    · exact fun h => absurd h List.not_mem_nil
    · rintro ⟨_, ⟨⟩, _⟩

end Walk

/-- The visits to commands that share a receiver, from the one with the given index on. -/
def Command.visits (w : Walk) (location : Location) (receiver : Operand) :
    Nat → List Command → Logged Context → List Visit
  | _, [], _ => []
  | index, c :: rest, s =>
    w.toCommand location receiver index c s ::
      Walk.next (w.toCommand location receiver index c s).result
        (Command.visits w location receiver (index + 1) rest)

namespace Statement

mutual

/-- The visits to everything inside a statement. -/
def visitsInside (w : Walk) (location : Location) : Statement → Logged Context → List Visit
  | .block _ statements _, s =>
    match s.state.scopes.at? location with
    | none => []
    | some scope => visitsAll w location 0 statements { s with state := s.state.enter scope }
  | .command c, s => Command.visits w location c.receiver 0 c.commands s
  | .header _, _ | .relocation _ _, _ | .label _, _ | .constant _ _, _ | .storage _, _ | .data _, _
  | .branch _, _ | .embed _ _, _ => []

/-- The visits to the statements of a block from the one with the given index on, and to everything
inside them. -/
def visitsAll (w : Walk) (location : Location) : Nat → List Statement → Logged Context → List Visit
  | _, [], _ => []
  | index, stmt :: rest, s =>
    w.toStatement (location.child index) stmt s :: stmt.visitsInside w (location.child index) s ++
      Walk.next (w.toStatement (location.child index) stmt s).result
        (visitsAll w location (index + 1) rest)

end

/-- The visits to a statement and to everything inside it. -/
def visits (w : Walk) (location : Location) (stmt : Statement) (s : Logged Context) : List Visit :=
  w.toStatement location stmt s :: stmt.visitsInside w location s

/-- The statements after the first one are visited only if the pass went on after it. -/
theorem visitsAll_cons (w : Walk) (location : Location) (index : Nat) (stmt : Statement)
    (rest : List Statement) (s : Logged Context) :
    visitsAll w location index (stmt :: rest) s =
      stmt.visits w (location.child index) s ++
        Walk.next (w.toStatement (location.child index) stmt s).result
          (visitsAll w location (index + 1) rest) := by
  rw [visitsAll, visits, List.cons_append]

end Statement

/-! ## The way to a visit -/

/-- A pass comes to a visit on its way through a statement: to the statement itself, to a command of
it after the commands before, or to something inside a statement of a block after the statements
before. -/
inductive Comes (w : Walk) (v : Visit) : Location → Statement → Logged Context → Prop
  | here {location : Location} {stmt : Statement} {s : Logged Context}
      (visit : v = w.toStatement location stmt s) : Comes w v location stmt s
  | command {location : Location} {receiver : Operand} {before rest : List Command} {c : Command}
      {s t : Logged Context} (reached : w.commands location receiver 0 before s = .ok () t)
      (visit : v = w.toCommand location receiver before.length c t) :
      Comes w v location (.command { receiver, commands := before ++ c :: rest }) s
  | block {location : Location} {kind : BlockKind} {before rest : List Statement}
      {stmt : Statement} {pos : Position} {scope : ScopeId} {s t : Logged Context}
      (entered : s.state.scopes.at? location = some scope)
      (reached : w.statements location 0 before { s with state := s.state.enter scope } = .ok () t)
      (inside : Comes w v (location.child before.length) stmt t) :
      Comes w v location (.block kind (before ++ stmt :: rest) pos) s

namespace Statement

variable {w : Walk} {v : Visit}

/-- A visit to a command comes after the commands before it. -/
theorem reached_of_mem_commands {location : Location} {receiver : Operand}
    {commands : List Command} {index : Nat} {s : Logged Context}
    (hv : v ∈ Command.visits w location receiver index commands s) :
    ∃ before c rest t, commands = before ++ c :: rest ∧
      w.commands location receiver index before s = .ok () t ∧
      v = w.toCommand location receiver (index + before.length) c t := by
  induction commands generalizing index s with
  | nil => exact absurd hv List.not_mem_nil
  | cons first rest ih =>
    rcases List.mem_cons.1 hv with rfl | hv
    · exact ⟨[], first, rest, s, rfl, rfl, rfl⟩
    · obtain ⟨u, hu, hv⟩ := Walk.mem_next.1 hv
      obtain ⟨before, c, after, t, rfl, hreached, rfl⟩ := ih hv
      refine ⟨first :: before, c, after, t, rfl, ?_, ?_⟩
      · exact (Run.bind_apply_of_ok hu).trans hreached
      · rw [List.length_cons, Nat.add_right_comm, Nat.add_assoc]

mutual

/-- A pass comes to every visit inside a statement. -/
theorem comes_of_mem_visitsInside :
    ∀ (stmt : Statement) {location : Location} {s : Logged Context},
      v ∈ stmt.visitsInside w location s → Comes w v location stmt s
  | .block _ statements _, location, s, hv => by
    simp only [visitsInside] at hv
    cases hscope : s.state.scopes.at? location with
    | none =>
      rw [hscope] at hv
      exact absurd hv List.not_mem_nil
    | some scope =>
      rw [hscope] at hv
      obtain ⟨before, stmt, rest, t, rfl, hreached, hinside⟩ := comes_of_mem_visitsAll statements hv
      rw [Nat.zero_add] at hinside
      exact .block hscope hreached hinside
  | .command { receiver, commands, .. }, location, s, hv => by
    obtain ⟨before, c, rest, t, rfl, hreached, hvisit⟩ := reached_of_mem_commands hv
    rw [Nat.zero_add] at hvisit
    exact .command hreached hvisit
  | .header _, _, _, hv => absurd hv List.not_mem_nil
  | .relocation _ _, _, _, hv => absurd hv List.not_mem_nil
  | .label _, _, _, hv => absurd hv List.not_mem_nil
  | .constant _ _, _, _, hv => absurd hv List.not_mem_nil
  | .storage _, _, _, hv => absurd hv List.not_mem_nil
  | .data _, _, _, hv => absurd hv List.not_mem_nil
  | .branch _, _, _, hv => absurd hv List.not_mem_nil
  | .embed _ _, _, _, hv => absurd hv List.not_mem_nil

/-- A pass comes to every visit in a list, after it went on over the statements before. -/
theorem comes_of_mem_visitsAll :
    ∀ (statements : List Statement) {location : Location} {index : Nat} {s : Logged Context},
      v ∈ visitsAll w location index statements s → ∃ before stmt rest t,
        statements = before ++ stmt :: rest ∧
        w.statements location index before s = .ok () t ∧
        Comes w v (location.child (index + before.length)) stmt t
  | [], _, _, _, hv => absurd hv List.not_mem_nil
  | first :: rest, location, index, s, hv => by
    rw [visitsAll_cons] at hv
    rcases List.mem_append.1 hv with hv | hv
    · refine ⟨[], first, rest, s, rfl, rfl, ?_⟩
      rcases List.mem_cons.1 hv with hvisit | hv
      · exact .here hvisit
      · exact comes_of_mem_visitsInside first hv
    · obtain ⟨u, hu, hv⟩ := Walk.mem_next.1 hv
      obtain ⟨before, stmt, after, t, hsplit, hreached, hinside⟩ := comes_of_mem_visitsAll rest hv
      refine ⟨first :: before, stmt, after, t, congrArg (first :: ·) hsplit, ?_, ?_⟩
      · exact (Run.bind_apply_of_ok hu).trans hreached
      · rw [List.length_cons, ← Nat.add_assoc, Nat.add_right_comm]
        exact hinside

end

/-- A pass comes to each of its visits. -/
theorem comes_of_mem_visits (stmt : Statement) {location : Location} {s : Logged Context}
    (hv : v ∈ stmt.visits w location s) : Comes w v location stmt s := by
  rcases List.mem_cons.1 hv with hvisit | hv
  · exact .here hvisit
  · exact comes_of_mem_visitsInside stmt hv

/-! ## A pass that finishes visits every place -/

/-- A pass that finishes has visited all commands, in their order. -/
theorem places_commands {w : Walk} {location : Location} {receiver : Operand}
    {commands : List Command} {index : Nat} {s t : Logged Context}
    (h : w.commands location receiver index commands s = .ok () t) :
    (Command.visits w location receiver index commands s).map Visit.place =
      placesOfCommands location receiver index commands := by
  induction commands generalizing index s with
  | nil => rfl
  | cons c rest ih =>
    obtain ⟨_, u, hc, hrest⟩ := Run.bind_eq_ok.1 h
    have hv : (w.toCommand location receiver index c s).result = .ok () u := hc
    simp only [Command.visits, hv, Walk.next, List.map_cons, ih hrest, placesOfCommands]
    rfl

mutual

/-- A pass that finishes has visited everything inside a statement, in the order of the places. -/
theorem places_visitsInside {w : Walk} (hw : w.Lawful) :
    ∀ (stmt : Statement) {location : Location} {s t : Logged Context},
      w.statement location stmt s = .ok () t →
      (stmt.visitsInside w location s).map Visit.place = stmt.placesInside location
  | .block _ statements pos, location, s, t, h => by
    rw [hw.block] at h
    obtain ⟨scope, u, hscope, hwithin⟩ := Run.bind_eq_ok.1 h
    obtain ⟨hat, rfl⟩ := Pass.scopeOf_eq_ok.1 hscope
    obtain ⟨v, hv, -⟩ := Pass.within_eq_ok.1 hwithin
    simp only [visitsInside, hat, placesInside]
    exact places_visitsAll hw statements hv
  | .command c, location, s, t, h => by
    rw [hw.command] at h
    simp only [visitsInside, placesInside]
    exact places_commands h
  | .header _, _, _, _, _ => rfl
  | .relocation _ _, _, _, _, _ => rfl
  | .label _, _, _, _, _ => rfl
  | .constant _ _, _, _, _, _ => rfl
  | .storage _, _, _, _, _ => rfl
  | .data _, _, _, _, _ => rfl
  | .branch _, _, _, _, _ => rfl
  | .embed _ _, _, _, _, _ => rfl

/-- A pass that finishes has visited all statements with everything inside, in the order of the
places. -/
theorem places_visitsAll {w : Walk} (hw : w.Lawful) :
    ∀ (statements : List Statement) {location : Location} {index : Nat} {s t : Logged Context},
      w.statements location index statements s = .ok () t →
      (visitsAll w location index statements s).map Visit.place =
        placesAll location index statements
  | [], _, _, _, _, _ => rfl
  | stmt :: rest, location, index, s, t, h => by
    obtain ⟨_, u, hstmt, hrest⟩ := Run.bind_eq_ok.1 h
    have hv : (w.toStatement (location.child index) stmt s).result = .ok () u := hstmt
    simp only [visitsAll, hv, Walk.next, List.cons_append, List.map_cons, List.map_append,
      places_visitsInside hw stmt hstmt, places_visitsAll hw rest hrest, placesAll]
    rfl

end

/-- A pass that finishes has visited every place. -/
theorem places_visits {w : Walk} (hw : w.Lawful) (stmt : Statement) (location : Location)
    {s t : Logged Context} (h : w.statement location stmt s = .ok () t) :
    (stmt.visits w location s).map Visit.place = stmt.places location := by
  rw [visits, List.map_cons, places_visitsInside hw stmt h, places]
  rfl

end Statement

/-! ## A pass that finishes is a chain of visits -/

/-- Only the scopes that are entered may differ. -/
def Rests (s t : Logged Context) : Prop :=
  ∃ stack, t = { s with state := { s.state with symbols := { s.state.symbols with stack } } }

theorem Rests.refl (s : Logged Context) : Rests s s :=
  ⟨s.state.symbols.stack, rfl⟩

theorem Rests.trans {s t u : Logged Context} (hst : Rests s t) (htu : Rests t u) : Rests s u := by
  obtain ⟨a, rfl⟩ := hst
  obtain ⟨b, rfl⟩ := htu
  exact ⟨b, rfl⟩

/-- Entering and leaving scopes does not touch the rom. -/
theorem Rests.rom {s t : Logged Context} (h : Rests s t) : t.state.rom = s.state.rom := by
  obtain ⟨stack, rfl⟩ := h
  rfl

/-- The visits to the nodes that are not made of others follow each other, each one from where the
one before it has ended. -/
inductive Linked (w : Walk) : Logged Context → List Visit → Logged Context → Prop
  | nil {s t : Logged Context} (rests : Rests s t) : Linked w s [] t
  | inner {s t : Logged Context} {v : Visit} {vs : List Visit} (inner : v.node.isLeaf = false)
      (rest : Linked w s vs t) : Linked w s (v :: vs) t
  | leaf {s t u : Logged Context} {v : Visit} {vs : List Visit} (leaf : v.node.isLeaf = true)
      (rests : Rests s v.start) (act : v.result = w.act v.location v.node v.start)
      (result : v.result = .ok () u) (rest : Linked w u vs t) : Linked w s (v :: vs) t

namespace Linked

variable {w : Walk} {s t u : Logged Context} {vs ws : List Visit}

/-- Entering a scope may come before the first visit. -/
theorem of_rests (hst : Rests s t) (h : Linked w t vs u) : Linked w s vs u := by
  induction h with
  | nil rests => exact .nil (hst.trans rests)
  | inner inner _ ih => exact .inner inner (ih hst)
  | leaf leaf rests act result rest _ => exact .leaf leaf (hst.trans rests) act result rest

/-- Chains of visits follow each other. -/
theorem append (h : Linked w s vs t) (h' : Linked w t ws u) : Linked w s (vs ++ ws) u := by
  induction h with
  | nil rests => exact h'.of_rests rests
  | inner inner _ ih => exact .inner inner (ih h')
  | leaf leaf rests act result _ ih => exact .leaf leaf rests act result (ih h')

/-- The visits to nodes that are made of others can be left out. -/
theorem leaves (h : Linked w s vs t) : Linked w s (vs.filter fun v => v.node.isLeaf) t := by
  induction h with
  | nil rests => exact .nil rests
  | inner inner _ ih =>
    rw [List.filter_cons_of_neg (by simp [inner])]
    exact ih
  | @leaf s t u v vs leaf rests act result _ ih =>
    rw [List.filter_cons_of_pos (p := fun v : Visit => v.node.isLeaf) leaf]
    exact .leaf leaf rests act result ih

/-- Between two visits the pass stands somewhere. -/
theorem of_append (h : Linked w s (vs ++ ws) u) : ∃ t, Linked w s vs t ∧ Linked w t ws u := by
  induction vs generalizing s with
  | nil => exact ⟨s, .nil (.refl s), h⟩
  | cons v vs ih =>
    cases h with
    | inner inner rest =>
      obtain ⟨t, hvs, hws⟩ := ih rest
      exact ⟨t, .inner inner hvs, hws⟩
    | leaf leaf rests act result rest =>
      obtain ⟨t, hvs, hws⟩ := ih rest
      exact ⟨t, .leaf leaf rests act result hvs, hws⟩

/-- What every visit keeps is kept by the pass. -/
theorem invariant {Q : Logged Context → Prop} (hrests : ∀ {s t}, Rests s t → Q s → Q t)
    (h : Linked w s vs t)
    (hstep : ∀ v ∈ vs, v.node.isLeaf = true → v.result = w.act v.location v.node v.start →
      ∀ u, v.result = .ok () u → Q v.start → Q u)
    (hs : Q s) : Q t := by
  induction h with
  | nil rests => exact hrests rests hs
  | inner _ _ ih => exact ih (fun v hv => hstep v (List.mem_cons_of_mem _ hv)) hs
  | leaf leaf rests act result _ ih =>
    refine ih (fun v hv => hstep v (List.mem_cons_of_mem _ hv)) ?_
    exact hstep _ List.mem_cons_self leaf act _ result (hrests rests hs)

/-- A visit to a node that is not made of others parts the chain in two. -/
theorem split_of_mem (h : Linked w s vs t) {v : Visit} (hv : v ∈ vs)
    (hleaf : v.node.isLeaf = true) :
    ∃ before after p u, vs = before ++ v :: after ∧ Linked w s before p ∧ Rests p v.start ∧
      v.result = w.act v.location v.node v.start ∧ v.result = .ok () u ∧ Linked w u after t := by
  obtain ⟨before, after, rfl⟩ := List.append_of_mem hv
  obtain ⟨p, hbefore, hrest⟩ := h.of_append
  cases hrest with
  | inner inner _ =>
    rw [inner] at hleaf
    cases hleaf
  | leaf _ rests act result rest =>
    exact ⟨before, after, p, _, rfl, hbefore, rests, act, result, rest⟩

/-- What a visit comes to. -/
theorem of_mem (h : Linked w s vs t) {v : Visit} (hv : v ∈ vs) (hleaf : v.node.isLeaf = true) :
    v.result = w.act v.location v.node v.start ∧ ∃ u, v.result = .ok () u := by
  obtain ⟨_, _, _, u, -, -, -, act, result, -⟩ := h.split_of_mem hv hleaf
  exact ⟨act, u, result⟩

/-- What every visit keeps holds at the start of each. -/
theorem start_of_mem {Q : Logged Context → Prop} (hrests : ∀ {s t}, Rests s t → Q s → Q t)
    (hstep : ∀ m n s u, n.isLeaf = true → w.act m n s = .ok () u → Q s → Q u)
    (h : Linked w s vs t) (hs : Q s) {v : Visit} (hv : v ∈ vs) (hleaf : v.node.isLeaf = true) :
    Q v.start := by
  obtain ⟨_, _, p, _, -, hbefore, rests, -, -, -⟩ := h.split_of_mem hv hleaf
  refine hrests rests (hbefore.invariant hrests ?_ hs)
  exact fun v _ leaf act u result => hstep _ _ _ u leaf (act.symm.trans result)

/-- If no visit lowers the number of errors then it is highest at the end. -/
theorem count_le (hcount : ∀ m n s u, w.act m n s = .ok () u → s.log.count ≤ u.log.count)
    (h : Linked w s vs t) {v : Visit} (hv : v ∈ vs) (hleaf : v.node.isLeaf = true) :
    v.stop.log.count ≤ t.log.count := by
  obtain ⟨_, _, _, u, -, -, -, -, result, rest⟩ := h.split_of_mem hv hleaf
  rw [Visit.stop_of_ok result]
  refine rest.invariant (Q := fun x => u.log.count ≤ x.log.count) ?_ ?_ (Nat.le_refl _)
  · rintro x _ ⟨stack, rfl⟩ hx
    exact hx
  · intro x _ _ act y result hx
    exact Nat.le_trans hx (hcount _ _ _ _ (act.symm.trans result))

end Linked

namespace Statement

/-- The visits to commands follow each other when the pass finishes. -/
theorem linked_commands {w : Walk} {location : Location} {receiver : Operand}
    {commands : List Command} {index : Nat} {s t : Logged Context}
    (h : w.commands location receiver index commands s = .ok () t) :
    Linked w s (Command.visits w location receiver index commands s) t := by
  induction commands generalizing index s with
  | nil =>
    cases h
    exact .nil (.refl _)
  | cons c rest ih =>
    obtain ⟨_, u, hc, hrest⟩ := Run.bind_eq_ok.1 h
    have hv : (w.toCommand location receiver index c s).result = .ok () u := hc
    rw [Command.visits, hv]
    exact .leaf rfl (.refl s) rfl hv (ih hrest)

mutual

/-- A pass that finishes is the chain of its visits. -/
theorem linked_visits {w : Walk} (hw : w.Lawful) :
    ∀ (stmt : Statement) {location : Location} {s t : Logged Context},
      w.statement location stmt s = .ok () t → Linked w s (stmt.visits w location s) t
  | .block _ statements pos, location, s, t, h => by
    rw [hw.block] at h
    obtain ⟨scope, u, hscope, hwithin⟩ := Run.bind_eq_ok.1 h
    obtain ⟨hat, rfl⟩ := Pass.scopeOf_eq_ok.1 hscope
    obtain ⟨v, hv, rfl⟩ := Pass.within_eq_ok.1 hwithin
    have hinside := linked_visitsAll hw statements hv
    have hexit : Linked w v [] { v with state := v.state.exit } := .nil ⟨_, rfl⟩
    have hchain := (hinside.append hexit).of_rests (s := u) ⟨_, rfl⟩
    rw [List.append_nil] at hchain
    rw [visits]
    simp only [visitsInside, hat]
    exact .inner rfl hchain
  | .command c, location, s, t, h => by
    rw [hw.command] at h
    exact .inner rfl (linked_commands h)
  | .header _, _, s, _, h => .leaf rfl (.refl s) rfl h (.nil (.refl _))
  | .relocation _ _, _, s, _, h => .leaf rfl (.refl s) rfl h (.nil (.refl _))
  | .label _, _, s, _, h => .leaf rfl (.refl s) rfl h (.nil (.refl _))
  | .constant _ _, _, s, _, h => .leaf rfl (.refl s) rfl h (.nil (.refl _))
  | .storage _, _, s, _, h => .leaf rfl (.refl s) rfl h (.nil (.refl _))
  | .data _, _, s, _, h => .leaf rfl (.refl s) rfl h (.nil (.refl _))
  | .branch _, _, s, _, h => .leaf rfl (.refl s) rfl h (.nil (.refl _))
  | .embed _ _, _, s, _, h => .leaf rfl (.refl s) rfl h (.nil (.refl _))

/-- The visits to a list of statements follow each other when the pass finishes. -/
theorem linked_visitsAll {w : Walk} (hw : w.Lawful) :
    ∀ (statements : List Statement) {location : Location} {index : Nat} {s t : Logged Context},
      w.statements location index statements s = .ok () t →
      Linked w s (visitsAll w location index statements s) t
  | [], _, _, s, t, h => by
    cases h
    exact .nil (.refl _)
  | stmt :: rest, location, index, s, t, h => by
    obtain ⟨_, u, hstmt, hrest⟩ := Run.bind_eq_ok.1 h
    have hv : (w.toStatement (location.child index) stmt s).result = .ok () u := hstmt
    rw [visitsAll_cons, hv]
    exact (linked_visits hw stmt hstmt).append (linked_visitsAll hw rest hrest)

end

end Statement

end Cartridge
