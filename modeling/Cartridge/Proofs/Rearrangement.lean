import Cartridge.Proofs.Exchange
import Cartridge.Proofs.Limits
import Mathlib.Logic.Relation

/-!
# The positions of constants

It does not matter where in its block a constant is declared. Moving one over its neighbour changes
the locations of the statements, and the order in which constants get their numbers. Neither of them
is seen by a program that is compiled without errors.

Main definitions:

- `Log.strict`: the logs of two runs that are abandoned at the first error.
- `Statement.Exchanges`: a constant and its neighbour change places.
- `Statement.Moves`: a constant is moved inside its block.
- `Program.Rearranged`: constants are moved inside their blocks.

Main results:

- Theorem `Expr.couples_declare_exchange`: constants may be declared in any order.
- Theorem `Statement.Exchanges.coupled`: programs are compiled in lockstep when a constant and its
  neighbour change places.
- Theorem `Program.compile_of_rearranged`: programs have the same image when constants are moved
  inside their blocks.
-/

namespace Cartridge

open Run

/-! ## Runs without errors -/

/-- The logs of two runs that are abandoned at the first error. Nothing is said of the second run
when the first one was abandoned. -/
def Log.strict : Log.Coupling where
  rel a b := (a.count = 0 ∧ a.limit ≤ 1) ∧ b.count = 0 ∧ b.limit ≤ 1
  abort _ _ := True
  early _ _ := True
  soft := by
    rintro a b e pos _ _ - ⟨⟨hcount, hlimit⟩, -⟩ hroom
    omega
  full _ _ _ _ := trivial
  leave _ _ _ _ := trivial
  fatal _ _ := trivial
  early_soft _ _ _ := trivial
  early_full _ _ _ := trivial
  early_fatal _ _ _ := trivial

/-- Nothing is to be shown once the first run was abandoned. -/
theorem Log.meet_strict_of_error {α σ σ' : Type} {S : σ → σ' → Prop} {x : Abort} {s : Logged σ}
    (r : EStateM.Result Abort (Logged σ') α) : Meet Log.strict S (.error x s) r := by
  cases r <;> trivial

/-! ## Declarations -/

namespace Context

/-- The context after a constant was declared in the current scope. -/
def withConstant (ctx : Context) (name : Name) (value : Expr) : Context :=
  { ctx with
    symbols := ctx.symbols.define
      { name := name.text
        pos := some name.pos
        meaning := .constant value ctx.symbols.current
        owner := ctx.symbols.current } }

/-- The current scope does not bind a name yet. -/
def Free (ctx : Context) (name : Name) : Prop :=
  ctx.symbols.binding? ctx.symbols.current name.text = none

variable {c c' : Context} {X : Atlas} {ρ : DefId → DefId} {name name' : Name}

/-- A name is free after a declaration if it was free before, and is not the one that was
declared. -/
theorem free_withConstant {value : Expr} :
    (c.withConstant name value).Free name' ↔ c.Free name' ∧
      (c.symbols.current.index < c.symbols.scopes.size → name.text ≠ name'.text) := by
  have hcurrent : (c.withConstant name value).symbols.current = c.symbols.current := rfl
  unfold Free
  rw [hcurrent]
  unfold withConstant
  rw [SymbolTable.binding?_define]
  split
  · rename_i h
    exact ⟨nofun, fun hfree => absurd h.2.symm (hfree.2 h.1.2)⟩
  · rename_i h
    exact ⟨fun hfree => ⟨hfree, fun hlt heq => h ⟨⟨rfl, hlt⟩, heq.symm⟩⟩, fun hfree => hfree.1⟩

/-- A name is free in both contexts or in neither. -/
theorem Twin.free (h : c.Twin X ρ c') (hfree : c.Free name) : c'.Free name := by
  unfold Free at hfree ⊢
  rw [h.symbols.current, h.symbols.binding, hfree]
  rfl

/-- Contexts stay twins when two constants are declared in different orders. -/
theorem Twin.withConstant_exchange (h : c.Twin X ρ c') {value value' : Expr}
    (hne : c.symbols.current.index < c.symbols.scopes.size → name.text ≠ name'.text) :
    ((c.withConstant name value).withConstant name' value').Alike X
      ((c'.withConstant name' value').withConstant name value) := by
  have hcurrent (t : SymbolTable) (d : Definition) : (t.define d).current = t.current := rfl
  unfold Context.withConstant
  simp only [hcurrent, h.symbols.current]
  exact h.define_exchange rfl hne

end Context

namespace Expr

variable {name : Name} {value : Expr} {s : Logged Context}

/-- A constant whose name is free is declared. -/
theorem declare_of_free (h : s.state.Free name) :
    value.declare name s = .ok () { s with state := s.state.withConstant name value } := by
  have hreport : SymbolTable.reportRedefinition name.text (some name.pos)
      { state := s.state.symbols, log := s.log } =
      .ok () { state := s.state.symbols, log := s.log } := by
    unfold SymbolTable.reportRedefinition
    rw [read_bind_apply, show s.state.symbols.binding? _ _ = none from h]
    rfl
  unfold Expr.declare
  rw [read_bind_apply]
  refine bind_apply_of_ok (a := s.state.symbols.nextDef)
    (t := { s with state := s.state.withConstant name value }) ?_
  refine Gathering.onSymbols_eq_ok.2 ⟨{ s with state := _ }, ?_, rfl⟩
  unfold SymbolTable.put
  rw [bind_apply_of_ok hreport]
  rfl

/-- A constant whose name is taken is an error. -/
theorem declare_of_not_free (value : Expr) (h : ¬ s.state.Free name)
    (hfull : s.log.limit ≤ s.log.count + 1) :
    ∃ x t, value.declare name s = .error x t := by
  obtain ⟨id, hid⟩ := Option.ne_none_iff_exists'.1 h
  have hreport : ∃ x t, SymbolTable.reportRedefinition name.text (some name.pos)
      { state := s.state.symbols, log := s.log } = .error x t := by
    unfold SymbolTable.reportRedefinition
    rw [read_bind_apply, hid]
    exact ⟨_, _, error_of_full hfull⟩
  obtain ⟨x, t, hreport⟩ := hreport
  have hput (meaning : Meaning) : Pass.onSymbols
      (SymbolTable.put name.text (some name.pos) meaning) s =
      .error x { state := { s.state with symbols := t.state }, log := t.log } := by
    unfold Pass.onSymbols Run.focus SymbolTable.put
    rw [bind_apply_of_error hreport]
  unfold Expr.declare
  rw [read_bind_apply]
  exact ⟨_, _, bind_apply_of_error (hput _)⟩

/-- Constants may be declared in any order. -/
theorem couples_declare_exchange {X : Atlas} (name name' : Name) (value value' : Expr) :
    Couples Log.strict (Context.Alike X) (value.declare name >>= fun _ => value'.declare name')
      (value'.declare name' >>= fun _ => value.declare name) where
  both s t := by
    rintro ⟨ρ, hs⟩ hl
    have hfull : s.log.limit ≤ s.log.count + 1 := Nat.le_trans hl.1.2 (Nat.succ_pos _)
    by_cases hname : s.state.Free name
    · let u : Logged Context := { s with state := s.state.withConstant name value }
      have hleft : value.declare name s = .ok () u := declare_of_free hname
      rw [bind_apply_of_ok hleft]
      by_cases hname' : u.state.Free name'
      · -- Both names are free, and they are different: the second run finishes as well.
        obtain ⟨hfree', hne⟩ := Context.free_withConstant.1 hname'
        let v : Logged Context := { t with state := t.state.withConstant name' value' }
        have hright : value'.declare name' t = .ok () v := declare_of_free (hs.free hfree')
        have hfree : v.state.Free name := by
          refine Context.free_withConstant.2 ⟨hs.free hname, fun hlt => ?_⟩
          rw [hs.symbols.current, hs.symbols.scopes] at hlt
          exact (hne hlt).symm
        have hleft' : value'.declare name' u = .ok () _ := declare_of_free hname'
        have hright' : value.declare name v = .ok () _ := declare_of_free hfree
        rw [bind_apply_of_ok hright, hleft', hright']
        exact ⟨rfl, hs.withConstant_exchange hne, hl⟩
      · have herror : ∃ x v, value'.declare name' u = .error x v :=
          declare_of_not_free value' hname' hfull
        obtain ⟨x, v, herror⟩ := herror
        rw [herror]
        exact Log.meet_strict_of_error _
    · obtain ⟨x, u, herror⟩ := declare_of_not_free value hname hfull
      rw [bind_apply_of_error herror]
      exact Log.meet_strict_of_error _
  alone := Frame.holds_bind (couples_declare (X := X) name' value').alone fun _ =>
    (couples_declare (X := X) name value).alone

end Expr

namespace Statement

theorem exists_of_isConstant {s : Statement} (h : s.isConstant = true) :
    ∃ name value, s = .constant name value := by
  cases s with
  | constant name value => exact ⟨name, value, rfl⟩
  | _ => cases h

/-- The constants of a block may be declared in any order. -/
theorem couples_gatherConstants_exchange {X : Atlas} (a b : Statement)
    (before after : List Statement) :
    Couples Log.strict (Context.Alike X) (gatherConstants (before ++ a :: b :: after))
      (gatherConstants (before ++ b :: a :: after)) := by
  cases ha : a.isConstant with
  | false =>
    rw [gatherConstants_skip ha, List.append_cons before b (a :: after), gatherConstants_skip ha,
      ← List.append_cons]
    exact couples_gatherConstants _
  | true =>
    cases hb : b.isConstant with
    | false =>
      rw [gatherConstants_skip hb before, List.append_cons before a (b :: after),
        gatherConstants_skip hb, ← List.append_cons]
      exact couples_gatherConstants _
    | true =>
      obtain ⟨name, value, rfl⟩ := exists_of_isConstant ha
      obtain ⟨name', value', rfl⟩ := exists_of_isConstant hb
      have hcons (name name' : Name) (value value' : Expr) :
          gatherConstants (.constant name value :: .constant name' value' :: after) =
            (value.declare name >>= fun _ => value'.declare name') >>=
              fun _ => gatherConstants after := by
        rw [bind_assoc]
        rfl
      rw [gatherConstants_append, gatherConstants_append, hcons, hcons]
      refine (couples_gatherConstants before).bind fun _ => ?_
      exact (Expr.couples_declare_exchange ..).bind fun _ => couples_gatherConstants after

end Statement

/-! ## Headers -/

namespace Header

theorem isHeader_of_isConstant {s : Statement} (h : s.isConstant = true) : s.isHeader = false := by
  obtain ⟨name, value, rfl⟩ := Statement.exists_of_isConstant h
  rfl

/-- The intruder is the first of those before the header that are no constants. -/
theorem intruder?_eq_head? (l : List Statement) (index : Nat) :
    intruder? l index = ((l.take index).filter fun s => !s.isConstant).head?.map Statement.pos := by
  rw [List.head?_filter]
  rfl

variable {a b : Statement} {m : Location}

/-- Headers when a constant and its neighbour change places. -/
theorem indexed_exchange (h : a.isConstant = true ∨ b.isConstant = true)
    (before after : List Statement) :
    indexed 0 (before ++ b :: a :: after) = (indexed 0 (before ++ a :: b :: after)).map fun entry =>
      (Equiv.swap before.length (before.length + 1) entry.1, entry.2) := by
  have hsplit (a b : Statement) : indexed 0 (before ++ a :: b :: after) =
      indexed 0 before ++ (indexed before.length [a] ++ (indexed (before.length + 1) [b] ++
        indexed (before.length + 2) after)) := by
    rw [indexed_append, Nat.zero_add, ← List.singleton_append, indexed_append,
      ← List.singleton_append (l := after), indexed_append]
    rfl
  have hfixed {l : List Statement} {i : Nat} (hne : ∀ entry ∈ indexed i l,
      entry.1 ≠ before.length ∧ entry.1 ≠ before.length + 1) :
      (indexed i l).map (fun entry =>
        (Equiv.swap before.length (before.length + 1) entry.1, entry.2)) = indexed i l := by
    refine (List.map_congr_left fun entry hentry => ?_).trans (List.map_id _)
    rw [Equiv.swap_apply_of_ne_of_ne (hne entry hentry).1 (hne entry hentry).2]
    rfl
  have hbefore := hfixed (l := before) (i := 0) fun entry hentry => by
    have hlt := (List.getElem?_eq_some_iff.1 (getElem?_of_mem_indexed hentry).2).1
    omega
  have hafter := hfixed (l := after) (i := before.length + 2) fun entry hentry => by
    have hle := (getElem?_of_mem_indexed hentry).1
    omega
  rw [hsplit, hsplit, List.map_append, List.map_append, List.map_append, hbefore, hafter]
  refine congrArg (indexed 0 before ++ ·) ?_
  rcases h with h | h
  · rw [indexed_eq_nil (isHeader_of_isConstant h), indexed_eq_nil (isHeader_of_isConstant h)]
    cases b with
    | header header => simp [indexed]
    | _ => rfl
  · rw [indexed_eq_nil (isHeader_of_isConstant h), indexed_eq_nil (isHeader_of_isConstant h)]
    cases a with
    | header header => simp [indexed]
    | _ => rfl

/-- What stands before a header, when a constant and its neighbour change places. -/
theorem intruder?_exchange (h : a.isConstant = true ∨ b.isConstant = true)
    (before after : List Statement) {entry : Nat × Header}
    (hentry : entry ∈ indexed 0 (before ++ a :: b :: after)) :
    intruder? (before ++ b :: a :: after)
      (Equiv.swap before.length (before.length + 1) entry.1) =
      intruder? (before ++ a :: b :: after) entry.1 := by
  obtain ⟨index, header⟩ := entry
  obtain ⟨-, hget⟩ := getElem?_of_mem_indexed hentry
  rw [Nat.sub_zero] at hget
  simp only [intruder?_eq_head?]
  refine congrArg (Option.map Statement.pos <| List.head? ·) ?_
  have hcases : index < before.length ∨ index = before.length ∨ index = before.length + 1 ∨
      ∃ k, index = before.length + (k + 2) := by
    rcases Nat.lt_or_ge index (before.length + 2) with hlt | hge
    · omega
    · exact .inr (.inr (.inr ⟨index - (before.length + 2), by omega⟩))
  rcases hcases with hlt | rfl | rfl | ⟨k, rfl⟩
  · rw [Equiv.swap_apply_of_ne_of_ne (by omega) (by omega),
      List.take_append_of_le_length (Nat.le_of_lt hlt),
      List.take_append_of_le_length (Nat.le_of_lt hlt)]
  · -- The header stands before the constant.
    rw [List.getElem?_append_right (Nat.le_refl _), Nat.sub_self] at hget
    obtain rfl : a = .header header := Option.some.inj hget
    have hb : b.isConstant = true := h.resolve_left nofun
    rw [Equiv.swap_apply_left, List.take_length_add_append, List.take_left]
    simp [hb]
  · -- The header stands after the constant.
    rw [List.getElem?_append_right (Nat.le_add_right _ 1), Nat.add_sub_cancel_left] at hget
    obtain rfl : b = .header header := Option.some.inj hget
    have ha : a.isConstant = true := h.resolve_right nofun
    rw [Equiv.swap_apply_right, List.take_length_add_append, List.take_left]
    simp [ha]
  · rw [Equiv.swap_apply_of_ne_of_ne (by omega) (by omega), List.take_length_add_append,
      List.take_length_add_append]
    rcases h with h | h <;> simp [List.filter_cons, h]

/-- The headers match when a constant and its neighbour change places. -/
theorem Matches.exchange {C : Log.Coupling} (h : a.isConstant = true ∨ b.isConstant = true)
    (m : Location) (before after : List Statement) :
    Matches C (.exchange m before.length) (Equiv.swap before.length (before.length + 1)) m
      (before ++ a :: b :: after) m (before ++ b :: a :: after) where
  headers := indexed_exchange h before after
  intruder entry hentry := by
    rw [intruder?_exchange h before after hentry]
    exact confuses_refl C _ _
  sends entry _ := Atlas.sends_exchange m before.length entry.1

end Header

/-! ## Statements -/

namespace Statement

variable {files : Files} {C : Log.Coupling} {X : Atlas}

/-- A constant and its neighbour in a block change places. -/
inductive Exchanges : List Statement → List Statement → Prop
  | here {a b : Statement} (h : a.isConstant = true ∨ b.isConstant = true)
      (before after : List Statement) :
      Exchanges (before ++ a :: b :: after) (before ++ b :: a :: after)
  | inside {l l' : List Statement} (h : Exchanges l l') (before after : List Statement)
      (kind : BlockKind) (pos : Position) :
      Exchanges (before ++ .block kind l pos :: after) (before ++ .block kind l' pos :: after)

/-- An exchange can be undone by another one. -/
theorem Exchanges.symm {l l' : List Statement} (h : Exchanges l l') : Exchanges l' l := by
  induction h with
  | here h before after => exact .here h.symm before after
  | inside _ before after kind pos ih => exact .inside ih before after kind pos

instance : Std.Symm Exchanges :=
  ⟨fun _ _ => Exchanges.symm⟩

/-- The passes over two neighbours that change places are coupled. -/
theorem AllCoupled.exchange {a b : Statement} (h : a.isConstant = true ∨ b.isConstant = true)
    (m : Location) (before after : List Statement) :
    AllCoupled C (.exchange m before.length) files m 0 (before ++ a :: b :: after) m 0
      (before ++ b :: a :: after) := by
  have hsends (index : Nat) (hleft : index ≠ before.length) (hright : index ≠ before.length + 1) :
      (Atlas.exchange m before.length).Sends (m.child index) (m.child index) := by
    have hsend := Atlas.sends_exchange m before.length index
    rwa [Equiv.swap_apply_of_ne_of_ne hleft hright] at hsend
  have hafter : AllCoupled C (.exchange m before.length) files m (before.length + 2) after m
      (before.length + 2) after :=
    .rest after fun index hi => hsends index (by omega) (by omega)
  refine .same before (fun index _ hlt => hsends index (by omega) (by omega)) ?_
  rw [Nat.zero_add]
  rcases h with h | h
  · -- The second statement moves to the left of the constant.
    have hb := Atlas.sends_exchange m before.length (before.length + 1)
    rw [Equiv.swap_apply_right] at hb
    exact .skip_left h (.cons (.self b hb) (.skip_right h hafter))
  · have ha := Atlas.sends_exchange m before.length before.length
    rw [Equiv.swap_apply_left] at ha
    exact .skip_right h (.cons (.self a ha) (.skip_left h hafter))

/-- Programs are compiled in lockstep when a constant and its neighbour in one of their blocks
change places. -/
theorem Exchanges.coupled {l l' : List Statement} (h : Exchanges l l') (files : Files)
    (m : Location) : ∃ base i, m.Under base ∧ ∀ kind pos,
      Coupled Log.strict (.exchange base i) files m (.block kind l pos) m (.block kind l' pos) := by
  induction h generalizing m with
  | here h before after =>
    refine ⟨m, before.length, .refl m, fun kind pos => ?_⟩
    exact .block (Atlas.places_exchange (.refl m)) kind pos
      (couples_gatherConstants_exchange _ _ before after)
      ((Header.Matches.exchange h m before after).couples_startRom kind pos)
      (.exchange h m before after)
  | @inside l l' _ before after kind pos ih =>
    obtain ⟨base, i, hbase, hblock⟩ := ih (m.child before.length)
    refine ⟨base, i, hbase.of_child, fun outer outerPos => ?_⟩
    have hsends (index : Nat) (hne : index ≠ before.length) :
        (Atlas.exchange base i).Sends (m.child index) (m.child index) :=
      Atlas.exchange_sends_self hbase hne
    exact .replace (Atlas.places_exchange hbase.of_child) outer outerPos rfl rfl ⟨rfl, rfl⟩ hsends
      (hblock kind pos)

/-- A constant is moved inside its block, which may be inside other blocks. -/
inductive Moves : List Statement → List Statement → Prop
  | here {s : Statement} (h : s.isConstant = true) {before after before' after' : List Statement}
      (same : before ++ after = before' ++ after') :
      Moves (before ++ s :: after) (before' ++ s :: after')
  | inside {l l' : List Statement} (h : Moves l l') (before after : List Statement)
      (kind : BlockKind) (pos : Position) :
      Moves (before ++ .block kind l pos :: after) (before ++ .block kind l' pos :: after)

open Relation

/-- A constant moves over several statements by exchanges with its neighbours. -/
theorem exchanges_over {s : Statement} (h : s.isConstant = true)
    (before middle after : List Statement) :
    ReflTransGen Exchanges (before ++ s :: (middle ++ after)) (before ++ middle ++ s :: after) := by
  induction middle generalizing before with
  | nil =>
    rw [List.append_nil]
    exact .refl
  | cons other middle ih =>
    refine .head (.here (.inl h) before (middle ++ after)) ?_
    have hrest := ih (before ++ [other])
    simp only [List.append_assoc, List.singleton_append] at hrest ⊢
    exact hrest

/-- A move is made of exchanges of neighbours. -/
theorem Moves.exchanges {l l' : List Statement} (h : Moves l l') : ReflTransGen Exchanges l l' := by
  induction h with
  | @here s h before after before' after' same =>
    rcases List.append_eq_append_iff.1 same with ⟨middle, rfl, rfl⟩ | ⟨middle, rfl, rfl⟩
    · exact exchanges_over h before middle after'
    · exact symm (exchanges_over h before' middle after)
  | inside _ before after kind pos ih =>
    exact ih.lift (fun l => before ++ .block kind l pos :: after) fun _ _ h =>
      .inside h before after kind pos

end Statement

/-! ## Programs -/

namespace Program

/-- Constants are moved inside their blocks. -/
def Rearranged (program program' : Program) : Prop :=
  Relation.ReflTransGen Statement.Moves program.statements program'.statements ∧
    program'.pos = program.pos

/-- What is compiled without an error still is when a constant and its neighbour change places. -/
theorem result_of_exchanges {l l' : List Statement} (h : Statement.Exchanges l l') (pos : Position)
    (files : Files) {image : List UInt8}
    (hok : (compile files { errorLimit := 1 } ⟨l, pos⟩).result = .ok image) :
    (compile files { errorLimit := 1 } ⟨l', pos⟩).result = .ok image := by
  obtain ⟨base, i, -, hcoupled⟩ := h.coupled files .top
  have hblocks : Statement.Coupled Log.strict (.exchange base i) files .top (block ⟨l, pos⟩) .top
      (block ⟨l', pos⟩) := hcoupled .main pos
  have hpos : (Program.mk l' pos).pos = (Program.mk l pos).pos := rfl
  obtain ⟨s, hs, -⟩ := result_ofRun.1 hok
  have hmeet : Meet Log.strict (Context.Alike (.exchange base i))
      (passes files ⟨l, pos⟩ (start { errorLimit := 1 }))
      (passes files ⟨l', pos⟩ (start { errorLimit := 1 })) := by
    refine meet_passes hblocks hpos ?_
    exact ⟨⟨rfl, Nat.le_refl 1⟩, rfl, Nat.le_refl 1⟩
  rw [hs] at hmeet
  refine result_ofRun.2 ?_
  cases hrun : passes files ⟨l', pos⟩ (start { errorLimit := 1 }) with
  | error x t =>
    rw [hrun] at hmeet
    exact hmeet.elim
  | ok image' t =>
    rw [hrun] at hmeet
    obtain ⟨rfl, -, -, hcount, -⟩ := hmeet
    exact ⟨t, rfl, beq_iff_eq.2 hcount⟩

/-- Moving a constant inside its block keeps the image, if the first error ends the compilation. -/
theorem result_of_moves {l l' : List Statement} (h : Statement.Moves l l') (pos : Position)
    (files : Files) (image : List UInt8) :
    (compile files { errorLimit := 1 } ⟨l, pos⟩).result = .ok image ↔
      (compile files { errorLimit := 1 } ⟨l', pos⟩).result = .ok image := by
  have hsteps := h.exchanges
  clear h
  induction hsteps with
  | refl => exact .rfl
  | tail _ hstep ih =>
    exact ih.trans ⟨result_of_exchanges hstep pos files, result_of_exchanges hstep.symm pos files⟩

/-- Programs have the same image when constants are moved inside their blocks. -/
theorem compile_of_rearranged (files : Files) (config : Config) {program program' : Program}
    (h : program.Rearranged program') (image : List UInt8) :
    (program.compile files config).result = .ok image ↔
      (program'.compile files config).result = .ok image := by
  obtain ⟨l, pos⟩ := program
  obtain ⟨l', pos'⟩ := program'
  obtain ⟨hmoves, rfl⟩ := h
  replace hmoves : Relation.ReflTransGen Statement.Moves l l' := hmoves
  -- Whether there is an image does not depend on the limit, so the first error may end it all.
  rw [result_eq_ok_iff_of_limits files _ config { errorLimit := 1 },
    result_eq_ok_iff_of_limits files _ config { errorLimit := 1 }]
  induction hmoves with
  | refl => exact .rfl
  | tail _ hmove ih => exact ih.trans (result_of_moves hmove _ files image)

/-- Constants that are moved behind everything else, and to the front of a package. -/
theorem compile_of_rearranged_package :
    let base : Statement := .constant { text := "base" } (.number 0x8000 {})
    let size : Statement := .constant { text := "size" } (.number 2 {})
    let header : Statement := .header { settings := [⟨{ text := "mapper" }, .number 0 {}⟩,
      ⟨{ text := "prg" }, .number 1 {}⟩, ⟨{ text := "chr" }, .number 1 {}⟩] }
    let origin : Statement :=
      .relocation (.rom (some (.number 0 {})) (some (.reference [{ text := "base" }] {}))) {}
    let data : Statement :=
      .data { width := .byte, items := [.value (.reference [{ text := "size" }] {})] }
    let table (l : List Statement) : Statement := .block (.package { text := "table" }) l {}
    let program : Program := ⟨[base, header, origin, table [data, size]], {}⟩
    let program' : Program := ⟨[header, origin, table [size, data], base], {}⟩
    program.Rearranged program' ∧ ∀ files config image,
      (program.compile files config).result = .ok image ↔
        (program'.compile files config).result = .ok image := by
  intro base size header origin data table program program'
  have hbase : Statement.Moves ([] ++ base :: [header, origin, table [data, size]])
      ([header, origin, table [data, size]] ++ base :: []) := .here rfl rfl
  have hsize : Statement.Moves ([data] ++ size :: []) ([] ++ size :: [data]) := .here rfl rfl
  have htable : Statement.Moves ([header, origin] ++ table [data, size] :: [base])
      ([header, origin] ++ table [size, data] :: [base]) := .inside hsize _ _ _ _
  have hrearranged : program.Rearranged program' := ⟨.head hbase (.single htable), rfl⟩
  exact ⟨hrearranged, fun files config => compile_of_rearranged files config hrearranged⟩

end Program

end Cartridge
