import Cartridge.Proofs.Course
import Cartridge.Proofs.Lexical
import Cartridge.Proofs.Renaming
import Cartridge.Proofs.Stepping

/-!
# Bounds

Every number of a scope or of a definition that is kept somewhere is one of the table. The active
bank is one of the rom, what is reserved in a bank lies in the bank and in the address space, and
the cursor does not leave what is reserved. The passes change a context in small steps, each of
which keeps these bounds, and asks for what it needs to keep them.

Main definitions:

- `SymbolTable.Closed`, `Bank.InBounds`, `Rom.InBounds` and `Context.InBounds`: the bounds.
- `SymbolTable.Step`, `Bank.Step`, `Rom.Step` and `Context.Step`: the steps. Their arithmetic is
  that of the natural numbers, where nothing wraps around.
- `Context.Exact`: what the passes look up is there, and what they compute is neither wrapped around
  nor cut off.

Main results:

- Theorem `Context.InBounds.step`: every step keeps the bounds.
- Theorem `Context.InBounds.rewind`: so does going back to the start of every bank.
- Theorem `Context.InBounds.exact`: within the bounds everything is exact.
-/

namespace Cartridge

/-! ## Symbols -/

/-- The scope that a meaning refers to. -/
def Meaning.scope? : Meaning → Option ScopeId
  | constant _ scope | package scope => some scope
  | builtin _ | label _ | storage _ => none

/-- A definition only refers to scopes below a number. -/
structure Definition.Known (scopes : Nat) (d : Definition) : Prop where
  owner : d.owner.index < scopes
  meaning : ∀ scope ∈ d.meaning.scope?, scope.index < scopes

/-- A scope only refers to scopes and definitions below certain numbers. -/
structure Scope.Known (scopes definitions : Nat) (s : Scope) : Prop where
  parent : ∀ outer ∈ s.parent, outer.index < scopes
  package : ∀ id ∈ s.package, id.index < definitions
  names : ∀ entry ∈ s.names, entry.2.index < definitions

theorem Definition.Known.mono {scopes scopes' : Nat} {d : Definition} (h : d.Known scopes)
    (hle : scopes ≤ scopes') : d.Known scopes' :=
  ⟨Nat.lt_of_lt_of_le h.owner hle, fun scope hs => Nat.lt_of_lt_of_le (h.meaning scope hs) hle⟩

theorem Scope.Known.mono {scopes scopes' definitions definitions' : Nat} {s : Scope}
    (h : s.Known scopes definitions) (hscopes : scopes ≤ scopes')
    (hdefinitions : definitions ≤ definitions') : s.Known scopes' definitions' where
  parent outer ho := Nat.lt_of_lt_of_le (h.parent outer ho) hscopes
  package id hid := Nat.lt_of_lt_of_le (h.package id hid) hdefinitions
  names entry he := Nat.lt_of_lt_of_le (h.names entry he) hdefinitions

namespace SymbolTable

/-- The scopes and the definitions that a table refers to are its own. -/
structure Closed (t : SymbolTable) : Prop extends Entered t where
  scope : ∀ id, (t.scope id).Known t.scopes.size t.size
  definition : ∀ id d, t.definition? id = some d → d.Known t.scopes.size

/-- The steps in which declarations are gathered. -/
inductive Step : SymbolTable → SymbolTable → Prop
  | addScope (t : SymbolTable) {parent : ScopeId} (h : parent.index < t.scopes.size) :
      Step t (t.addScope parent)
  | define (t : SymbolTable) {d : Definition} (h : d.Known t.scopes.size) : Step t (t.define d)
  | setPackage (t : SymbolTable) {scope : ScopeId} {id : DefId}
      (hscope : scope.index < t.scopes.size) (hid : id.index < t.size) :
      Step t (t.setPackage scope id)

variable {t u : SymbolTable}

/-- A number below the size stands for a definition. -/
theorem isSome_definition? {id : DefId} (h : id.index < t.size) : (t.definition? id).isSome :=
  Option.isSome_iff_exists.2 ⟨_, Array.getElem?_eq_getElem h⟩

/-- Tables only grow. -/
theorem Step.grows (h : t.Step u) : t.scopes.size ≤ u.scopes.size ∧ t.size ≤ u.size := by
  cases h with
  | addScope hparent => exact ⟨(t.retains_addScope _).size, Nat.le_refl _⟩
  | define hd =>
    rw [scopes_define, size_define]
    exact ⟨Nat.le_refl _, Nat.le_succ _⟩
  | setPackage hscope hid => exact ⟨Nat.le_of_eq Array.size_modify.symm, Nat.le_refl _⟩

/-- The first table refers to the root and to the builtins only. -/
theorem closed_empty : SymbolTable.empty.Closed where
  root := by decide
  stack _ h := absurd h List.not_mem_nil
  scope id := by
    have hroot : ∀ entry ∈ (SymbolTable.empty.scope root).names, entry.2.index < empty.size := by
      decide
    by_cases hid : id = root
    · subst hid
      exact ⟨nofun, nofun, hroot⟩
    · have hne : 1 ≤ id.index := Nat.pos_of_ne_zero fun h => hid (congrArg ScopeId.mk h)
      have hnone : SymbolTable.empty.scopes[id.index]? = none := Array.getElem?_eq_none hne
      unfold SymbolTable.scope
      rw [Array.getD_eq_getD_getElem?, hnone]
      exact ⟨nofun, nofun, fun _ h => absurd h List.not_mem_nil⟩
  definition id d h := by
    have hmem : d ∈ SymbolTable.empty.definitions := Array.mem_of_getElem? h
    obtain ⟨b, -, rfl⟩ := List.mem_map.1 (List.mem_toArray.1 hmem)
    exact ⟨Nat.one_pos, nofun⟩

namespace Closed

/-- A scope of the table may be entered. -/
theorem enter (h : t.Closed) {scope : ScopeId} (hscope : scope.index < t.scopes.size) :
    (t.enter scope).Closed where
  root := h.root
  stack other ho := by
    rcases List.mem_cons.1 ho with rfl | ho
    · exact hscope
    · exact h.stack other ho
  scope := h.scope
  definition := h.definition

theorem exit (h : t.Closed) : t.exit.Closed where
  root := h.root
  stack other ho := h.stack other (List.mem_of_mem_tail ho)
  scope := h.scope
  definition := h.definition

/-- Each of the steps keeps a table closed. -/
theorem step (h : t.Closed) (hstep : t.Step u) : u.Closed := by
  cases hstep with
  | @addScope parent hparent =>
    have hle := (t.retains_addScope parent).size
    refine ⟨h.toEntered.mono hle fun _ ho => ho, fun id => ?_, fun id d hd => ?_⟩
    · rw [scope_addScope]
      split
      · refine ⟨?_, nofun, fun _ he => absurd he List.not_mem_nil⟩
        rintro _ ⟨⟩
        exact Nat.lt_of_lt_of_le hparent hle
      · exact (h.scope id).mono hle (Nat.le_refl _)
    · exact (h.definition id d hd).mono hle
  | @define d hd =>
    have hscopes := t.scopes_define d
    refine ⟨h.toEntered.mono (Nat.le_of_eq hscopes.symm) fun _ ho => ho, fun id => ?_,
      fun id d' hd' => ?_⟩
    · have hold : (t.scope id).Known (t.define d).scopes.size (t.define d).size :=
        (h.scope id).mono (Nat.le_of_eq hscopes.symm) (by rw [size_define]; exact Nat.le_succ _)
      rw [scope_define]
      split
      · refine ⟨hold.parent, hold.package, fun entry he => ?_⟩
        rcases List.mem_cons.1 he with rfl | he
        · rw [size_define]
          exact Nat.lt_succ_self _
        · exact hold.names entry he
      · exact hold
    · rw [hscopes]
      rw [definition?_define] at hd'
      split at hd'
      · cases hd'
        exact hd
      · exact h.definition id d' hd'
  | @setPackage scope id hscope hid =>
    have hscopes : (t.setPackage scope id).scopes.size = t.scopes.size := Array.size_modify
    refine ⟨h.toEntered.mono (Nat.le_of_eq hscopes.symm) fun _ ho => ho, fun other => ?_,
      fun other d hd => ?_⟩
    · obtain ⟨hparent, hnames⟩ := t.scope_setPackage scope other id
      have hold := h.scope other
      rw [hscopes]
      refine ⟨hparent ▸ hold.parent, fun package hp => ?_, hnames ▸ hold.names⟩
      rw [package_setPackage] at hp
      split at hp
      · cases hp
        exact hid
      · exact hold.package package hp
    · rw [hscopes]
      exact h.definition other d hd

/-- A label that gets an address refers to no other scopes. -/
theorem placeLabel (h : t.Closed) (id : DefId) (address : UInt16) :
    (t.placeLabel id address).Closed where
  root := h.root
  stack := h.stack
  scope other := by
    have hsize : (t.placeLabel id address).size = t.size := Array.size_modify
    rw [hsize]
    exact h.scope other
  definition other d hd := by
    rw [definition?_placeLabel] at hd
    split at hd
    · obtain ⟨old, hold, rfl⟩ := Option.map_eq_some_iff.1 hd
      have hknown := h.definition other old hold
      unfold Definition.placed
      split
      · exact ⟨hknown.owner, nofun⟩
      · exact hknown
    · exact h.definition other d hd

/-- What a name is bound to is a definition of the table. -/
theorem binding (h : t.Closed) {scope : ScopeId} {name : String} {id : DefId}
    (hb : t.binding? scope name = some id) : id.index < t.size := by
  obtain ⟨before, after, hnames, -⟩ := List.lookup_eq_some_iff.1 hb
  refine (h.scope scope).names (name, id) ?_
  rw [hnames]
  exact List.mem_append_right _ List.mem_cons_self

/-- What is found for a name is a definition of the table. -/
theorem lookup (h : t.Closed) {scope : ScopeId} {name : String} {inherit : Bool} {id : DefId}
    (hl : t.lookup scope name inherit = some id) : id.index < t.size := by
  unfold SymbolTable.lookup at hl
  split at hl
  · obtain ⟨outer, -, hb⟩ := List.exists_of_findSome?_eq_some hl
    exact h.binding hb
  · exact h.binding hl

/-- The way outwards leads through scopes of the table. -/
theorem chain (h : t.Closed) {scope : ScopeId} (hscope : scope.index < t.scopes.size) :
    ∀ outer ∈ t.chain scope, outer.index < t.scopes.size := by
  unfold SymbolTable.chain
  generalize scope.index + 1 = n
  induction n generalizing scope with
  | zero => exact fun _ ho => absurd ho List.not_mem_nil
  | succ n ih =>
    intro outer ho
    unfold chainUpTo at ho
    rcases List.mem_cons.1 ho with rfl | ho
    · exact hscope
    · cases hp : (t.scope scope).parent with
      | none =>
        rw [hp] at ho
        exact absurd ho List.not_mem_nil
      | some parent =>
        rw [hp] at ho
        exact ih ((h.scope scope).parent parent hp) outer ho

end Closed

end SymbolTable

/-! ## Banks -/

namespace Bank

/-- The cursor lies in what is reserved, which lies in the bank and in the address space. Before
bytes are written the cursor stands at the end of it. -/
structure InBounds (phase : Phase) (b : Bank) : Prop where
  position : b.position ≤ b.reserved
  reserved : b.reserved ≤ bankSize
  origin : ∀ origin ∈ b.origin, origin.toNat + b.reserved ≤ addressSpace
  /-- Without an origin nothing is reserved. -/
  empty : b.origin = none → b.reserved = 0
  cursor : phase ≠ .emission → b.position = b.reserved

/-- The steps in which space is reserved in a bank, and in which bytes are written. -/
inductive Step (b : Bank) : Phase → Bank → Prop
  | setOrigin (address : UInt16) (h : b.origin = none) :
      Step b .layout { b with origin := some address }
  | reserve {origin : UInt16} {n : Nat} (h : b.origin = some origin)
      (space : origin.toNat + b.position + n ≤ addressSpace) (room : b.reserved + n ≤ bankSize) :
      Step b .layout { b with reserved := b.reserved + n, position := b.position + n }
  | seek {origin address : UInt16} (h : b.origin = some origin)
      (above : origin.toNat ≤ address.toNat) (inside : address.toNat - origin.toNat ≤ b.reserved) :
      Step b .emission { b with position := address.toNat - origin.toNat }
  | store {bytes : List UInt8} (h : b.position + bytes.length ≤ b.reserved) :
      Step b .emission (b.store bytes)

variable {phase : Phase} {b c : Bank}

theorem inBounds_empty (phase : Phase) : ({} : Bank).InBounds phase :=
  ⟨Nat.le_refl 0, Nat.zero_le _, nofun, fun _ => rfl, fun _ => rfl⟩

/-- Each of the steps keeps the bounds. -/
theorem InBounds.step (h : b.InBounds phase) (hstep : b.Step phase c) : c.InBounds phase := by
  cases hstep with
  | setOrigin address hnone =>
    have hzero := h.empty hnone
    refine ⟨h.position, h.reserved, ?_, nofun, h.cursor⟩
    rintro _ ⟨⟩
    have hlt := address.toNat_lt
    simp only [addressSpace]
    omega
  | @reserve found n ho space room =>
    have hcursor := h.cursor nofun
    refine ⟨by simp only [hcursor]; omega, room, ?_, ?_, fun _ => by simp only [hcursor]⟩
    · intro other hother
      obtain rfl : other = found := Option.some.inj (hother.symm.trans ho)
      show other.toNat + (b.reserved + n) ≤ addressSpace
      omega
    · intro hnone
      cases ho.symm.trans hnone
  | seek ho above inside =>
    exact ⟨inside, h.reserved, h.origin, h.empty, fun hne => absurd rfl hne⟩
  | store hfits => exact ⟨hfits, h.reserved, h.origin, h.empty, fun hne => absurd rfl hne⟩

/-- The cursor may go back to the start before bytes are written. -/
theorem InBounds.rewind (h : b.InBounds phase) : b.rewind.InBounds .emission :=
  ⟨Nat.zero_le _, h.reserved, h.origin, h.empty, fun hne => absurd rfl hne⟩

/-- The cursor stands in the address space, or at its end. -/
theorem InBounds.counter_le (h : b.InBounds phase) {origin : UInt16} (ho : b.origin = some origin) :
    origin.toNat + b.position ≤ addressSpace :=
  Nat.le_trans (Nat.add_le_add_left h.position _) (h.origin origin ho)

/-- The program counter is that of the natural numbers. -/
theorem InBounds.programCounter? (h : b.InBounds phase) {counter : Nat}
    (hc : b.programCounter? = some counter) :
    ∃ origin, b.origin = some origin ∧ counter = origin.toNat + b.position ∧
      counter ≤ addressSpace := by
  obtain ⟨origin, ho, rfl⟩ := Option.map_eq_some_iff.1 hc
  have hle := h.counter_le ho
  have hexact : (origin.toNat + b.position) % 0x100000000 = origin.toNat + b.position :=
    Nat.mod_eq_of_lt (Nat.lt_of_le_of_lt hle (by decide))
  rw [hexact]
  exact ⟨origin, ho, rfl, hle⟩

end Bank

/-! ## Roms -/

namespace Rom

/-- The active bank is one of the rom, its banks are in their bounds, and so is the ram counter. -/
structure InBounds (phase : Phase) (rom : Rom) : Prop where
  active : ∀ i ∈ rom.active, i < rom.banks.size
  bank : ∀ i, (rom.bank i).InBounds phase
  ram : ∀ counter ∈ rom.ram, counter ≤ addressSpace

/-- The steps that change a rom. -/
inductive Step (rom : Rom) : Phase → Rom → Prop
  | moveRam (address : UInt16) : Step rom .gathering (rom.moveRam address)
  | allocate {counter size : Nat} (h : rom.ram = some counter) (pos : 0 < size)
      (space : counter + size ≤ addressSpace) :
      Step rom .gathering { rom with ram := some (counter + size) }
  | switchBank {phase : Phase} {i : Nat} (h : i < rom.banks.size) :
      Step rom phase { rom with active := some i }
  | bank {phase : Phase} {i : Nat} {b : Bank} (h : rom.active = some i)
      (step : (rom.bank i).Step phase b) : Step rom phase (rom.setBank i b)

variable {phase : Phase} {rom rom' : Rom}

/-- A new rom is in its bounds: no bank is active and all are empty. -/
theorem inBounds_empty (phase : Phase) (settings : Settings) :
    (empty settings).InBounds phase := by
  refine ⟨nofun, fun i => ?_, nofun⟩
  rw [bank_empty]
  exact Bank.inBounds_empty phase

/-- Each of the steps keeps the bounds. -/
theorem InBounds.step (h : rom.InBounds phase) (hstep : rom.Step phase rom') :
    rom'.InBounds phase := by
  cases hstep with
  | moveRam address =>
    refine ⟨h.active, h.bank, ?_⟩
    rintro _ ⟨⟩
    exact Nat.le_of_lt address.toNat_lt
  | allocate hram pos space =>
    refine ⟨h.active, h.bank, ?_⟩
    rintro _ ⟨⟩
    exact space
  | switchBank hi =>
    refine ⟨?_, h.bank, h.ram⟩
    rintro _ ⟨⟩
    exact hi
  | @bank _ i b hi hb =>
    refine ⟨fun j hj => ?_, fun j => ?_, h.ram⟩
    · rw [size_setBank]
      exact h.active j hj
    · by_cases hj : j = i
      · rw [hj, bank_setBank_self (h.active i hi)]
        exact (h.bank i).step hb
      · rw [bank_setBank_of_ne hj]
        exact h.bank j

/-- A rom goes back to its start bank by bank. -/
theorem InBounds.rewind (h : rom.InBounds phase) : rom.rewind.InBounds .emission := by
  refine ⟨nofun, fun i => ?_, h.ram⟩
  rw [bank_rewind]
  exact (h.bank i).rewind

end Rom

/-! ## Contexts -/

namespace Context

/-- Every number of a scope or of a definition is one of the table, and the rom is in its bounds. -/
structure InBounds (phase : Phase) (c : Context) : Prop where
  symbols : c.symbols.Closed
  scopes : ∀ m, ∀ scope ∈ c.scopes.at? m, scope.index < c.symbols.scopes.size
  labels : ∀ m, ∀ id ∈ c.labels.at? m, id.index < c.symbols.size
  rom : ∀ rom ∈ c.rom, rom.InBounds phase

/-- The steps of the passes. -/
inductive Step (c : Context) : Phase → Context → Prop
  | note {phase : Phase} (notes : List Note) : Step c phase { c with notes }
  | remember {phase : Phase} (site : Site) (folded : Folded) :
      Step c phase { c with memo := c.memo.set site folded }
  | enter {phase : Phase} {scope : ScopeId} (h : scope.index < c.symbols.scopes.size) :
      Step c phase (c.enter scope)
  | exit {phase : Phase} : Step c phase c.exit
  | rom {phase : Phase} {rom rom' : Rom} (h : c.rom = some rom) (step : rom.Step phase rom') :
      Step c phase { c with rom := some rom' }
  | startRom (settings : Settings) : Step c .gathering { c with rom := some (Rom.empty settings) }
  | declare {symbols : SymbolTable} (step : c.symbols.Step symbols) :
      Step c .gathering { c with symbols }
  | recordScope (m : Location) {scope : ScopeId} (h : scope.index < c.symbols.scopes.size) :
      Step c .gathering { c with scopes := c.scopes.set m (some scope) }
  | recordLabel (m : Location) {id : DefId} (h : id.index < c.symbols.size) :
      Step c .gathering { c with labels := c.labels.set m (some id) }
  /-- A label gets the address of the cursor. It is not cut off. -/
  | place (id : DefId) {i : Nat} {origin address : UInt16} (active : c.active? = some i)
      (h : (c.bank i).origin = some origin)
      (exact : address.toNat = origin.toNat + (c.bank i).position) :
      Step c .layout { c with symbols := c.symbols.placeLabel id address }
  | recordSelection (m : Location) (entry : Option Selection) :
      Step c .layout { c with selections := c.selections.set m entry }
  | recordBranch (m : Location) (entry : Option Nat) :
      Step c .layout { c with branches := c.branches.set m entry }
  | recordContents (m : Location) (entry : Option (List UInt8)) :
      Step c .layout { c with contents := c.contents.set m entry }

variable {phase : Phase} {c c' : Context}

namespace InBounds

/-- A compilation starts in bounds, without a rom. -/
theorem start : ({} : Context).InBounds .gathering :=
  ⟨SymbolTable.closed_empty, nofun, nofun, nofun⟩

/-- The table may grow. -/
theorem declare (h : c.InBounds phase) {t : SymbolTable} (ht : t.Closed)
    (hscopes : c.symbols.scopes.size ≤ t.scopes.size) (hsize : c.symbols.size ≤ t.size) :
    { c with symbols := t }.InBounds phase :=
  ⟨ht, fun m scope hs => Nat.lt_of_lt_of_le (h.scopes m scope hs) hscopes,
    fun m id hid => Nat.lt_of_lt_of_le (h.labels m id hid) hsize, h.rom⟩

/-- The banks of a context are in bounds; one that does not exist counts as empty. -/
theorem bank (h : c.InBounds phase) (i : Nat) : (c.bank i).InBounds phase := by
  unfold Context.bank
  cases hrom : c.rom with
  | none => exact Bank.inBounds_empty phase
  | some rom => exact (h.rom rom hrom).bank i

/-- Each of the steps keeps the bounds. -/
theorem step (h : c.InBounds phase) (hstep : c.Step phase c') : c'.InBounds phase := by
  cases hstep with
  | note notes => exact ⟨h.symbols, h.scopes, h.labels, h.rom⟩
  | remember site folded => exact ⟨h.symbols, h.scopes, h.labels, h.rom⟩
  | enter hscope => exact h.declare (h.symbols.enter hscope) (Nat.le_refl _) (Nat.le_refl _)
  | exit => exact h.declare h.symbols.exit (Nat.le_refl _) (Nat.le_refl _)
  | rom hrom hstep =>
    refine ⟨h.symbols, h.scopes, h.labels, ?_⟩
    rintro _ ⟨⟩
    exact (h.rom _ hrom).step hstep
  | startRom settings =>
    refine ⟨h.symbols, h.scopes, h.labels, ?_⟩
    rintro _ ⟨⟩
    exact Rom.inBounds_empty _ settings
  | declare hstep =>
    have hgrows := hstep.grows
    exact h.declare (h.symbols.step hstep) hgrows.1 hgrows.2
  | recordScope m hscope =>
    refine ⟨h.symbols, fun other scope hs => ?_, h.labels, h.rom⟩
    by_cases hm : other = m
    · rw [hm, Record.set_self] at hs
      cases hs
      exact hscope
    · rw [Record.set_of_ne hm] at hs
      exact h.scopes other scope hs
  | recordLabel m hid =>
    refine ⟨h.symbols, h.scopes, fun other id hs => ?_, h.rom⟩
    by_cases hm : other = m
    · rw [hm, Record.set_self] at hs
      cases hs
      exact hid
    · rw [Record.set_of_ne hm] at hs
      exact h.labels other id hs
  | place id active ho exact =>
    exact h.declare (h.symbols.placeLabel id _) (Nat.le_refl _)
      (Nat.le_of_eq Array.size_modify.symm)
  | recordSelection m entry => exact ⟨h.symbols, h.scopes, h.labels, h.rom⟩
  | recordBranch m entry => exact ⟨h.symbols, h.scopes, h.labels, h.rom⟩
  | recordContents m entry => exact ⟨h.symbols, h.scopes, h.labels, h.rom⟩

/-- Space is reserved in the rom that was started while declarations were gathered. -/
theorem layout (h : c.InBounds .gathering) : c.InBounds .layout :=
  ⟨h.symbols, h.scopes, h.labels, fun rom hrom =>
    have hr := h.rom rom hrom
    ⟨hr.active, fun i =>
      have hb := hr.bank i
      ⟨hb.position, hb.reserved, hb.origin, hb.empty, fun _ => hb.cursor nofun⟩, hr.ram⟩⟩

/-- Going back to the start of every bank keeps the bounds. -/
theorem rewind (h : c.InBounds .layout) {rom : Rom} (hrom : c.rom = some rom) :
    { c with rom := some rom.rewind }.InBounds .emission := by
  refine ⟨h.symbols, h.scopes, h.labels, ?_⟩
  rintro _ ⟨⟩
  exact (h.rom rom hrom).rewind

end InBounds

/-! ## Exact computations -/

/-- What the passes look up is there, and what they compute is what it would be without any limits
on the size of numbers. -/
structure Exact (c : Context) : Prop where
  /-- Names are looked for in scopes of the table. -/
  chain : ∀ outer ∈ c.symbols.chain c.symbols.current, outer.index < c.symbols.scopes.size
  inner : ∀ id meaning, c.symbols.meaning? id = some meaning → ∀ scope ∈ meaning.scope?,
    ∀ outer ∈ c.symbols.chain scope, outer.index < c.symbols.scopes.size
  /-- What is found is a definition. -/
  found : ∀ scope name inherit id, c.symbols.lookup scope name inherit = some id →
    (c.symbols.definition? id).isSome
  /-- So is the package of a scope. -/
  package : ∀ scope, ∀ id ∈ (c.symbols.scope scope).package, (c.symbols.definition? id).isSome
  /-- There is an active bank if its index is set. -/
  active : ∀ rom ∈ c.rom, rom.active.isSome → rom.activeBank?.isSome
  /-- Addresses are computed in 32 bits, and amounts in 64 bits. -/
  reserve : ∀ i, ∀ origin ∈ (c.bank i).origin, ∀ n, n < 0x80000000 →
    origin.toNat + (c.bank i).position + n < 0x100000000 ∧
      (c.bank i).reserved + n < 0x10000000000000000
  /-- What fits into the reserved space fits into the bank. -/
  write : ∀ i n, (c.bank i).position + n ≤ (c.bank i).reserved → (c.bank i).position + n ≤ bankSize
  counter : ∀ i, ∀ counter ∈ (c.bank i).programCounter?,
    (c.bank i).origin.map (fun origin => origin.toNat + (c.bank i).position) = some counter ∧
      (counter < addressSpace → (UInt16.ofNat counter).toNat = counter)
  /-- Displacements are computed in 32 bits with a sign. -/
  displacement : ∀ i, ∀ counter ∈ (c.bank i).programCounter?, ∀ target : UInt16,
    counter + 1 < 0x80000000 ∧ -0x80000000 ≤ Branch.displacement target counter ∧
      Branch.displacement target counter < 0x80000000
  allocate : ∀ rom ∈ c.rom, ∀ counter ∈ rom.ram, ∀ size, 0 < size → size < 0x20000 →
    counter + size < 0x100000000 ∧
      (counter + size ≤ addressSpace → (UInt16.ofNat counter).toNat = counter)

/-- Within the bounds everything is exact. -/
theorem InBounds.exact (h : c.InBounds phase) : c.Exact where
  chain := h.symbols.chain h.symbols.current
  inner id meaning hm scope hs := by
    obtain ⟨d, hd, rfl⟩ := Option.map_eq_some_iff.1 hm
    exact h.symbols.chain ((h.symbols.definition id d hd).meaning scope hs)
  found scope name inherit id hl := SymbolTable.isSome_definition? (h.symbols.lookup hl)
  package scope id hid := SymbolTable.isSome_definition? ((h.symbols.scope scope).package id hid)
  active rom hrom ha := by
    obtain ⟨i, hi⟩ := Option.isSome_iff_exists.1 ha
    have hlt := (h.rom rom hrom).active i hi
    unfold Rom.activeBank?
    rw [hi]
    exact Option.isSome_iff_exists.2 ⟨rom.banks[i], Array.getElem?_eq_getElem hlt⟩
  reserve i origin ho n hn := by
    have hb := h.bank i
    have hle := hb.counter_le ho
    have hreserved := hb.reserved
    simp only [addressSpace, bankSize] at hle hreserved
    omega
  write i n hn := Nat.le_trans hn (h.bank i).reserved
  counter i counter hc := by
    obtain ⟨origin, ho, rfl, -⟩ := (h.bank i).programCounter? hc
    exact ⟨by rw [ho]; rfl, UInt16.toNat_ofNat_of_lt⟩
  displacement i counter hc target := by
    obtain ⟨origin, -, -, hle⟩ := (h.bank i).programCounter? hc
    have htarget := target.toNat_lt
    simp only [addressSpace] at hle
    unfold Branch.displacement
    omega
  allocate rom hrom counter hc size hpos hlt := by
    have hle := (h.rom rom hrom).ram counter hc
    simp only [addressSpace] at hle ⊢
    exact ⟨by omega, fun hfits => UInt16.toNat_ofNat_of_lt (by simp only [UInt16.size]; omega)⟩

end Context

end Cartridge
