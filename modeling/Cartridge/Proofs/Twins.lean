import Cartridge.Proofs.GatherFrame
import Cartridge.Proofs.Renaming

/-!
# Twins

Two contexts are twins if they differ only in what a program cannot see: in the numbers of the
definitions, in the locations under which they have recorded what they know, and in the spelling of
commands. The operations through which the passes change a context are coupled on twins.

Main definitions:

- `Atlas`: where the statements and the expressions of one program are found in another one, and
  how the commands are spelled there.
- `Context.Twin`: two contexts are twins, under an atlas and a renaming of the definitions.
- `Context.Alike`: two contexts are twins under an atlas.

Main results:

- Theorem `Pass.couples_fold`: folds of one expression are coupled.
- Theorem `Pass.couples_onRom`: what is done to the roms is coupled.
- Theorems `Expr.couples_declare`, `Name.couples_declareLabel` and `BlockKind.couples_openScope`:
  declarations are coupled.
-/

namespace Cartridge

open Run

/-! ## Locations -/

/-- The location to which a path leads down. -/
def Location.descend (l : Location) : List Nat → Location
  | [] => l
  | i :: path => (l.child i).descend path

/-- Where the statements and the expressions of one program are found in another one, and how the
commands are spelled there. -/
structure Atlas where
  places : Location → Location
  sites : Location → Location
  places_inj : ∀ {l m}, places l = places m → l = m
  sites_inj : ∀ {l m}, sites l = sites m → l = m
  /-- How the selections for the command at a location are related. -/
  spelling : Location → Selection → Selection → Prop := fun _ => Eq

namespace Atlas

/-- Everything has stayed where it was. -/
def same : Atlas where
  places := id
  sites := id
  places_inj h := h
  sites_inj h := h

/-- The subtree of a location is found as a whole at another one. -/
def Sends (X : Atlas) (m n : Location) : Prop :=
  ∀ path, X.places (m.descend path) = n.descend path ∧
    X.sites (m.descend path) = n.descend path ∧ X.spelling (m.descend path) = Eq

theorem sends_same (m : Location) : same.Sends m m :=
  fun _ => ⟨rfl, rfl, rfl⟩

variable {X : Atlas} {m n : Location}

/-- The root of a subtree that has moved is found as a statement. -/
theorem Sends.place (h : X.Sends m n) : X.places m = n :=
  (h []).1

/-- The root of a subtree that has moved is found as an expression. -/
theorem Sends.site (h : X.Sends m n) : X.sites m = n :=
  (h []).2.1

/-- Commands in a subtree that has moved keep their spelling. -/
theorem Sends.spelling (h : X.Sends m n) : X.spelling m = Eq :=
  (h []).2.2

/-- The children of a subtree that has moved have moved with it. -/
theorem Sends.child (h : X.Sends m n) (i : Nat) : X.Sends (m.child i) (n.child i) :=
  fun path => h (i :: path)

end Atlas

/-- Two records say the same, at locations that may have moved, up to a renaming of the entries. -/
def Record.Twin {α : Type} (p : Location → Location) (φ : α → α) (r r' : Record α) : Prop :=
  ∀ m, r'.at? (p m) = (r.at? m).map φ

/-- The same entry may be made in both records. -/
theorem Record.Twin.set {α : Type} {p : Location → Location} {φ : α → α} {r r' : Record α}
    (h : Twin p φ r r') (hp : ∀ {l m}, p l = p m → l = m) (m : Location) (entry : Option α) :
    Twin p φ (r.set m entry) (r'.set (p m) (entry.map φ)) := by
  intro other
  by_cases ho : other = m
  · rw [ho, set_self, set_self]
  · rw [set_of_ne ho, set_of_ne fun heq => ho (hp heq)]
    exact h other

/-- An entry that needs no renaming may be made in both records. -/
theorem Record.Twin.put {α : Type} {p : Location → Location} {r r' : Record α} {m n : Location}
    (h : Twin p id r r') (hp : ∀ {l m}, p l = p m → l = m) (hmn : p m = n) (entry : Option α) :
    Twin p id (r.set m entry) (r'.set n entry) := by
  have hset := h.set hp m entry
  rwa [hmn, Option.map_id] at hset

/-- An entry is found at the moved location. -/
theorem Record.Twin.at? {α : Type} {p : Location → Location} {r r' : Record α}
    (h : Twin p id r r') (m : Location) : r'.at? (p m) = r.at? m :=
  (h m).trans Option.map_id'

/-- Two records have entries that are related, at locations that may have moved. -/
def Record.Resembles {α : Type} (p : Location → Location) (R : Location → α → α → Prop)
    (r r' : Record α) : Prop :=
  ∀ m, Option.Rel (R m) (r.at? m) (r'.at? (p m))

section

variable {α : Type} {p : Location → Location} {R : Location → α → α → Prop} {r r' : Record α}
  {m n : Location}

/-- Related entries may be made in both records. -/
theorem Record.Resembles.set (h : Resembles p R r r') (hp : ∀ {l m}, p l = p m → l = m)
    (hmn : p m = n) {entry entry' : Option α} (hentry : Option.Rel (R m) entry entry') :
    Resembles p R (r.set m entry) (r'.set n entry') := by
  intro other
  by_cases ho : other = m
  · rw [ho, hmn, set_self, set_self]
    exact hentry
  · rw [set_of_ne ho, set_of_ne fun heq => ho (hp (heq.trans hmn.symm))]
    exact h other

/-- Where only equal entries are related, the same entry may be made. -/
theorem Record.Resembles.put (h : Resembles p R r r') (hp : ∀ {l m}, p l = p m → l = m)
    (hmn : p m = n) (hR : R m = Eq) (entry : Option α) :
    Resembles p R (r.set m entry) (r'.set n entry) := by
  refine h.set hp hmn ?_
  cases entry with
  | none => exact .none
  | some a => exact .some (hR ▸ rfl)

/-- Where only equal entries are related, the records say the same. -/
theorem Record.Resembles.at? (h : Resembles p R r r') (hmn : p m = n) (hR : R m = Eq) :
    r'.at? n = r.at? m := by
  have hrel := h m
  rw [hmn, hR] at hrel
  generalize r.at? m = a, r'.at? n = b at hrel ⊢
  cases hrel with
  | none => rfl
  | some heq => rw [heq]

end

/-! ## Contexts -/

namespace Context

/-- Two contexts differ only in the numbers of the definitions and in the locations of what is
recorded. -/
structure Twin (X : Atlas) (ρ : DefId → DefId) (c c' : Context) : Prop where
  symbols : c.symbols.Renames ρ c'.symbols
  memo : c.memo.Twin X.sites ρ c.symbols.size c'.memo
  rom : c'.rom = c.rom
  scopes : c.scopes.Twin X.places id c'.scopes
  labels : c.labels.Twin X.places ρ c'.labels
  labelled : ∀ m id, c.labels.at? m = some id → id.index < c.symbols.size
  selections : c.selections.Resembles X.places X.spelling c'.selections
  branches : c.branches.Twin X.places id c'.branches
  contents : c.contents.Twin X.places id c'.contents

/-- Two contexts are twins under some renaming of the definitions. -/
def Alike (X : Atlas) (c c' : Context) : Prop :=
  ∃ ρ, c.Twin X ρ c'

variable {X : Atlas} {ρ : DefId → DefId} {c c' : Context}

/-- Contexts stay twins when their tables grow in the same way. -/
theorem Twin.withSymbols (h : c.Twin X ρ c') {t t' : SymbolTable} (ht : t.Renames ρ t')
    (hsize : c.symbols.size ≤ t.size) :
    { c with symbols := t }.Twin X ρ { c' with symbols := t' } :=
  { h with
    symbols := ht
    memo := ⟨h.memo.result, fun site id ha hid => h.memo.fresh site id ha (Nat.le_trans hsize hid)⟩
    labelled := fun m id hid => Nat.lt_of_lt_of_le (h.labelled m id hid) hsize }

/-- The contexts in which compilations start are twins. -/
theorem alike_start (X : Atlas) : Alike X {} {} :=
  ⟨id,
    { symbols := .empty
      memo := ⟨fun _ => rfl, fun _ _ _ _ => rfl⟩
      rom := rfl
      scopes := fun _ => rfl
      labels := fun _ => rfl
      labelled := nofun
      selections := fun _ => .none
      branches := fun _ => rfl
      contents := fun _ => rfl }⟩

end Context

namespace SymbolTable

variable {C : Log.Coupling} {ρ : DefId → DefId}

/-- A table that has at least a given size is renamed. -/
def Renamed (ρ : DefId → DefId) (size : Nat) (t t' : SymbolTable) : Prop :=
  t.Renames ρ t' ∧ size ≤ t.size

variable {size : Nat}

/-- A redefinition names the place of the earlier declaration, which a renaming keeps. -/
theorem couples_reportRedefinition (name : String) (pos : Option Position) :
    Couples C (Renamed ρ size) (reportRedefinition name pos) (reportRedefinition name pos) := by
  unfold reportRedefinition
  refine .read_same (fun t => (t.binding? t.current name).map t.placeOf) (fun t t' h => ?_)
    fun t t' h => ?_
  · rw [h.1.current, h.1.binding, Option.map_map]
    exact congrArg (Option.map · _) (funext h.1.placeOf)
  · cases hb : t.binding? t.current name with
    | none =>
      rw [hb, Option.map_none, Option.map_eq_none_iff] at h
      rw [h]
      exact .pure ()
    | some previous =>
      rw [hb, Option.map_some] at h
      obtain ⟨previous', hb', hplace⟩ := Option.map_eq_some_iff.1 h
      rw [hb']
      simp only [hplace]
      exact .error _ _

/-- The same meaning may be put into both tables: the name is bound in both or in none. -/
theorem couples_put (name : String) (pos : Option Position) (meaning : Meaning) :
    Couples C (Renamed ρ size) (put name pos meaning) (put name pos meaning) := by
  unfold put
  refine (couples_reportRedefinition name pos).bind fun _ => ?_
  refine .read_same nextDef (fun _ _ h => h.1.nextDef) fun t t' h => ?_
  refine Couples.bind (.update fun u u' hu => ⟨?_, ?_⟩) fun _ => ?_
  · rw [hu.1.current]
    exact hu.1.define _
  · rw [size_define]
    exact Nat.le_succ_of_le hu.2
  · rw [h]
    exact .pure _

/-- New scopes get the same number, since a renaming leaves the scopes alone. -/
theorem couples_createScope (parent : ScopeId) :
    Couples C (Renamed ρ size) (createScope parent) (createScope parent) := by
  unfold createScope
  refine .read_same nextScope (fun _ _ h => h.1.nextScope) fun t t' h => ?_
  rw [h]
  exact Couples.bind (.update fun u u' hu => ⟨hu.1.addScope parent, hu.2⟩) fun _ => .pure _

/-- Creating a package is coupled: the scope, the name, and the link from one to the other. -/
theorem couples_createPackage (name : Name) :
    Couples C (Renamed ρ size) (createPackage name) (createPackage name) := by
  have hset (scope : ScopeId) (id : DefId) : (C.trailing SymbolTable).Holds do
      Run.update fun t => t.setPackage scope id
      return scope :=
    Frame.holds_bind (C.trailing_update _) fun _ => Frame.holds_pure _ _
  have hput (scope : ScopeId) : Couples C (Renamed ρ size)
      (put name.text (some name.pos) (.package scope)) _ :=
    couples_put _ _ _
  have hcreate (parent : ScopeId) : Couples C (Renamed ρ size) (createScope parent) _ :=
    couples_createScope parent
  unfold createPackage
  refine ⟨fun s t hs hl => ?_, Frame.holds_read_bind fun t => Frame.holds_bind (hcreate _).alone
    fun scope => Frame.holds_bind (hput scope).alone (hset scope)⟩
  rw [read_bind_apply, read_bind_apply, hs.1.current]
  refine meet_bind ((hcreate _).both s t hs hl) (fun scope u v _ _ huv hl => ?_)
    fun scope => Frame.holds_bind (hput scope).alone (hset scope)
  refine meet_bind ((hput scope).both u v huv hl) (fun id w w' hw _ hww hl => ?_) (hset scope)
  -- The number of the package is the next one, which every renaming leaves alone.
  obtain ⟨rfl, hstate, -⟩ := put_of_ok hw
  have hlt : u.state.nextDef.index < w.state.size := by
    rw [hstate, size_define]
    exact Nat.lt_succ_self _
  have hpackage := hww.1.setPackage scope hlt
  rw [huv.1.map_nextDef] at hpackage
  exact ⟨rfl, ⟨hpackage, hww.2⟩, hl⟩

end SymbolTable

namespace Pass

variable {C : Log.Coupling} {X : Atlas} {α : Type} {m n : Location}

/-! ## Values -/

theorem couples_note (note : Note) :
    Couples C (Context.Alike X) (Pass.note note) (Pass.note note) :=
  .update fun _ _ ⟨ρ, h⟩ => ⟨ρ, { h with }⟩

/-- Folds of one expression are coupled. -/
theorem couples_fold (h : X.sites m = n) (demand : Demand) (e : Expr) :
    Couples C (Context.Alike X) (fold demand m e) (fold demand n e) where
  both s t := by
    rintro ⟨ρ, hs⟩ hl
    unfold fold foldAt
    rw [read_bind_apply, read_bind_apply, hs.symbols.current, ← h]
    have hfold := hs.symbols.couples_fold X.sites_inj (C := C) demand s.state.symbols.current m e
    refine meet_bind (T := Context.Alike X) (meet_focus (hfold.both _ _ hs.memo hl) ?_) ?_
      fun _ => Frame.holds_pure _ _
    · exact fun memo memo' hm => ⟨ρ, { hs with memo := hm }⟩
    · exact fun folded u v _ _ hu hlog => ⟨rfl, hu, hlog⟩
  alone := by
    refine Frame.holds_fold (G := C.trailing Memo) (fun t scope => ?_) (fun _ _ h => h)
      fun _ _ h => h
    exact t.holds_fold (S := fun _ => True) (fun e _ => C.reports_trailing Memo e)
      (fun _ _ _ _ _ _ h => h) (fun _ _ _ => trivial) (fun _ => trivial) trivial scope e

/-- A pass inside a scope. -/
theorem couples_within (scope : ScopeId) {act act' : Pass α}
    (h : Couples C (Context.Alike X) act act') :
    Couples C (Context.Alike X) (within scope act) (within scope act') := by
  have hfocus (act : Pass α) :
      within scope act = Run.focus (Context.enter scope) (fun ctx _ => ctx.exit) act := by
    funext s
    unfold within Run.focus
    cases act { s with state := s.state.enter scope } <;> rfl
  rw [hfocus, hfocus]
  refine h.focus (fun c c' ⟨ρ, hc⟩ => ?_) fun _ _ c c' _ ⟨ρ, hc⟩ => ?_
  · exact ⟨ρ, { hc with symbols := hc.symbols.enter scope }⟩
  · exact ⟨ρ, { hc with symbols := hc.symbols.exit }⟩

/-- Runs that start by reading what was recorded at a location. -/
theorem couples_recorded {γ : Type} (field : Context → Record γ)
    (hfield : ∀ {ρ c c'}, Context.Twin X ρ c c' → (field c').at? n = (field c).at? m)
    (hcover : ∀ record, ∃ c, field c = record) {next next' : Context → Pass α}
    (hnext : ∀ s t, (field t).at? n = (field s).at? m →
      Couples C (Context.Alike X) (next s) (next' t)) :
    Couples C (Context.Alike X) (Run.read >>= next) (Run.read >>= next') := by
  refine .read (fun ctx => (field ctx).at? m) (fun ctx => (field ctx).at? n)
    (fun c c' ⟨_, hc⟩ => hfield hc) (fun t => ?_) hnext
  obtain ⟨c, hc⟩ := hcover (Record.empty.set m ((field t).at? n))
  exact ⟨c, by rw [hc, Record.set_self]⟩

/-- The scope that a block has opened. -/
theorem couples_scopeOf (h : X.places m = n) (pos : Position) :
    Couples C (Context.Alike X) (scopeOf m pos) (scopeOf n pos) := by
  refine couples_recorded Context.scopes (fun hc => h ▸ hc.scopes.at? m)
    (fun r => ⟨{ scopes := r }, rfl⟩) fun s t hst => ?_
  rw [hst]
  split
  · exact .internal _ _
  · exact .pure _

/-! ## Declarations -/

/-- What is done to the tables keeps the renaming, if it does so on the tables. -/
theorem meet_onSymbols {ρ : DefId → DefId} {act act' : Run SymbolTable α}
    (h : ∀ size, Couples C (SymbolTable.Renamed ρ size) act act') {s t : Logged Context}
    (hs : s.state.Twin X ρ t.state) (hl : C.rel s.log t.log) :
    Meet C (Context.Twin X ρ) (onSymbols act s) (onSymbols act' t) := by
  refine meet_focus ((h s.state.symbols.size).both _ _ ⟨hs.symbols, Nat.le_refl _⟩ hl) ?_
  exact fun u v hu => hs.withSymbols hu.1 hu.2

/-- What is coupled on renamed tables is coupled on the contexts that hold them. -/
theorem couples_onSymbols {act act' : Run SymbolTable α}
    (h : ∀ ρ size, Couples C (SymbolTable.Renamed ρ size) act act') :
    Couples C (Context.Alike X) (onSymbols act) (onSymbols act') where
  both _ _ := fun ⟨ρ, hs⟩ hl => (meet_onSymbols (h ρ) hs hl).imp fun _ _ hst => ⟨ρ, hst⟩
  alone := Frame.holds_focus (fun _ _ h => h) (fun _ _ h => h) (h id 0).alone

end Pass

section

variable {C : Log.Coupling} {X : Atlas} {m n : Location}

/-- A constant is declared alike: the next number is the same in both tables. -/
theorem Expr.couples_declare (name : Name) (value : Expr) :
    Couples C (Context.Alike X) (value.declare name) (value.declare name) := by
  unfold Expr.declare
  refine .read_same (fun ctx => ctx.symbols.current) (fun _ _ ⟨_, h⟩ => h.symbols.current)
    fun s t h => ?_
  rw [h]
  exact (Pass.couples_onSymbols fun _ _ => SymbolTable.couples_put ..).bind fun _ => .pure _

/-- A label is declared alike and its definition recorded at locations that match. -/
theorem Name.couples_declareLabel (h : X.places m = n) (name : Name) :
    Couples C (Context.Alike X) (name.declareLabel m) (name.declareLabel n) := by
  have hput (ρ : DefId → DefId) (size : Nat) : Couples C (SymbolTable.Renamed ρ size)
      (SymbolTable.put name.text (some name.pos) (.label none)) _ :=
    SymbolTable.couples_put ..
  have hput' : Couples C (Context.Alike X) _ _ := Pass.couples_onSymbols hput
  unfold Name.declareLabel
  refine ⟨fun s t ⟨ρ, hs⟩ hl => ?_, Frame.holds_bind hput'.alone fun _ => C.trailing_update _⟩
  refine meet_bind (Pass.meet_onSymbols (hput ρ) hs hl) (fun id u v hu _ huv hl => ?_)
    fun _ => C.trailing_update _
  -- The number of the label is the next one, which every renaming leaves alone.
  obtain ⟨w, hw, rfl⟩ := Gathering.onSymbols_eq_ok.1 hu
  obtain ⟨rfl, hstate, -⟩ := SymbolTable.put_of_ok hw
  have hset := huv.labels.set X.places_inj m (some s.state.symbols.nextDef)
  rw [h, Option.map_some, hs.symbols.map_nextDef] at hset
  refine ⟨rfl, ⟨ρ, { huv with labels := hset, labelled := fun m' id hid => ?_ }⟩, hl⟩
  by_cases hm : m' = m
  · rw [hm, Record.set_self] at hid
    cases hid
    exact Nat.lt_of_lt_of_eq (Nat.lt_succ_self _)
      ((congrArg SymbolTable.size hstate).trans (SymbolTable.size_define _ _)).symm
  · rw [Record.set_of_ne hm] at hid
    exact huv.labelled m' id hid

/-- A block opens a scope with the same number on both sides. -/
theorem BlockKind.couples_openScope (kind : BlockKind) :
    Couples C (Context.Alike X) kind.openScope kind.openScope := by
  have hscope : Couples C (Context.Alike X) BlockKind.scope.openScope
      BlockKind.scope.openScope := by
    refine .read_same (fun ctx => ctx.symbols.current) (fun _ _ ⟨_, h⟩ => h.symbols.current)
      fun s t h => ?_
    rw [h]
    exact Pass.couples_onSymbols fun _ _ => SymbolTable.couples_createScope _
  cases kind with
  | main => exact hscope
  | scope => exact hscope
  | package name => exact Pass.couples_onSymbols fun _ _ => SymbolTable.couples_createPackage name

end

/-! ## Roms -/

namespace Bank

variable {C : Log.Coupling}

/-- Twins have equal banks, so expanding them succeeds or fails alike. -/
theorem couples_expand (amount : Nat) (pos : Position) :
    Couples C Eq (expand amount pos) (expand amount pos) := by
  unfold expand
  refine .read_eq fun b => ?_
  split
  · exact .fatal _ _
  · dsimp only
    split
    · exact .fatal _ _
    · refine (Couples.update_eq _).bind fun _ => ?_
      split
      · exact .fatal _ _
      · exact .pure _

/-- Moving equal banks to an origin is coupled. -/
theorem couples_org (address : UInt16) (pos : Position) :
    Couples C Eq (org address pos) (org address pos) := by
  unfold org
  refine .read_eq fun b => ?_
  split
  · exact .update_eq _
  · split
    · exact .fatal _ _
    · exact couples_expand _ _

/-- Seeking in equal banks is coupled. -/
theorem couples_seek (address : UInt16) (pos : Position) :
    Couples C Eq (seek address pos) (seek address pos) := by
  unfold seek
  refine .read_eq fun b => ?_
  split
  · exact .fatal _ _
  · split
    · exact .fatal _ _
    · exact .update_eq _

/-- Equal banks have room for the same amounts. -/
theorem couples_ensure (amount : Nat) (pos : Position) :
    Couples C Eq (ensure amount pos) (ensure amount pos) := by
  unfold ensure
  refine .read_eq fun b => ?_
  split
  · exact .fatal _ _
  · exact .pure _

/-- Equal banks have room for the same bytes, and then hold the same. -/
theorem couples_writeBytes (bytes : List UInt8) (pos : Position) :
    Couples C Eq (writeBytes bytes pos) (writeBytes bytes pos) :=
  (couples_ensure _ _).bind fun _ => .update_eq _

/-- Writing a byte into equal banks is coupled; a value that is too large is reported on both
sides. -/
theorem couples_writeByte (value : UInt16) (pos : Position) :
    Couples C Eq (writeByte value pos) (writeByte value pos) := by
  refine (couples_ensure _ _).bind fun _ => Couples.bind ?_ fun _ => .update_eq _
  unfold checkByte
  split
  · exact .error _ _
  · exact .pure _

end Bank

namespace Rom

variable {C : Log.Coupling}

/-- Equal roms switch to the same bank. -/
theorem couples_switchBank (index : UInt16) (pos : Position) :
    Couples C Eq (switchBank index pos) (switchBank index pos) := by
  unfold switchBank
  refine .read_eq fun rom => ?_
  split
  · exact .fatal _ _
  · exact .update_eq _

/-- The ram of equal roms grows alike. -/
theorem couples_expandRam (amount : Nat) (pos : Position) :
    Couples C Eq (expandRam amount pos) (expandRam amount pos) := by
  unfold expandRam
  refine .read_eq fun rom => ?_
  split
  · exact .fatal _ _
  · dsimp only
    split
    · exact .fatal _ _
    · exact .update_eq _

end Rom

namespace Pass

variable {C : Log.Coupling} {X : Atlas} {α : Type}

/-- What is done to the roms is coupled if it is on equal roms. -/
theorem couples_onRom {act : Run Rom α} (h : Couples C Eq act act) (pos : Position) :
    Couples C (Context.Alike X) (onRom pos act) (onRom pos act) := by
  unfold onRom
  refine .read_same Context.rom (fun _ _ ⟨_, hc⟩ => hc.rom) fun s t hrom => ?_
  rw [hrom]
  split
  · exact .internal _ _
  · refine h.focus (fun _ _ _ => rfl) fun c c' rom rom' ⟨ρ, hc⟩ heq => ?_
    exact ⟨ρ, { hc with rom := congrArg some heq.symm }⟩

/-- What is done to the active banks is coupled if it is on equal banks. -/
theorem couples_onBank {act : Run Bank α} (h : Couples C Eq act act) (what : String)
    (pos : Position) : Couples C (Context.Alike X) (onBank what pos act) (onBank what pos act) := by
  refine couples_onRom ?_ pos
  refine .read_eq fun rom => ?_
  split
  · exact .fatal _ _
  · exact h.focus (fun _ _ heq => heq ▸ rfl) fun _ _ _ _ hrom hbank => by rw [hrom, hbank]

/-- The same amount may be reserved on both sides. -/
theorem couples_reserve (what : String) (amount : Nat) (pos : Position) :
    Couples C (Context.Alike X) (reserve what amount pos) (reserve what amount pos) :=
  couples_onBank (Bank.couples_expand amount pos) what pos

/-- Nothing is reserved on either side if there is no amount. -/
theorem couples_reserveSome (what : String) (amount : Option Nat) (pos : Position) :
    Couples C (Context.Alike X) (reserveSome what amount pos) (reserveSome what amount pos) := by
  cases amount with
  | none => exact .pure _
  | some n => exact couples_reserve what n pos

/-- Twins have the same program counter, and none without a rom. -/
theorem couples_programCounter (what : String) (missing : Error) (pos : Position) :
    Couples C (Context.Alike X) (programCounter what missing pos)
      (programCounter what missing pos) := by
  refine couples_onBank (.read_eq fun b => ?_) what pos
  split
  · exact .fatal _ _
  · exact .pure _

theorem couples_writeByte (value : UInt16) (pos : Position) :
    Couples C (Context.Alike X) (writeByte value pos) (writeByte value pos) :=
  couples_onBank (Bank.couples_writeByte value pos) _ pos

theorem couples_writeBytes (bytes : List UInt8) (pos : Position) :
    Couples C (Context.Alike X) (writeBytes bytes pos) (writeBytes bytes pos) :=
  couples_onBank (Bank.couples_writeBytes bytes pos) _ pos

theorem couples_writeWord (value : UInt16) (pos : Position) :
    Couples C (Context.Alike X) (writeWord value pos) (writeWord value pos) :=
  couples_onBank (Bank.couples_writeBytes _ pos) _ pos

/-- A unit of either width is written alike. -/
theorem couples_writeUnit (width : Width) (value : UInt16) (pos : Position) :
    Couples C (Context.Alike X) (writeUnit width value pos) (writeUnit width value pos) := by
  cases width with
  | byte => exact couples_writeByte value pos
  | word => exact couples_writeWord value pos

end Pass

end Cartridge
