import Cartridge.Proofs.Lexical
import Cartridge.Proofs.Renaming

/-!
# Names and the history of a table

A symbol table is used in any order: scopes are made, entered and left, names are put into them,
also twice, and labels are placed. What was made and put in the course of this is its history.
Lexical scoping is said here in terms of the history alone, without the table: a name stands for
what was put last under it, in the nearest scope that it was put into, and a dotted path goes on
inside of the packages that its pieces stand for.

Main definitions:

- `History`: which scopes were made, and what was put into them.
- `History.Denotes`: what a path stands for.
- `History.Offends`: the piece that a path fails at, with the error.
- `SymbolTable.Recorded`: the tables that the operations make, with their histories.

Main results:

- Theorem `SymbolTable.Recorded.follows`: a table binds what was put last, and its scopes are inside
  of each other as they were made.
- Theorem `SymbolTable.Recorded.resolve_lexical`: a path is resolved by lexical scoping.
-/

namespace Cartridge

/-! ## Histories -/

/-- A name that was put into a scope, with its meaning at that time. -/
structure Put where
  scope : ScopeId
  name : String
  /-- The definition that was made for it. -/
  id : DefId
  meaning : Meaning

/-- What has happened to a table, the latest first. -/
structure History where
  /-- The scopes that were made, each with the one that it was made inside of. -/
  made : List (ScopeId × ScopeId)
  puts : List Put

namespace History

/-- At first there are the builtins in the root, under different names. -/
def fresh : History where
  made := []
  puts := Builtin.all.map fun b => ⟨SymbolTable.root, b.name, ⟨b.number⟩, .builtin b⟩

def make (h : History) (scope parent : ScopeId) : History :=
  { h with made := (scope, parent) :: h.made }

def put (h : History) (p : Put) : History :=
  { h with puts := p :: h.puts }

/-- The scope that a scope was made inside of. -/
def parent? (h : History) (scope : ScopeId) : Option ScopeId :=
  h.made.lookup scope

/-- What was put last into a scope under a name. -/
def latest? (h : History) (scope : ScopeId) (name : String) : Option Put :=
  h.puts.find? fun p => decide (p.scope = scope ∧ p.name = name)

/-! ## The rules -/

/-- What a name stands for in a scope: what was put last in the nearest scope that it was put
into. -/
inductive Nearest (h : History) (name : String) : ScopeId → Put → Prop
  | here {scope : ScopeId} {p : Put} (latest : h.latest? scope name = some p) :
      Nearest h name scope p
  | outwards {scope outer : ScopeId} {p : Put} (free : h.latest? scope name = none)
      (parent : h.parent? scope = some outer) (nearest : Nearest h name outer p) :
      Nearest h name scope p

/-- What a path stands for in a scope. Its first piece is looked for outwards, and every further one
directly in the package that the pieces before it stand for. -/
inductive Denotes (h : History) (scope : ScopeId) : List Name → Put → Prop
  | first {piece : Name} {p : Put} (nearest : h.Nearest piece.text scope p) :
      Denotes h scope [piece] p
  | next {before : List Name} {piece : Name} {package p : Put} {inner : ScopeId}
      (denotes : Denotes h scope before package) (meaning : package.meaning = .package inner)
      (latest : h.latest? inner piece.text = some p) : Denotes h scope (before ++ [piece]) p

/-- Some pieces of a path open a scope for the next one: no pieces open the scope that the path is
resolved in, and other ones the scope of the package that they stand for. -/
def Opens (h : History) (scope : ScopeId) (before : List Name) (inner : ScopeId) : Prop :=
  before = [] ∧ inner = scope ∨ ∃ p, h.Denotes scope before p ∧ p.meaning = .package inner

/-- Only the last piece of a path is absent. -/
def LacksLast (h : History) (scope : ScopeId) (path : List Name) : Prop :=
  ∃ before piece inner, path = before ++ [piece] ∧ h.Opens scope before inner ∧
    ∀ p, ¬ h.Denotes scope path p

/-- The error of a path, and the piece that it is at: a piece before the last one is absent or is
not a package, or the last one is absent although it has to be there. -/
inductive Offends (h : History) (scope : ScopeId) (forbid : Bool) (path : List Name) :
    Error → Name → Prop
  | noPackage {before rest : List Name} {piece next : Name} {inner : ScopeId}
      (split : path = before ++ piece :: next :: rest) (opens : h.Opens scope before inner)
      (absent : ∀ p, ¬ h.Denotes scope (before ++ [piece]) p) :
      Offends h scope forbid path
        (.noPackage (Name.dotted (before ++ [piece])) (Name.dotted path)) piece
  | notAPackage {before rest : List Name} {piece next : Name} {p : Put}
      (split : path = before ++ piece :: next :: rest)
      (denotes : h.Denotes scope (before ++ [piece]) p)
      (other : ∀ inner, p.meaning ≠ .package inner) :
      Offends h scope forbid path
        (.notAPackage (Name.dotted (before ++ [piece])) (Name.dotted path)) piece
  | noAttribute {before : List Name} {piece : Name} {inner : ScopeId}
      (split : path = before ++ [piece]) (opens : h.Opens scope before inner)
      (absent : ∀ p, ¬ h.Denotes scope path p) (forbidden : forbid = true) :
      Offends h scope forbid path
        (.noAttribute piece.text (SymbolTable.placeText before) (Name.dotted path)) piece

/-- The way from a scope outwards, up to one that was not made inside of another. -/
inductive Outwards (h : History) : ScopeId → List ScopeId → Prop
  | last {scope : ScopeId} (parent : h.parent? scope = none) : Outwards h scope [scope]
  | step {scope outer : ScopeId} {scopes : List ScopeId} (parent : h.parent? scope = some outer)
      (outwards : Outwards h outer scopes) : Outwards h scope (scope :: scopes)

variable {h : History} {scope : ScopeId} {path before : List Name} {piece : Name} {p q : Put}

/-! ## One meaning for each path -/

/-- What was put last was put at some time. -/
theorem mem_of_latest? {name : String} (hp : h.latest? scope name = some p) : p ∈ h.puts :=
  List.mem_of_find?_eq_some hp

/-- What a name stands for was put, in its own scope or in one further out. -/
theorem Nearest.mem {name : String} (hp : h.Nearest name scope p) : p ∈ h.puts := by
  induction hp with
  | here latest => exact mem_of_latest? latest
  | outwards _ _ _ ih => exact ih

/-- A name stands for one thing only: the search outwards stops at the first scope that has it. -/
theorem Nearest.unique {name : String} (hp : h.Nearest name scope p) (hq : h.Nearest name scope q) :
    p = q := by
  induction hp with
  | here latest =>
    cases hq with
    | here latest' => exact Option.some.inj (latest.symm.trans latest')
    | outwards free => cases latest.symm.trans free
  | outwards free parent _ ih =>
    cases hq with
    | here latest => cases latest.symm.trans free
    | outwards _ parent' nearest =>
      cases parent.symm.trans parent'
      exact ih nearest

/-- What a path stands for was put at some time, whether it has one piece or more. -/
theorem Denotes.mem (hp : h.Denotes scope path p) : p ∈ h.puts := by
  cases hp with
  | first nearest => exact nearest.mem
  | next _ _ latest => exact mem_of_latest? latest

/-- The empty path stands for nothing. -/
theorem not_denotes_nil : ¬ h.Denotes scope [] p := by
  intro hp
  generalize hpath : ([] : List Name) = path at hp
  cases hp with
  | first => cases hpath
  | next => exact List.append_ne_nil_of_right_ne_nil _ (List.cons_ne_nil _ _) hpath.symm

/-- The last piece of a path stands for something in the scope that the pieces before it open. -/
theorem denotes_append_iff : h.Denotes scope (before ++ [piece]) p ↔
    before = [] ∧ h.Nearest piece.text scope p ∨
      ∃ package inner, h.Denotes scope before package ∧ package.meaning = .package inner ∧
        h.latest? inner piece.text = some p := by
  constructor
  · intro hp
    generalize hpath : before ++ [piece] = path at hp
    cases hp with
    | first nearest =>
      obtain ⟨hbefore, hpiece⟩ := List.append_inj' (hpath.trans (List.nil_append _).symm) rfl
      cases hpiece
      exact Or.inl ⟨hbefore, nearest⟩
    | next denotes meaning latest =>
      obtain ⟨hbefore, hpiece⟩ := List.append_inj' hpath rfl
      cases hpiece
      exact Or.inr ⟨_, _, hbefore ▸ denotes, meaning, latest⟩
  · rintro (⟨rfl, nearest⟩ | ⟨package, inner, denotes, meaning, latest⟩)
    · exact .first nearest
    · exact .next denotes meaning latest

/-- A path stands for one thing only, by induction on its pieces. -/
theorem Denotes.unique (hp : h.Denotes scope path p) (hq : h.Denotes scope path q) : p = q := by
  induction hp generalizing q with
  | first nearest =>
    rw [← List.nil_append [_], denotes_append_iff] at hq
    rcases hq with ⟨-, nearest'⟩ | ⟨_, _, denotes, -, -⟩
    · exact nearest.unique nearest'
    · exact absurd denotes not_denotes_nil
  | next denotes meaning latest ih =>
    rcases denotes_append_iff.1 hq with ⟨hnil, -⟩ | ⟨package, inner, denotes', meaning', latest'⟩
    · exact absurd (hnil ▸ denotes) not_denotes_nil
    · cases ih denotes'
      cases meaning.symm.trans meaning'
      exact Option.some.inj (latest.symm.trans latest')

/-- A path stands for something only if each of its parts opens a scope. -/
theorem Denotes.opens (hp : h.Denotes scope path p) {rest : List Name}
    (hpath : path = before ++ rest) (hrest : rest ≠ []) : ∃ inner, h.Opens scope before inner := by
  induction hp generalizing rest with
  | first =>
    cases before with
    | nil => exact ⟨scope, Or.inl ⟨rfl, rfl⟩⟩
    | cons first before =>
      have hnil := (List.append_eq_nil_iff.1 (List.cons.inj hpath).2.symm).2
      exact absurd hnil hrest
  | @next init last package _ inner denotes meaning _ ih =>
    obtain ⟨front, final, rfl⟩ := (List.eq_nil_or_concat rest).resolve_left hrest
    rw [List.concat_eq_append, ← List.append_assoc] at hpath
    obtain ⟨hinit, -⟩ := List.append_inj' hpath rfl
    cases front with
    | nil =>
      rw [List.append_nil] at hinit
      exact ⟨inner, Or.inr ⟨package, hinit ▸ denotes, meaning⟩⟩
    | cons => exact ih hinit (List.cons_ne_nil _ _)

/-- So does a path that opens a scope itself. -/
theorem Opens.opens {inner : ScopeId} (ho : h.Opens scope path inner) {rest : List Name}
    (hpath : path = before ++ rest) : ∃ inner, h.Opens scope before inner := by
  rcases ho with ⟨rfl, rfl⟩ | ⟨p, hp, hmeaning⟩
  · obtain ⟨rfl, -⟩ := List.append_eq_nil_iff.1 hpath.symm
    exact ⟨inner, Or.inl ⟨rfl, rfl⟩⟩
  · cases rest with
    | nil =>
      rw [List.append_nil] at hpath
      exact ⟨inner, Or.inr ⟨p, hpath ▸ hp, hmeaning⟩⟩
    | cons => exact hp.opens hpath (List.cons_ne_nil _ _)

/-- Nothing comes after pieces that open no scope. -/
theorem blocked {rest : List Name} (hpath : path = before ++ piece :: rest)
    (hb : ∀ inner, ¬ h.Opens scope before inner) :
    (∀ p, ¬ h.Denotes scope path p) ∧ ¬ h.LacksLast scope path := by
  constructor
  · intro p hp
    obtain ⟨inner, ho⟩ := hp.opens hpath (List.cons_ne_nil _ _)
    exact hb inner ho
  · rintro ⟨init, last, inner, hlast, ho, -⟩
    obtain ⟨front, final, hrest⟩ :=
      (List.eq_nil_or_concat (piece :: rest)).resolve_left (List.cons_ne_nil _ _)
    rw [hlast, hrest, List.concat_eq_append, ← List.append_assoc] at hpath
    obtain ⟨inner', ho'⟩ := ho.opens (List.append_inj' hpath rfl).1
    exact hb inner' ho'

/-- A path that offends stands for nothing, and lacks more than a last piece that may be absent. -/
theorem Offends.not_denotes {forbid : Bool} {e : Error}
    (ho : h.Offends scope forbid path e piece) :
    (∀ p, ¬ h.Denotes scope path p) ∧ ¬ (path = [] ∨ forbid = false ∧ h.LacksLast scope path) := by
  -- An early piece that is absent or not a package opens no scope.
  have early : ∀ {before rest : List Name} {piece next : Name},
      path = before ++ piece :: next :: rest →
      (∀ inner, ¬ h.Opens scope (before ++ [piece]) inner) →
      (∀ p, ¬ h.Denotes scope path p) ∧
        ¬ (path = [] ∨ forbid = false ∧ h.LacksLast scope path) := by
    intro before rest piece next hpath hb
    obtain ⟨hnone, hlacks⟩ := blocked (hpath.trans (List.append_cons before piece _)) hb
    refine ⟨hnone, ?_⟩
    rintro (rfl | ⟨-, h⟩)
    · exact List.append_ne_nil_of_right_ne_nil _ (List.cons_ne_nil _ _) hpath.symm
    · exact hlacks h
  cases ho with
  | noPackage split _ absent =>
    refine early split fun inner => ?_
    rintro (⟨hnil, -⟩ | ⟨p, hp, -⟩)
    · exact List.append_ne_nil_of_right_ne_nil _ (List.cons_ne_nil _ _) hnil
    · exact absent p hp
  | notAPackage split denotes other =>
    refine early split fun inner => ?_
    rintro (⟨hnil, -⟩ | ⟨p, hp, hmeaning⟩)
    · exact List.append_ne_nil_of_right_ne_nil _ (List.cons_ne_nil _ _) hnil
    · cases denotes.unique hp
      exact other inner hmeaning
  | noAttribute split _ absent forbidden =>
    refine ⟨absent, ?_⟩
    rintro (rfl | ⟨hfalse, -⟩)
    · exact List.append_ne_nil_of_right_ne_nil _ (List.cons_ne_nil _ _) split.symm
    · cases forbidden.symm.trans hfalse

end History

/-! ## Tables with their histories -/

namespace SymbolTable

open History

/-- The tables that the operations make, with what has happened to them. Every operation is run for
itself, with any log, so a name that is put twice may be reported or may end the run. A scope that
is entered, or that another one is made inside of, is one of the table. -/
inductive Recorded : SymbolTable → History → Prop
  | empty : Recorded .empty .fresh
  | enter {t : SymbolTable} {h : History} {scope : ScopeId} (recorded : Recorded t h)
      (known : scope.index < t.scopes.size) : Recorded (t.enter scope) h
  | exit {t : SymbolTable} {h : History} (recorded : Recorded t h) : Recorded t.exit h
  | createScope {t : SymbolTable} {h : History} {log : Log} {parent scope : ScopeId}
      {u : Logged SymbolTable} (recorded : Recorded t h) (known : parent.index < t.scopes.size)
      (ran : SymbolTable.createScope parent ⟨t, log⟩ = .ok scope u) :
      Recorded u.state (h.make scope parent)
  | put {t : SymbolTable} {h : History} {log : Log} {name : String} {pos : Option Position}
      {meaning : Meaning} {id : DefId} {u : Logged SymbolTable} (recorded : Recorded t h)
      (ran : SymbolTable.put name pos meaning ⟨t, log⟩ = .ok id u) :
      Recorded u.state (h.put ⟨t.current, name, id, meaning⟩)
  | putAbandoned {t : SymbolTable} {h : History} {log : Log} {name : String}
      {pos : Option Position} {meaning : Meaning} {a : Abort} {u : Logged SymbolTable}
      (recorded : Recorded t h)
      (ran : SymbolTable.put name pos meaning ⟨t, log⟩ = .error a u) : Recorded u.state h
  | createPackage {t : SymbolTable} {h : History} {log : Log} {name : Name} {scope : ScopeId}
      {u : Logged SymbolTable} (recorded : Recorded t h)
      (ran : SymbolTable.createPackage name ⟨t, log⟩ = .ok scope u) :
      Recorded u.state ((h.make scope t.current).put
        ⟨t.current, name.text, t.nextDef, .package scope⟩)
  | createPackageAbandoned {t : SymbolTable} {h : History} {log : Log} {name : Name} {a : Abort}
      {u : Logged SymbolTable} (recorded : Recorded t h)
      (ran : SymbolTable.createPackage name ⟨t, log⟩ = .error a u) :
      Recorded u.state (h.make t.nextScope t.current)
  | placeLabel {t : SymbolTable} {h : History} (recorded : Recorded t h) (id : DefId)
      (address : UInt16) : Recorded (t.placeLabel id address) h

/-- A table agrees with a history: it binds what was put last, its scopes are inside of each other
as they were made, and what was put as a package is one. -/
structure Follows (t : SymbolTable) (h : History) : Prop where
  binding : ∀ scope name, t.binding? scope name = (h.latest? scope name).map Put.id
  parent : ∀ scope, (t.scope scope).parent = h.parent? scope
  known : ∀ p ∈ h.puts, p.id.index < t.size
  package : ∀ p ∈ h.puts, ∀ inner,
    t.meaning? p.id = some (.package inner) ↔ p.meaning = .package inner

variable {σ : Type} {t u : SymbolTable} {h : History}

/-- A name that cannot be put because of the limit leaves the table alone. -/
theorem put_of_error {name : String} {pos : Option Position} {meaning : Meaning}
    {s t : Logged SymbolTable} {a : Abort} (h : put name pos meaning s = .error a t) :
    t.state = s.state := by
  unfold put at h
  cases hr : reportRedefinition name pos s with
  | ok _ u =>
    rw [Run.bind_apply_of_ok hr, Run.read_bind_apply, Run.update_bind_apply] at h
    cases h
  | error b u =>
    rw [Run.bind_apply_of_error hr] at h
    cases h
    unfold reportRedefinition at hr
    rw [Run.read_bind_apply] at hr
    cases hb : s.state.binding? s.state.current name with
    | none =>
      simp only [hb] at hr
      cases hr
    | some previous =>
      simp only [hb] at hr
      rcases Nat.lt_or_ge (s.log.count + 1) s.log.limit with hroom | hfull
      · rw [Run.error_of_room hroom] at hr
        cases hr
      · rw [Run.error_of_full hfull] at hr
        cases hr
        rfl

/-- A package that cannot be put because of the limit leaves a scope behind. -/
theorem createPackage_of_error {name : Name} {s t : Logged SymbolTable} {a : Abort}
    (h : createPackage name s = .error a t) : t.state = s.state.addScope s.state.current := by
  unfold createPackage createScope at h
  rw [Run.read_bind_apply] at h
  simp only [bind_assoc, pure_bind] at h
  rw [Run.read_bind_apply, Run.update_bind_apply] at h
  generalize hs : (⟨s.state.addScope s.state.current, s.log⟩ : Logged SymbolTable) = s' at h
  cases hp : put name.text (some name.pos) (.package s.state.nextScope) s' with
  | ok id u =>
    rw [Run.bind_apply_of_ok hp, Run.update_bind_apply] at h
    cases h
  | error b u =>
    rw [Run.bind_apply_of_error hp] at h
    cases h
    rw [put_of_error hp, ← hs]

/-! ## The operations on tables -/

namespace Follows

/-- The names in the first root are those of the builtins, each with its number. -/
theorem lookup_builtins (bs : List Builtin) (name : String) :
    (bs.map fun b => (b.name, (⟨b.number⟩ : DefId))).lookup name =
      ((bs.map fun b => (⟨root, b.name, ⟨b.number⟩, .builtin b⟩ : Put)).find? fun p =>
        decide (p.scope = root ∧ p.name = name)).map Put.id := by
  induction bs with
  | nil => rfl
  | cons b bs ih =>
    rw [List.map_cons, List.map_cons, List.lookup_cons, List.find?_cons]
    by_cases heq : b.name = name
    · rw [beq_iff_eq.2 heq.symm, decide_eq_true ⟨rfl, heq⟩]
      rfl
    · rw [beq_eq_false_iff_ne.2 (Ne.symm heq), decide_eq_false fun h => heq h.2]
      exact ih

/-- At first only the builtins are bound, in the root. -/
theorem empty : SymbolTable.empty.Follows .fresh where
  binding scope name := by
    by_cases hroot : scope = root
    · subst hroot
      exact lookup_builtins Builtin.all name
    · have hnone : SymbolTable.empty.binding? scope name = none := by
        refine Option.eq_none_iff_forall_ne_some.2 fun id hid => hroot ?_
        have hlt : scope.index < 1 := lt_size_of_binding? hid
        exact congrArg ScopeId.mk (Nat.lt_one_iff.1 hlt)
      have hlatest : History.fresh.latest? scope name = none := by
        refine List.find?_eq_none.2 fun p hp => ?_
        obtain ⟨b, -, rfl⟩ := List.mem_map.1 hp
        exact fun h => hroot (of_decide_eq_true h).1.symm
      rw [hnone, hlatest]
      rfl
  parent scope := by
    refine Option.eq_none_iff_forall_ne_some.2 fun outer hs => ?_
    have hlt : scope.index < 1 := lt_size_of_parent hs
    obtain rfl : scope = root := congrArg ScopeId.mk (Nat.lt_one_iff.1 hlt)
    cases hs
  known p hp := by
    obtain ⟨b, -, rfl⟩ := List.mem_map.1 hp
    cases b <;> decide
  package p hp inner := by
    obtain ⟨b, -, rfl⟩ := List.mem_map.1 hp
    have hmeaning : SymbolTable.empty.meaning? ⟨b.number⟩ = some (.builtin b) := by
      cases b <;> rfl
    rw [hmeaning]
    constructor
    · rintro ⟨⟩
    · rintro ⟨⟩

/-- A new scope is inside the given one, and nothing was put into it. -/
theorem addScope (hf : t.Follows h) (parent : ScopeId) :
    (t.addScope parent).Follows (h.make t.nextScope parent) where
  binding scope name := (t.binding?_addScope parent scope name).trans (hf.binding scope name)
  parent scope := by
    rw [scope_addScope]
    unfold History.parent? History.make
    rw [List.lookup_cons]
    by_cases heq : scope = t.nextScope
    · rw [if_pos heq, beq_iff_eq.2 heq]
    · rw [if_neg heq, beq_eq_false_iff_ne.2 heq]
      exact hf.parent scope
  known := hf.known
  package := hf.package

/-- A definition in a scope of the table is bound there until the next one of that name. -/
theorem define (hf : t.Follows h) {d : Definition} (hd : d.owner.index < t.scopes.size) :
    (t.define d).Follows (h.put ⟨d.owner, d.name, t.nextDef, d.meaning⟩) where
  binding scope name := by
    rw [binding?_define]
    unfold History.latest? History.put
    rw [List.find?_cons]
    by_cases heq : d.owner = scope ∧ d.name = name
    · obtain ⟨rfl, rfl⟩ := heq
      rw [if_pos ⟨⟨rfl, hd⟩, rfl⟩, decide_eq_true ⟨rfl, rfl⟩]
      rfl
    · rw [if_neg fun h => heq ⟨h.1.1.symm, h.2.symm⟩, decide_eq_false heq]
      exact hf.binding scope name
  parent scope := (t.parent_define d scope).trans (hf.parent scope)
  known p hp := by
    rw [size_define]
    rcases List.mem_cons.1 hp with rfl | hp
    · exact Nat.lt_succ_self _
    · exact Nat.lt_succ_of_lt (hf.known p hp)
  package p hp inner := by
    unfold meaning?
    rw [definition?_define]
    rcases List.mem_cons.1 hp with rfl | hp
    · rw [if_pos rfl]
      exact ⟨Option.some.inj, congrArg some⟩
    · have hne : p.id ≠ t.nextDef := by
        rintro heq
        exact absurd (congrArg DefId.index heq) (Nat.ne_of_lt (hf.known p hp))
      rw [if_neg hne]
      exact hf.package p hp inner

/-- Saying which package a scope belongs to is no event of the history. -/
theorem setPackage (hf : t.Follows h) (scope : ScopeId) (package : DefId) :
    (t.setPackage scope package).Follows h where
  binding other name := by
    unfold binding?
    rw [(t.scope_setPackage scope other package).2]
    exact hf.binding other name
  parent other := (t.scope_setPackage scope other package).1.trans (hf.parent other)
  known := hf.known
  package := hf.package

/-- The address of a label does not matter to any name. -/
theorem placeLabel (hf : t.Follows h) (id : DefId) (address : UInt16) :
    (t.placeLabel id address).Follows h where
  binding := hf.binding
  parent := hf.parent
  known p hp := Nat.lt_of_lt_of_eq (hf.known p hp) Array.size_modify.symm
  package p hp inner := by
    rw [← hf.package p hp inner]
    unfold meaning?
    rw [definition?_placeLabel]
    split
    · cases t.definition? p.id with
      | none => rfl
      | some d =>
        unfold Definition.placed
        cases hm : d.meaning <;> simp [hm]
    · rfl

end Follows

/-- Every table that the operations make is one of those whose scopes are inside of older ones. -/
theorem Recorded.built (hr : Recorded t h) : t.Built := by
  induction hr with
  | empty => exact .empty
  | enter _ known ih => exact ih.enter known
  | exit _ ih => exact ih.exit
  | createScope _ known ran ih =>
    cases ran
    exact ih.addScope known
  | put _ ran ih =>
    rw [(put_of_ok ran).2.1]
    exact ih.put _ _ _
  | putAbandoned _ ran ih =>
    rw [put_of_error ran]
    exact ih
  | createPackage _ ran ih =>
    rw [(createPackage_of_ok ran).2.1]
    exact ih.withPackage _
  | createPackageAbandoned _ ran ih =>
    rw [createPackage_of_error ran]
    exact ih.addScope ih.nested_and_entered.2.current
  | placeLabel _ id address ih => exact ih.placeLabel id address

/-- A table binds what was put last, and its scopes are inside of each other as they were made. -/
theorem Recorded.follows (hr : Recorded t h) : t.Follows h := by
  induction hr with
  | empty => exact .empty
  | enter _ _ ih => exact ⟨ih.binding, ih.parent, ih.known, ih.package⟩
  | exit _ ih => exact ⟨ih.binding, ih.parent, ih.known, ih.package⟩
  | createScope _ _ ran ih =>
    cases ran
    exact ih.addScope _
  | put recorded ran ih =>
    obtain ⟨rfl, hstate, -⟩ := put_of_ok ran
    rw [hstate]
    exact ih.define recorded.built.nested_and_entered.2.current
  | putAbandoned _ ran ih =>
    rw [put_of_error ran]
    exact ih
  | @createPackage t _ _ _ _ _ recorded ran ih =>
    obtain ⟨rfl, hstate, -⟩ := createPackage_of_ok ran
    rw [hstate]
    have hlt := Nat.lt_of_lt_of_le recorded.built.nested_and_entered.2.current
      (t.retains_addScope t.current).size
    exact ((ih.addScope t.current).define hlt).setPackage _ _
  | createPackageAbandoned _ ran ih =>
    rw [createPackage_of_error ran]
    exact ih.addScope _
  | placeLabel _ id address ih => exact ih.placeLabel id address

/-! ## Resolution -/

section Resolution

variable {scope inner : ScopeId} {before pieces path : List Name} {piece : Name} {forbid : Bool}

/-- The search outwards through the table finds what the history says. -/
theorem Follows.visible_iff (hf : t.Follows h) {name : String} {id : DefId} :
    t.Visible name scope id ↔ ∃ p, h.Nearest name scope p ∧ p.id = id := by
  constructor
  · intro hv
    induction hv with
    | here binding =>
      rw [hf.binding, Option.map_eq_some_iff] at binding
      obtain ⟨p, latest, rfl⟩ := binding
      exact ⟨p, .here latest, rfl⟩
    | outwards free parent _ ih =>
      obtain ⟨p, nearest, hid⟩ := ih
      rw [hf.binding, Option.map_eq_none_iff] at free
      exact ⟨p, .outwards free ((hf.parent _).symm.trans parent) nearest, hid⟩
  · rintro ⟨p, nearest, rfl⟩
    induction nearest with
    | here latest => exact .here ((hf.binding _ _).trans (congrArg (Option.map Put.id) latest))
    | outwards free parent _ ih =>
      exact .outwards ((hf.binding _ _).trans (congrArg (Option.map Put.id) free))
        ((hf.parent _).trans parent) ih

/-- A piece is found in the scope that the pieces before it open if the path up to it stands for
something. -/
theorem Follows.lookup_iff (hf : t.Follows h) (hn : t.Nested) (ho : h.Opens scope before inner)
    {id : DefId} : t.lookup inner piece.text before.isEmpty = some id ↔
      ∃ p, h.Denotes scope (before ++ [piece]) p ∧ p.id = id := by
  cases before with
  | nil =>
    obtain ⟨-, rfl⟩ | ⟨p, hp, -⟩ := ho
    · rw [List.isEmpty_nil, hn.lookup_eq_some_iff, hf.visible_iff]
      constructor
      · rintro ⟨p, nearest, hid⟩
        exact ⟨p, .first nearest, hid⟩
      · rintro ⟨p, hp, hid⟩
        rcases denotes_append_iff.1 hp with ⟨-, nearest⟩ | ⟨_, _, denotes, -, -⟩
        · exact ⟨p, nearest, hid⟩
        · exact absurd denotes not_denotes_nil
    · exact absurd hp not_denotes_nil
  | cons first before =>
    have hlookup : t.lookup inner piece.text (first :: before).isEmpty =
        (h.latest? inner piece.text).map Put.id := hf.binding inner piece.text
    rw [hlookup, Option.map_eq_some_iff]
    obtain ⟨hnil, -⟩ | ⟨package, hpackage, hmeaning⟩ := ho
    · cases hnil
    constructor
    · rintro ⟨p, latest, hid⟩
      exact ⟨p, .next hpackage hmeaning latest, hid⟩
    · rintro ⟨p, hp, hid⟩
      rcases denotes_append_iff.1 hp with ⟨hnil, -⟩ | ⟨_, _, hpackage', hmeaning', latest⟩
      · cases hnil
      · cases hpackage.unique hpackage'
        cases hmeaning.symm.trans hmeaning'
        exact ⟨p, latest, hid⟩

/-- How the resolution of a path ends: what is returned, and what becomes of the log. -/
inductive Ends (h : History) (scope : ScopeId) (path : List Name) (forbid : Bool) (s : Logged σ) :
    Lookup → Logged σ → Prop
  | found {p : Put} (denotes : h.Denotes scope path p) : Ends h scope path forbid s (.found p.id) s
  | missing (absent : path = [] ∨ forbid = false ∧ h.LacksLast scope path) :
      Ends h scope path forbid s .missing s
  | failed {e : Error} {piece : Name} (offends : h.Offends scope forbid path e piece) :
      Ends h scope path forbid s .failed { s with log := s.log.soft e piece.pos }

/-- An error that is reported before the limit ends the resolution. -/
theorem Ends.of_offends {s : Logged σ} (hroom : s.log.count + 1 < s.log.limit) {e : Error}
    (ho : h.Offends scope forbid path e piece) :
    ∃ result u, (do Run.error e piece.pos; return Lookup.failed : Run σ Lookup) s = .ok result u ∧
      Ends h scope path forbid s result u := by
  refine ⟨_, _, ?_, .failed ho⟩
  rw [Run.bind_apply_of_ok (Run.error_of_room hroom)]
  rfl

/-- A definition comes out exactly if the path stands for it. -/
theorem Ends.found_iff {s u : Logged σ} {result : Lookup}
    (he : Ends h scope path forbid s result u) {id : DefId} :
    result = .found id ↔ ∃ p, h.Denotes scope path p ∧ p.id = id := by
  constructor
  · rintro rfl
    cases he with
    | found denotes => exact ⟨_, denotes, rfl⟩
  · rintro ⟨p, denotes, rfl⟩
    cases he with
    | found denotes' => rw [denotes.unique denotes']
    | missing absent =>
      rcases absent with rfl | ⟨-, _, _, _, -, -, absent⟩
      · exact absurd denotes not_denotes_nil
      · exact absurd denotes (absent p)
    | failed offends => exact absurd denotes (offends.not_denotes.1 p)

/-- A path is missing exactly if it is empty, or if only its last piece is absent and may be. -/
theorem Ends.missing_iff {s u : Logged σ} {result : Lookup}
    (he : Ends h scope path forbid s result u) :
    result = .missing ↔ path = [] ∨ forbid = false ∧ h.LacksLast scope path := by
  constructor
  · rintro rfl
    cases he with
    | missing absent => exact absent
  · intro hlacks
    cases he with
    | found denotes =>
      rcases hlacks with rfl | ⟨-, _, _, _, -, -, absent⟩
      · exact absurd denotes not_denotes_nil
      · exact absurd denotes (absent _)
    | missing => rfl
    | failed offends => exact absurd hlacks offends.not_denotes.2

/-- The pieces that remain are resolved in the scope that the pieces before them open. -/
theorem Follows.resolvePieces (hf : t.Follows h) (hn : t.Nested) {s : Logged σ}
    (hroom : s.log.count + 1 < s.log.limit) (ho : h.Opens scope before inner)
    (hpath : path = before ++ pieces) (hstart : path = [] ∨ pieces ≠ []) :
    ∃ result u, t.resolvePieces forbid (Name.dotted path) before inner pieces s = .ok result u ∧
      Ends h scope path forbid s result u := by
  induction pieces generalizing before inner with
  | nil =>
    exact ⟨_, _, rfl, .missing (Or.inl (hstart.resolve_right fun h => h rfl))⟩
  | cons piece rest ih =>
    unfold SymbolTable.resolvePieces
    have hfind : ∀ id, t.lookup inner piece.text before.isEmpty = some id ↔ _ :=
      fun id => hf.lookup_iff hn ho
    cases hl : t.lookup inner piece.text before.isEmpty with
    | none =>
      have habsent : ∀ p, ¬ h.Denotes scope (before ++ [piece]) p := by
        intro p hp
        cases hl.symm.trans ((hfind p.id).2 ⟨p, hp, rfl⟩)
      cases rest with
      | nil =>
        have habsent : ∀ p, ¬ h.Denotes scope path p := hpath ▸ habsent
        cases forbid with
        | false =>
          exact ⟨_, _, rfl, .missing (Or.inr ⟨rfl, before, piece, inner, hpath, ho, habsent⟩)⟩
        | true => exact Ends.of_offends hroom (.noAttribute hpath ho habsent rfl)
      | cons next rest => exact Ends.of_offends hroom (.noPackage hpath ho habsent)
    | some id =>
      obtain ⟨p, hp, rfl⟩ := (hfind id).1 hl
      cases rest with
      | nil => exact ⟨_, _, rfl, .found (hpath ▸ hp)⟩
      | cons next rest =>
        have hpackage := hf.package p hp.mem
        rcases hm : t.meaning? p.id with _ | ⟨b⟩ | ⟨v, place⟩ | ⟨a⟩ | ⟨a⟩ | ⟨inside⟩
        case some.package =>
          have hopens : h.Opens scope (before ++ [piece]) inside :=
            Or.inr ⟨p, hp, (hpackage inside).1 hm⟩
          simp only [hm]
          exact ih hopens (hpath.trans (List.append_cons _ _ _)) (Or.inr (List.cons_ne_nil _ _))
        -- Nothing else has names inside of it.
        all_goals
          simp only [hm]
          refine Ends.of_offends hroom (.notAPackage hpath hp fun inside hinside => ?_)
          cases hm.symm.trans ((hpackage inside).2 hinside)

/-- The way outwards through the table is the one that the history says, and it ends. -/
theorem Follows.outwards_chain (hf : t.Follows h) (hn : t.Nested) {n : Nat}
    (hlt : scope.index < n) : h.Outwards scope (t.chainUpTo n scope) := by
  induction n generalizing scope with
  | zero => exact absurd hlt (Nat.not_lt_zero _)
  | succ n ih =>
    unfold chainUpTo
    cases hp : (t.scope scope).parent with
    | none => exact .last ((hf.parent scope).symm.trans hp)
    | some outer =>
      have hinner : outer.index < n :=
        Nat.lt_of_lt_of_le (hn scope outer hp) (Nat.le_of_lt_succ hlt)
      exact .step ((hf.parent scope).symm.trans hp) (ih hinner)

end Resolution

/-- A path is resolved by lexical scoping, in every table that the operations make and in each of
its scopes. It is found exactly if it stands for something, and then to be that. It is missing
exactly if it is empty, or if only its last piece is absent and may be; neither is reported. In all
other cases resolution fails, and one error is reported, at the piece that offends. The way outwards
always ends. -/
theorem Recorded.resolve_lexical (hr : Recorded t h) (scope : ScopeId) (path : List Name)
    (forbid : Bool) {s : Logged σ} (hroom : s.log.count + 1 < s.log.limit) :
    ∃ result u, t.resolve scope path forbid s = .ok result u ∧
      (∀ id, result = .found id ↔ ∃ p, h.Denotes scope path p ∧ p.id = id) ∧
      (result = .missing ↔ path = [] ∨ forbid = false ∧ h.LacksLast scope path) ∧
      (result ≠ .failed → u = s) ∧
      (result = .failed → ∃ e piece, h.Offends scope forbid path e piece ∧
        u = { s with log := s.log.soft e piece.pos }) ∧
      h.Outwards scope (t.chain scope) := by
  have hstart : path = [] ∨ path ≠ [] := Classical.em _
  obtain ⟨result, u, hrun, hends⟩ := hr.follows.resolvePieces hr.built.nested hroom
    (Or.inl ⟨rfl, rfl⟩) (List.nil_append path).symm hstart
  have hchain := hr.follows.outwards_chain hr.built.nested (Nat.lt_succ_self scope.index)
  refine ⟨result, u, hrun, fun id => hends.found_iff, hends.missing_iff, ?_, ?_, hchain⟩
  · intro hne
    cases hends with
    | found => rfl
    | missing => rfl
    | failed => exact absurd rfl hne
  · rintro rfl
    cases hends with
    | failed offends => exact ⟨_, _, offends, rfl⟩

/-- A name that was put twice into a package, seen from a scope inside of it. -/
theorem resolve_lexical_redefined : ∃ t h, Recorded t h ∧ t.current = ⟨2⟩ ∧
    (t.resolve t.current [{ text := "p" }, { text := "x" }] true ⟨(), { limit := 2 }⟩ =
      .ok (.found ⟨13⟩) ⟨(), { limit := 2 }⟩) ∧
    ∃ p, h.Denotes t.current [{ text := "p" }, { text := "x" }] p ∧ p.id = ⟨13⟩ := by
  have package := @Recorded.createPackage _ _ { limit := 2 } { text := "p" } _ _ .empty rfl
  have entered := @Recorded.enter _ _ ⟨1⟩ package (by decide)
  have first := @Recorded.put _ _ { limit := 2 } "x" none (.label none) _ _ entered rfl
  have second := @Recorded.put _ _ { limit := 2 } "x" none (.storage 5) _ _ first rfl
  have inside := @Recorded.createScope _ _ { limit := 2 } ⟨1⟩ _ _ second (by decide) rfl
  have reached := (@Recorded.enter _ _ ⟨2⟩ inside (by decide)).placeLabel ⟨12⟩ 7
  refine ⟨_, _, reached, rfl, rfl, ?_⟩
  obtain ⟨result, u, hrun, hfound, -⟩ :=
    @Recorded.resolve_lexical Unit _ _ reached ⟨2⟩ [{ text := "p" }, { text := "x" }] true
      ⟨(), { limit := 2 }⟩ (by decide)
  cases hrun
  exact (hfound ⟨13⟩).1 rfl

end SymbolTable

end Cartridge
