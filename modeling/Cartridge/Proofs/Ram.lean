import Cartridge.Compile.Basic
import Cartridge.Proofs.Gathered

/-!
# The ram of a program

Variables take their addresses from a counter while declarations are gathered. The header of a
program takes the counter away, a relocation moves it, and a variable takes the bytes at the
counter. Here these events are read off the tree, in the order of the text, and what the gathering
does with them is compared with the definitions that it leaves behind.

Main definitions:

- `Node.ramEvents`: what a node asks of the ram.
- `Serves`: regions that are given out one after the other.
- `Region.Consecutive`: regions without gaps between them.

Main results:

- Theorem `Serves.consecutive`: what is given out from a counter has no gaps.
- Theorem `Gathering.served_gather`: the gathering of a statement gives out the regions that it asks
  for.
- Theorem `Program.regions_of_gather`: variables neither overlap nor leave the address space.
-/

namespace Cartridge

/-! ## What is asked of the ram -/

/-- A variable with its size. -/
structure Storage where
  name : Name
  width : Width
  /-- The number of its units. -/
  count : Nat

/-- The number of bytes of a variable. -/
def Storage.size (v : Storage) : Nat :=
  v.width.bytes * v.count

/-- What happens to the ram counter. -/
inductive RamEvent where
  /-- A header starts a rom, which has no counter yet. -/
  | reset
  | move (address : UInt16)
  | take (v : Storage)

def RamEvent.storage? : RamEvent → Option Storage
  | take v => some v
  | reset | move _ => none

/-- The number of units of each variable of a statement, by what is known of its size. Variables
whose size has no value, or is zero, are rejected. -/
def Variables.units? (memo : Memo) (location : Location) (v : Variables) : Option Nat :=
  match v.arraySize with
  | none => some 1
  | some _ => (memo.value? (.tree (location.child 0))).bind fun n =>
      if n = 0 then none else some n.toNat

/-- What the variables of a statement ask for, unless they are rejected. -/
def Variables.storages (memo : Memo) (location : Location) (v : Variables) : List Storage :=
  match v.units? memo location with
  | none => []
  | some count => v.names.map fun name => { name, width := v.width, count }

/-- What a node asks of the ram, by what is known of its expressions. -/
def Node.ramEvents (memo : Memo) (location : Location) : Node → List RamEvent
  | .statement (.block .main _ _) => [.reset]
  | .statement (.relocation (.ram _) _) =>
    ((memo.value? (.tree (location.child 1))).map RamEvent.move).toList
  | .statement (.storage v) => (v.storages memo location).map .take
  | _ => []

/-- What the nodes at some places ask of the ram. -/
def ramEvents (memo : Memo) (places : List (Location × Node)) : List RamEvent :=
  places.flatMap fun p => p.2.ramEvents memo p.1

/-! ## What the ram gives out -/

/-- The addresses of a variable. -/
structure Region where
  storage : Storage
  start : Nat

/-- The address after a variable. -/
def Region.stop (r : Region) : Nat :=
  r.start + r.storage.size

/-- Regions without gaps between them. -/
def Region.Consecutive : Nat → List Region → Prop
  | _, [] => True
  | start, r :: rest => r.start = start ∧ Consecutive r.stop rest

/-- Regions are given out for events, from one state of the counter to another. A region is given
out if there is a counter and if it fits into the address space. -/
inductive Serves : Option Nat → List RamEvent → List Region → Option Nat → Prop
  | done {counter : Option Nat} : Serves counter [] [] counter
  | reset {counter last : Option Nat} {events : List RamEvent} {regions : List Region}
      (rest : Serves none events regions last) : Serves counter (.reset :: events) regions last
  | move {counter last : Option Nat} {address : UInt16} {events : List RamEvent}
      {regions : List Region} (rest : Serves (some address.toNat) events regions last) :
      Serves counter (.move address :: events) regions last
  | take {last : Option Nat} {start : Nat} {v : Storage} {events : List RamEvent}
      {regions : List Region} (fits : start + v.size ≤ addressSpace)
      (rest : Serves (some (start + v.size)) events regions last) :
      Serves (some start) (.take v :: events) ({ storage := v, start } :: regions) last

/-- Regions are ordered if there are no gaps between them. -/
theorem Region.Consecutive.pairwise {start : Nat} {regions : List Region}
    (h : Consecutive start regions) :
    (∀ r ∈ regions, start ≤ r.start) ∧ regions.Pairwise fun r r' => r.stop ≤ r'.start := by
  induction regions generalizing start with
  | nil => exact ⟨fun _ h => absurd h List.not_mem_nil, .nil⟩
  | cons r rest ih =>
    obtain ⟨rfl, hrest⟩ := h
    obtain ⟨hlower, hpairwise⟩ := ih hrest
    refine ⟨fun r' hr' => ?_, .cons hlower hpairwise⟩
    rcases List.mem_cons.1 hr' with rfl | hr'
    · exact Nat.le_refl _
    · exact Nat.le_trans (Nat.le_add_right _ _) (hlower r' hr')

namespace Serves

variable {c d m : Option Nat} {events events' : List RamEvent} {regions regions' : List Region}

/-- Regions are given out part after part, with the counter passed on. -/
theorem append (h : Serves c events regions m) (h' : Serves m events' regions' d) :
    Serves c (events ++ events') (regions ++ regions') d := by
  induction h with
  | done => exact h'
  | reset _ ih => exact .reset (ih h')
  | move _ ih => exact .move (ih h')
  | take fits _ ih => exact .take fits (ih h')

/-- Events can be served in parts. -/
theorem of_append (h : Serves c (events ++ events') regions d) :
    ∃ first second m, regions = first ++ second ∧ Serves c events first m ∧
      Serves m events' second d := by
  induction events generalizing c regions with
  | nil => exact ⟨[], regions, c, rfl, .done, h⟩
  | cons e events ih =>
    cases h with
    | reset rest =>
      obtain ⟨first, second, m, rfl, hfirst, hsecond⟩ := ih rest
      exact ⟨first, second, m, rfl, .reset hfirst, hsecond⟩
    | move rest =>
      obtain ⟨first, second, m, rfl, hfirst, hsecond⟩ := ih rest
      exact ⟨first, second, m, rfl, .move hfirst, hsecond⟩
    | take fits rest =>
      obtain ⟨first, second, m, rfl, hfirst, hsecond⟩ := ih rest
      exact ⟨_ :: first, second, m, rfl, .take fits hfirst, hsecond⟩

/-- There is a region for each variable. -/
theorem storages (h : Serves c events regions d) :
    regions.map Region.storage = events.filterMap RamEvent.storage? := by
  induction h with
  | done => rfl
  | reset _ ih => exact ih
  | move _ ih => exact ih
  | take _ _ ih => exact congrArg (_ :: ·) ih

/-- Every region fits into the address space. -/
theorem fits (h : Serves c events regions d) : ∀ r ∈ regions, r.stop ≤ addressSpace := by
  induction h with
  | done => exact fun _ h => absurd h List.not_mem_nil
  | reset _ ih => exact ih
  | move _ ih => exact ih
  | take fits _ ih =>
    intro r hr
    rcases List.mem_cons.1 hr with rfl | hr
    · exact fits
    · exact ih r hr

/-- The counter stays in the address space, or at its end. -/
theorem counter_le (h : Serves c events regions d) (hc : ∀ n, c = some n → n ≤ addressSpace) :
    ∀ n, d = some n → n ≤ addressSpace := by
  induction h with
  | done => exact hc
  | reset _ ih => exact ih fun _ h => by cases h
  | @move _ _ address _ _ _ ih =>
    refine ih fun n hn => ?_
    cases hn
    exact Nat.le_of_lt address.toNat_lt
  | take fits _ ih =>
    refine ih fun n hn => ?_
    cases hn
    exact fits

/-- What is given out from a counter has no gaps. -/
theorem consecutive {start : Nat} {vs : List Storage}
    (h : Serves (some start) (vs.map .take) regions d) : Region.Consecutive start regions := by
  induction vs generalizing start regions with
  | nil =>
    cases h
    trivial
  | cons v vs ih =>
    cases h with
    | take _ rest => exact ⟨rfl, ih rest⟩

/-- Nothing is given out without a counter. -/
theorem eq_nil_of_none {vs : List Storage} (h : Serves none (vs.map .take) regions d) :
    vs = [] := by
  cases vs with
  | nil => rfl
  | cons v vs => cases h

end Serves

/-! ## Variables in the context -/

/-- What a variable is known by: its name, where it was declared, and its address. -/
def Definition.storage? (d : Definition) : Option (String × Option Position × UInt16) :=
  match d.meaning with
  | .storage address => some (d.name, d.pos, address)
  | _ => none

/-- The variables of a table, in the order of their declarations. -/
def SymbolTable.storages (t : SymbolTable) : List (String × Option Position × UInt16) :=
  t.definitions.toList.filterMap Definition.storage?

/-- What the variable of a region is known by. -/
def Region.entry (r : Region) : String × Option Position × UInt16 :=
  (r.storage.name.text, some r.storage.name.pos, UInt16.ofNat r.start)

/-- The ram counter, if there is one. -/
def Context.ram? (ctx : Context) : Option Nat :=
  ctx.rom.bind Rom.ram

/-- A new definition adds a variable at the end, if it is one. -/
theorem SymbolTable.storages_define (t : SymbolTable) (d : Definition) :
    (t.define d).storages = t.storages ++ d.storage?.toList := by
  unfold storages define
  rw [Array.toList_push, List.filterMap_append]
  cases hd : d.storage? with
  | none => rw [List.filterMap_cons_none hd, List.filterMap_nil, Option.toList_none]
  | some entry => rw [List.filterMap_cons_some hd, List.filterMap_nil, Option.toList_some]

namespace Context

/-- Neither the variables nor the ram counter change. -/
structure Steady (s t : Context) : Prop where
  storages : t.symbols.storages = s.symbols.storages
  ram : t.ram? = s.ram?

theorem Steady.refl (s : Context) : s.Steady s :=
  ⟨rfl, rfl⟩

theorem Steady.trans {s t u : Context} (hst : s.Steady t) (htu : t.Steady u) : s.Steady u :=
  ⟨htu.storages.trans hst.storages, htu.ram.trans hst.ram⟩

/-- Something that is not a variable is defined. -/
theorem Steady.define {s : Context} {d : Definition} (hd : d.storage? = none) :
    s.Steady { s with symbols := s.symbols.define d } := by
  refine ⟨?_, rfl⟩
  rw [SymbolTable.storages_define, hd, Option.toList_none, List.append_nil]

/-- The variables that were declared, and the ram counter, are as some events want it. The sums with
the counter are taken in 32 bits, so it must not be too large before. -/
def Served (events : List RamEvent) (s t : Context) : Prop :=
  (∀ n, s.ram? = some n → n ≤ addressSpace) → ∃ regions,
    t.symbols.storages = s.symbols.storages ++ regions.map Region.entry ∧
      Serves s.ram? events regions t.ram?

/-- If neither the variables nor the counter change, no event has happened. -/
theorem Steady.served {s t : Context} (h : s.Steady t) : Served [] s t := by
  refine fun _ => ⟨[], ?_, ?_⟩
  · rw [h.storages, List.map_nil, List.append_nil]
  · rw [h.ram]
    exact .done

/-- Events that follow each other are served one after the other. -/
theorem Served.append {events events' : List RamEvent} {s t u : Context}
    (hst : Served events s t) (htu : Served events' t u) : Served (events ++ events') s u := by
  intro hs
  obtain ⟨regions, hdefs, hserves⟩ := hst hs
  obtain ⟨regions', hdefs', hserves'⟩ := htu (hserves.counter_le hs)
  refine ⟨regions ++ regions', ?_, hserves.append hserves'⟩
  rw [hdefs', hdefs, List.map_append, List.append_assoc]

/-- Steps that leave the ram alone may come before. -/
theorem Served.after {events : List RamEvent} {s t u : Context} (htu : Served events t u)
    (hst : s.Steady t) : Served events s u :=
  hst.served.append htu

/-- Steps that leave the ram alone may come after. -/
theorem Served.before {events : List RamEvent} {s t u : Context} (hst : Served events s t)
    (htu : t.Steady u) : Served events s u := by
  have h := hst.append htu.served
  rwa [List.append_nil] at h

end Context

namespace Gathering

/-! ## What leaves the ram alone -/

/-- The frame of runs that leave the variables and the ram counter alone. -/
def steady : Run.Frame Context :=
  .finishing (fun s t => s.state.Steady t.state) (fun s => .refl s.state) fun hst htu =>
    hst.trans htu

/-- Putting a name into the table leaves the ram alone unless it is a variable. -/
theorem steady_put {name : String} {pos : Option Position} {meaning : Meaning}
    (hmeaning : ∀ address, meaning ≠ .storage address) :
    steady.Holds (Pass.onSymbols (SymbolTable.put name pos meaning)) := by
  refine Run.Frame.holds_of_ok (fun _ _ => trivial) fun s _ t h => ?_
  obtain ⟨u, hu, rfl⟩ := onSymbols_eq_ok.1 h
  obtain ⟨-, hstate, -⟩ := SymbolTable.put_of_ok hu
  show s.state.Steady { s.state with symbols := u.state }
  rw [hstate]
  refine .define ?_
  cases meaning with
  | storage address => exact absurd rfl (hmeaning address)
  | _ => rfl

/-- The constants and the settings of the header leave the ram alone. -/
theorem opens_steady : Opens steady fun _ _ => True where
  reports e _ := Run.Frame.reports_of_log (fun s _ => Context.Steady.refl s.state)
    (fun _ _ => trivial) e
  fold m e _ := by
    refine Run.Frame.holds_of_ok (fun _ _ => trivial) fun s _ t h => ?_
    obtain ⟨hstate, -⟩ := Pass.fold_of_ok h
    show s.state.Steady t.state
    rw [hstate]
    exact ⟨rfl, rfl⟩
  note n := Run.Frame.holds_update fun s => ⟨rfl, rfl⟩
  constant name value := by
    unfold Expr.declare
    refine Run.Frame.holds_read_bind fun _ => ?_
    exact Run.Frame.holds_bind (steady_put fun _ h => by cases h) fun _ => Run.Frame.holds_pure _ _

/-- Declaring a label leaves the ram alone. -/
theorem steady_label (m : Location) (name : Name) : steady.Holds (name.declareLabel m) := by
  unfold Name.declareLabel
  refine Run.Frame.holds_bind (steady_put fun _ h => by cases h) fun id => ?_
  exact Run.Frame.holds_update fun s => ⟨rfl, rfl⟩

/-- Opening a scope leaves the ram alone, the name of a package included. -/
theorem steady_openScope (kind : BlockKind) : steady.Holds kind.openScope := by
  have hscope : ∀ parent, steady.Holds (Pass.onSymbols (SymbolTable.createScope parent)) := by
    refine fun parent => Run.Frame.holds_of_ok (fun _ _ => trivial) fun s _ t h => ?_
    obtain ⟨u, hu, rfl⟩ := onSymbols_eq_ok.1 h
    cases hu
    exact ⟨rfl, rfl⟩
  refine Run.Frame.holds_openScope hscope (fun name => ?_) kind
  refine Run.Frame.holds_of_ok (fun _ _ => trivial) fun s _ t h => ?_
  obtain ⟨u, hu, rfl⟩ := onSymbols_eq_ok.1 h
  obtain ⟨-, hstate, -⟩ := SymbolTable.createPackage_of_ok hu
  show s.state.Steady { s.state with symbols := u.state }
  rw [hstate]
  refine ⟨?_, rfl⟩
  show (SymbolTable.define _ _).storages = _
  rw [SymbolTable.storages_define]
  exact List.append_nil _

/-! ## Single statements -/

/-- A variable takes the bytes at the counter. -/
theorem served_take {v : Storage} {s t u : Logged Context} {address : UInt16} {id : DefId}
    {pos : Position} (hlt : v.size < 0x20000)
    (halloc : Variables.allocate v.size pos s = .ok address t)
    (hput : Pass.onSymbols (SymbolTable.put v.name.text (some v.name.pos) (.storage address)) t =
      .ok id u) :
    Context.Served [.take v] s.state u.state ∧ u.state.memo = s.state.memo := by
  obtain ⟨rom, counter, hrom, hram, hle, rfl, rfl⟩ := allocate_eq_ok.1 halloc
  obtain ⟨w, hw, rfl⟩ := onSymbols_eq_ok.1 hput
  obtain ⟨-, hstate, -⟩ := SymbolTable.put_of_ok hw
  refine ⟨fun hs => ?_, rfl⟩
  have hcounter : s.state.ram? = some counter := by
    unfold Context.ram?
    rw [hrom]
    exact hram
  -- The counter is in the address space, so the sum does not wrap around.
  have hbound := hs counter hcounter
  have hmod : (counter + v.size) % 0x100000000 = counter + v.size := by
    unfold addressSpace at hbound
    exact Nat.mod_eq_of_lt (by omega)
  rw [hmod] at hle
  refine ⟨[{ storage := v, start := counter }], ?_, ?_⟩
  · show w.state.storages = _
    rw [hstate]
    exact SymbolTable.storages_define _ _
  · rw [hcounter]
    refine .take hle ?_
    have hlast : some (counter + v.size) = some ((counter + v.size) % 0x100000000) := by
      rw [hmod]
    rw [hlast]
    exact .done

/-- Variables of one size take their regions in the order of their names. Nothing is folded on the
way. -/
theorem served_declareAll {width : Width} {count : Nat} (hlt : width.bytes * count < 0x20000)
    {names : List Name} {s t : Logged Context}
    (h : Variables.declareAll (width.bytes * count) names s = .ok () t) :
    Context.Served ((names.map fun name => Storage.mk name width count).map .take) s.state t.state ∧
      t.state.memo = s.state.memo := by
  induction names generalizing s with
  | nil =>
    cases h
    exact ⟨(Context.Steady.refl _).served, rfl⟩
  | cons name rest ih =>
    unfold Variables.declareAll at h
    obtain ⟨address, u, halloc, hnext⟩ := Run.bind_eq_ok.1 h
    obtain ⟨id, v, hput, hrest⟩ := Run.bind_eq_ok.1 hnext
    obtain ⟨hfirst, hmemo⟩ := served_take (v := ⟨name, width, count⟩) hlt halloc hput
    obtain ⟨hothers, hmemo'⟩ := ih hrest
    exact ⟨hfirst.append hothers, hmemo'.trans hmemo⟩

/-- The number of units is what the size was folded to. -/
theorem units?_of_count? {location : Location} {v : Variables} {s t : Logged Context}
    {count : Option Nat} (h : v.count? location s = .ok count t) {memo : Memo}
    (hmemo : memo.value? (.tree (location.child 0)) =
      t.state.memo.value? (.tree (location.child 0))) : v.units? memo location = count := by
  unfold Variables.count? at h
  unfold Variables.units?
  cases hsize : v.arraySize with
  | none =>
    simp only [hsize] at h
    cases h
    rfl
  | some e =>
    simp only [hsize] at h
    obtain ⟨n, u, hfold, hcheck⟩ := Run.bind_eq_ok.1 h
    obtain ⟨-, -, -, hvalue, -⟩ := Pass.fold_of_ok hfold
    dsimp only
    cases n with
    | none =>
      cases hcheck
      rw [hmemo, ← hvalue]
      rfl
    | some n =>
      dsimp only at hcheck
      by_cases hzero : n = 0
      · rw [if_pos hzero] at hcheck
        obtain ⟨_, w, herror, hret⟩ := Run.bind_eq_ok.1 hcheck
        obtain ⟨-, rfl⟩ := Run.error_eq_ok.1 herror
        cases hret
        rw [hmemo, ← hvalue]
        exact if_pos hzero
      · rw [if_neg hzero] at hcheck
        cases hcheck
        rw [hmemo, ← hvalue]
        exact if_neg hzero

/-- The size of an array may be folded and reported before any address is given out. -/
theorem steady_count (location : Location) (v : Variables) : steady.Holds (v.count? location) := by
  unfold Variables.count?
  split
  · exact Run.Frame.holds_pure _ _
  · refine Run.Frame.holds_bind (opens_steady.fold _ _ trivial) fun n => ?_
    split
    · exact Run.Frame.holds_pure _ _
    · split
      · exact Run.Frame.holds_bind ((opens_steady.reports _ rfl).holds_error _) fun _ =>
          Run.Frame.holds_pure _ _
      · exact Run.Frame.holds_pure _ _

/-- A declaration takes one region for each of its names, or none if its size is rejected. The size
is read from any memo that agrees with the one at the end. -/
theorem served_storage {location : Location} {v : Variables} {s t : Logged Context} {memo : Memo}
    (h : v.declare location s = .ok () t)
    (hmemo : memo.value? (.tree (location.child 0)) =
      t.state.memo.value? (.tree (location.child 0))) :
    Context.Served ((v.storages memo location).map .take) s.state t.state := by
  unfold Variables.declare at h
  obtain ⟨count, u, hcount, hall⟩ := Run.bind_eq_ok.1 h
  have hsteady : s.state.Steady u.state := (steady_count location v).rel_of_ok hcount
  unfold Variables.storages
  cases count with
  | none =>
    cases hall
    rw [units?_of_count? hcount hmemo]
    exact hsteady.served
  | some count =>
    obtain ⟨hserved, hkeep⟩ := served_declareAll (size_lt hcount).2 hall
    rw [hkeep] at hmemo
    rw [units?_of_count? hcount hmemo]
    exact hserved.after hsteady

/-- A relocation of the ram moves the counter to the value of its destination, and one of the rom
asks nothing of the ram. -/
theorem served_relocation {location : Location} {pos : Position} {target : Relocation}
    {s t : Logged Context} {memo : Memo} (h : target.gather location pos s = .ok () t)
    (hmemo : memo.value? (.tree (location.child 1)) =
      t.state.memo.value? (.tree (location.child 1))) :
    Context.Served (Node.ramEvents memo location (.statement (.relocation target pos))) s.state
      t.state := by
  cases target with
  | rom bank dest =>
    cases h
    exact (Context.Steady.refl _).served
  | ram dest =>
    unfold Relocation.gather at h
    obtain ⟨value, u, hfold, hnext⟩ := Run.bind_eq_ok.1 h
    have hsteady : s.state.Steady u.state := (opens_steady.fold _ _ trivial).rel_of_ok hfold
    obtain ⟨-, -, -, hvalue, -⟩ := Pass.fold_of_ok hfold
    cases value with
    | none => cases hnext
    | some address =>
      obtain ⟨_, w, hmove, hnote⟩ := Run.bind_eq_ok.1 hnext
      obtain ⟨rom, x, hrom, hx, rfl⟩ := Pass.onRom_eq_ok.1 hmove
      cases hx
      cases hnote
      have hevent : Node.ramEvents memo location (.statement (.relocation (.ram dest) pos)) =
          [.move address] := by
        unfold Node.ramEvents
        dsimp only
        rw [hmemo]
        show ((u.state.memo.value? _).map RamEvent.move).toList = _
        rw [← hvalue]
        rfl
      rw [hevent]
      refine Context.Served.after (fun _ => ⟨[], ?_, .move .done⟩) hsteady
      exact (List.append_nil _).symm

/-! ## The whole gathering -/

/-- Commands ask nothing of the ram. -/
theorem ramEvents_commands (memo : Memo) (location : Location) (receiver : Operand)
    (commands : List Command) (index : Nat) :
    ramEvents memo (Statement.placesOfCommands location receiver index commands) = [] := by
  refine List.flatMap_eq_nil_iff.2 fun p hp => ?_
  obtain ⟨k, c, -, -, hnode⟩ := Statement.mem_placesOfCommands (m := p.1) (n := p.2) hp
  rw [hnode]
  rfl

/-- What a memo says of the expressions below some locations is what another one says. -/
def Agrees (P : Location → Prop) (memo other : Memo) : Prop :=
  ∀ m, P m → memo.value? (.tree m) = other.value? (.tree m)

/-- A header takes the counter away, and other blocks leave the ram alone. -/
theorem served_startRom {kind : BlockKind} {location : Location} {statements : List Statement}
    {pos : Position} {s t : Logged Context} (h : kind.startRom location statements pos s = .ok () t)
    (memo : Memo) :
    Context.Served (Node.ramEvents memo location (.statement (.block kind statements pos))) s.state
      t.state := by
  have hrefuse (hr : Header.refuse statements s = .ok () t) : s.state.Steady t.state := by
    obtain ⟨-, rfl⟩ := refuse_of_ok hr
    exact .refl _
  cases kind with
  | main =>
    obtain ⟨index, header, settings, u, -, -, hresolve, rfl⟩ := install_of_ok h
    have hsteady : s.state.Steady u.state :=
      (opens_steady.holds_resolve header fun _ _ => trivial).rel_of_ok hresolve
    refine Context.Served.after (fun _ => ⟨[], ?_, .reset .done⟩) hsteady
    exact (List.append_nil _).symm
  | scope => exact (hrefuse h).served
  | package name => exact (hrefuse h).served

mutual

/-- The gathering of a statement gives out the regions that it asks for. -/
theorem served_gather :
    ∀ (stmt : Statement) {location : Location} {s t : Logged Context} {memo : Memo},
      stmt.gather location s = .ok () t → Agrees location.Under memo t.state.memo →
      Context.Served (ramEvents memo (stmt.places location)) s.state t.state
  | .block kind statements pos, location, s, t, memo, h, hmemo => by
    obtain ⟨scope, u, x, y, v, hopen, hconstants, hstart, hothers, rfl⟩ := gather_block_of_ok h
    have hbefore : s.state.Steady x.state := by
      have hs : s.state.Steady u.state := (steady_openScope kind).rel_of_ok hopen
      have hx : Context.Steady _ x.state :=
        (opens_steady.holds_constants statements).rel_of_ok hconstants
      exact hs.trans ⟨hx.storages, hx.ram⟩
    have hserved := (served_startRom hstart memo).append
      (served_gatherOthers statements hothers fun m ⟨_, _, hm⟩ => hmemo m hm.of_child)
    exact (hserved.after hbefore).before ⟨rfl, rfl⟩
  | .relocation target pos, location, s, t, memo, h, hmemo => by
    unfold Statement.gather at h
    have hserved := served_relocation h (hmemo _ (location.under_child 1))
    rwa [← List.append_nil (Node.ramEvents _ _ _)] at hserved
  | .storage v, location, s, t, memo, h, hmemo => by
    unfold Statement.gather at h
    have hserved := served_storage h (hmemo _ (location.under_child 0))
    rwa [← List.append_nil (List.map _ _)] at hserved
  | .label name, location, s, t, memo, h, _ => by
    unfold Statement.gather at h
    exact Context.Steady.served ((steady_label location name).rel_of_ok h)
  | .constant name value, location, s, t, memo, h, _ => by
    unfold Statement.gather at h
    exact Context.Steady.served ((opens_steady.constant name value).rel_of_ok h)
  | .command c, location, s, t, memo, h, _ => by
    unfold Statement.gather at h
    cases h
    have hnone := ramEvents_commands memo location c.receiver c.commands 0
    exact hnone.symm ▸ (Context.Steady.refl s.state).served
  | .header _, _, s, _, _, h, _ | .data _, _, s, _, _, h, _ | .branch _, _, s, _, _, h, _
  | .embed _ _, _, s, _, _, h, _ => by
    unfold Statement.gather at h
    cases h
    exact (Context.Steady.refl s.state).served

/-- The gathering of the statements of a block gives out the regions that they ask for. -/
theorem served_gatherOthers :
    ∀ (statements : List Statement) {location : Location} {index : Nat} {s t : Logged Context}
      {memo : Memo}, Statement.gatherOthers location index statements s = .ok () t →
      Agrees (fun m => ∃ i, index ≤ i ∧ (location.child i).Under m) memo t.state.memo →
      Context.Served (ramEvents memo (Statement.placesAll location index statements)) s.state
        t.state
  | [], _, _, _, _, _, h, _ => by
    cases h
    exact (Context.Steady.refl _).served
  | stmt :: rest, location, index, s, t, memo, h, hmemo => by
    unfold Statement.gatherOthers at h
    obtain ⟨_, u, hfirst, hrest⟩ := Run.bind_eq_ok.1 h
    rw [Statement.placesAll_cons, ramEvents, List.flatMap_append]
    refine Context.Served.append ?_ (served_gatherOthers rest hrest fun m ⟨i, hi, hm⟩ =>
      hmemo m ⟨i, Nat.le_of_succ_le hi, hm⟩)
    cases hskip : stmt.isConstant || stmt.isHeader with
    | false =>
      simp only [hskip] at hfirst
      refine served_gather stmt hfirst fun m hm => ?_
      -- What is known of this subtree stays, as the other statements have their own.
      have hkeep : ∀ i, index + 1 ≤ i → ¬ (location.child i).Under m := by
        intro i hi hi'
        have heq := hi'.child_unique hm
        omega
      rw [hmemo m ⟨index, Nat.le_refl _, hm⟩]
      unfold Memo.value?
      rw [untouched_gatherOthers hrest hkeep rfl]
    | true =>
      simp only [hskip] at hfirst
      cases hfirst
      cases stmt with
      | constant name value => exact (Context.Steady.refl s.state).served
      | header header => exact (Context.Steady.refl s.state).served
      | _ => cases hskip

end

end Gathering

/-! ## Programs -/

/-- A variable that is not rejected is not empty. -/
theorem Variables.size_pos {memo : Memo} {location : Location} {v : Variables} {x : Storage}
    (h : x ∈ v.storages memo location) : 0 < x.size := by
  unfold Variables.storages at h
  cases hunits : v.units? memo location with
  | none =>
    rw [hunits] at h
    cases h
  | some count =>
    rw [hunits] at h
    obtain ⟨name, -, rfl⟩ := List.mem_map.1 h
    have hwidth : 0 < v.width.bytes := by
      cases v.width <;> decide
    refine Nat.mul_pos hwidth ?_
    unfold Variables.units? at hunits
    split at hunits
    · cases hunits
      exact Nat.one_pos
    · obtain ⟨n, -, hn⟩ := Option.bind_eq_some_iff.1 hunits
      split at hn
      · cases hn
      · rename_i hzero
        cases hn
        exact Nat.pos_of_ne_zero fun h => hzero (UInt16.toNat_inj.1 h)

/-- Every variable that is asked for has at least one byte: empty arrays are rejected. -/
theorem size_pos_of_mem_ramEvents {memo : Memo} {places : List (Location × Node)} {x : Storage}
    (h : .take x ∈ ramEvents memo places) : 0 < x.size := by
  obtain ⟨⟨m, node⟩, -, hmem⟩ := List.mem_flatMap.1 h
  unfold Node.ramEvents at hmem
  split at hmem
  · cases List.mem_singleton.1 hmem
  · obtain ⟨address, -, heq⟩ := Option.map_eq_some_iff.1 (Option.mem_toList.1 hmem)
    cases heq
  · obtain ⟨y, hy, heq⟩ := List.mem_map.1 hmem
    cases heq
    exact Variables.size_pos hy
  · cases hmem

/-- How the variables of a table lie in the ram, for the events of a program. -/
structure Allotted (events : List RamEvent) (table : SymbolTable) (regions : List Region) :
    Prop where
  /-- There is a region for each variable that is not rejected, in the order of the events. -/
  storages : regions.map Region.storage = events.filterMap RamEvent.storage?
  /-- The variables of the table are these, and their addresses are where the regions start. -/
  declared : table.storages = regions.map Region.entry
  nonempty : ∀ r ∈ regions, 1 ≤ r.storage.size
  inside : ∀ r ∈ regions, r.stop ≤ 65536
  /-- No address is cut off when it is stored in 16 bits. -/
  stored : ∀ r ∈ regions, (UInt16.ofNat r.start).toNat = r.start
  /-- The variables after a relocation, up to the next one or to a header, lie one after the other
  from its destination on. -/
  grouped : ∀ before address vs after,
    events = before ++ .move address :: (vs.map .take ++ after) →
    ∃ front group back, regions = front ++ (group ++ back) ∧
      front.map Region.storage = before.filterMap RamEvent.storage? ∧
      group.map Region.storage = vs ∧ Region.Consecutive address.toNat group ∧
      group.Pairwise fun r r' => r.stop ≤ r'.start
  /-- There is no variable between a header and the first relocation after it, or before any
  header. -/
  fresh : ∀ before vs after, events = before ++ .reset :: (vs.map .take ++ after) ∨
    events = vs.map .take ++ after → vs = []

/-- Regions that are given out from the start, for the variables of a table, lie in the ram as
`Allotted` says. -/
theorem Serves.allotted {places : List (Location × Node)} {memo : Memo} {table : SymbolTable}
    {regions : List Region} {d : Option Nat} (h : Serves none (ramEvents memo places) regions d)
    (htable : table.storages = regions.map Region.entry) :
    Allotted (ramEvents memo places) table regions := by
  have hpos : ∀ r ∈ regions, 1 ≤ r.storage.size := by
    intro r hr
    have hmem : r.storage ∈ (ramEvents memo places).filterMap RamEvent.storage? :=
      h.storages ▸ List.mem_map_of_mem hr
    obtain ⟨e, he, hstorage⟩ := List.mem_filterMap.1 hmem
    cases e with
    | take v =>
      cases hstorage
      exact size_pos_of_mem_ramEvents he
    | _ => cases hstorage
  refine ⟨h.storages, htable, hpos, h.fits, fun r hr => ?_, ?_, ?_⟩
  · have hsize := hpos r hr
    have hfits : r.start + r.storage.size ≤ 65536 := h.fits r hr
    rw [UInt16.toNat_ofNat']
    exact Nat.mod_eq_of_lt (by omega)
  · intro before address vs after hsplit
    rw [hsplit] at h
    obtain ⟨front, rest, m, rfl, hfront, hrest⟩ := h.of_append
    cases hrest with
    | move hrest =>
      obtain ⟨group, back, n, rfl, hgroup, -⟩ := hrest.of_append
      have hconsecutive := hgroup.consecutive
      refine ⟨front, group, back, rfl, hfront.storages, ?_, hconsecutive, hconsecutive.pairwise.2⟩
      rw [hgroup.storages, List.filterMap_map]
      exact List.filterMap_some
  · rintro before vs after (hsplit | hsplit)
    · rw [hsplit] at h
      obtain ⟨front, rest, m, rfl, -, hrest⟩ := h.of_append
      cases hrest with
      | reset hrest =>
        obtain ⟨group, back, n, rfl, hgroup, -⟩ := hrest.of_append
        exact hgroup.eq_nil_of_none
    · rw [hsplit] at h
      obtain ⟨group, back, n, rfl, hgroup, -⟩ := h.of_append
      exact hgroup.eq_nil_of_none

/-- Variables neither overlap nor leave the address space, in every program whose declarations can
be gathered, whatever is reported in the course of this. -/
theorem Program.regions_of_gather {program : Program} {config : Config} {g : Logged Context}
    (h : program.gather (start config) = .ok () g) :
    ∃ regions, Allotted (ramEvents g.state.memo (program.block.places .top)) g.state.symbols
      regions := by
  obtain ⟨_, u, hgather, hnote⟩ := Run.bind_eq_ok.1 h
  cases hnote
  obtain ⟨regions, htable, hserves⟩ :=
    Gathering.served_gather program.block hgather (fun _ _ => rfl) fun n hn => by cases hn
  exact ⟨regions, hserves.allotted htable⟩

/-- A program with an array of no elements, which is rejected, before one that ends at the end of
the address space, and with another variable at its beginning. -/
def Program.crowded : Program where
  statements :=
    [.header
        { settings :=
            [⟨{ text := "mapper" }, .number 0 {}⟩, ⟨{ text := "prg" }, .number 1 {}⟩,
              ⟨{ text := "chr" }, .number 1 {}⟩] },
      .relocation (.ram (.number 0xFFF9 {})) {},
      .storage { width := .byte, names := [{ text := "first" }] },
      .storage { width := .word, names := [{ text := "none" }], arraySize := some (.number 0 {}) },
      .storage { width := .word, names := [{ text := "last" }], arraySize := some (.number 3 {}) },
      .relocation (.ram (.number 0 {})) {},
      .storage { width := .word, names := [{ text := "other" }] }]

/-- The rejected array takes no address, the next one ends at the end of the address space, and the
last variable starts again at its beginning. -/
theorem Program.regions_of_gather_crowded : ∃ g regions,
    crowded.gather (start {}) = .ok () g ∧ g.log.count = 1 ∧
      g.state.symbols.storages = [("first", some {}, 0xFFF9), ("last", some {}, 0xFFFA),
        ("other", some {}, 0)] ∧
      Allotted (ramEvents g.state.memo (crowded.block.places .top)) g.state.symbols regions := by
  have hrun : Run.finishes (fun g => decide (g.log.count = 1 ∧
      g.state.symbols.storages = [("first", some {}, 0xFFF9), ("last", some {}, 0xFFFA),
        ("other", some {}, 0)])) (crowded.gather (start {})) = true := by
    decide +kernel
  obtain ⟨_, g, hg, hview⟩ := Run.exists_of_finishes hrun
  obtain ⟨regions, h⟩ := regions_of_gather hg
  obtain ⟨hcount, htable⟩ := of_decide_eq_true hview
  exact ⟨g, regions, hg, hcount, htable, h⟩

end Cartridge
