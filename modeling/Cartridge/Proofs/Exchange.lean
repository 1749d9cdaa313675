import Cartridge.Proofs.Places
import Cartridge.Proofs.Twins
import Mathlib.Logic.Equiv.Basic

/-!
# Exchanges

Two statements that stand next to each other in a block change places: their subtrees are then found
at each other's locations. Two definitions that were put into a scope one after the other change
places: each then has the number of the other one.

Main definitions:

- `Location.exchange`: where a location is found when two children of another one change places.
- `Atlas.exchange`: two children of a location change places.
- `SymbolTable.Renames.exchanged`: a renaming in which the next two definitions change places.

Main results:

- Theorems `Atlas.sends_exchange` and `Atlas.exchange_sends_self`: what moves, and what stays.
- Theorem `SymbolTable.Renames.define_exchange`: definitions may be added in another order.
- Theorem `Context.Twin.define_exchange`: contexts stay twins then.
-/

namespace Cartridge

/-! ## Locations -/

namespace Location

/-- The indices of a location, when two children of a location change places. -/
def exchangeIndices (base : List Nat) (i : Nat) : List Nat → List Nat
  | [] => []
  | j :: rest =>
    if rest = base then Equiv.swap i (i + 1) j :: rest else j :: exchangeIndices base i rest

/-- Where a location is found when two children of another one change places. -/
def exchange (base : Location) (i : Nat) (l : Location) : Location :=
  { l with indices := exchangeIndices base.indices i l.indices }

variable {base : List Nat} {i : Nat}

/-- Below one of the children the index that leads to it is swapped, and the rest of the path
stays. -/
theorem exchangeIndices_append (base : List Nat) (i j : Nat) (path : List Nat) :
    exchangeIndices base i (path ++ j :: base) = path ++ Equiv.swap i (i + 1) j :: base := by
  induction path with
  | nil => exact if_pos rfl
  | cons k path ih =>
    have hne : path ++ j :: base ≠ base := by
      intro h
      have hlen := congrArg List.length h
      rw [List.length_append, List.length_cons] at hlen
      omega
    rw [List.cons_append, exchangeIndices, if_neg hne, ih]
    rfl

/-- Locations that are not below a child of the base stay where they are. -/
theorem exchangeIndices_of_not_suffix {l : List Nat} (h : ∀ j, ¬ (j :: base) <:+ l) :
    exchangeIndices base i l = l := by
  induction l with
  | nil => rfl
  | cons j rest ih =>
    have hne : rest ≠ base := by
      rintro rfl
      exact h j (List.suffix_refl _)
    rw [exchangeIndices, if_neg hne, ih fun k hk => h k (hk.trans (List.suffix_cons _ _))]

/-- Everything is either below one of the children, or stays where it is. -/
theorem exchangeIndices_exchangeIndices (base : List Nat) (i : Nat) (l : List Nat) :
    exchangeIndices base i (exchangeIndices base i l) = l := by
  by_cases h : ∃ j, (j :: base) <:+ l
  · obtain ⟨j, path, rfl⟩ := h
    rw [exchangeIndices_append, exchangeIndices_append, Equiv.swap_apply_self]
  · have hfixed : exchangeIndices base i l = l :=
      exchangeIndices_of_not_suffix fun j hj => h ⟨j, hj⟩
    rw [hfixed, hfixed]

/-- To exchange two children twice brings everything back. -/
theorem exchange_exchange (base : Location) (i : Nat) (l : Location) :
    base.exchange i (base.exchange i l) = l :=
  congrArg (Location.mk l.depth) (exchangeIndices_exchangeIndices _ _ _)

/-- No two locations are brought to one. -/
theorem exchange_inj {base l m : Location} (h : base.exchange i l = base.exchange i m) : l = m := by
  rw [← base.exchange_exchange i l, h, exchange_exchange]

/-- What is not below one of the children stays where it is. -/
theorem exchange_of_not_under {base l : Location} (h : ∀ j, ¬ (base.child j).Under l) :
    base.exchange i l = l :=
  congrArg (Location.mk l.depth) (exchangeIndices_of_not_suffix h)

/-- A path adds its indices, the last one in front. -/
theorem descend_eq (l : Location) (path : List Nat) :
    l.descend path = ⟨l.depth + path.length, path.reverse ++ l.indices⟩ := by
  induction path generalizing l with
  | nil => rfl
  | cons i path ih =>
    rw [descend, ih, List.reverse_cons, List.append_assoc, List.length_cons, child]
    simp only [List.cons_append, List.nil_append, Location.mk.injEq, and_true]
    omega

theorem under_descend (l : Location) (path : List Nat) : l.Under (l.descend path) := by
  rw [descend_eq]
  exact List.suffix_append _ _

/-- What is below one child of a location is not found below another one. -/
theorem not_under_descend {base l : Location} {j k : Nat} (h : (l.child k).Under base) (hne : j ≠ k)
    (path : List Nat) : ¬ base.Under ((l.child j).descend path) :=
  fun hbase => hne ((under_descend _ path).child_unique (h.trans hbase))

/-- The subtree of a child is found below the other child. -/
theorem exchange_descend (base : Location) (i j : Nat) (path : List Nat) :
    base.exchange i ((base.child j).descend path) =
      (base.child (Equiv.swap i (i + 1) j)).descend path := by
  rw [descend_eq, descend_eq]
  exact congrArg (Location.mk _) (exchangeIndices_append _ _ _ _)

end Location

namespace Atlas

/-- Two children of a location change places. -/
def exchange (base : Location) (i : Nat) : Atlas where
  places := base.exchange i
  sites := base.exchange i
  places_inj := Location.exchange_inj
  sites_inj := Location.exchange_inj

variable {base l : Location} {i j : Nat}

/-- The children of the location change places with all that is below them. -/
theorem sends_exchange (base : Location) (i j : Nat) :
    (exchange base i).Sends (base.child j) (base.child (Equiv.swap i (i + 1) j)) :=
  fun path => ⟨base.exchange_descend i j path, base.exchange_descend i j path, rfl⟩

/-- What the location is below of stays where it is. -/
theorem places_exchange (h : l.Under base) : (exchange base i).places l = l := by
  refine Location.exchange_of_not_under fun j hj => ?_
  exact Location.not_under_child base j (hj.trans h)

/-- A subtree stays where it is if the location is in another one. -/
theorem exchange_sends_self {k : Nat} (h : (l.child k).Under base) (hne : j ≠ k) :
    (exchange base i).Sends (l.child j) (l.child j) := by
  intro path
  have hfixed : base.exchange i ((l.child j).descend path) = (l.child j).descend path :=
    Location.exchange_of_not_under fun n hn =>
      Location.not_under_descend h hne path ((base.under_child n).trans hn)
  exact ⟨hfixed, hfixed, rfl⟩

end Atlas

/-! ## Definitions -/

namespace SymbolTable.Renames

variable {ρ : DefId → DefId} {t t' : SymbolTable}

/-- A renaming in which the next two definitions change places. -/
def exchanged (ρ : DefId → DefId) (t : SymbolTable) (id : DefId) : DefId :=
  ρ (Equiv.swap t.nextDef ⟨t.size + 1⟩ id)

/-- Only the next two definitions change places. -/
theorem exchanged_of_ne {id : DefId} (hleft : id ≠ t.nextDef) (hright : id ≠ ⟨t.size + 1⟩) :
    exchanged ρ t id = ρ id :=
  congrArg ρ (Equiv.swap_apply_of_ne_of_ne hleft hright)

/-- Definitions that are there already are renamed as before. -/
theorem exchanged_of_lt {id : DefId} (h : id.index < t.size) : exchanged ρ t id = ρ id := by
  refine exchanged_of_ne (fun heq => ?_) fun heq => ?_
  · exact absurd (congrArg DefId.index heq) (Nat.ne_of_lt h)
  · exact absurd (congrArg DefId.index heq) (Nat.ne_of_lt (Nat.lt_succ_of_lt h))

/-- The definition that comes first on the left is the second one on the right. -/
theorem exchanged_left (h : Renames ρ t t') : exchanged ρ t t.nextDef = ⟨t.size + 1⟩ := by
  unfold exchanged
  rw [Equiv.swap_apply_left]
  exact h.fixed _ (Nat.le_succ _)

/-- The definition that comes second on the left is the first one on the right. -/
theorem exchanged_right (h : Renames ρ t t') : exchanged ρ t ⟨t.size + 1⟩ = t.nextDef := by
  unfold exchanged
  rw [Equiv.swap_apply_right]
  exact h.map_nextDef

/-- Numbers that are free stay free. -/
theorem le_exchanged (h : Renames ρ t t') {id : DefId} (hid : t.size ≤ id.index) :
    t.size ≤ (exchanged ρ t id).index := by
  by_cases hleft : id = t.nextDef
  · rw [hleft, h.exchanged_left]
    exact Nat.le_succ _
  · by_cases hright : id = ⟨t.size + 1⟩
    · rw [hright, h.exchanged_right]
      exact Nat.le_refl _
    · rw [exchanged_of_ne hleft hright, h.fixed id hid]
      exact hid

/-- Definitions with different names may be added to one scope in any order. -/
theorem define_exchange (h : Renames ρ t t') {a b : Definition} (howner : b.owner = a.owner)
    (hname : a.owner.index < t.scopes.size → a.name ≠ b.name) :
    Renames (exchanged ρ t) ((t.define a).define b) ((t'.define b).define a) where
  injective heq := (Equiv.swap _ _).injective (h.injective heq)
  fixed id hid := by
    rw [size_define, size_define] at hid
    have hsame : exchanged ρ t id = ρ id := by
      refine exchanged_of_ne (fun heq => ?_) fun heq => ?_
      · have hindex : id.index = t.size := congrArg DefId.index heq
        omega
      · have hindex : id.index = t.size + 1 := congrArg DefId.index heq
        omega
    rw [hsame]
    exact h.fixed id (by omega)
  size := by
    rw [size_define, size_define, size_define, size_define, h.size]
  scopes := by
    rw [scopes_define, scopes_define, scopes_define, scopes_define, h.scopes]
  stack := h.stack
  definition id := by
    simp only [definition?_define, nextDef_define, h.size, h.nextDef]
    by_cases hright : id = ⟨t.size + 1⟩
    · have hne : t.nextDef ≠ ⟨t.size + 1⟩ := fun heq =>
        absurd (congrArg DefId.index heq) (Nat.ne_of_lt (Nat.lt_succ_self _))
      rw [hright, h.exchanged_right, if_neg hne, if_pos rfl, if_pos rfl]
    · rw [if_neg hright]
      by_cases hleft : id = t.nextDef
      · rw [hleft, h.exchanged_left, if_pos rfl, if_pos rfl]
      · have hright' : ρ id ≠ ⟨t.size + 1⟩ := fun heq =>
          hright (h.injective (heq.trans (h.fixed _ (Nat.le_succ _)).symm))
        have hleft' : ρ id ≠ t.nextDef := fun heq =>
          hleft (h.injective (heq.trans h.map_nextDef.symm))
        rw [exchanged_of_ne hleft hright, if_neg hright', if_neg hleft', if_neg hleft, h.definition]
  parent scope := by
    rw [parent_define, parent_define, parent_define, parent_define]
    exact h.parent scope
  package scope := by
    rw [package_define, package_define, package_define, package_define, h.package]
    refine Option.map_congr fun id hid => ?_
    exact (exchanged_of_lt (h.owned scope id hid)).symm
  binding scope name := by
    have hold : (t.binding? scope name).map ρ = (t.binding? scope name).map (exchanged ρ t) :=
      Option.map_congr fun id hid => (exchanged_of_lt (h.bound scope name id hid)).symm
    simp only [binding?_define, nextDef_define, scopes_define, h.size, h.nextDef, h.scopes, howner]
    by_cases hscope : scope = a.owner ∧ a.owner.index < t.scopes.size
    · by_cases ha : name = a.name
      · have hb : name ≠ b.name := ha ▸ hname hscope.2
        rw [if_pos ⟨hscope, ha⟩, if_neg fun hc => hb hc.2, if_pos ⟨hscope, ha⟩, Option.map_some,
          h.exchanged_left]
      · rw [if_neg fun hc => ha hc.2]
        by_cases hb : name = b.name
        · rw [if_pos ⟨hscope, hb⟩, if_pos ⟨hscope, hb⟩, Option.map_some, h.exchanged_right]
        · rw [if_neg fun hc => hb hc.2, if_neg fun hc => hb hc.2, if_neg fun hc => ha hc.2,
            h.binding, hold]
    · rw [if_neg fun hc => hscope hc.1, if_neg fun hc => hscope hc.1, if_neg fun hc => hscope hc.1,
        if_neg fun hc => hscope hc.1, h.binding, hold]
  bound := ((h.define a).define b).bound
  owned := ((h.define a).define b).owned

end SymbolTable.Renames

/-- A memo does not tell which numbers the constants have that are still to be declared. -/
theorem Memo.Twin.rename {g : Location → Location} {ρ ρ' : DefId → DefId} {size : Nat}
    {memo memo' : Memo} (h : Memo.Twin g ρ size memo memo')
    (hfixed : ∀ id, size ≤ id.index → ρ id = id) (hold : ∀ id, id.index < size → ρ' id = ρ id)
    (hnew : ∀ id, size ≤ id.index → size ≤ (ρ' id).index) :
    Memo.Twin g ρ' size memo memo' where
  result site := by
    obtain ⟨depth, anchor, turns⟩ := site
    cases anchor with
    | tree l => exact h.result ⟨depth, .tree l, turns⟩
    | detached n => exact h.result ⟨depth, .detached n, turns⟩
    | constant id =>
      have hmap (ρ : DefId → DefId) (id : DefId) : Site.map g ρ ⟨depth, .constant id, turns⟩ =
          ⟨depth, .constant (ρ id), turns⟩ := rfl
      rw [hmap]
      rcases Nat.lt_or_ge id.index size with hlt | hge
      · rw [hold id hlt, ← hmap]
        exact h.result _
      · -- Nothing is known on either side.
        have hresult := h.result ⟨depth, .constant (ρ' id), turns⟩
        rw [hmap, hfixed _ (hnew id hge)] at hresult
        rw [hresult, h.fresh _ _ rfl (hnew id hge), h.fresh _ _ rfl hge]
  fresh := h.fresh

/-- Contexts stay twins when two definitions are added in different orders. -/
theorem Context.Twin.define_exchange {X : Atlas} {ρ : DefId → DefId} {c c' : Context}
    (h : c.Twin X ρ c') {a b : Definition} (howner : b.owner = a.owner)
    (hname : a.owner.index < c.symbols.scopes.size → a.name ≠ b.name) :
    { c with symbols := (c.symbols.define a).define b }.Alike X
      { c' with symbols := (c'.symbols.define b).define a } := by
  have hsize : c.symbols.size ≤ ((c.symbols.define a).define b).size := by
    rw [SymbolTable.size_define, SymbolTable.size_define]
    omega
  have hmemo := h.memo.rename h.symbols.fixed (fun _ => SymbolTable.Renames.exchanged_of_lt)
    fun _ => h.symbols.le_exchanged
  refine ⟨SymbolTable.Renames.exchanged ρ c.symbols, ?_⟩
  exact
    { h with
      symbols := h.symbols.define_exchange howner hname
      memo := ⟨hmemo.result, fun site id ha hid => hmemo.fresh site id ha (Nat.le_trans hsize hid)⟩
      labels := fun m => (h.labels m).trans <| Option.map_congr fun id hid =>
        (SymbolTable.Renames.exchanged_of_lt (h.labelled m id hid)).symm
      labelled := fun m id hid => Nat.lt_of_lt_of_le (h.labelled m id hid) hsize }

end Cartridge
