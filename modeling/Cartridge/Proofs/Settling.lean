import Cartridge.Proofs.Denotation

/-!
# Folding and memos

Folding fills a memo while labels are still being placed. It never fills in anything but the value
to which an expression settles, and the operands of what it evaluates have values too.

Main definitions:

- `SymbolTable.Faithful`: every value in a memo is the one that its expression settles to.
- `SymbolTable.Whole`: what has a value has operands with values.
- `SymbolTable.Coherent`: a memo that is faithful, and whole where it was empty at first.

Main results:

- Theorem `SymbolTable.keeps_fold`: a fold has no value but the one that its expression settles to.
- Theorem `SymbolTable.Coherent.value_of_stands`: everything in an expression with a value has a
  value.
- Theorem `SymbolTable.coherent_fold`: folding keeps a memo coherent.
-/

namespace Cartridge

/-- An operand has another site than the operation. -/
theorem Site.child_ne (site : Site) (turn : Turn) : site.child turn ≠ site :=
  fun h => absurd (congrArg Site.depth h) (Nat.succ_ne_self site.depth)

namespace SymbolTable

/-! ## Folding keeps memos faithful -/

/-- Nothing of an earlier memo is forgotten, and every value in the memo is the one that its
expression settles to. -/
structure Faithful (u : SymbolTable) (roots : Anchor → ScopeId → Expr → Prop) (first memo : Memo) :
    Prop where
  le : first.Le memo
  values : ∀ {site scope e v}, Hangs roots site scope e → memo.result site = .value v →
    Settles u first site scope e v

theorem Faithful.refl (u : SymbolTable) (roots : Anchor → ScopeId → Expr → Prop) (first : Memo) :
    Faithful u roots first first :=
  ⟨.refl _, fun _ h => .known h⟩

/-- Two references by one path in one scope have the same value, if neither was there first. -/
theorem Faithful.reference_unique {u : SymbolTable} {roots : Anchor → ScopeId → Expr → Prop}
    {first memo : Memo} (h : Faithful u roots first memo) {site site' : Site} {scope : ScopeId}
    {path : List Name} {pos pos' : Position} {v v' : UInt16}
    (hstands : Hangs roots site scope (.reference path pos))
    (hstands' : Hangs roots site' scope (.reference path pos'))
    (hv : memo.result site = .value v) (hv' : memo.result site' = .value v')
    (hfresh : first.result site = .pending) (hfresh' : first.result site' = .pending) : v = v' := by
  obtain ⟨id, htarget, hmeaning⟩ := (h.values hstands hv).reference_of_pending hfresh
  obtain ⟨id', htarget', hmeaning'⟩ := (h.values hstands' hv').reference_of_pending hfresh'
  cases htarget.symm.trans htarget'
  rcases hmeaning with hm | hm | ⟨e, inner, hm, hsettles⟩ <;>
    rcases hmeaning' with hm' | hm' | ⟨e', inner', hm', hsettles'⟩ <;>
    cases hm.symm.trans hm'
  · rfl
  · rfl
  · exact hsettles.unique hsettles'

/-- A reference to a label has the address of the label, unless another value was there first. -/
theorem Faithful.eq_address_iff {u : SymbolTable} {roots : Anchor → ScopeId → Expr → Prop}
    {first memo : Memo} (h : Faithful u roots first memo) {site : Site} {scope : ScopeId}
    {path : List Name} {pos : Position} {id : DefId} {address v : UInt16}
    (hstands : Hangs roots site scope (.reference path pos))
    (htarget : u.target? scope path = some id)
    (hlabel : u.meaning? id = some (.label (some address))) (hv : memo.result site = .value v) :
    v = address ↔ ∀ w, first.result site = .value w → w = address := by
  have hsettles := h.values hstands hv
  constructor
  · rintro rfl w hw
    exact (hsettles.eq_of_known hw).symm
  · intro hfirst
    cases hsite : first.result site with
    | pending =>
      obtain ⟨id', htarget', hm⟩ := hsettles.reference_of_pending hsite
      cases htarget.symm.trans htarget'
      rcases hm with hm | hm | ⟨e, inner, hm, -⟩ <;> cases hlabel.symm.trans hm
      rfl
    | value w => exact (hsettles.eq_of_known hsite).trans (hfirst w hsite)
    | invalid =>
      have hmemo := h.le site (hsite ▸ Folded.noConfusion)
      cases (hmemo.trans hsite).symm.trans hv

/-- A run keeps the memo faithful, and if it comes to a value then to one with a property. -/
def Keeps (u : SymbolTable) (roots : Anchor → ScopeId → Expr → Prop) (first : Memo)
    (P : UInt16 → Prop) (act : Run Memo Folded) : Prop :=
  ∀ s folded v, act s = .ok folded v → Faithful u roots first s.state →
    Faithful u roots first v.state ∧ ∀ a, folded = .value a → P a

section

variable {t u : SymbolTable} {roots : Anchor → ScopeId → Expr → Prop} {first : Memo}
  {demand : Demand}

/-- A run that leaves the memo alone needs only to come to the right value. -/
theorem keeps_of_state {P : UInt16 → Prop} {act : Run Memo Folded}
    (h : ∀ s folded v, act s = .ok folded v → v.state = s.state ∧ ∀ a, folded = .value a → P a) :
    Keeps u roots first P act := by
  intro s folded v hok hs
  obtain ⟨hstate, hvalue⟩ := h s folded v hok
  exact ⟨hstate ▸ hs, hvalue⟩

/-- What is reported comes to no value. -/
theorem keeps_error (P : UInt16 → Prop) (e : Error) (pos : Position) :
    Keeps u roots first P (do Run.error e pos; return .invalid) := by
  refine keeps_of_state fun s folded v h => ?_
  obtain ⟨_, w, hw, hret⟩ := Run.bind_eq_ok.1 h
  obtain ⟨-, rfl⟩ := Run.error_eq_ok.1 hw
  cases hret
  exact ⟨rfl, fun _ h => by cases h⟩

/-- A path that is not resolved comes to no value. -/
theorem keeps_unresolved (P : UInt16 → Prop) (path : List Name) (pos : Position) :
    Keeps u roots first P (unresolved demand path pos) := by
  unfold unresolved
  split
  · exact keeps_error _ _ _
  · refine keeps_of_state fun s folded v h => ?_
    cases h
    exact ⟨rfl, fun _ h => by cases h⟩

/-- An operation changes nothing, and has a value only if its operands have values. -/
theorem combine_of_ok {op : BinaryOp} {pos : Position} {l r folded : Folded} {s v : Logged Memo}
    (h : combine op pos l r s = .ok folded v) :
    v.state = s.state ∧ ∀ c, folded = .value c →
      ∃ a b, l = .value a ∧ r = .value b ∧ op.apply a b = .ok c := by
  unfold combine at h
  split at h
  · rename_i a b
    cases happly : op.apply a b with
    | ok c =>
      rw [happly] at h
      cases h
      refine ⟨rfl, fun d hd => ?_⟩
      cases hd
      exact ⟨a, b, rfl, rfl, happly⟩
    | error e =>
      rw [happly] at h
      obtain ⟨_, w, hw, hret⟩ := Run.bind_eq_ok.1 h
      obtain ⟨-, rfl⟩ := Run.error_eq_ok.1 hw
      cases hret
      exact ⟨rfl, nofun⟩
  all_goals
    cases h
    exact ⟨rfl, nofun⟩

/-- The value of an operation comes from the values of its operands. -/
theorem keeps_combine {P : UInt16 → Prop} {op : BinaryOp} {pos : Position} {l r : Folded}
    (h : ∀ a b v, l = .value a → r = .value b → op.apply a b = .ok v → P v) :
    Keeps u roots first P (combine op pos l r) := by
  refine keeps_of_state fun s folded v hok => ?_
  obtain ⟨hstate, hvalue⟩ := combine_of_ok hok
  refine ⟨hstate, fun c hc => ?_⟩
  obtain ⟨a, b, rfl, rfl, happly⟩ := hvalue c hc
  exact h a b c rfl rfl happly

/-- A reference comes to the value that it settles to if the expansion of constants does: what has
an address in the earlier table has the same in the later one. -/
theorem keeps_foldReference (ht : t.Precedes u) {expand : Expansion}
    (he : ∀ id value inner pos, u.meaning? id = some (.constant value inner) →
      Keeps u roots first (Settles u first { anchor := .constant id } inner value)
        (expand id value inner pos))
    {site : Site} (hfresh : first.result site = .pending) (scope : ScopeId) (path : List Name)
    (pos : Position) :
    Keeps u roots first (Settles u first site scope (.reference path pos))
      (t.foldReference demand expand scope path pos) := by
  intro s folded v h hs
  unfold foldReference at h
  obtain ⟨found, w, hw, hnext⟩ := Run.bind_eq_ok.1 h
  have hd := resolve_of_ok hw
  cases found with
  | failed =>
    cases hnext
    obtain ⟨-, hstate, -⟩ := hd
    exact ⟨hstate ▸ hs, fun _ h => by cases h⟩
  | missing =>
    obtain ⟨-, rfl⟩ := hd
    exact keeps_unresolved _ _ _ _ _ _ hnext hs
  | found id =>
    obtain ⟨htarget, rfl⟩ := hd
    rw [← ht.target?] at htarget
    rcases hm : t.meaning? id with _ | ⟨b⟩ | ⟨value, inner⟩ | ⟨_ | a⟩ | ⟨a⟩ | ⟨inner⟩ <;>
      simp only [hm] at hnext
    · exact keeps_unresolved _ _ _ _ _ _ hnext hs
    · exact keeps_error _ _ _ _ _ _ hnext hs
    · have hu := ht.meaning_of_ne hm Meaning.noConfusion
      obtain ⟨hv, hvalue⟩ := he id value inner pos hu _ _ _ hnext hs
      exact ⟨hv, fun a ha => .constant hfresh htarget hu (hvalue a ha)⟩
    · exact keeps_unresolved _ _ _ _ _ _ hnext hs
    · cases hnext
      refine ⟨hs, fun b hb => ?_⟩
      cases hb
      exact .label hfresh htarget (ht.meaning_of_ne hm (by simp))
    · cases hnext
      refine ⟨hs, fun b hb => ?_⟩
      cases hb
      exact .storage hfresh htarget (ht.meaning_of_ne hm Meaning.noConfusion)
    · exact keeps_error _ _ _ _ _ _ hnext hs

section

variable (hroots : u.Rooted roots)

include hroots

/-- A value that the expression of a site settles to may be remembered there. -/
theorem keeps_remember {site : Site} {scope : ScopeId} {e : Expr}
    (hstands : Hangs roots site scope e) {compute : Run Memo Folded}
    (h : first.result site = .pending →
      Keeps u roots first (Settles u first site scope e) compute) :
    Keeps u roots first (Settles u first site scope e) (remember site compute) := by
  intro s folded v hok hs
  by_cases hp : s.state.result site = .pending
  · have hfresh := hs.le.pending hp
    rw [remember_of_pending hp] at hok
    obtain ⟨f, w, hw, hset⟩ := Run.bind_eq_ok.1 hok
    cases hset
    obtain ⟨hfaithful, hvalue⟩ := h hfresh s folded w hw hs
    refine ⟨⟨fun other ho => ?_, fun {other scope' e' a} hstands' ha => ?_⟩, hvalue⟩
    · have hne : other ≠ site := by
        rintro rfl
        exact ho hfresh
      rw [Memo.set_of_ne hne]
      exact hfaithful.le other ho
    · by_cases ho : other = site
      · subst ho
        rw [Memo.set_self] at ha
        obtain ⟨rfl, rfl⟩ := hstands.unique hroots hstands'
        exact hvalue a ha
      · rw [Memo.set_of_ne ho] at ha
        exact hfaithful.values hstands' ha
  · rw [remember_of_ne hp] at hok
    cases hok
    exact ⟨hs, fun a ha => hs.values hstands ha⟩

/-- An expression comes to the value that it settles to if the expansion of constants does, by
induction on the expression. -/
theorem keeps_foldWith (ht : t.Precedes u) {expand : Expansion}
    (he : ∀ id value inner pos, u.meaning? id = some (.constant value inner) →
      Keeps u roots first (Settles u first { anchor := .constant id } inner value)
        (expand id value inner pos))
    {scope : ScopeId} {site : Site} {e : Expr} (hstands : Hangs roots site scope e) :
    Keeps u roots first (Settles u first site scope e)
      (t.foldWith demand expand scope site e) := by
  induction e generalizing site with
  | number v pos =>
    unfold foldWith
    refine keeps_remember hroots hstands fun hfresh => keeps_of_state fun s folded w h => ?_
    cases h
    refine ⟨rfl, fun a ha => ?_⟩
    cases ha
    exact .number hfresh
  | reference path pos =>
    unfold foldWith
    exact keeps_remember hroots hstands fun hfresh =>
      keeps_foldReference ht he hfresh scope path pos
  | operation op left right pos ihl ihr =>
    unfold foldWith
    refine keeps_remember hroots hstands fun hfresh s folded v h hs => ?_
    obtain ⟨l, w, hl, hnext⟩ := Run.bind_eq_ok.1 h
    obtain ⟨r, x, hr, hcombine⟩ := Run.bind_eq_ok.1 hnext
    obtain ⟨hw, hlv⟩ := ihl hstands.left s l w hl hs
    obtain ⟨hx, hrv⟩ := ihr hstands.right w r x hr hw
    exact keeps_combine (fun a b c ha hb happly => .operation hfresh (hlv a ha) (hrv b hb) happly)
      x folded v hcombine hx

/-- A constant comes to the value that it settles to, by induction on the room that is left. -/
theorem keeps_expandUpTo (ht : t.Precedes u) (room : Nat) (chain : List DefId) (id : DefId)
    (value : Expr) (inner : ScopeId) (pos : Position)
    (hm : u.meaning? id = some (.constant value inner)) :
    Keeps u roots first (Settles u first { anchor := .constant id } inner value)
      (t.expandUpTo demand room chain id value inner pos) := by
  induction room generalizing chain id value inner pos with
  | zero =>
    intro s folded v h
    cases h
  | succ room ih =>
    unfold expandUpTo
    exact keeps_foldWith hroots ht (ih _) (.root (hroots.constants hm))

/-- Folding an expression in its scope keeps a memo faithful, and comes to no value but the one to
which the expression settles, if the table differs from the final one only in labels that are not
placed yet. -/
theorem keeps_fold (ht : t.Precedes u) {anchor : Anchor} {scope : ScopeId} {e : Expr}
    (hangs : roots anchor scope e) :
    Keeps u roots first (Settles u first { anchor } scope e) (t.fold demand scope anchor e) :=
  keeps_foldWith hroots ht (keeps_expandUpTo hroots ht maxExpansions []) (.root hangs)

end

/-! ## The operands of what has a value -/

/-- In the statements of certain locations, an operation has a value only if its operands have
values. -/
def Whole (roots : Anchor → ScopeId → Expr → Prop) (P : Location → Prop)
    (memo : Memo) : Prop :=
  ∀ site m scope op a b pos v, P m → Hangs roots site scope (.operation op a b pos) →
    site.anchor = .tree m → memo.result site = .value v →
    ∀ turn, ∃ w, memo.result (site.child turn) = .value w

variable {P : Location → Prop}

/-- Only the results in statements matter. -/
theorem Whole.congr {memo other : Memo} (h : Whole roots P memo)
    (heq : ∀ site m, site.anchor = .tree m → other.result site = memo.result site) :
    Whole roots P other := by
  intro site m scope op a b pos v hP hstands hm hv turn
  rw [heq site m hm] at hv
  rw [heq (site.child turn) m hm]
  exact h site m scope op a b pos v hP hstands hm hv turn

/-- The sites that folding the expression at a site may change. -/
def Beneath (site other : Site) : Prop :=
  other.anchor = site.anchor ∧ site.depth ≤ other.depth ∨ ∃ id, other.anchor = .constant id

/-- An expression is not beneath its operands. -/
theorem not_beneath_child {site : Site} {m : Location} (hm : site.anchor = .tree m) (turn : Turn) :
    ¬ Beneath (site.child turn) site := by
  rintro (⟨-, hdepth⟩ | ⟨id, hid⟩)
  · exact Nat.not_succ_le_self site.depth hdepth
  · cases hm.symm.trans hid

/-- Folding the expression at a site changes only what is beneath it, and constants. -/
theorem growing_foldWith {expand : Expansion}
    (he : ∀ id value inner pos,
      (growing fun site => ∃ id, site.anchor = .constant id).Holds (expand id value inner pos))
    (scope : ScopeId) (site : Site) (e : Expr) :
    (growing (Beneath site)).Holds (t.foldWith demand expand scope site e) :=
  holds_foldWith (S := Beneath site) (fun e _ => reports_growing _ e) (fun _ => growing_set)
    (fun _ _ h => h.imp (fun hs => ⟨hs.1, Nat.le_succ_of_le hs.2⟩) id)
    (fun _ _ _ _ => growing_mono (fun _ => Or.inr) (he _ _ _ _)) scope e
    (Or.inl ⟨rfl, Nat.le_refl _⟩)

section

variable (hroots : u.Rooted roots)

include hroots

/-- A result may be remembered for an expression if the operands have values. -/
theorem whole_set {memo : Memo} {site : Site} {scope : ScopeId} {e : Expr} {folded : Folded}
    (h : Whole roots P memo) (hstands : Hangs roots site scope e)
    (hp : memo.result site = .pending)
    (hparts : ∀ op a b pos v, e = .operation op a b pos → folded = .value v →
      ∀ turn, ∃ w, memo.result (site.child turn) = .value w) :
    Whole roots P (memo.set site folded) := by
  intro other m scope' op a b pos v hP hother hm hv turn
  by_cases ho : other = site
  · subst ho
    rw [Memo.set_self] at hv
    obtain ⟨-, rfl⟩ := hstands.unique hroots hother
    rw [Memo.set_of_ne (Site.child_ne _ _)]
    exact hparts op a b pos v rfl hv turn
  · rw [Memo.set_of_ne ho] at hv
    obtain ⟨w, hw⟩ := h other m scope' op a b pos v hP hother hm hv turn
    have hne : other.child turn ≠ site := by
      rintro rfl
      cases hp.symm.trans hw
    rw [Memo.set_of_ne hne]
    exact ⟨w, hw⟩

/-- So may the result of a computation that leaves its site alone. -/
theorem whole_remember {site : Site} {scope : ScopeId} {e : Expr} {compute : Run Memo Folded}
    {s v : Logged Memo} {folded : Folded} (hstands : Hangs roots site scope e)
    (hcompute : ∀ w, compute s = .ok folded w → Whole roots P w.state ∧
      w.state.result site = s.state.result site ∧
      ∀ op a b pos c, e = .operation op a b pos → folded = .value c →
        ∀ turn, ∃ x, w.state.result (site.child turn) = .value x)
    (h : remember site compute s = .ok folded v) (hs : Whole roots P s.state) :
    Whole roots P v.state := by
  by_cases hp : s.state.result site = .pending
  · rw [remember_of_pending hp] at h
    obtain ⟨f, w, hw, hset⟩ := Run.bind_eq_ok.1 h
    cases hset
    obtain ⟨hwhole, hsite, hparts⟩ := hcompute w hw
    exact whole_set hroots hwhole hstands (hsite.trans hp) hparts
  · rw [remember_of_ne hp] at h
    cases h
    exact hs

/-- Folding keeps the operands of what has a value: an operation gets its value after they got
theirs. -/
theorem whole_foldWith {expand : Expansion}
    (he : ∀ id value inner pos,
      (growing fun site => ∃ id, site.anchor = .constant id).Holds (expand id value inner pos))
    {scope : ScopeId} {site : Site} {e : Expr} {m : Location}
    (hstands : Hangs roots site scope e) (hm : site.anchor = .tree m) {s v : Logged Memo}
    {folded : Folded}
    (h : t.foldWith demand expand scope site e s = .ok folded v) (hs : Whole roots P s.state) :
    Whole roots P v.state := by
  induction e generalizing site s v folded with
  | number n pos =>
    unfold foldWith at h
    refine whole_remember hroots hstands (fun w hw => ?_) h hs
    cases hw
    exact ⟨hs, rfl, fun _ _ _ _ _ he => by cases he⟩
  | reference path pos =>
    unfold foldWith at h
    refine whole_remember hroots hstands (fun w hw => ?_) h hs
    have hgrowing := (holds_foldReference (fun e _ => reports_growing _ e) he scope path
      pos).rel_of_ok hw
    have hkept : ∀ other m, other.anchor = .tree m →
        w.state.result other = s.state.result other := by
      intro other m hm
      refine hgrowing.2 other ?_
      rintro ⟨id, hid⟩
      cases hm.symm.trans hid
    exact ⟨hs.congr hkept, hkept site m hm, fun _ _ _ _ _ he => by cases he⟩
  | operation op left right pos ihl ihr =>
    unfold foldWith at h
    refine whole_remember hroots hstands (fun x hx => ?_) h hs
    obtain ⟨l, y, hl, hnext⟩ := Run.bind_eq_ok.1 hx
    obtain ⟨r, z, hr, hcombine⟩ := Run.bind_eq_ok.1 hnext
    have hleft := (growing_foldWith he scope (site.child .left) left).rel_of_ok hl
    have hright := (growing_foldWith he scope (site.child .right) right).rel_of_ok hr
    obtain ⟨hstate, hvalues⟩ := combine_of_ok hcombine
    rw [hstate]
    refine ⟨ihr hstands.right hm hr (ihl hstands.left hm hl hs), ?_, fun _ _ _ _ c _ hc turn => ?_⟩
    · exact (hright.2 site (not_beneath_child hm .right)).trans
        (hleft.2 site (not_beneath_child hm .left))
    · obtain ⟨a, b, rfl, rfl, -⟩ := hvalues c hc
      cases turn with
      | left =>
        have hres := result_of_foldWith hl
        refine ⟨a, (hright.1 _ ?_).trans hres⟩
        rw [hres]
        exact Folded.noConfusion
      | right => exact ⟨b, result_of_foldWith hr⟩

end

end

/-! ## Coherent memos -/

/-- A memo that is faithful to the results that were there first, and in which the operands of every
operation with a value have values, if nothing of its statement was there first. -/
structure Coherent (u : SymbolTable) (roots : Anchor → ScopeId → Expr → Prop) (first memo : Memo) :
    Prop extends Faithful u roots first memo where
  whole : Whole roots (fun m => ∀ site, site.anchor = .tree m → first.result site = .pending) memo

theorem Coherent.refl (u : SymbolTable) (roots : Anchor → ScopeId → Expr → Prop) (first : Memo) :
    Coherent u roots first first := by
  refine ⟨.refl _ _ _, fun site m scope op a b pos v hP _ hm hv => ?_⟩
  cases (hP site hm).symm.trans hv

/-- If the expression of a statement has a value, and nothing of it was there first, then everything
in it has a value. -/
theorem Coherent.value_of_stands {u : SymbolTable} {roots : Anchor → ScopeId → Expr → Prop}
    {first memo : Memo} (h : Coherent u roots first memo) {m : Location}
    (hfresh : ∀ site, site.anchor = .tree m → first.result site = .pending) {v : UInt16}
    (hv : memo.result { anchor := .tree m } = .value v) {site : Site} {scope : ScopeId} {e : Expr}
    (hstands : Hangs roots site scope e) (hm : site.anchor = .tree m) :
    ∃ w, memo.result site = .value w := by
  induction hstands with
  | root hangs =>
    cases hm
    exact ⟨v, hv⟩
  | left whole ih =>
    obtain ⟨w, hw⟩ := ih hm
    exact h.whole _ m _ _ _ _ _ w hfresh whole hm hw .left
  | right whole ih =>
    obtain ⟨w, hw⟩ := ih hm
    exact h.whole _ m _ _ _ _ _ w hfresh whole hm hw .right

/-- Folding an expression of the tree in its scope keeps a memo coherent, if the table differs from
the final one only in labels that are not placed yet. -/
theorem coherent_fold {t u : SymbolTable} {roots : Anchor → ScopeId → Expr → Prop} {first : Memo}
    {demand : Demand} (hroots : u.Rooted roots) (ht : t.Precedes u) {m : Location}
    {scope : ScopeId} {e : Expr} (hangs : roots (.tree m) scope e) {s v : Logged Memo}
    {folded : Folded} (h : t.fold demand scope (.tree m) e s = .ok folded v)
    (hs : Coherent u roots first s.state) : Coherent u roots first v.state where
  toFaithful := (keeps_fold hroots ht hangs s folded v h hs.toFaithful).1
  whole := whole_foldWith hroots
    (fun _ _ _ _ => holds_expandUpTo (fun e _ => reports_growing _ e) (fun _ => growing_set)
      (fun _ _ h => h) (fun id => ⟨id, rfl⟩) _ _ _ _ _ _) (.root hangs) rfl h hs.whole

end SymbolTable

end Cartridge
