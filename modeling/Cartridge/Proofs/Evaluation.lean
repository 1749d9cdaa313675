import Cartridge.Proofs.Lexical
import Cartridge.Proofs.Settling

/-!
# Folding as evaluation

What an expression is worth, said without a memo, without reports and without machine words: the
exact result of every operation, names by the rules of lexical scoping, and constants in the scope
of their declaration. Folding with a memo that is right comes to this value and to no other, as long
as no more constants have to be expanded inside one another than folding allows.

Main definitions:

- `BinaryOp.Yields`: the exact result of an operation.
- `SymbolTable.Evaluates`: the value of an expression, with so many nested constants.
- `SymbolTable.Expressions`: the expressions that there are, and where each of them is folded.
- `SymbolTable.Expressions.Right`: every result in a memo is the value of its expression.

Main results:

- Theorem `BinaryOp.apply_eq_ok_iff`: operations on words are exact, or have no result.
- Theorem `SymbolTable.Evaluates.completes`: folding comes to the value of an expression.
- Theorem `SymbolTable.fold_agrees`: a fold with a right memo has a value only if this is the value
  of the expression, and has it without a report if not too many constants are nested.
-/

namespace Cartridge

/-! ## Exact arithmetic -/

/-- The exact result of an operation on numbers, if it is a word. No division by zero has a result,
and no shift to the left by more than sixteen places. -/
def BinaryOp.Yields (op : BinaryOp) (left right result : UInt16) : Prop :=
  match op with
  | mul => result.toNat = left.toNat * right.toNat
  | div => right.toNat ≠ 0 ∧ result.toNat = left.toNat / right.toNat
  | mod => right.toNat ≠ 0 ∧ result.toNat = left.toNat % right.toNat
  | add => result.toNat = left.toNat + right.toNat
  | sub => (result.toNat : Int) = (left.toNat : Int) - (right.toNat : Int)
  | shl => right.toNat ≤ 16 ∧ result.toNat = left.toNat * Nat.pow 2 right.toNat
  | shr => result.toNat = left.toNat / Nat.pow 2 right.toNat
  | and => ∀ i, result.toNat.testBit i = (left.toNat.testBit i && right.toNat.testBit i)
  | xor => ∀ i, result.toNat.testBit i = (left.toNat.testBit i ^^ right.toNat.testBit i)
  | or => ∀ i, result.toNat.testBit i = (left.toNat.testBit i || right.toNat.testBit i)

/-- A word made from a small number is this number. -/
theorem ofNat_eq_iff {n : Nat} (h : n < 0x10000) (v : UInt16) :
    (Except.ok (.ofNat n) : Except Error UInt16) = .ok v ↔ v.toNat = n := by
  rw [Except.ok.injEq, ← UInt16.toNat_inj, UInt16.toNat_ofNat', Nat.mod_eq_of_lt h]
  exact eq_comm

/-- A number fits exactly if it is a word. -/
theorem fitWord_eq_ok_iff {operation : String} {n : Nat} {v : UInt16} :
    fitWord operation n = .ok v ↔ v.toNat = n := by
  rcases Nat.lt_or_ge n 0x10000 with h | h
  · rw [fitWord_of_lt h]
    exact ofNat_eq_iff h v
  · rw [fitWord_of_le h]
    constructor
    · rintro ⟨⟩
    · rintro rfl
      exact absurd v.toNat_lt (Nat.not_lt.2 h)

/-- Two words are the same if their bits are. -/
theorem eq_iff_testBit {u v : UInt16} :
    u = v ↔ ∀ i, v.toNat.testBit i = u.toNat.testBit i := by
  rw [← UInt16.toNat_inj]
  constructor
  · intro h i
    rw [h]
  · intro h
    exact Nat.eq_of_testBit_eq fun i => (h i).symm

/-- Operations on words are exact, or have no result. -/
theorem BinaryOp.apply_eq_ok_iff {op : BinaryOp} {left right v : UInt16} :
    op.apply left right = .ok v ↔ op.Yields left right v := by
  have hl := left.toNat_lt
  cases op <;> simp only [apply, Yields]
  case mul | add => exact fitWord_eq_ok_iff
  case div =>
    by_cases hr : right.toNat = 0
    · simp [hr]
    · rw [if_neg hr, ofNat_eq_iff (Nat.lt_of_le_of_lt (Nat.div_le_self _ _) hl)]
      exact (and_iff_right hr).symm
  case mod =>
    by_cases hr : right.toNat = 0
    · simp [hr]
    · rw [if_neg hr, ofNat_eq_iff (Nat.lt_of_le_of_lt (Nat.mod_le _ _) hl)]
      exact (and_iff_right hr).symm
  case sub =>
    by_cases hr : left.toNat < right.toNat
    · rw [if_pos hr]
      constructor
      · rintro ⟨⟩
      · intro h
        omega
    · rw [if_neg hr, ofNat_eq_iff (Nat.lt_of_le_of_lt (Nat.sub_le _ _) hl)]
      omega
  case shl =>
    by_cases hr : right.toNat > 16
    · rw [if_pos hr]
      constructor
      · rintro ⟨⟩
      · rintro ⟨h, -⟩
        omega
    · rw [if_neg hr, fitWord_eq_ok_iff, Nat.shiftLeft_eq]
      exact (and_iff_right (Nat.not_lt.1 hr)).symm
  case shr =>
    rw [ofNat_eq_iff (Nat.lt_of_le_of_lt (Nat.shiftRight_le _ _) hl), Nat.shiftRight_eq_div_pow]
    rfl
  case and =>
    rw [Except.ok.injEq, eq_iff_testBit, UInt16.toNat_and]
    simp only [Nat.testBit_and]
  case xor =>
    rw [Except.ok.injEq, eq_iff_testBit, UInt16.toNat_xor]
    simp only [Nat.testBit_xor]
  case or =>
    rw [Except.ok.injEq, eq_iff_testBit, UInt16.toNat_or]
    simp only [Nat.testBit_or]

namespace SymbolTable

/-! ## Values -/

/-- The value of an expression in a scope, with at most so many constants expanded inside one
another. -/
inductive Evaluates (t : SymbolTable) : Nat → ScopeId → Expr → UInt16 → Prop
  | number {n : Nat} {scope : ScopeId} {v : UInt16} {pos : Position} :
      Evaluates t n scope (.number v pos) v
  | storage {n : Nat} {scope : ScopeId} {path : List Name} {pos : Position} {id : DefId}
      {address : UInt16} (leads : t.Leads scope path id)
      (meaning : t.meaning? id = some (.storage address)) :
      Evaluates t n scope (.reference path pos) address
  | label {n : Nat} {scope : ScopeId} {path : List Name} {pos : Position} {id : DefId}
      {address : UInt16} (leads : t.Leads scope path id)
      (meaning : t.meaning? id = some (.label (some address))) :
      Evaluates t n scope (.reference path pos) address
  | constant {n : Nat} {scope inner : ScopeId} {path : List Name} {pos : Position} {id : DefId}
      {e : Expr} {v : UInt16} (leads : t.Leads scope path id)
      (meaning : t.meaning? id = some (.constant e inner)) (value : Evaluates t n inner e v) :
      Evaluates t (n + 1) scope (.reference path pos) v
  | operation {n : Nat} {scope : ScopeId} {op : BinaryOp} {a b : Expr} {pos : Position}
      {l r v : UInt16} (left : Evaluates t n scope a l) (right : Evaluates t n scope b r)
      (yields : op.Yields l r v) : Evaluates t n scope (.operation op a b pos) v

/-- The value of an expression in a scope, however many constants are nested. -/
def HasValue (t : SymbolTable) (scope : ScopeId) (e : Expr) (v : UInt16) : Prop :=
  ∃ n, t.Evaluates n scope e v

variable {t : SymbolTable} {scope : ScopeId} {e : Expr} {v : UInt16}

/-- There may be room for more nested constants. -/
theorem Evaluates.mono {n m : Nat} (h : t.Evaluates n scope e v) (hle : n ≤ m) :
    t.Evaluates m scope e v := by
  induction h generalizing m with
  | number => exact .number
  | storage leads meaning => exact .storage leads meaning
  | label leads meaning => exact .label leads meaning
  | constant leads meaning _ ih =>
    cases m with
    | zero => exact absurd hle (Nat.not_succ_le_zero _)
    | succ m => exact .constant leads meaning (ih (Nat.le_of_succ_le_succ hle))
  | operation _ _ yields ihl ihr => exact .operation (ihl hle) (ihr hle) yields

/-- The value of an expression is what it denotes. -/
theorem hasValue_iff_denotes (ht : t.Nested) : t.HasValue scope e v ↔ t.Denotes scope e v := by
  constructor
  · rintro ⟨n, h⟩
    induction h with
    | number => exact .number
    | storage leads meaning => exact .storage (ht.target?_eq_some_iff.2 leads) meaning
    | label leads meaning => exact .label (ht.target?_eq_some_iff.2 leads) meaning
    | constant leads meaning _ ih =>
      exact .constant (ht.target?_eq_some_iff.2 leads) meaning ih
    | operation _ _ yields ihl ihr =>
      exact .operation ihl ihr (BinaryOp.apply_eq_ok_iff.2 yields)
  · intro h
    induction h with
    | number => exact ⟨0, .number⟩
    | storage target meaning => exact ⟨0, .storage (ht.target?_eq_some_iff.1 target) meaning⟩
    | label target meaning => exact ⟨0, .label (ht.target?_eq_some_iff.1 target) meaning⟩
    | constant target meaning _ ih =>
      obtain ⟨n, hn⟩ := ih
      exact ⟨n + 1, .constant (ht.target?_eq_some_iff.1 target) meaning hn⟩
    | operation _ _ apply ihl ihr =>
      obtain ⟨n, hn⟩ := ihl
      obtain ⟨m, hm⟩ := ihr
      exact ⟨max n m, .operation (hn.mono (Nat.le_max_left _ _)) (hm.mono (Nat.le_max_right _ _))
        (BinaryOp.apply_eq_ok_iff.1 apply)⟩

/-- An expression has at most one value. -/
theorem HasValue.unique (ht : t.Nested) {w : UInt16} (hv : t.HasValue scope e v)
    (hw : t.HasValue scope e w) : v = w :=
  ((hasValue_iff_denotes ht).1 hv).unique ((hasValue_iff_denotes ht).1 hw)

/-! ## Expressions and memos -/

/-- The expressions that there are: what hangs from each anchor, and the scope where it is folded.
From the anchor of a constant hangs its expression, which is folded where it was declared. -/
structure Expressions (t : SymbolTable) where
  at? : Anchor → Option (ScopeId × Expr)
  constants : ∀ {id e scope}, t.meaning? id = some (.constant e scope) →
    at? (.constant id) = some (scope, e)

namespace Expressions

/-- One expression beside those of the constants. -/
def single (t : SymbolTable) (scope : ScopeId) (e : Expr) : Expressions t where
  at?
    | .constant id =>
      match t.meaning? id with
      | some (.constant value inner) => some (inner, value)
      | _ => none
    | .detached 0 => some (scope, e)
    | _ => none
  constants h := by
    simp only [h]

/-- The expression at a site, and the scope in which it is folded. -/
abbrev Node {t : SymbolTable} (x : Expressions t) : Site → ScopeId → Expr → Prop :=
  Hangs fun anchor scope e => x.at? anchor = some (scope, e)

/-- Every result in a memo is the value of its expression. -/
def Right {t : SymbolTable} (x : Expressions t) (memo : Memo) : Prop :=
  ∀ site scope e, x.Node site scope e →
    memo.result site = .pending ∨ ∃ v, memo.result site = .value v ∧ t.HasValue scope e v

/-- Every value in a memo is what its expression denotes. -/
def Sound {t : SymbolTable} (x : Expressions t) (memo : Memo) : Prop :=
  ∀ site scope e v, x.Node site scope e → memo.result site = .value v → t.Denotes scope e v

variable {x : Expressions t} {site : Site} {demand : Demand}

/-- One expression hangs from each anchor. -/
theorem rooted (x : Expressions t) :
    t.Rooted fun anchor scope e => x.at? anchor = some (scope, e) where
  unique h h' := Prod.mk.inj (Option.some.inj (h.symm.trans h'))
  constants := x.constants

/-- One expression stands at a site. -/
theorem Node.unique {scope' : ScopeId} {e' : Expr} (h : x.Node site scope e)
    (h' : x.Node site scope' e') : scope = scope' ∧ e = e' :=
  Hangs.unique x.rooted h h'

/-- A right memo is sound. -/
theorem Right.sound (ht : t.Nested) {memo : Memo} (h : x.Right memo) : x.Sound memo := by
  intro site scope e v hnode hv
  rcases h site scope e hnode with hp | ⟨w, hw, hvalue⟩
  · cases hp.symm.trans hv
  · cases hw.symm.trans hv
    exact (hasValue_iff_denotes ht).1 hvalue

/-- The value of an expression may be remembered. -/
theorem Right.set {memo : Memo} (h : x.Right memo) (hnode : x.Node site scope e)
    (hv : t.HasValue scope e v) : x.Right (memo.set site (.value v)) := by
  intro other scope' e' hother
  by_cases ho : other = site
  · subst ho
    obtain ⟨rfl, rfl⟩ := hnode.unique hother
    rw [Memo.set_self]
    exact Or.inr ⟨v, rfl, hv⟩
  · rw [Memo.set_of_ne ho]
    exact h other scope' e' hother

/-! ## Values come out -/

/-- A run comes to a value without a report, and keeps the memo right. -/
def Completes (x : Expressions t) (v : UInt16) (act : Run Memo Folded) : Prop :=
  ∀ s, x.Right s.state →
    ∃ memo, act s = .ok (.value v) { s with state := memo } ∧ x.Right memo

theorem completes_pure (v : UInt16) : x.Completes v (pure (.value v)) :=
  fun s hs => ⟨s.state, rfl, hs⟩

/-- What is remembered of an expression with a value is this value. -/
theorem completes_remember (ht : t.Nested) (hnode : x.Node site scope e)
    (hv : t.HasValue scope e v) {compute : Run Memo Folded} (h : x.Completes v compute) :
    x.Completes v (remember site compute) := by
  intro s hs
  rcases hs site scope e hnode with hp | ⟨w, hw, hvalue⟩
  · rw [remember_of_pending hp]
    obtain ⟨memo, hok, hmemo⟩ := h s hs
    rw [Run.bind_apply_of_ok hok]
    exact ⟨memo.set site (.value v), rfl, hmemo.set hnode hv⟩
  · have hne : s.state.result site ≠ .pending := hw ▸ Folded.noConfusion
    rw [remember_of_ne hne, hw, hvalue.unique ht hv]
    exact ⟨s.state, rfl, hs⟩

/-- A reference comes to the value that its definition comes to. -/
theorem completes_foldReference (ht : t.Nested) {expand : Expansion} {path : List Name}
    {id : DefId} {meaning : Meaning} (hleads : t.Leads scope path id)
    (hm : t.meaning? id = some meaning) (pos : Position)
    (h : meaning = .storage v ∨ meaning = .label (some v) ∨
      ∃ value inner, meaning = .constant value inner ∧
        x.Completes v (expand id value inner pos)) :
    x.Completes v (t.foldReference demand expand scope path pos) := by
  intro s hs
  unfold foldReference
  rw [Run.bind_apply_of_ok (resolve_of_target? (ht.target?_eq_some_iff.2 hleads) _ s)]
  rcases h with rfl | rfl | ⟨value, inner, rfl, h⟩ <;> simp only [hm]
  · exact completes_pure v s hs
  · exact completes_pure v s hs
  · exact h s hs

end Expressions

open Expressions in
/-- Folding comes to the value of an expression if there is room for the nested constants. -/
theorem Evaluates.completes (ht : t.Nested) {x : Expressions t} {demand : Demand} {n : Nat}
    (h : t.Evaluates n scope e v) {site : Site} (hnode : x.Node site scope e) {room : Nat}
    (hroom : n ≤ room) (chain : List DefId) :
    x.Completes v (t.foldWith demand (t.expandUpTo demand room chain) scope site e) := by
  induction h generalizing site room chain with
  | number =>
    unfold foldWith
    exact completes_remember ht hnode ⟨0, .number⟩ (completes_pure _)
  | storage leads meaning =>
    unfold foldWith
    exact completes_remember ht hnode ⟨0, .storage leads meaning⟩
      (completes_foldReference ht leads meaning _ (Or.inl rfl))
  | label leads meaning =>
    unfold foldWith
    exact completes_remember ht hnode ⟨0, .label leads meaning⟩
      (completes_foldReference ht leads meaning _ (Or.inr (Or.inl rfl)))
  | constant leads meaning value ih =>
    unfold foldWith
    refine completes_remember ht hnode ⟨_, .constant leads meaning value⟩
      (completes_foldReference ht leads meaning _ (Or.inr (Or.inr ⟨_, _, rfl, ?_⟩)))
    -- One place of the room is taken by this constant.
    cases room with
    | zero => exact absurd hroom (Nat.not_succ_le_zero _)
    | succ room =>
      unfold expandUpTo
      exact ih (.root (x.constants meaning)) (Nat.le_of_succ_le_succ hroom) _
  | operation left right yields ihl ihr =>
    unfold foldWith
    refine completes_remember ht hnode ⟨_, .operation left right yields⟩ fun s hs => ?_
    obtain ⟨memo, hl, hmemo⟩ := ihl hnode.left hroom chain s hs
    obtain ⟨memo', hr, hmemo'⟩ := ihr hnode.right hroom chain { s with state := memo } hmemo
    rw [Run.bind_apply_of_ok hl, Run.bind_apply_of_ok hr]
    simp only [combine, BinaryOp.apply_eq_ok_iff.2 yields]
    exact ⟨memo', rfl, hmemo'⟩

/-! ## Folding -/

/-- If every result that is remembered is the value of its expression, then a fold comes to a value
only if this is the value of the expression. It does come to it if at most sixteen constants are
nested: then nothing is reported, and every result that is remembered afterwards is the value of its
expression again. -/
theorem fold_agrees (ht : t.Built) (x : Expressions t) (anchor : Anchor)
    (hangs : x.at? anchor = some (scope, e)) (demand : Demand) {s : Logged Memo}
    (hs : x.Right s.state) :
    (∀ v u, t.fold demand scope anchor e s = .ok (.value v) u → t.HasValue scope e v) ∧
      ∀ v, t.Evaluates 16 scope e v →
        ∃ memo, t.fold demand scope anchor e s = .ok (.value v) { s with state := memo } ∧
          x.Right memo := by
  have hn := ht.nested
  constructor
  · intro v u h
    -- What is remembered at the start is right, so whatever is settled from there is right as well.
    obtain ⟨-, hvalue⟩ := keeps_fold x.rooted (.refl t) hangs s _ u h (.refl t _ s.state)
    exact (hasValue_iff_denotes hn).2 ((hvalue v rfl).denotes x.rooted (hs.sound hn) (.root hangs))
  · intro v h
    exact h.completes hn (.root hangs) (Nat.le_refl _) [] s hs

/-- A table with a constant `slot`, which is the variable `base` beside it and four more, and with
another variable `base` in a scope inside. -/
def shadowed : SymbolTable :=
  let outer := (empty.addScope root).enter ⟨1⟩
  let outer := outer.define { name := "base", meaning := .storage 0x200, owner := ⟨1⟩ }
  let slot := .operation .add (.reference [{ text := "base" }] {}) (.number 4 {}) {}
  let outer := outer.define { name := "slot", meaning := .constant slot ⟨1⟩, owner := ⟨1⟩ }
  let inner := (outer.addScope ⟨1⟩).enter ⟨2⟩
  inner.define { name := "base", meaning := .storage 0x300, owner := ⟨2⟩ }

/-- The table comes about by declarations alone. -/
theorem built_shadowed : shadowed.Built := by
  refine .put (.enter (.addScope (.put (.put (.enter (.addScope .empty ?_) ?_) _ _ _) _ _ _)
    ?_) ?_) _ _ _ <;> decide

/-- In the scope inside, with a part of `slot` remembered, the constant is worth four more than the
variable beside it. -/
theorem fold_agrees_shadowed :
    let slot : Expr := .reference [{ text := "slot" }] {}
    let memo := Memo.empty.set { depth := 1, anchor := .constant ⟨12⟩, turns := [.left] }
      (.value 0x200)
    shadowed.Built ∧ (Expressions.single shadowed ⟨2⟩ slot).Right memo ∧
      shadowed.Evaluates 16 ⟨2⟩ slot 0x204 ∧
      ∃ memo', shadowed.fold ⟨true, true⟩ ⟨2⟩ (.detached 0) slot ⟨memo, .empty 1⟩ =
        .ok (.value 0x204) ⟨memo', .empty 1⟩ := by
  intro slot memo
  have hbase : shadowed.Evaluates 15 ⟨1⟩ (.reference [{ text := "base" }] {}) 0x200 :=
    .storage (.name (.here rfl)) rfl
  have hslot : shadowed.Evaluates 16 ⟨2⟩ slot 0x204 :=
    .constant (.name (.outwards rfl rfl (.here rfl))) rfl
      (.operation hbase .number (show (0x204 : UInt16).toNat = 0x200 + 4 from rfl))
  have hright : (Expressions.single shadowed ⟨2⟩ slot).Right memo :=
    Expressions.Right.set (fun _ _ _ _ => Or.inl rfl) (.left (.root rfl)) ⟨15, hbase⟩
  obtain ⟨memo', hfold, -⟩ := (fold_agrees built_shadowed (.single shadowed ⟨2⟩ slot)
    (.detached 0) rfl ⟨true, true⟩ (s := ⟨memo, .empty 1⟩) hright).2 _ hslot
  exact ⟨built_shadowed, hright, hslot, memo', hfold⟩

end SymbolTable

end Cartridge
