import Cartridge.Proofs.Fold

/-!
# What there is to do at a node

Before anything is folded, the table says what a node of an expression asks for: it has a result of
its own, it stands for a constant, or it is an operation whose operands come first. A result of its
own may be that something is wrong with the node. All of this is said here without a memo and
without a log.

Main definitions:

- `SymbolTable.search`: what a path stands for, or what is wrong with it.
- `Verdict`: a result, or what is wrong.
- `SymbolTable.finding`: what there is to do at a node.

Main results:

- Theorem `SymbolTable.resolve_eq`: resolving a path reports what is wrong with it.
- Theorem `SymbolTable.finding_eq_constant`: which nodes stand for a constant.
- Theorems `SymbolTable.foldWith_of_own`, `SymbolTable.foldWith_of_constant` and
  `SymbolTable.foldWith_of_operation`: folding a node does what there is to do at it.
-/

namespace Cartridge

/-! ## Verdicts -/

/-- What a node comes to by itself. -/
inductive Verdict where
  | result (folded : Folded)
  /-- Something is wrong, which is to be reported. -/
  | wrong (e : Error) (pos : Position)
deriving DecidableEq, Repr

namespace Verdict

/-- The result of a node with a verdict. -/
def folded : Verdict → Folded
  | result folded => folded
  | wrong _ _ => .invalid

/-- Comes to the result, after a report if something is wrong. -/
def act {σ : Type} : Verdict → Run σ Folded
  | result folded => pure folded
  | wrong e pos => do
    Run.error e pos
    return .invalid

end Verdict

/-- The verdict on an operation, from the results of its operands. -/
def BinaryOp.verdict (op : BinaryOp) (pos : Position) : Folded → Folded → Verdict
  | .value l, .value r =>
    match op.apply l r with
    | .ok v => .result (.value v)
    | .error e => .wrong e pos
  | .invalid, _ => .result .invalid
  | _, .invalid => .result .invalid
  | _, _ => .result .pending

/-- What is wrong with an operation is not that constants are nested too deeply. -/
theorem BinaryOp.ne_tooManyExpansions_of_verdict {op : BinaryOp} {pos p : Position} {l r : Folded}
    {e : Error} (h : op.verdict pos l r = .wrong e p) (depth : Nat) (chain : String) :
    e ≠ .tooManyExpansions depth chain := by
  cases l <;> cases r <;> try cases h
  rename_i v w
  simp only [verdict] at h
  cases hop : op.apply v w with
  | ok _ =>
    rw [hop] at h
    cases h
  | error _ =>
    rw [hop] at h
    cases h
    cases op <;> simp only [apply, fitWord] at hop <;> (try split at hop) <;>
      (try split at hop) <;> cases hop <;> exact Error.noConfusion

/-- An operation has no result but an invalid one if one of its operands is invalid. -/
theorem BinaryOp.verdict_of_invalid {op : BinaryOp} {pos : Position} {l r : Folded}
    (h : l = .invalid ∨ r = .invalid) : op.verdict pos l r = .result .invalid := by
  rcases h with rfl | rfl
  · rfl
  · cases l <;> rfl

/-- An operation whose operands are not pending is not pending. -/
theorem BinaryOp.verdict_ne_pending {op : BinaryOp} {pos : Position} {l r : Folded}
    (hl : l ≠ .pending) (hr : r ≠ .pending) : (op.verdict pos l r).folded ≠ .pending := by
  cases l <;> cases r <;> first | contradiction | exact Folded.noConfusion | skip
  rename_i v w
  simp only [verdict]
  cases op.apply v w <;> exact Folded.noConfusion

namespace SymbolTable

variable {σ : Type} {t : SymbolTable} {demand : Demand} {scope : ScopeId} {e : Expr}

/-! ## Paths -/

/-- What the pieces of a path that remain after `before` stand for in a scope, or what is wrong with
them. The text of the whole path is `wanted`. -/
def searchPieces (t : SymbolTable) (forbidUndefined : Bool) (wanted : String) :
    List Name → ScopeId → List Name → Except (Error × Position) (Option DefId)
  | _, _, [] => .ok none
  | before, scope, piece :: rest =>
    match t.lookup scope piece.text before.isEmpty, rest with
    | some id, [] => .ok (some id)
    | none, [] =>
      if forbidUndefined then .error (.noAttribute piece.text (placeText before) wanted, piece.pos)
      else .ok none
    | none, _ :: _ => .error (.noPackage (Name.dotted (before ++ [piece])) wanted, piece.pos)
    | some id, _ :: _ =>
      match t.meaning? id with
      | some (.package inner) =>
        searchPieces t forbidUndefined wanted (before ++ [piece]) inner rest
      | _ => .error (.notAPackage (Name.dotted (before ++ [piece])) wanted, piece.pos)

/-- What a path stands for in a scope, or what is wrong with it. -/
def search (t : SymbolTable) (scope : ScopeId) (path : List Name) (forbidUndefined : Bool) :
    Except (Error × Position) (Option DefId) :=
  t.searchPieces forbidUndefined (Name.dotted path) [] scope path

/-- Reports what is wrong with a path. -/
def announce : Except (Error × Position) (Option DefId) → Run σ Lookup
  | .ok (some id) => pure (.found id)
  | .ok none => pure .missing
  | .error (e, pos) => do
    Run.error e pos
    return .failed

theorem resolvePieces_eq (forbid : Bool) (wanted : String) (before : List Name) (scope : ScopeId)
    (pieces : List Name) :
    (t.resolvePieces forbid wanted before scope pieces : Run σ Lookup) =
      announce (t.searchPieces forbid wanted before scope pieces) := by
  induction pieces generalizing before scope with
  | nil => rfl
  | cons piece rest ih =>
    unfold resolvePieces searchPieces
    cases hl : t.lookup scope piece.text before.isEmpty with
    | none =>
      cases rest with
      | nil => cases forbid <;> rfl
      | cons next rest => rfl
    | some id =>
      cases rest with
      | nil => rfl
      | cons next rest =>
        rcases hm : t.meaning? id with _ | ⟨b⟩ | ⟨v, inner⟩ | ⟨a⟩ | ⟨a⟩ | ⟨inner⟩
        case some.package =>
          simp only [hm]
          exact ih _ _
        all_goals
          simp only [hm]
          rfl

/-- Resolving a path finds what it stands for, or reports what is wrong with it. -/
theorem resolve_eq (scope : ScopeId) (path : List Name) (forbid : Bool) :
    (t.resolve scope path forbid : Run σ Lookup) = announce (t.search scope path forbid) :=
  resolvePieces_eq _ _ _ _ _

/-- The search for a path finds what the path stands for. -/
theorem search_eq_some {path : List Name} {forbid : Bool} {id : DefId} :
    t.search scope path forbid = .ok (some id) ↔ t.target? scope path = some id := by
  -- Both sides say what is resolved, from any state at all.
  let s : Logged Unit := ⟨(), .empty 0⟩
  constructor
  · intro h
    have hok : t.resolve scope path forbid s = .ok (.found id) s := by
      rw [resolve_eq, h]
      rfl
    exact (resolve_of_ok hok).1
  · intro h
    have hok := resolve_of_target? h forbid s
    rw [resolve_eq] at hok
    rcases hsearch : t.search scope path forbid with ⟨wrong, pos⟩ | _ | found <;>
      rw [hsearch] at hok
    · obtain ⟨_, _, _, hret⟩ := Run.bind_eq_ok.1 hok
      cases hret
    · cases hok
    · cases hok
      rfl

/-- What is wrong with a path is not that constants are nested too deeply. -/
theorem search_ne_tooManyExpansions {path : List Name} {forbid : Bool} {e : Error} {pos : Position}
    (h : t.search scope path forbid = .error (e, pos)) (depth : Nat) (chain : String) :
    e ≠ .tooManyExpansions depth chain := by
  unfold search at h
  generalize Name.dotted path = wanted at h
  generalize ([] : List Name) = before at h
  induction path generalizing before scope with
  | nil => cases h
  | cons piece rest ih =>
    unfold searchPieces at h
    split at h
    · cases h
    · split at h
      · cases h
        exact nofun
      · cases h
    · cases h
      exact nofun
    · split at h
      · exact ih _ h
      · cases h
        exact nofun

/-! ## Nodes -/

/-- What there is to do at a node. -/
inductive Finding where
  | own (verdict : Verdict)
  /-- The node stands for a constant, with an expression and the scope of its declaration. -/
  | constant (id : DefId) (value : Expr) (inner : ScopeId)
  | operation (op : BinaryOp) (left right : Expr)

/-- The verdict on a reference that has no value yet. -/
def awaiting (demand : Demand) (path : List Name) (pos : Position) : Verdict :=
  if demand.mustFold then .wrong (.indeterminate (Name.dotted path)) pos else .result .pending

/-- What there is to do at a reference to a definition. -/
def usage (t : SymbolTable) (demand : Demand) (path : List Name) (pos : Position) (id : DefId) :
    Finding :=
  match t.meaning? id with
  | some (.builtin b) => .own (.wrong (.builtinAsValue b.name) pos)
  | some (.package _) => .own (.wrong (.packageAsValue (t.qualifiedName id)) pos)
  | some (.storage address) => .own (.result (.value address))
  | some (.label (some address)) => .own (.result (.value address))
  | some (.constant value inner) => .constant id value inner
  | some (.label none) | none => .own (awaiting demand path pos)

/-- What there is to do at a reference. -/
def referent (t : SymbolTable) (demand : Demand) (scope : ScopeId) (path : List Name)
    (pos : Position) : Finding :=
  match t.search scope path demand.forbidUndefined with
  | .error (e, p) => .own (.wrong e p)
  | .ok none => .own (awaiting demand path pos)
  | .ok (some id) => t.usage demand path pos id

/-- What there is to do at a node in a scope. -/
def finding (t : SymbolTable) (demand : Demand) (scope : ScopeId) : Expr → Finding
  | .number v _ => .own (.result (.value v))
  | .reference path pos => t.referent demand scope path pos
  | .operation op left right _ => .operation op left right

/-- A reference to a definition is a constant exactly if the definition is one. -/
theorem usage_eq_constant {path : List Name} {pos : Position} {found id : DefId} {value : Expr}
    {inner : ScopeId} :
    t.usage demand path pos found = .constant id value inner ↔
      found = id ∧ t.meaning? id = some (.constant value inner) := by
  constructor
  · intro h
    unfold usage at h
    split at h <;> cases h
    rename_i hm
    exact ⟨rfl, hm⟩
  · rintro ⟨rfl, hm⟩
    simp only [usage, hm]

/-- A reference is no operation. -/
theorem referent_ne_operation {path : List Name} {pos : Position} {op : BinaryOp} {a b : Expr} :
    t.referent demand scope path pos ≠ .operation op a b := by
  intro h
  unfold referent at h
  split at h
  · cases h
  · cases h
  · unfold usage at h
    split at h <;> cases h

/-- The nodes that are operations. -/
theorem finding_eq_operation {op : BinaryOp} {a b : Expr} :
    t.finding demand scope e = .operation op a b ↔ ∃ pos, e = .operation op a b pos := by
  constructor
  · intro h
    cases e with
    | number v pos => cases h
    | reference path pos => exact absurd h referent_ne_operation
    | operation op' a' b' pos =>
      cases h
      exact ⟨pos, rfl⟩
  · rintro ⟨pos, rfl⟩
    rfl

/-- The nodes that stand for a constant. They are the same whatever is asked of a fold. -/
theorem finding_eq_constant {id : DefId} {value : Expr} {inner : ScopeId} :
    t.finding demand scope e = .constant id value inner ↔
      ∃ path pos, e = .reference path pos ∧ t.target? scope path = some id ∧
        t.meaning? id = some (.constant value inner) := by
  constructor
  · intro h
    cases e with
    | number v pos => cases h
    | operation op a b pos => cases h
    | reference path pos =>
      have hreferent : t.referent demand scope path pos = .constant id value inner := h
      unfold referent at hreferent
      split at hreferent
      · cases hreferent
      · cases hreferent
      · rename_i hsearch
        obtain ⟨rfl, hm⟩ := usage_eq_constant.1 hreferent
        exact ⟨path, pos, rfl, search_eq_some.1 hsearch, hm⟩
  · rintro ⟨path, pos, rfl, htarget, hm⟩
    show t.referent demand scope path pos = _
    unfold referent
    rw [search_eq_some.2 htarget]
    exact usage_eq_constant.2 ⟨rfl, hm⟩

/-- What a node may come to by itself: a value; nothing yet, unless it has to be folded; or
something that is wrong, but not that constants are nested too deeply. -/
def Verdict.Plain (demand : Demand) : Verdict → Prop
  | .result .pending => demand.mustFold = false
  | .result (.value _) => True
  | .result .invalid => False
  | .wrong cause _ => ∀ depth chain, cause ≠ .tooManyExpansions depth chain

/-- What a node comes to by itself is not pending if the node has to be folded. -/
theorem Verdict.Plain.ne_pending {verdict : Verdict} (h : Verdict.Plain demand verdict)
    (hmust : demand.mustFold = true) : verdict.folded ≠ .pending := by
  rcases verdict with (_ | v | _) | ⟨cause, pos⟩
  · exact absurd (hmust.symm.trans h) Bool.noConfusion
  all_goals exact Folded.noConfusion

theorem plain_awaiting (path : List Name) (pos : Position) :
    Verdict.Plain demand (awaiting demand path pos) := by
  unfold awaiting
  cases hm : demand.mustFold with
  | true => exact fun _ _ => nofun
  | false => exact hm

/-- What a node comes to by itself. -/
theorem plain_of_finding {verdict : Verdict} (h : t.finding demand scope e = .own verdict) :
    Verdict.Plain demand verdict := by
  cases e with
  | number v pos =>
    cases h
    trivial
  | operation op a b pos => cases h
  | reference path pos =>
    have hreferent : t.referent demand scope path pos = .own verdict := h
    unfold referent at hreferent
    split at hreferent
    · rename_i hsearch
      cases hreferent
      exact search_ne_tooManyExpansions hsearch
    · cases hreferent
      exact plain_awaiting path pos
    · unfold usage at hreferent
      split at hreferent <;> cases hreferent
      · exact fun _ _ => nofun
      · exact fun _ _ => nofun
      · trivial
      · trivial
      · exact plain_awaiting path pos
      · exact plain_awaiting path pos

/-! ## Folding a node -/

theorem unresolved_eq (path : List Name) (pos : Position) :
    unresolved demand path pos = (awaiting demand path pos).act := by
  unfold unresolved awaiting
  split <;> rfl

theorem combine_eq (op : BinaryOp) (pos : Position) (l r : Folded) :
    combine op pos l r = (op.verdict pos l r).act := by
  cases l <;> cases r <;> try rfl
  rename_i v w
  simp only [combine, BinaryOp.verdict]
  cases op.apply v w <;> rfl

/-- A reference with a result of its own. -/
theorem foldReference_of_own {path : List Name} {pos : Position} {verdict : Verdict}
    (h : t.referent demand scope path pos = .own verdict) (expand : Expansion) :
    t.foldReference demand expand scope path pos = verdict.act := by
  unfold foldReference
  rw [resolve_eq]
  unfold referent at h
  rcases hsearch : t.search scope path demand.forbidUndefined with ⟨wrong, p⟩ | _ | id <;>
    simp only [hsearch] at h
  · cases h
    simp only [announce, bind_assoc, pure_bind, Verdict.act]
  · cases h
    simp only [announce, pure_bind, unresolved_eq]
  · rcases hm : t.meaning? id with _ | ⟨b⟩ | ⟨value, inner⟩ | ⟨_ | a⟩ | ⟨a⟩ | ⟨inner⟩ <;>
      simp only [usage, hm] at h <;> cases h <;>
      simp only [announce, pure_bind, hm, Verdict.act, unresolved_eq]

/-- A reference to a constant. -/
theorem foldReference_of_constant {path : List Name} {pos : Position} {id : DefId} {value : Expr}
    {inner : ScopeId} (htarget : t.target? scope path = some id)
    (hm : t.meaning? id = some (.constant value inner)) (expand : Expansion) :
    t.foldReference demand expand scope path pos = expand id value inner pos := by
  unfold foldReference
  rw [resolve_eq, search_eq_some.2 htarget]
  simp only [announce, pure_bind, hm]

/-- Folding a node with a result of its own. -/
theorem foldWith_of_own {verdict : Verdict} (h : t.finding demand scope e = .own verdict)
    (expand : Expansion) (site : Site) :
    t.foldWith demand expand scope site e = remember site verdict.act := by
  cases e with
  | number v pos =>
    cases h
    rfl
  | operation op a b pos => cases h
  | reference path pos =>
    unfold foldWith
    rw [foldReference_of_own h]

/-- Folding a node that stands for a constant. -/
theorem foldWith_of_constant {id : DefId} {value : Expr} {inner : ScopeId}
    (h : t.finding demand scope e = .constant id value inner) (expand : Expansion) (site : Site) :
    t.foldWith demand expand scope site e = remember site (expand id value inner e.pos) := by
  obtain ⟨path, pos, rfl, htarget, hm⟩ := finding_eq_constant.1 h
  unfold foldWith
  rw [foldReference_of_constant htarget hm]
  rfl

/-- Folding an operation. -/
theorem foldWith_of_operation {op : BinaryOp} {a b : Expr}
    (h : t.finding demand scope e = .operation op a b) (expand : Expansion) (site : Site) :
    t.foldWith demand expand scope site e = remember site (do
      let l ← t.foldWith demand expand scope (site.child .left) a
      let r ← t.foldWith demand expand scope (site.child .right) b
      (op.verdict e.pos l r).act) := by
  obtain ⟨pos, rfl⟩ := finding_eq_operation.1 h
  simp only [← combine_eq]
  rfl

/-- Folding a node whose result is known. -/
theorem foldWith_of_known {site : Site} {s : Logged Memo} (h : s.state.result site ≠ .pending)
    (expand : Expansion) :
    t.foldWith demand expand scope site e s = .ok (s.state.result site) s := by
  cases e <;> exact remember_of_ne h

end SymbolTable

end Cartridge
