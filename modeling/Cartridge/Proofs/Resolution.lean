import Cartridge.Proofs.Run
import Cartridge.Symbol.Resolution

/-!
# What a path stands for

The definition that a dotted path stands for, without the reports that are made when there is none.

Main definitions:

- `SymbolTable.target?`: the definition that a path stands for in a scope.

Main results:

- Theorem `SymbolTable.resolve_of_ok`: resolving a path leads to what the path stands for, and
  leaves the state alone.
- Theorem `SymbolTable.resolve_of_target?`: a path that stands for something is resolved without a
  report.
-/

namespace Cartridge

namespace SymbolTable

variable {σ : Type} {t : SymbolTable}

/-- The definition that the pieces of a path lead to. The first one is also looked for outwards
through the parents if `inherit` is set; every other one in the package found so far. -/
def follow? (t : SymbolTable) : Bool → ScopeId → List Name → Option DefId
  | _, _, [] => none
  | inherit, scope, [piece] => t.lookup scope piece.text inherit
  | inherit, scope, piece :: next :: rest =>
    match t.lookup scope piece.text inherit with
    | none => none
    | some id =>
      match t.meaning? id with
      | some (.package inner) => follow? t false inner (next :: rest)
      | _ => none

/-- The definition that a path stands for in a scope. -/
def target? (t : SymbolTable) (scope : ScopeId) (path : List Name) : Option DefId :=
  t.follow? true scope path

/-- What becomes of the state and the log when a path was resolved. -/
def Lookup.Describes (target : Option DefId) (s u : Logged σ) : Lookup → Prop
  | .found id => target = some id ∧ u = s
  | .missing => target = none ∧ u = s
  | .failed => target = none ∧ u.state = s.state ∧ 0 < u.log.count

theorem resolvePieces_of_ok {forbid : Bool} {wanted : String} {pieces before : List Name}
    {scope : ScopeId} {s u : Logged σ} {found : Lookup}
    (h : t.resolvePieces forbid wanted before scope pieces s = .ok found u) :
    found.Describes (t.follow? before.isEmpty scope pieces) s u := by
  induction pieces generalizing before scope with
  | nil =>
    cases h
    exact ⟨rfl, rfl⟩
  | cons piece rest ih =>
    unfold resolvePieces at h
    cases rest with
    | nil =>
      unfold follow?
      cases hl : t.lookup scope piece.text before.isEmpty with
      | some id =>
        rw [hl] at h
        cases h
        exact ⟨rfl, rfl⟩
      | none =>
        rw [hl] at h
        cases forbid with
        | false =>
          cases h
          exact ⟨rfl, rfl⟩
        | true =>
          obtain ⟨_, v, hv, hret⟩ := Run.bind_eq_ok.1 h
          obtain ⟨-, rfl⟩ := Run.error_eq_ok.1 hv
          cases hret
          exact ⟨rfl, rfl, Nat.succ_pos _⟩
    | cons next rest =>
      unfold follow?
      cases hl : t.lookup scope piece.text before.isEmpty with
      | none =>
        rw [hl] at h
        obtain ⟨_, v, hv, hret⟩ := Run.bind_eq_ok.1 h
        obtain ⟨-, rfl⟩ := Run.error_eq_ok.1 hv
        cases hret
        exact ⟨rfl, rfl, Nat.succ_pos _⟩
      | some id =>
        rcases hm : t.meaning? id with _ | ⟨b⟩ | ⟨v, inner⟩ | ⟨a⟩ | ⟨a⟩ | ⟨inner⟩
        case some.package =>
          simp only [hl, hm] at h ⊢
          have hfollow := ih h
          have hne : (before ++ [piece]).isEmpty = false := by
            simp
          rwa [hne] at hfollow
        -- Everything else cannot be followed further, which is reported.
        all_goals
          simp only [hl, hm] at h ⊢
          obtain ⟨_, v, hv, hret⟩ := Run.bind_eq_ok.1 h
          obtain ⟨-, rfl⟩ := Run.error_eq_ok.1 hv
          cases hret
          exact ⟨rfl, rfl, Nat.succ_pos _⟩

/-- Resolving a path leads to what the path stands for, and leaves the state alone. If that is
reported to be nothing then something was reported. -/
theorem resolve_of_ok {scope : ScopeId} {path : List Name} {forbid : Bool} {s u : Logged σ}
    {found : Lookup} (h : t.resolve scope path forbid s = .ok found u) :
    found.Describes (t.target? scope path) s u :=
  resolvePieces_of_ok h

theorem resolvePieces_of_follow? {forbid : Bool} {wanted : String} {pieces : List Name}
    {scope : ScopeId} {id : DefId} (before : List Name)
    (h : t.follow? before.isEmpty scope pieces = some id) (s : Logged σ) :
    t.resolvePieces forbid wanted before scope pieces s = .ok (.found id) s := by
  induction pieces generalizing before scope with
  | nil => cases h
  | cons piece rest ih =>
    cases rest with
    | nil =>
      have hl : t.lookup scope piece.text before.isEmpty = some id := h
      unfold resolvePieces
      simp only [hl]
      rfl
    | cons next rest =>
      unfold follow? at h
      unfold resolvePieces
      cases hl : t.lookup scope piece.text before.isEmpty with
      | none =>
        rw [hl] at h
        cases h
      | some package =>
        simp only [hl] at h ⊢
        split at h
        · rename_i inner hm
          have hne : (before ++ [piece]).isEmpty = false := by
            simp
          simp only [hm]
          exact ih _ (hne ▸ h)
        · cases h

/-- A path that stands for something is resolved without a report. -/
theorem resolve_of_target? {scope : ScopeId} {path : List Name} {id : DefId}
    (h : t.target? scope path = some id) (forbid : Bool) (s : Logged σ) :
    t.resolve scope path forbid s = .ok (.found id) s :=
  resolvePieces_of_follow? [] h s

end SymbolTable

end Cartridge
