import Cartridge.Proofs.Derivation
import Cartridge.Proofs.GatherFrame

/-!
# Sessions

What a symbol table is used for, step by step: scopes are made, entered and left, names are put into
them, labels are placed, and expressions are folded, in any order and with any demands. The first
step that is abandoned ends the session.

Main definitions:

- `Pass.foldIn`: folds an expression in a scope.
- `Action` and `Action.performAll`: one step, and a session.
- `Diagnostic.OfDeclaration`: an entry that a step other than a fold may add to the log.

Main results:

- Theorem `Action.declaring_perform`: a step other than a fold leaves the memo alone, and reports
  nothing but names that are declared twice.
- Theorem `Action.onMemo_performAll`: a session keeps what every fold keeps.
- Theorem `Pass.foldAt_eq`: folding in the current scope.
-/

namespace Cartridge

/-! ## Steps -/

/-- Folds an expression in a scope. -/
def Pass.foldIn (demand : Demand) (scope : ScopeId) (anchor : Anchor) (e : Expr) :
    Pass Folded := do
  let symbols := (← Run.read).symbols
  Run.focus Context.memo (fun memo ctx => { ctx with memo }) (symbols.fold demand scope anchor e)

/-- A fold in a scope finishes if the fold over the table and the memo does, and changes only the
memo. -/
theorem Pass.foldIn_eq_ok {demand : Demand} {scope : ScopeId} {anchor : Anchor} {e : Expr}
    {s t : Logged Context} {folded : Folded} :
    Pass.foldIn demand scope anchor e s = .ok folded t ↔
      ∃ u, s.state.symbols.fold demand scope anchor e { state := s.state.memo, log := s.log } =
          .ok folded u ∧
        t = { state := { s.state with memo := u.state }, log := u.log } := by
  unfold foldIn
  rw [Run.read_bind_apply]
  exact Run.focus_eq_ok

/-- Folding in the current scope. -/
theorem Pass.foldAt_eq (demand : Demand) (anchor : Anchor) (e : Expr) (s : Logged Context) :
    Pass.foldAt demand anchor e s =
      (Folded.value? <$> Pass.foldIn demand s.state.symbols.current anchor e) s := by
  unfold foldAt foldIn
  rw [Run.read_bind_apply]
  rfl

/-- A step in the use of a symbol table. -/
inductive Action where
  | enter (scope : ScopeId)
  | exit
  | createScope (parent : ScopeId)
  | createPackage (name : Name)
  | put (name : String) (pos : Option Position) (meaning : Meaning)
  | place (id : DefId) (address : UInt16)
  | fold (demand : Demand) (scope : ScopeId) (anchor : Anchor) (e : Expr)

namespace Action

/-- Takes a step. -/
def perform : Action → Pass Unit
  | enter scope => Run.update (Context.enter scope)
  | exit => Run.update Context.exit
  | createScope parent => do
    let _ ← Pass.onSymbols (SymbolTable.createScope parent)
  | createPackage name => do
    let _ ← Pass.onSymbols (SymbolTable.createPackage name)
  | put name pos meaning => do
    let _ ← Pass.onSymbols (SymbolTable.put name pos meaning)
  | place id address =>
    Run.update fun ctx => { ctx with symbols := ctx.symbols.placeLabel id address }
  | fold demand scope anchor e => do
    let _ ← Pass.foldIn demand scope anchor e

/-- Takes steps, up to the first one that is abandoned. -/
def performAll : List Action → Pass Unit
  | [] => pure ()
  | action :: rest => do
    action.perform
    performAll rest

/-- Whether a step folds an expression. -/
def isFold : Action → Bool
  | fold _ _ _ _ => true
  | _ => false

end Action

/-! ## What is reported outside of folds -/

/-- A log gains entries with a property. -/
def Log.Gains (P : Diagnostic → Prop) (a b : Log) : Prop :=
  a.count ≤ b.count ∧ ∃ added, b.entries = a.entries ++ added ∧ ∀ d ∈ added, P d

namespace Log.Gains

variable {P : Diagnostic → Prop} {a b c : Log}

theorem refl (P : Diagnostic → Prop) (a : Log) : a.Gains P a :=
  ⟨Nat.le_refl _, [], (List.append_nil _).symm, fun _ h => absurd h List.not_mem_nil⟩

theorem trans (hab : a.Gains P b) (hbc : b.Gains P c) : a.Gains P c := by
  obtain ⟨hcount, added, hb, hadded⟩ := hab
  obtain ⟨hcount', added', hc, hadded'⟩ := hbc
  refine ⟨Nat.le_trans hcount hcount', added ++ added', ?_, fun d hd => ?_⟩
  · rw [hc, hb, List.append_assoc]
  · rcases List.mem_append.1 hd with hd | hd
    · exact hadded d hd
    · exact hadded' d hd

/-- One entry with the property may be gained. -/
theorem entry {d : Diagnostic} (hcount : a.count ≤ b.count)
    (hentries : b.entries = a.entries ++ [d]) (hd : P d) : a.Gains P b := by
  refine ⟨hcount, [d], hentries, fun d' hd' => ?_⟩
  rw [List.mem_singleton.1 hd']
  exact hd

end Log.Gains

/-- The frame of runs that report only what has a property. -/
def Run.Frame.gaining (σ : Type) (P : Diagnostic → Prop) : Run.Frame σ :=
  .total (fun s t => s.log.Gains P t.log) (fun s => .refl P s.log) .trans

/-- What has the property may be reported, together with the closing entry. -/
theorem Run.Frame.reports_gaining {σ : Type} {P : Diagnostic → Prop} {e : Error}
    (hP : ∀ fatal pos, P { fatal, pos := some pos, error := e })
    (hclosing : ∀ count, P { fatal := true, pos := none, error := .tooManyErrors count }) :
    (gaining σ P).Reports e := by
  have hsoft (log : Log) (pos : Position) : log.Gains P (log.soft e pos) :=
    .entry (Nat.le_succ _) rfl (hP false pos)
  have hgiveUp (log : Log) : log.Gains P log.giveUp :=
    .entry (Nat.le_refl _) rfl (hclosing log.count)
  exact ⟨fun s pos => hsoft s.log pos, fun s pos => (hsoft s.log pos).trans (hgiveUp _),
    fun s pos => .entry (Nat.le_succ _) rfl (hP true pos)⟩

/-- An entry that a step other than a fold may add to the log: a name that is declared again, or the
closing entry. -/
def Diagnostic.OfDeclaration (d : Diagnostic) : Prop :=
  d.pos = none ∨ ∃ name previous, d.error = .redefinition name previous

/-- The frame of what leaves the memo alone and reports declarations only. -/
def Run.Frame.declaring : Run.Frame Context :=
  .total (fun s t => t.state.memo = s.state.memo ∧ s.log.Gains Diagnostic.OfDeclaration t.log)
    (fun s => ⟨rfl, .refl _ s.log⟩) fun hst htu => ⟨htu.1.trans hst.1, hst.2.trans htu.2⟩

namespace Action

open Run.Frame

/-- A run over the symbol table leaves the memo alone. -/
theorem declaring_onSymbols {α : Type} {act : Run SymbolTable α}
    (h : (gaining SymbolTable Diagnostic.OfDeclaration).Holds act) :
    declaring.Holds (Pass.onSymbols act) :=
  holds_focus (F := declaring) (fun _ _ hst => ⟨rfl, hst⟩) (fun _ _ hst => ⟨rfl, hst⟩) h

/-- A step other than a fold leaves the memo alone, and reports declarations only. -/
theorem declaring_perform {action : Action} (h : action.isFold = false) :
    declaring.Holds action.perform := by
  have hreports : ∀ name previous, (gaining SymbolTable Diagnostic.OfDeclaration).Reports
      (.redefinition name previous) :=
    fun name previous => reports_gaining (fun _ _ => .inr ⟨name, previous, rfl⟩) fun _ => .inl rfl
  have hchange : ∀ (s : Logged SymbolTable) t, t.stack = s.state.stack →
      (gaining SymbolTable Diagnostic.OfDeclaration).rel s { s with state := t } :=
    fun s _ _ => .refl _ s.log
  cases action with
  | enter scope => exact holds_update fun s => ⟨rfl, .refl _ s.log⟩
  | exit => exact holds_update fun s => ⟨rfl, .refl _ s.log⟩
  | createScope parent =>
    exact holds_bind (declaring_onSymbols (holds_createScope hchange parent)) fun _ =>
      declaring.holds_pure _
  | createPackage name =>
    exact holds_bind (declaring_onSymbols (holds_createPackage hreports hchange name)) fun _ =>
      declaring.holds_pure _
  | put name pos meaning =>
    exact holds_bind (declaring_onSymbols (holds_put hreports hchange name pos meaning)) fun _ =>
      declaring.holds_pure _
  | place id address =>
    unfold perform
    exact holds_update (F := declaring) fun s => ⟨rfl, .refl _ s.log⟩
  | fold demand scope anchor e => cases h

/-- A step that folds nothing leaves the memo alone and reports declarations only, however it
ends. -/
theorem ending_perform {action : Action} (h : action.isFold = false) (s : Logged Context) :
    (Run.ending (action.perform s)).state.memo = s.state.memo ∧
      s.log.Gains Diagnostic.OfDeclaration (Run.ending (action.perform s)).log := by
  have hs := declaring_perform h s
  cases hr : action.perform s with
  | ok _ t =>
    rw [hr] at hs
    exact hs
  | error x t =>
    rw [hr] at hs
    exact hs

section Memo

variable {G : Run.Frame Memo} (habort : ∀ s t, G.abort s t)
  (hquiet : ∀ s t, t.state = s.state → s.log.count ≤ t.log.count → G.rel s t)
  (hfold : ∀ (t : SymbolTable) demand scope anchor e, G.Holds (t.fold demand scope anchor e))

include habort hquiet hfold

/-- A frame of memos that every fold keeps is kept by every step. -/
theorem onMemo_perform (action : Action) : (onMemo G).Holds action.perform := by
  cases hkind : action.isFold with
  | false =>
    refine holds_of_ok (F := onMemo G) (fun _ _ => habort _ _) fun s _ t h => ?_
    obtain ⟨hmemo, hcount, -⟩ := (declaring_perform hkind).rel_of_ok h
    exact hquiet _ _ hmemo hcount
  | true =>
    cases action with
    | fold demand scope anchor e =>
      have hfocus : (onMemo G).Holds (Pass.foldIn demand scope anchor e) :=
        holds_read_bind fun ctx => holds_focus (F := onMemo G) (fun _ _ h => h) (fun _ _ h => h)
          (hfold ctx.symbols demand scope anchor e)
      exact holds_bind hfocus fun _ => holds_pure _ _
    | _ => cases hkind

/-- So it is kept by every session. -/
theorem onMemo_performAll (actions : List Action) : (onMemo G).Holds (performAll actions) := by
  induction actions with
  | nil => exact holds_pure _ _
  | cons action rest ih => exact holds_bind (onMemo_perform habort hquiet hfold action) fun _ => ih

end Memo

end Action

end Cartridge
