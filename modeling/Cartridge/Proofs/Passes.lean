import Cartridge.Compile.Emit
import Cartridge.Proofs.Fold
import Cartridge.Proofs.Places
import Cartridge.Proofs.Rom

/-!
# The primitives of the passes

The passes over a tree are built from a few primitives: runs over the rom and its banks, folds of
the expressions of the tree, and blocks that enter their scopes.

Main definitions:

- `Run.Frame.Scoped`: a frame does not see which scopes are entered and left again.

Main results:

- Theorems `Pass.onRom_eq_ok`, `Pass.onBank_eq_ok`, `Pass.foldAt_eq_ok`, `Pass.within_eq_ok` and
  `Pass.scopeOf_eq_ok`: when the primitives finish, and with which context.
- Theorems `Run.Frame.holds_onRom` and `Run.Frame.holds_fold`: frames of runs over a part of the
  context.
-/

namespace Cartridge

/-! ## The banks of a context -/

namespace Context

/-- A bank of the rom by its index. -/
def bank (ctx : Context) (i : Nat) : Bank :=
  ctx.rom.elim {} fun rom => rom.bank i

/-- The number of banks of the rom. -/
def bankCount (ctx : Context) : Nat :=
  ctx.rom.elim 0 fun rom => rom.banks.size

/-- The index of the bank that statements go to. -/
def active? (ctx : Context) : Option Nat :=
  ctx.rom.bind Rom.active

/-- The context with another bank at an index. -/
def setBank (i : Nat) (b : Bank) (ctx : Context) : Context :=
  { ctx with rom := ctx.rom.map fun rom => rom.setBank i b }

/-- The context with another active bank. -/
def activate (i : Nat) (ctx : Context) : Context :=
  { ctx with rom := ctx.rom.map fun rom => { rom with active := some i } }

@[simp] theorem active?_setBank (ctx : Context) (i : Nat) (b : Bank) :
    (ctx.setBank i b).active? = ctx.active? := by
  cases h : ctx.rom <;> simp [active?, setBank, h]

@[simp] theorem bankCount_setBank (ctx : Context) (i : Nat) (b : Bank) :
    (ctx.setBank i b).bankCount = ctx.bankCount := by
  cases h : ctx.rom <;> simp [bankCount, setBank, h]

theorem bank_setBank_self {ctx : Context} {i : Nat} (h : i < ctx.bankCount) (b : Bank) :
    (ctx.setBank i b).bank i = b := by
  cases hr : ctx.rom with
  | none => simp [bankCount, hr] at h
  | some rom =>
    have hi : i < rom.banks.size := by
      simpa [bankCount, hr] using h
    simp [bank, setBank, hr, Rom.bank_setBank_self hi]

theorem bank_setBank_of_ne {ctx : Context} {i j : Nat} (h : j ≠ i) (b : Bank) :
    (ctx.setBank i b).bank j = ctx.bank j := by
  cases hr : ctx.rom with
  | none => simp [bank, setBank, hr]
  | some rom => simp [bank, setBank, hr, Rom.bank_setBank_of_ne h]

/-- A bank that does not exist cannot be replaced. -/
theorem bank_setBank_of_le {ctx : Context} {i : Nat} (h : ctx.bankCount ≤ i) (b : Bank) :
    (ctx.setBank i b).bank i = ctx.bank i := by
  cases hr : ctx.rom with
  | none => simp [bank, setBank, hr]
  | some rom =>
    have hi : rom.banks.size ≤ i := by
      simpa [bankCount, hr] using h
    simp [bank, setBank, hr, Rom.setBank, Array.setIfInBounds_eq_of_size_le hi]

/-- A bank may be replaced by itself. -/
theorem setBank_bank (ctx : Context) (i : Nat) : ctx.setBank i (ctx.bank i) = ctx := by
  obtain ⟨_, _, rom, _, _, _, _, _, _⟩ := ctx
  cases rom <;> simp [setBank, bank, Rom.setBank_bank]

theorem setBank_setBank (ctx : Context) (i : Nat) (b c : Bank) :
    (ctx.setBank i b).setBank i c = ctx.setBank i c := by
  cases h : ctx.rom <;> simp [setBank, h, Rom.setBank_setBank]

@[simp] theorem bank_activate (ctx : Context) (i j : Nat) :
    (ctx.activate i).bank j = ctx.bank j := by
  cases h : ctx.rom <;> simp [bank, activate, h, Rom.bank]

@[simp] theorem bankCount_activate (ctx : Context) (i : Nat) :
    (ctx.activate i).bankCount = ctx.bankCount := by
  cases h : ctx.rom <;> simp [bankCount, activate, h]

/-- A bank that exists can become the active one. -/
theorem active?_activate {ctx : Context} {i : Nat} (h : i < ctx.bankCount) :
    (ctx.activate i).active? = some i := by
  cases hr : ctx.rom with
  | none => simp [bankCount, hr] at h
  | some rom => simp [active?, activate, hr]

end Context

/-! ## Primitives that finish -/

namespace Pass

variable {α : Type}

/-- A run over the rom finishes exactly if there is a rom over which it does. -/
theorem onRom_eq_ok {pos : Position} {act : Run Rom α} {s t : Logged Context} {a : α} :
    onRom pos act s = .ok a t ↔
      ∃ rom u, s.state.rom = some rom ∧ act { state := rom, log := s.log } = .ok a u ∧
        t = { state := { s.state with rom := some u.state }, log := u.log } := by
  unfold onRom
  rw [Run.read_bind_apply]
  cases hr : s.state.rom with
  | none => simp
  | some rom =>
    simp only [Option.some.injEq]
    rw [Run.focus_eq_ok]
    constructor
    · rintro ⟨u, hu, rfl⟩
      exact ⟨rom, u, rfl, hu, rfl⟩
    · rintro ⟨rom', u, rfl, hu, rfl⟩
      exact ⟨u, hu, rfl⟩

/-- A run over the active bank finishes exactly if there is one over which it does. -/
theorem onBank_eq_ok {what : String} {pos : Position} {act : Run Bank α} {s t : Logged Context}
    {a : α} :
    onBank what pos act s = .ok a t ↔
      ∃ i b, s.state.active? = some i ∧ act { state := s.state.bank i, log := s.log } = .ok a b ∧
        t = { state := s.state.setBank i b.state, log := b.log } := by
  unfold onBank
  rw [onRom_eq_ok]
  constructor
  · rintro ⟨rom, u, hr, hu, rfl⟩
    rw [Run.read_bind_apply] at hu
    cases ha : rom.active with
    | none =>
      simp only [ha] at hu
      cases hu
    | some i =>
      simp only [ha] at hu
      obtain ⟨b, hb, rfl⟩ := Rom.onBank_eq_ok.1 hu
      refine ⟨i, b, ?_, ?_, ?_⟩
      · simp [Context.active?, hr, ha]
      · simpa [Context.bank, hr] using hb
      · simp [Context.setBank, hr]
  · rintro ⟨i, b, hi, hb, rfl⟩
    obtain ⟨rom, hr, ha⟩ := Option.bind_eq_some_iff.1 hi
    refine ⟨rom, { state := rom.setBank i b.state, log := b.log }, hr, ?_, ?_⟩
    · rw [Run.read_bind_apply]
      simp only [ha]
      refine Rom.onBank_eq_ok.2 ⟨b, ?_, rfl⟩
      simpa [Context.bank, hr] using hb
    · simp [Context.setBank, hr]

/-- A bank becomes the active one exactly if the rom has it. -/
theorem switchBank_eq_ok {index : UInt16} {pos : Position} {s t : Logged Context} {u : Unit} :
    onRom pos (Rom.switchBank index pos) s = .ok u t ↔
      index.toNat < s.state.bankCount ∧ t = { s with state := s.state.activate index.toNat } := by
  rw [onRom_eq_ok]
  constructor
  · rintro ⟨rom, v, hr, hv, rfl⟩
    obtain ⟨hi, rfl⟩ := Rom.switchBank_eq_ok.1 hv
    refine ⟨?_, ?_⟩
    · simpa [Context.bankCount, hr] using hi
    · simp [Context.activate, hr]
  · rintro ⟨hi, rfl⟩
    cases hr : s.state.rom with
    | none =>
      simp [Context.bankCount, hr] at hi
    | some rom =>
      refine ⟨rom, { state := { rom with active := some index.toNat }, log := s.log }, rfl, ?_, ?_⟩
      · refine Rom.switchBank_eq_ok.2 ⟨?_, rfl⟩
        simpa [Context.bankCount, hr] using hi
      · simp [Context.activate, hr]

/-- A fold changes the memo and the log only, and ends in the result of folding. -/
theorem foldAt_eq_ok {demand : Demand} {anchor : Anchor} {e : Expr} {s t : Logged Context}
    {v : Option UInt16} :
    foldAt demand anchor e s = .ok v t ↔
      ∃ folded u, s.state.symbols.fold demand s.state.symbols.current anchor e
          { state := s.state.memo, log := s.log } = .ok folded u ∧
        t = { state := { s.state with memo := u.state }, log := u.log } ∧ v = folded.value? := by
  unfold foldAt
  rw [Run.read_bind_apply, Run.bind_eq_ok]
  constructor
  · rintro ⟨folded, w, hw, hret⟩
    obtain ⟨u, hu, rfl⟩ := Run.focus_eq_ok.1 hw
    cases hret
    exact ⟨folded, u, hu, rfl, rfl⟩
  · rintro ⟨folded, u, hu, rfl, rfl⟩
    exact ⟨folded, _, Run.focus_eq_ok.2 ⟨u, hu, rfl⟩, rfl⟩

/-- A fold changes the memo only, and its result is remembered. If nothing was reported then an
expression that has to have a value has one. -/
theorem fold_of_ok {demand : Demand} {location : Location} {e : Expr} {s t : Logged Context}
    {v : Option UInt16} (h : fold demand location e s = .ok v t) :
    t.state = { s.state with memo := t.state.memo } ∧ s.state.memo.Le t.state.memo ∧
      s.log.count ≤ t.log.count ∧ v = t.state.memo.value? (.tree location) ∧
      (t.log.count = 0 → s.state.memo.Honest →
        t.state.memo.Honest ∧ (demand.mustFold = true → v.isSome)) := by
  obtain ⟨folded, u, hu, rfl, rfl⟩ := foldAt_eq_ok.1 h
  refine ⟨rfl, ?_, ?_, ?_, fun hc hm => ?_⟩
  · exact ((SymbolTable.holds_growing _ _ _).rel_of_ok hu).1
  · exact (SymbolTable.counting_fold _ _ _).rel_of_ok hu
  · unfold Memo.value?
    rw [SymbolTable.result_of_fold hu]
  · obtain ⟨hmu, hinvalid, hpending⟩ := SymbolTable.clean_fold _ _ _ _ _ _ hu hc hm
    refine ⟨hmu, fun hmust => ?_⟩
    cases folded with
    | pending => exact absurd rfl (hpending hmust)
    | value w => rfl
    | invalid => exact absurd rfl hinvalid

/-- A pass inside a scope finishes exactly if it does after the scope was entered. -/
theorem within_eq_ok {scope : ScopeId} {act : Pass α} {s t : Logged Context} {a : α} :
    within scope act s = .ok a t ↔
      ∃ u, act { s with state := s.state.enter scope } = .ok a u ∧
        t = { u with state := u.state.exit } := by
  unfold within
  cases h : act { s with state := s.state.enter scope } with
  | ok b u =>
    constructor
    · intro hok
      cases hok
      exact ⟨u, rfl, rfl⟩
    · rintro ⟨v, hv, rfl⟩
      cases hv
      rfl
  | error x u =>
    constructor
    · intro hok
      cases hok
    · rintro ⟨v, hv, -⟩
      cases hv

/-- The scope of a block is found exactly if it is recorded. -/
theorem scopeOf_eq_ok {location : Location} {pos : Position} {s t : Logged Context}
    {scope : ScopeId} :
    scopeOf location pos s = .ok scope t ↔
      s.state.scopes.at? location = some scope ∧ t = s := by
  unfold scopeOf
  rw [Run.read_bind_apply]
  cases hs : s.state.scopes.at? location with
  | none => simp
  | some found =>
    simp only [Option.some.injEq]
    constructor
    · intro hok
      cases hok
      exact ⟨rfl, rfl⟩
    · rintro ⟨rfl, rfl⟩
      rfl

end Pass

/-! ## Frames of the primitives -/

namespace Run.Frame

variable {α : Type} {F : Run.Frame Context}

/-- A frame does not see which scopes are entered, if they are left again. -/
structure Scoped (F : Run.Frame Context) : Prop where
  rel : ∀ scope (s t : Logged Context), F.rel { s with state := s.state.enter scope } t →
    F.rel s { t with state := t.state.exit }
  abort : ∀ scope (s t : Logged Context), F.abort { s with state := s.state.enter scope } t →
    F.abort s { t with state := t.state.exit }

/-- A run inside a scope ends as the frame says if the run itself does. -/
theorem Scoped.ends_within (h : F.Scoped) {scope : ScopeId} {act : Pass α} {s : Logged Context}
    (ha : F.Ends { s with state := s.state.enter scope }
      (act { s with state := s.state.enter scope })) :
    F.Ends s (Pass.within scope act s) := by
  unfold Pass.within
  cases hc : act { s with state := s.state.enter scope } with
  | ok a t =>
    rw [hc] at ha
    exact h.rel scope s t ha
  | error x t =>
    rw [hc] at ha
    exact h.abort scope s t ha

/-- A frame that does not see the entered scopes is kept inside a scope, too. -/
theorem Scoped.holds_within (h : F.Scoped) {scope : ScopeId} {act : Pass α}
    (ha : F.Holds act) : F.Holds (Pass.within scope act) :=
  fun _ => h.ends_within (ha _)

/-- A frame allows a run over the rom if it follows from one for roms. -/
theorem holds_onRom {G : Run.Frame Rom} {act : Run Rom α} (hr : ∀ e, F.Reports e)
    (hrel : ∀ (s : Logged Context) rom (t : Logged Rom), s.state.rom = some rom →
      G.rel { state := rom, log := s.log } t →
      F.rel s { state := { s.state with rom := some t.state }, log := t.log })
    (habort : ∀ (s : Logged Context) rom (t : Logged Rom), s.state.rom = some rom →
      G.abort { state := rom, log := s.log } t →
      F.abort s { state := { s.state with rom := some t.state }, log := t.log })
    (h : G.Holds act) (pos : Position) : F.Holds (Pass.onRom pos act) := by
  intro s
  unfold Pass.onRom
  rw [Run.read_bind_apply]
  cases hs : s.state.rom with
  | none => exact (hr _).holds_fatal pos s
  | some rom =>
    have ha := h { state := rom, log := s.log }
    simp only [Run.focus]
    cases hc : act { state := rom, log := s.log } with
    | ok a t =>
      rw [hc] at ha
      exact hrel s rom t hs ha
    | error x t =>
      rw [hc] at ha
      exact habort s rom t hs ha

/-- A frame that does not see the rom allows every run over it. -/
theorem holds_onRom_of_blind (hr : ∀ e, F.Reports e)
    (hrel : ∀ (s : Logged Context) rom log, F.rel s { state := { s.state with rom }, log })
    (habort : ∀ (s : Logged Context) rom log, F.abort s { state := { s.state with rom }, log })
    (pos : Position) (act : Run Rom α) : F.Holds (Pass.onRom pos act) := by
  let G : Run.Frame Rom := total (fun _ _ => True) (fun _ => trivial) fun _ _ => trivial
  have hG : G.Holds act := by
    intro s
    cases act s <;> trivial
  exact holds_onRom hr (fun s _ t _ _ => hrel s _ t.log) (fun s _ t _ _ => habort s _ t.log) hG pos

/-- A frame allows a fold if it follows from one for memos. -/
theorem holds_fold {G : Run.Frame Memo} {demand : Demand} {anchor : Anchor} {e : Expr}
    (hG : ∀ (t : SymbolTable) scope, G.Holds (t.fold demand scope anchor e))
    (hrel : ∀ (s : Logged Context) (t : Logged Memo),
      G.rel { state := s.state.memo, log := s.log } t →
      F.rel s { state := { s.state with memo := t.state }, log := t.log })
    (habort : ∀ (s : Logged Context) (t : Logged Memo),
      G.abort { state := s.state.memo, log := s.log } t →
      F.abort s { state := { s.state with memo := t.state }, log := t.log }) :
    F.Holds (Pass.foldAt demand anchor e) := by
  unfold Pass.foldAt
  refine holds_read_bind fun ctx => holds_bind ?_ fun _ => F.holds_pure _
  exact holds_focus hrel habort (hG _ _)

/-- A frame that does not see the memo allows every fold. -/
theorem holds_fold_of_blind
    (hrel : ∀ (s : Logged Context) memo log, F.rel s { state := { s.state with memo }, log })
    (habort : ∀ (s : Logged Context) memo log, F.abort s { state := { s.state with memo }, log })
    (demand : Demand) (anchor : Anchor) (e : Expr) : F.Holds (Pass.foldAt demand anchor e) := by
  let G : Run.Frame Memo := total (fun _ _ => True) (fun _ => trivial) fun _ _ => trivial
  have hG : ∀ (t : SymbolTable) scope, G.Holds (t.fold demand scope anchor e) := by
    intro t scope s
    cases t.fold demand scope anchor e s <;> trivial
  exact holds_fold hG (fun s t _ => hrel s _ t.log) fun s t _ => habort s _ t.log

/-- A frame of contexts that sees the memo and the log only. -/
def onMemo (G : Run.Frame Memo) : Run.Frame Context where
  rel s t := G.rel { state := s.state.memo, log := s.log } { state := t.state.memo, log := t.log }
  abort s t := G.abort { state := s.state.memo, log := s.log }
    { state := t.state.memo, log := t.log }
  refl _ := G.refl _
  trans hst htu := G.trans hst htu
  trans_abort hst htu := G.trans_abort hst htu

theorem Reports.onMemo {G : Run.Frame Memo} {e : Error} (h : G.Reports e) :
    (Run.Frame.onMemo G).Reports e :=
  ⟨fun _ pos => h.soft _ pos, fun _ pos => h.giveUp _ pos, fun _ pos => h.fatal _ pos⟩

/-- The memo does not tell which scopes are entered. -/
theorem scoped_onMemo (G : Run.Frame Memo) : (onMemo G).Scoped :=
  ⟨fun _ _ _ h => h, fun _ _ _ h => h⟩

/-- What leaves the memo alone and reports at most one error is allowed by such a frame. -/
theorem holds_onMemo {G : Run.Frame Memo} (hreports : ∀ e, G.Reports e)
    (habort : ∀ s t, G.abort s t) {act : Pass α}
    (h : ∀ s a t, act s = .ok a t → t.state.memo = s.state.memo ∧
      (t.log = s.log ∨ ∃ e pos, t.log = s.log.soft e pos)) :
    (onMemo G).Holds act := by
  refine holds_of_ok (F := onMemo G) (fun s t => habort _ _) fun s a t hok => ?_
  obtain ⟨hmemo, hlog⟩ := h s a t hok
  simp only [onMemo, hmemo]
  rcases hlog with hlog | ⟨e, pos, hlog⟩ <;> rw [hlog]
  · exact G.refl _
  · exact (hreports e).soft { state := s.state.memo, log := s.log } pos

/-- A frame that allows internal errors allows to look for the scope of a block. -/
theorem holds_scopeOf (hr : ∀ what, F.Reports (.internal what)) (location : Location)
    (pos : Position) : F.Holds (Pass.scopeOf location pos) := by
  unfold Pass.scopeOf
  refine holds_read_bind fun ctx => ?_
  split
  · exact (hr _).holds_fatal _
  · exact F.holds_pure _

end Run.Frame

end Cartridge
