import Cartridge.Fold.Basic
import Cartridge.Proofs.Resolution

/-!
# What folding does to the memo

Folding an expression adds results to the memo, at the nodes of the expression and of the constants
that it reaches. A result that is there stays. As long as nothing is reported no result is invalid,
and an expression that has to be folded has a value.

Main definitions:

- `Memo.Le`: one memo knows at least what another one knows.
- `Error.ofFolding`: the causes that folding reports.

Main results:

- Theorem `SymbolTable.holds_fold`: a frame that allows new results allows folding.
- Theorem `SymbolTable.holds_growing`: folding forgets nothing, and leaves the other expressions of
  the tree alone.
- Theorem `SymbolTable.result_of_fold`: the result is remembered.
- Theorem `SymbolTable.clean_fold`: what folding comes to if nothing is reported.
-/

namespace Cartridge

/-- Whether a cause is one that folding reports. -/
def Error.ofFolding : Error → Bool
  | notAPackage _ _ | noPackage _ _ | noAttribute _ _ _ | tooManyExpansions _ _ | overflow _
  | underflow | divisionByZero | moduloByZero | packageAsValue _ | builtinAsValue _
  | indeterminate _ => true
  | _ => false

/-- Folding reports no internal error. -/
theorem Error.isInternal_of_ofFolding {e : Error} (h : e.ofFolding = true) :
    e.isInternal = false := by
  cases e <;> first | rfl | cases h

/-- An operation without a result has a cause that folding reports. -/
theorem BinaryOp.ofFolding_of_apply {op : BinaryOp} {l r : UInt16} {e : Error}
    (h : op.apply l r = .error e) : e.ofFolding = true := by
  cases op <;> simp only [apply, fitWord] at h <;> (try split at h) <;> (try split at h) <;>
    cases h <;> rfl

/-! ## Memos that know more -/

namespace Memo

/-- One memo knows at least what another one knows: a result that is there stays. -/
def Le (m n : Memo) : Prop :=
  ∀ site, m.result site ≠ .pending → n.result site = m.result site

theorem Le.refl (m : Memo) : m.Le m :=
  fun _ _ => rfl

theorem Le.trans {m n p : Memo} (hmn : m.Le n) (hnp : n.Le p) : m.Le p := by
  intro site hm
  have hn := hmn site hm
  rw [← hn] at hm ⊢
  exact hnp site hm

/-- What is not known later was not known before. -/
theorem Le.pending {m n : Memo} (h : m.Le n) {site : Site} (hn : n.result site = .pending) :
    m.result site = .pending := by
  by_cases hm : m.result site = .pending
  · exact hm
  · exact absurd ((h site hm).symm.trans hn) hm

/-- The value of an anchor is the result at its root. -/
theorem value?_eq_some {m : Memo} {anchor : Anchor} {v : UInt16} :
    m.value? anchor = some v ↔ m.result { anchor } = .value v := by
  unfold value?
  cases m.result { anchor } <;> simp [Folded.value?]

/-- A known value stays. -/
theorem Le.value? {m n : Memo} (h : m.Le n) {anchor : Anchor} {v : UInt16}
    (hv : m.value? anchor = some v) : n.value? anchor = some v := by
  rw [value?_eq_some] at hv ⊢
  rw [h _ (hv ▸ Folded.noConfusion), hv]

/-- No expression was found to be invalid. -/
def Honest (m : Memo) : Prop :=
  ∀ site, m.result site ≠ .invalid

end Memo

namespace Run.Frame

/-- The number of errors never goes down. -/
def counting (σ : Type) : Frame σ :=
  total (fun s t => s.log.count ≤ t.log.count) (fun _ => Nat.le_refl _) Nat.le_trans

/-- A report adds an error, so it never lowers their number. -/
theorem reports_counting (σ : Type) (e : Error) : (counting σ).Reports e where
  soft _ _ := Nat.le_succ _
  giveUp _ _ := Nat.le_succ _
  fatal _ _ := Nat.le_succ _

end Run.Frame

namespace SymbolTable

variable {σ : Type} {t : SymbolTable} {demand : Demand}

/-! ## Frames of folding -/

/-- A frame that allows the causes of folding to be reported allows paths to be resolved. -/
theorem holds_resolve {F : Run.Frame σ} (hr : ∀ e : Error, e.ofFolding = true → F.Reports e)
    (scope : ScopeId) (path : List Name) (forbidUndefined : Bool) :
    F.Holds (t.resolve scope path forbidUndefined) := by
  unfold resolve
  generalize Name.dotted path = wanted
  generalize ([] : List Name) = before
  induction path generalizing before scope with
  | nil => exact F.holds_pure _
  | cons piece rest ih =>
    unfold resolvePieces
    split
    · exact F.holds_pure _
    · split
      · exact Run.Frame.holds_bind ((hr _ rfl).holds_error _) fun _ => F.holds_pure _
      · exact F.holds_pure _
    · exact Run.Frame.holds_bind ((hr _ rfl).holds_error _) fun _ => F.holds_pure _
    · split
      · exact ih _ _
      · exact Run.Frame.holds_bind ((hr _ rfl).holds_error _) fun _ => F.holds_pure _

variable {F : Run.Frame Memo}

/-- A result that is known already is given back, and nothing is computed. -/
theorem remember_of_ne {site : Site} {compute : Run Memo Folded} {s : Logged Memo}
    (h : s.state.result site ≠ .pending) :
    remember site compute s = .ok (s.state.result site) s := by
  unfold remember
  rw [Run.read_bind_apply]
  cases hm : s.state.result site with
  | pending => exact absurd hm h
  | value v => rfl
  | invalid => rfl

/-- A result that is not known is computed and then stored. -/
theorem remember_of_pending {site : Site} {compute : Run Memo Folded} {s : Logged Memo}
    (h : s.state.result site = .pending) :
    remember site compute s =
      (compute >>= fun folded => do
        Run.update fun memo => memo.set site folded
        return folded) s := by
  unfold remember
  rw [Run.read_bind_apply, h]

/-- A frame that allows a new result at a site allows a result to be remembered there. -/
theorem holds_remember {site : Site} {compute : Run Memo Folded}
    (hset : ∀ s t folded, s.state.result site = .pending → F.rel s t →
      F.rel s { t with state := t.state.set site folded })
    (h : F.Holds compute) : F.Holds (remember site compute) := by
  intro s
  by_cases hp : s.state.result site = .pending
  · rw [remember_of_pending hp]
    have hs := h s
    cases hc : compute s with
    | ok folded u =>
      rw [hc] at hs
      rw [Run.bind_apply_of_ok hc]
      exact hset s u folded hp hs
    | error x u =>
      rw [hc] at hs
      rw [Run.bind_apply_of_error hc]
      exact hs
  · rw [remember_of_ne hp]
    exact F.refl s

section

variable (hr : ∀ e : Error, e.ofFolding = true → F.Reports e)

include hr

/-- A path that is not resolved is reported or left pending; the memo stays as it is. -/
theorem holds_unresolved (path : List Name) (pos : Position) :
    F.Holds (unresolved demand path pos) := by
  unfold unresolved
  split
  · exact Run.Frame.holds_bind ((hr _ rfl).holds_error _) fun _ => F.holds_pure _
  · exact F.holds_pure _

/-- Combining two results reports at most what is wrong with the operation. -/
theorem holds_combine (op : BinaryOp) (pos : Position) (l r : Folded) :
    F.Holds (combine op pos l r) := by
  unfold combine
  split
  · split
    · exact F.holds_pure _
    · rename_i e he
      exact Run.Frame.holds_bind ((hr e (BinaryOp.ofFolding_of_apply he)).holds_error _)
        fun _ => F.holds_pure _
  all_goals exact F.holds_pure _

/-- A reference keeps a frame if the expansion of constants does. -/
theorem holds_foldReference {expand : Expansion}
    (he : ∀ id value scope pos, F.Holds (expand id value scope pos))
    (scope : ScopeId) (path : List Name) (pos : Position) :
    F.Holds (t.foldReference demand expand scope path pos) := by
  unfold foldReference
  refine Run.Frame.holds_bind (holds_resolve hr _ _ _) fun found => ?_
  split
  · exact F.holds_pure _
  · exact holds_unresolved hr _ _
  · split
    · exact Run.Frame.holds_bind ((hr _ rfl).holds_error _) fun _ => F.holds_pure _
    · exact Run.Frame.holds_bind ((hr _ rfl).holds_error _) fun _ => F.holds_pure _
    · exact F.holds_pure _
    · exact F.holds_pure _
    · exact he _ _ _ _
    · exact holds_unresolved hr _ _
    · exact holds_unresolved hr _ _

variable {S : Site → Prop}
  (hset : ∀ site, S site → ∀ s t folded, s.state.result site = .pending → F.rel s t →
    F.rel s { t with state := t.state.set site folded })
  (hchild : ∀ site turn, S site → S (site.child turn))

include hset hchild

/-- An expression keeps a frame if the expansion of constants does and the frame allows for its
site, by induction on the expression. -/
theorem holds_foldWith {expand : Expansion}
    (he : ∀ id value scope pos, F.Holds (expand id value scope pos)) (scope : ScopeId) (e : Expr)
    {site : Site} (hS : S site) : F.Holds (t.foldWith demand expand scope site e) := by
  induction e generalizing site with
  | number v pos =>
    unfold foldWith
    exact holds_remember (hset site hS) (F.holds_pure _)
  | reference path pos =>
    unfold foldWith
    exact holds_remember (hset site hS) (holds_foldReference hr he scope path pos)
  | operation op left right pos ihl ihr =>
    unfold foldWith
    apply holds_remember (hset site hS)
    refine Run.Frame.holds_bind (ihl (hchild _ _ hS)) fun l => ?_
    refine Run.Frame.holds_bind (ihr (hchild _ _ hS)) fun r => ?_
    exact holds_combine hr op pos l r

/-- The expansion of constants keeps a frame that allows for their sites, by induction on the room
that is left. -/
theorem holds_expandUpTo (hconst : ∀ id, S { anchor := .constant id }) (room : Nat)
    (chain : List DefId) (id : DefId) (value : Expr) (scope : ScopeId) (pos : Position) :
    F.Holds (t.expandUpTo demand room chain id value scope pos) := by
  induction room generalizing chain id value scope pos with
  | zero =>
    unfold expandUpTo
    exact (hr _ rfl).holds_fatal _
  | succ room ih =>
    unfold expandUpTo
    exact holds_foldWith hr hset hchild (fun _ _ _ _ => ih _ _ _ _ _) scope value (hconst id)

/-- A frame that allows new results at a site and at those of the constants allows folding. -/
theorem holds_fold (hconst : ∀ id, S { anchor := .constant id }) {anchor : Anchor}
    (hS : S { anchor }) (scope : ScopeId) (e : Expr) :
    F.Holds (t.fold demand scope anchor e) := by
  unfold fold
  exact holds_foldWith hr hset hchild
    (fun _ _ _ _ => holds_expandUpTo hr hset hchild hconst _ _ _ _ _ _) scope e hS

end

/-! ## What folding keeps -/

/-- The frame of memos that forget nothing, and change only at certain sites. -/
def growing (S : Site → Prop) : Run.Frame Memo :=
  .finishing (fun s t => s.state.Le t.state ∧ ∀ site, ¬ S site →
      t.state.result site = s.state.result site)
    (fun s => ⟨Memo.Le.refl s.state, fun _ _ => rfl⟩)
    fun hst htu => ⟨hst.1.trans htu.1, fun site hS => (htu.2 site hS).trans (hst.2 site hS)⟩

theorem reports_growing (S : Site → Prop) (e : Error) : (growing S).Reports e :=
  Run.Frame.reports_of_log (F := growing S) (fun s _ => ⟨Memo.Le.refl s.state, fun _ _ => rfl⟩)
    (fun _ _ => trivial) e

/-- What changes only at certain sites changes only at more sites. -/
theorem growing_mono {S S' : Site → Prop} (hS : ∀ site, S site → S' site) {α : Type}
    {act : Run Memo α} (h : (growing S).Holds act) : (growing S').Holds act :=
  Run.Frame.holds_of_ok (fun _ _ => trivial) fun _ _ _ hok =>
    ⟨(h.rel_of_ok hok).1, fun site hsite => (h.rel_of_ok hok).2 site fun hin => hsite (hS site hin)⟩

/-- The sites that folding an expression may change: its own, and those of the constants. -/
def Reachable (anchor : Anchor) (site : Site) : Prop :=
  site.anchor = anchor ∨ ∃ id, site.anchor = .constant id

/-- A result may be remembered where nothing is known. -/
theorem growing_set {S : Site → Prop} {site : Site} (hS : S site) (s u : Logged Memo)
    (folded : Folded)
    (hp : s.state.result site = .pending) (h : (growing S).rel s u) :
    (growing S).rel s { u with state := u.state.set site folded } := by
  obtain ⟨hle, hout⟩ := h
  constructor
  · intro other ho
    have hne : other ≠ site := by
      rintro rfl
      exact ho hp
    rw [Memo.set_of_ne hne]
    exact hle other ho
  · intro other ho
    have hne : other ≠ site := by
      rintro rfl
      exact ho hS
    rw [Memo.set_of_ne hne]
    exact hout other ho

/-- Folding forgets nothing and touches only its own sites and those of constants. -/
theorem holds_growing (scope : ScopeId) (anchor : Anchor) (e : Expr) :
    (growing (Reachable anchor)).Holds (t.fold demand scope anchor e) :=
  holds_fold (S := Reachable anchor) (fun e _ => reports_growing _ e) (fun _ => growing_set)
    (fun _ _ h => h) (fun id => Or.inr ⟨id, rfl⟩) (Or.inl rfl) scope e

/-- Folding an expression never lowers the number of errors. -/
theorem counting_foldWith {expand : Expansion}
    (he : ∀ id value scope pos, (Run.Frame.counting Memo).Holds (expand id value scope pos))
    (scope : ScopeId) (site : Site) (e : Expr) :
    (Run.Frame.counting Memo).Holds (t.foldWith demand expand scope site e) :=
  holds_foldWith (S := fun _ => True) (fun e _ => Run.Frame.reports_counting Memo e)
    (fun _ _ _ _ _ _ h => h) (fun _ _ h => h) he scope e trivial

/-- Expanding a constant never lowers the number of errors. -/
theorem counting_expandUpTo (room : Nat) (chain : List DefId) (id : DefId) (value : Expr)
    (scope : ScopeId) (pos : Position) :
    (Run.Frame.counting Memo).Holds (t.expandUpTo demand room chain id value scope pos) :=
  holds_expandUpTo (S := fun _ => True) (fun e _ => Run.Frame.reports_counting Memo e)
    (fun _ _ _ _ _ _ h => h) (fun _ _ h => h) (fun _ => trivial) room chain id value scope pos

/-- Folding does not lower the number of errors. -/
theorem counting_fold (scope : ScopeId) (anchor : Anchor) (e : Expr) :
    (Run.Frame.counting Memo).Holds (t.fold demand scope anchor e) :=
  counting_foldWith (counting_expandUpTo _ _) scope { anchor } e

/-- What a fold returns is remembered. -/
theorem result_of_remember {site : Site} {compute : Run Memo Folded} {s u : Logged Memo}
    {folded : Folded} (h : remember site compute s = .ok folded u) :
    u.state.result site = folded := by
  by_cases hp : s.state.result site = .pending
  · rw [remember_of_pending hp] at h
    obtain ⟨_, v, -, hset⟩ := Run.bind_eq_ok.1 h
    cases hset
    exact Memo.set_self _ _ _
  · rw [remember_of_ne hp] at h
    cases h
    rfl

/-- The result of folding an expression is the one that is stored at its site. -/
theorem result_of_foldWith {expand : Expansion} {scope : ScopeId} {site : Site} {e : Expr}
    {s u : Logged Memo} {folded : Folded}
    (h : t.foldWith demand expand scope site e s = .ok folded u) :
    u.state.result site = folded := by
  cases e <;> exact result_of_remember h

/-- The result of a fold is remembered. -/
theorem result_of_fold {scope : ScopeId} {anchor : Anchor} {e : Expr} {s u : Logged Memo}
    {folded : Folded} (h : t.fold demand scope anchor e s = .ok folded u) :
    u.state.result { anchor } = folded :=
  result_of_foldWith h

/-! ## Folding without a report -/

/-- If a run finishes and nothing was reported, then no result is invalid, and there is a result if
one is asked for. -/
def Clean (mustFold : Bool) (act : Run Memo Folded) : Prop :=
  ∀ s folded u, act s = .ok folded u → u.log.count = 0 → s.state.Honest →
    u.state.Honest ∧ folded ≠ .invalid ∧ (mustFold = true → folded ≠ .pending)

/-- A run that reports something is not asked for more. -/
theorem clean_error (mustFold : Bool) (e : Error) (pos : Position) (folded : Folded) :
    Clean mustFold (do Run.error e pos; return folded) := by
  intro s f u h hc
  obtain ⟨_, v, hv, hret⟩ := Run.bind_eq_ok.1 h
  obtain ⟨-, rfl⟩ := Run.error_eq_ok.1 hv
  cases hret
  exact absurd hc (Nat.succ_ne_zero _)

/-- A result that was remembered is as clean as the memo it comes from. -/
theorem clean_remember {mustFold : Bool} {site : Site} {compute : Run Memo Folded}
    (h : Clean mustFold compute) : Clean mustFold (remember site compute) := by
  intro s folded u hok hc hs
  by_cases hp : s.state.result site = .pending
  · rw [remember_of_pending hp] at hok
    obtain ⟨f, v, hv, hset⟩ := Run.bind_eq_ok.1 hok
    cases hset
    obtain ⟨hv', hf, hm⟩ := h s folded v hv hc hs
    refine ⟨?_, hf, hm⟩
    intro other
    by_cases ho : other = site
    · subst ho
      rw [Memo.set_self]
      exact hf
    · rw [Memo.set_of_ne ho]
      exact hv' other
  · rw [remember_of_ne hp] at hok
    cases hok
    exact ⟨hs, hs site, fun _ => hp⟩

/-- A path that is not resolved is reported where a value is asked for. -/
theorem clean_unresolved (path : List Name) (pos : Position) :
    Clean demand.mustFold (unresolved demand path pos) := by
  unfold unresolved
  split
  · exact clean_error _ _ _ _
  · rename_i hm
    intro s folded u h hc hs
    cases h
    exact ⟨hs, by simp, fun h => absurd h hm⟩

theorem clean_pure {mustFold : Bool} {folded : Folded}
    (h : folded ≠ .invalid ∧ (mustFold = true → folded ≠ .pending)) :
    Clean mustFold (pure folded) := by
  intro s f u hok _ hs
  cases hok
  exact ⟨hs, h⟩

/-- Clean results are combined into a clean one, or what is wrong with the operation is reported. -/
theorem clean_combine {mustFold : Bool} {op : BinaryOp} {pos : Position} {l r : Folded}
    (hl : l ≠ .invalid ∧ (mustFold = true → l ≠ .pending))
    (hr : r ≠ .invalid ∧ (mustFold = true → r ≠ .pending)) :
    Clean mustFold (combine op pos l r) := by
  cases l with
  | invalid => exact absurd rfl hl.1
  | pending =>
    have hp : combine op pos .pending r = pure .pending := by
      cases r with
      | invalid => exact absurd rfl hr.1
      | pending => rfl
      | value w => rfl
    rw [hp]
    exact clean_pure hl
  | value v =>
    cases r with
    | invalid => exact absurd rfl hr.1
    | pending => exact clean_pure hr
    | value w =>
      simp only [combine]
      cases op.apply v w with
      | ok a => exact clean_pure ⟨Folded.noConfusion, fun _ => Folded.noConfusion⟩
      | error e => exact clean_error _ _ _ _

/-- A reference is clean if the expansion of constants is: builtins and packages are reported in any
case, and what has no value where one is asked for. -/
theorem clean_foldReference {expand : Expansion}
    (he : ∀ id value scope pos, Clean demand.mustFold (expand id value scope pos))
    (scope : ScopeId) (path : List Name) (pos : Position) :
    Clean demand.mustFold (t.foldReference demand expand scope path pos) := by
  intro s folded u h hc hs
  unfold foldReference at h
  obtain ⟨found, v, hv, hnext⟩ := Run.bind_eq_ok.1 h
  have hd := resolve_of_ok hv
  cases found with
  | failed =>
    cases hnext
    exact absurd hc (Nat.ne_of_gt hd.2.2)
  | missing =>
    obtain ⟨-, rfl⟩ := hd
    exact clean_unresolved _ _ _ _ _ hnext hc hs
  | found id =>
    obtain ⟨-, rfl⟩ := hd
    rcases hm : t.meaning? id with _ | ⟨b⟩ | ⟨value, inner⟩ | ⟨_ | a⟩ | ⟨a⟩ | ⟨inner⟩ <;>
      simp only [hm] at hnext
    · exact clean_unresolved _ _ _ _ _ hnext hc hs
    · exact clean_error _ _ _ _ _ _ _ hnext hc hs
    · exact he _ _ _ _ _ _ _ hnext hc hs
    · exact clean_unresolved _ _ _ _ _ hnext hc hs
    · exact clean_pure ⟨Folded.noConfusion, fun _ => Folded.noConfusion⟩ _ _ _ hnext hc hs
    · exact clean_pure ⟨Folded.noConfusion, fun _ => Folded.noConfusion⟩ _ _ _ hnext hc hs
    · exact clean_error _ _ _ _ _ _ _ hnext hc hs

/-- An expression is clean if the expansion of constants is, by induction on the expression. The
errors are counted so that a report in the left part is still seen after the right one. -/
theorem clean_foldWith {expand : Expansion}
    (he : ∀ id value scope pos, Clean demand.mustFold (expand id value scope pos))
    (hcount : ∀ id value scope pos, (Run.Frame.counting Memo).Holds (expand id value scope pos))
    (scope : ScopeId) (site : Site) (e : Expr) :
    Clean demand.mustFold (t.foldWith demand expand scope site e) := by
  induction e generalizing site with
  | number v pos =>
    unfold foldWith
    exact clean_remember (clean_pure ⟨Folded.noConfusion, fun _ => Folded.noConfusion⟩)
  | reference path pos =>
    unfold foldWith
    exact clean_remember (clean_foldReference he scope path pos)
  | operation op left right pos ihl ihr =>
    unfold foldWith
    apply clean_remember
    intro s folded u h hc hs
    obtain ⟨l, v, hl, hnext⟩ := Run.bind_eq_ok.1 h
    obtain ⟨r, w, hr, hcombine⟩ := Run.bind_eq_ok.1 hnext
    -- Since nothing was reported at the end, nothing was reported before.
    have hw : w.log.count = 0 :=
      Nat.eq_zero_of_le_zero (hc ▸ (holds_combine (fun e _ => Run.Frame.reports_counting Memo e)
        op pos l r).rel_of_ok hcombine)
    have hv : v.log.count = 0 :=
      Nat.eq_zero_of_le_zero (hw ▸ (counting_foldWith hcount scope _ right).rel_of_ok hr)
    obtain ⟨hsv, hlf⟩ := ihl _ s l v hl hv hs
    obtain ⟨hsw, hrf⟩ := ihr _ v r w hr hw hsv
    exact clean_combine hlf hrf w folded u hcombine hc hsw

/-- Expanding a constant is clean, by induction on the room: when none is left, the run does not
finish. -/
theorem clean_expandUpTo (room : Nat) (chain : List DefId) (id : DefId) (value : Expr)
    (scope : ScopeId) (pos : Position) :
    Clean demand.mustFold (t.expandUpTo demand room chain id value scope pos) := by
  induction room generalizing chain id value scope pos with
  | zero =>
    intro s folded u h
    cases h
  | succ room ih =>
    unfold expandUpTo
    exact clean_foldWith (ih _) (counting_expandUpTo _ _) _ _ _

/-- If a fold finishes and nothing was reported, then no result is invalid, and an expression that
has to have a value has one. -/
theorem clean_fold (scope : ScopeId) (anchor : Anchor) (e : Expr) :
    Clean demand.mustFold (t.fold demand scope anchor e) := by
  unfold fold
  exact clean_foldWith (clean_expandUpTo _ _) (counting_expandUpTo _ _) _ _ _

/-- The frame of memos in which nothing is invalid as long as nothing is reported. -/
def trusting : Run.Frame Memo :=
  .finishing (fun s u => s.log.count ≤ u.log.count ∧
      (u.log.count = 0 → s.state.Honest → u.state.Honest))
    (fun _ => ⟨Nat.le_refl _, fun _ h => h⟩)
    fun hst htu => ⟨Nat.le_trans hst.1 htu.1, fun hu hs =>
      htu.2 hu (hst.2 (Nat.eq_zero_of_le_zero (hu ▸ htu.1)) hs)⟩

/-- After a report nothing is promised about the memo. -/
theorem reports_trusting (e : Error) : trusting.Reports e where
  soft _ _ := ⟨Nat.le_succ _, fun h => absurd h (Nat.succ_ne_zero _)⟩
  giveUp _ _ := trivial
  fatal _ _ := trivial

/-- A fold that reports nothing leaves no invalid result behind. -/
theorem trusting_fold (scope : ScopeId) (anchor : Anchor) (e : Expr) :
    trusting.Holds (t.fold demand scope anchor e) :=
  Run.Frame.holds_of_ok (fun _ _ => trivial) fun s folded u h =>
    ⟨(counting_fold scope anchor e).rel_of_ok h, fun hu hs =>
      (clean_fold scope anchor e s folded u h hu hs).1⟩

end SymbolTable

end Cartridge
