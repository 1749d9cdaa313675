import Cartridge.Proofs.LayoutFrame

/-!
# Reserving space

While the rom is laid out, the cursor of every bank stands at the end of what is reserved in it, and
a bank without an origin is empty. What was recorded about one part of a program stays when another
part is laid out, and so do the origins of the banks. As long as amounts are not absurdly large, no
reservation ever shrinks.

Main definitions:

- `Context.Laid`: the invariant of the banks.
- `Context.SameAt`: the same is recorded at a location.
- `Context.Follows`: what stays while other parts of a program are laid out.

Main results:

- Theorem `Layout.laid_layOut`: the layout keeps the invariant.
- Theorems `Layout.follows_layOut` and `Layout.follows_layOutAll`: the layout of a statement changes
  what is recorded below it only.
- Theorem `Layout.reserved_le_layOutAll`: reservations grow.
-/

namespace Cartridge

/-! ## The invariant of the banks -/

/-- The cursor stands at the end of what is reserved, which lies in the bank. -/
structure Bank.Laid (b : Bank) : Prop where
  position : b.position = b.reserved
  reserved : b.reserved ≤ bankSize
  /-- Without an origin nothing is reserved. -/
  origin : b.origin = none → b.reserved = 0

/-- The active bank exists, and the cursor of every bank stands at the end of what is reserved. -/
structure Context.Laid (ctx : Context) : Prop where
  active : ∀ i, ctx.active? = some i → i < ctx.bankCount
  bank : ∀ i, (ctx.bank i).Laid

/-- Reserving more moves the cursor to the new end. -/
theorem Bank.Laid.extended {b : Bank} (h : b.Laid) {n : Nat} {origin : UInt16}
    (ho : b.origin = some origin) (hn : (b.extended n).reserved ≤ bankSize) :
    (b.extended n).Laid where
  position := by
    simp only [Bank.extended, h.position]
  reserved := hn
  origin hnone := by
    rw [origin_extended, ho] at hnone
    cases hnone

/-- A bank that keeps the invariant may be put into the rom. -/
theorem Context.Laid.setBank {ctx : Context} (h : ctx.Laid) {i : Nat} {b : Bank} (hb : b.Laid) :
    (ctx.setBank i b).Laid where
  active j hj := by
    rw [active?_setBank] at hj
    rw [bankCount_setBank]
    exact h.active j hj
  bank j := by
    by_cases hj : j = i
    · subst hj
      rcases Nat.lt_or_ge j ctx.bankCount with hlt | hge
      · rw [bank_setBank_self hlt]
        exact hb
      · rw [bank_setBank_of_le hge]
        exact h.bank j
    · rw [bank_setBank_of_ne hj]
      exact h.bank j

/-! ## What the primitives of the layout do -/

namespace Pass

/-- Space is reserved in the active bank, if it has an origin and enough of it. -/
theorem reserve_eq_ok {what : String} {n : Nat} {pos : Position} {s t : Logged Context}
    {u : Unit} :
    reserve what n pos s = .ok u t ↔
      ∃ i origin, s.state.active? = some i ∧ (s.state.bank i).origin = some origin ∧
        (origin.toNat + (s.state.bank i).position + n) % 0x100000000 ≤ addressSpace ∧
        ((s.state.bank i).extended n).reserved ≤ bankSize ∧
        t = { s with state := s.state.setBank i ((s.state.bank i).extended n) } := by
  unfold reserve
  rw [onBank_eq_ok]
  constructor
  · rintro ⟨i, b, hi, hb, rfl⟩
    obtain ⟨origin, ho, hspace, hroom, rfl⟩ := Bank.expand_eq_ok.1 hb
    exact ⟨i, origin, hi, ho, hspace, hroom, rfl⟩
  · rintro ⟨i, origin, hi, ho, hspace, hroom, rfl⟩
    exact ⟨i, _, hi, Bank.expand_eq_ok.2 ⟨origin, ho, hspace, hroom, rfl⟩, rfl⟩

/-- The program counter of the active bank is asked for without changing anything. -/
theorem programCounter_eq_ok {what : String} {missing : Error} {pos : Position}
    {s t : Logged Context} {counter : Nat} :
    programCounter what missing pos s = .ok counter t ↔
      ∃ i, s.state.active? = some i ∧ (s.state.bank i).programCounter? = some counter ∧
        t = s := by
  unfold programCounter
  rw [onBank_eq_ok]
  constructor
  · rintro ⟨i, b, hi, hb, rfl⟩
    rw [Run.read_bind_apply] at hb
    cases hc : (s.state.bank i).programCounter? with
    | none =>
      simp only [hc] at hb
      cases hb
    | some found =>
      simp only [hc] at hb
      cases hb
      refine ⟨i, hi, hc, ?_⟩
      rw [Context.setBank_bank]
  · rintro ⟨i, hi, hc, rfl⟩
    refine ⟨i, { state := t.state.bank i, log := t.log }, hi, ?_, ?_⟩
    · rw [Run.read_bind_apply]
      simp only [hc]
      rfl
    · simp only [Context.setBank_bank]

end Pass

/-- The layout of a command records what is selected, and reserves space for it. -/
theorem Command.recorded_of_layOut {c : Command} {receiver : Operand}
    {receiverAt argumentAt : Location} {s t : Logged Context}
    (h : c.layOut receiver receiverAt argumentAt s = .ok () t) :
    ∃ selection u, c.select receiver receiverAt argumentAt s = .ok selection u ∧
      t.state.selections.at? argumentAt = selection ∧
      Pass.reserveSome "command" (selection.map Selection.size) c.pos
        { u with state := { u.state with
          selections := u.state.selections.set argumentAt selection } } = .ok () t := by
  unfold layOut at h
  obtain ⟨selection, u, hselect, hnext⟩ := Run.bind_eq_ok.1 h
  rw [Run.update_bind_apply] at hnext
  refine ⟨selection, u, hselect, ?_, hnext⟩
  cases selection with
  | none =>
    cases hnext
    exact Record.set_self _ _ _
  | some selection =>
    obtain ⟨i, origin, -, -, -, -, rfl⟩ := Pass.reserve_eq_ok.1 hnext
    exact Record.set_self _ _ _

/-- The layout of a branch records its size, and reserves space for it. -/
theorem Branch.recorded_of_layOut {b : Branch} {location : Location} {s t : Logged Context}
    (h : b.layOut location s = .ok () t) :
    ∃ size u, b.check s = .ok size u ∧ t.state.branches.at? location = size ∧
      Pass.reserveSome "branch" size b.pos
        { u with state := { u.state with branches := u.state.branches.set location size } } =
        .ok () t := by
  unfold layOut at h
  obtain ⟨size, u, hcheck, hnext⟩ := Run.bind_eq_ok.1 h
  rw [Run.update_bind_apply] at hnext
  refine ⟨size, u, hcheck, ?_, hnext⟩
  cases size with
  | none =>
    cases hnext
    exact Record.set_self _ _ _
  | some n =>
    obtain ⟨i, origin, -, -, -, -, rfl⟩ := Pass.reserve_eq_ok.1 hnext
    exact Record.set_self _ _ _

/-! ## What stays -/

namespace Context

/-- The same is recorded at a location. -/
structure SameAt (m : Location) (s t : Context) : Prop where
  selections : t.selections.at? m = s.selections.at? m
  branches : t.branches.at? m = s.branches.at? m
  contents : t.contents.at? m = s.contents.at? m

theorem SameAt.refl (m : Location) (s : Context) : SameAt m s s :=
  ⟨rfl, rfl, rfl⟩

theorem SameAt.trans {m : Location} {s t u : Context} (hst : SameAt m s t) (htu : SameAt m t u) :
    SameAt m s u :=
  ⟨htu.selections.trans hst.selections, htu.branches.trans hst.branches,
    htu.contents.trans hst.contents⟩

/-- What stays while parts of a program are laid out: what is recorded at other locations, what is
known of expressions, the scopes, and the origins of the banks. -/
structure Follows (K : Location → Prop) (s t : Context) : Prop where
  same : ∀ m, K m → SameAt m s t
  memo : s.memo.Le t.memo
  scopes : t.scopes = s.scopes
  labels : t.labels = s.labels
  settings : t.rom.map Rom.settings = s.rom.map Rom.settings
  bankCount : t.bankCount = s.bankCount
  origin : ∀ i origin, (s.bank i).origin = some origin → (t.bank i).origin = some origin

theorem Follows.refl (K : Location → Prop) (s : Context) : Follows K s s :=
  ⟨fun m _ => .refl m s, .refl _, rfl, rfl, rfl, rfl, fun _ _ h => h⟩

theorem Follows.trans {K : Location → Prop} {s t u : Context} (hst : Follows K s t)
    (htu : Follows K t u) : Follows K s u where
  same m hm := (hst.same m hm).trans (htu.same m hm)
  memo := hst.memo.trans htu.memo
  scopes := htu.scopes.trans hst.scopes
  labels := htu.labels.trans hst.labels
  settings := htu.settings.trans hst.settings
  bankCount := htu.bankCount.trans hst.bankCount
  origin i origin h := htu.origin i origin (hst.origin i origin h)

theorem Follows.mono {K L : Location → Prop} {s t : Context} (h : Follows K s t)
    (hKL : ∀ m, L m → K m) : Follows L s t :=
  ⟨fun m hm => h.same m (hKL m hm), h.memo, h.scopes, h.labels, h.settings, h.bankCount, h.origin⟩

/-- Nothing of the banks changes with the rest of a context. -/
theorem Follows.of_rom {K : Location → Prop} {s t : Context} (hsame : ∀ m, K m → SameAt m s t)
    (hmemo : s.memo.Le t.memo) (hscopes : t.scopes = s.scopes) (hlabels : t.labels = s.labels)
    (hrom : t.rom = s.rom) : Follows K s t where
  same := hsame
  memo := hmemo
  scopes := hscopes
  labels := hlabels
  settings := congrArg _ hrom
  bankCount := by
    unfold Context.bankCount
    rw [hrom]
  origin i origin h := by
    unfold bank at h ⊢
    rwa [hrom]

/-- Switching banks changes neither records nor origins. -/
theorem follows_activate (K : Location → Prop) (s : Context) (i : Nat) :
    Follows K s (s.activate i) where
  same _ _ := ⟨rfl, rfl, rfl⟩
  memo := .refl _
  scopes := rfl
  labels := rfl
  settings := Option.map_map _ _ _
  bankCount := bankCount_activate s i
  origin j origin h := by rwa [bank_activate]

/-- A bank may be replaced by one that keeps a known origin. -/
theorem follows_setBank {K : Location → Prop} {s : Context} {i : Nat} {b : Bank}
    (h : ∀ origin, (s.bank i).origin = some origin → b.origin = some origin) :
    Follows K s (s.setBank i b) where
  same _ _ := ⟨rfl, rfl, rfl⟩
  memo := .refl _
  scopes := rfl
  labels := rfl
  settings := Option.map_map _ _ _
  bankCount := bankCount_setBank s i b
  origin j origin hj := by
    by_cases hji : j = i
    · subst hji
      rcases Nat.lt_or_ge j s.bankCount with hlt | hge
      · rw [bank_setBank_self hlt]
        exact h origin hj
      · rw [bank_setBank_of_le hge]
        exact hj
    · rw [bank_setBank_of_ne hji]
      exact hj

end Context

namespace Layout

/-- The frame of what stays at the locations in `K`. -/
def following (K : Location → Prop) : Run.Frame Context :=
  .finishing (fun s t => s.state.Follows K t.state) (fun s => .refl K s.state)
    fun hst htu => hst.trans htu

theorem reports_following {K : Location → Prop} (e : Error) : (following K).Reports e :=
  Run.Frame.reports_of_log (fun s _ => Context.Follows.refl K s.state) (fun _ _ => trivial) e

/-- The steps of the layout record only at their own locations, and origins are set once. -/
theorem allows_following (K : Location → Prop) (A : Nat → Prop) :
    Allows (following K) (fun m => ¬ K m) (fun _ _ => True) A where
  reports e _ := reports_following e
  internal _ := reports_following _
  scopes :=
    { rel _ _ _ h := ⟨fun m hm => ⟨(h.same m hm).1, (h.same m hm).2, (h.same m hm).3⟩, h.memo,
        h.scopes, h.labels, h.settings, h.bankCount, h.origin⟩
      abort _ _ _ _ := trivial }
  fold demand m e _ := Run.Frame.holds_fold (fun t scope => SymbolTable.holds_growing scope _ e)
    (fun s t h => .of_rom (fun _ _ => ⟨rfl, rfl, rfl⟩) h.1 rfl rfl rfl) fun _ _ _ => trivial
  reserve what n pos _ := Run.Frame.holds_of_ok (fun _ _ => trivial) fun s _ t h => by
    obtain ⟨i, origin, -, ho, -, -, rfl⟩ := Pass.reserve_eq_ok.1 h
    exact Context.follows_setBank fun _ hs => hs
  counter what missing pos _ := Run.Frame.holds_of_ok (fun _ _ => trivial) fun s _ t h => by
    obtain ⟨i, -, -, rfl⟩ := Pass.programCounter_eq_ok.1 h
    exact .refl K t.state
  switch index pos := Run.Frame.holds_of_ok (fun _ _ => trivial) fun s _ t h => by
    obtain ⟨-, rfl⟩ := Pass.switchBank_eq_ok.1 h
    exact Context.follows_activate K _ _
  org address pos := Run.Frame.holds_of_ok (fun _ _ => trivial) fun s _ t h => by
    obtain ⟨i, b, -, hb, rfl⟩ := Pass.onBank_eq_ok.1 h
    refine Context.follows_setBank fun origin ho => ?_
    rcases Bank.org_eq_ok.1 hb with ⟨hnone, rfl⟩ | ⟨current, -, -, hexpand⟩
    · simp [Bank.programCounter?, ho] at hnone
    · obtain ⟨-, -, -, -, rfl⟩ := Bank.expand_eq_ok.1 hexpand
      exact ho
  note n := Run.Frame.holds_update fun s =>
    .of_rom (fun _ _ => ⟨rfl, rfl, rfl⟩) (.refl _) rfl rfl rfl
  selections m entry hm := Run.Frame.holds_update fun s =>
    .of_rom (fun k hk => ⟨Record.set_of_ne (fun h => hm (h ▸ hk)), rfl, rfl⟩) (.refl _) rfl rfl rfl
  branches m entry hm := Run.Frame.holds_update fun s =>
    .of_rom (fun k hk => ⟨rfl, Record.set_of_ne (fun h => hm (h ▸ hk)), rfl⟩) (.refl _) rfl rfl rfl
  contents m entry hm := Run.Frame.holds_update fun s =>
    .of_rom (fun k hk => ⟨rfl, rfl, Record.set_of_ne (fun h => hm (h ▸ hk))⟩) (.refl _) rfl rfl rfl
  place m address _ := Run.Frame.holds_update fun s =>
    .of_rom (fun _ _ => ⟨rfl, rfl, rfl⟩) (.refl _) rfl rfl rfl

/-- The layout of a statement changes what is recorded below it only. -/
theorem follows_layOut {files : Files} {stmt : Statement} {location : Location}
    {s t : Logged Context} (h : stmt.layOut files location s = .ok () t) :
    s.state.Follows (fun m => ¬ location.Under m) t.state :=
  ((allows_following _ fun _ => True).nests.holds_layOut (fun _ _ => trivial) stmt location
    (fun _ hm hnot => hnot hm) (Statement.covers_true _ _) fun _ _ => trivial).rel_of_ok h

/-- The layout of statements changes what is recorded below them only. -/
theorem follows_layOutAll {files : Files} {statements : List Statement} {location : Location}
    {index : Nat} {s t : Logged Context}
    (h : Statement.layOutAll files location index statements s = .ok () t) :
    s.state.Follows (fun m => ∀ i, index ≤ i → ¬ (location.child i).Under m) t.state :=
  ((allows_following _ fun _ => True).nests.holds_layOutAll (fun _ _ => trivial) statements
    location index (fun _ i hi hm hnot => hnot i hi hm) (Statement.covers_true _ _)
    fun _ _ => trivial).rel_of_ok h

/-- The layout of commands changes what is recorded of them only. -/
theorem follows_commands {location : Location} {receiver : Operand} {commands : List Command}
    {index : Nat} {s t : Logged Context}
    (h : Command.layOutAll location receiver index commands s = .ok () t) :
    s.state.Follows (fun m => ∀ i, index ≤ i → m ≠ location.child (i + 1)) t.state :=
  ((allows_following _ fun _ => True).holds_commands (fun _ _ => trivial) (fun _ _ => trivial)
    commands index (fun i hi hnot => hnot i hi rfl) fun _ _ _ _ _ => trivial).rel_of_ok h

/-- A frame that sees the memo and the log only allows the layout if it allows its folds. -/
theorem allows_onMemo {G : Run.Frame Memo} {E : Location → Expr → Prop} (P : Location → Prop)
    (A : Nat → Prop) (hreports : ∀ e, G.Reports e) (habort : ∀ s t, G.abort s t)
    (hfold : ∀ (t : SymbolTable) demand scope m e, E m e →
      G.Holds (t.fold demand scope (.tree m) e)) :
    Allows (Run.Frame.onMemo G) P E A := by
  have hkeep : ∀ {α : Type} {act : Pass α}, (∀ s a t, act s = .ok a t →
      t.state.memo = s.state.memo ∧ t.log = s.log) → (Run.Frame.onMemo G).Holds act :=
    fun h => Run.Frame.holds_onMemo hreports habort fun s a t hok =>
      ⟨(h s a t hok).1, Or.inl (h s a t hok).2⟩
  have hupdate : ∀ f : Context → Context, (∀ ctx, (f ctx).memo = ctx.memo) →
      (Run.Frame.onMemo G).Holds (Run.update f) := by
    refine fun f hf => hkeep fun s _ t h => ?_
    cases h
    exact ⟨hf _, rfl⟩
  refine
    { reports := fun e _ => (hreports e).onMemo
      internal := fun _ => (hreports _).onMemo
      scopes := Run.Frame.scoped_onMemo G
      fold := fun demand m e hE => Run.Frame.holds_fold (fun t scope => hfold t demand scope m e hE)
        (fun _ _ h => h) fun _ _ h => h
      reserve := fun what n pos _ => hkeep fun s _ t h => ?_
      counter := fun what missing pos _ => hkeep fun s _ t h => ?_
      switch := fun index pos => hkeep fun s _ t h => ?_
      org := fun address pos => hkeep fun s _ t h => ?_
      note := fun _ => hupdate _ fun _ => rfl
      selections := fun _ _ _ => hupdate _ fun _ => rfl
      branches := fun _ _ _ => hupdate _ fun _ => rfl
      contents := fun _ _ _ => hupdate _ fun _ => rfl
      place := fun _ _ _ => hupdate _ fun _ => rfl }
  · obtain ⟨i, origin, -, -, -, -, rfl⟩ := Pass.reserve_eq_ok.1 h
    exact ⟨rfl, rfl⟩
  · obtain ⟨i, -, -, rfl⟩ := Pass.programCounter_eq_ok.1 h
    exact ⟨rfl, rfl⟩
  · obtain ⟨-, rfl⟩ := Pass.switchBank_eq_ok.1 h
    exact ⟨rfl, rfl⟩
  · obtain ⟨i, b, -, hb, rfl⟩ := Pass.onBank_eq_ok.1 h
    exact ⟨rfl, Bank.log_of_org hb⟩

/-! ## Keeping the invariant -/

/-- An amount that does not wrap around when it is added to a reservation. -/
def moderate : Nat := 0x10000000000000000 - bankSize

/-- What fits into the address space is a moderate amount. -/
theorem moderate_of_lt {n : Nat} (h : n < addressSpace) : n < moderate :=
  Nat.lt_of_lt_of_le h (by decide)

/-- A few bytes are a moderate amount. -/
theorem moderate_of_le {n : Nat} (h : n ≤ 5) : n < moderate :=
  moderate_of_lt (Nat.lt_of_le_of_lt h (by decide))

/-- The frame of banks that keep the invariant and their bytes, and of reservations that do not
shrink if amounts are moderate. -/
def growing (amounts : Prop) : Run.Frame Context :=
  .finishing (fun s t => s.state.Laid → t.state.Laid ∧
      (∀ i, (t.state.bank i).data = (s.state.bank i).data) ∧
      (amounts → ∀ i, (s.state.bank i).reserved ≤ (t.state.bank i).reserved))
    (fun _ h => ⟨h, fun _ => rfl, fun _ _ => Nat.le_refl _⟩)
    fun hst htu h => ⟨(htu (hst h).1).1,
      fun i => ((htu (hst h).1).2.1 i).trans ((hst h).2.1 i),
      fun ha i => Nat.le_trans ((hst h).2.2 ha i) ((htu (hst h).1).2.2 ha i)⟩

/-- What does not change the rom stays in the frame. -/
theorem growing_of_rom {amounts : Prop} {s t : Logged Context} (h : t.state.rom = s.state.rom) :
    (growing amounts).rel s t := by
  have hbank : ∀ i, t.state.bank i = s.state.bank i := by
    intro i
    rw [Context.bank, h, Context.bank]
  intro hs
  refine ⟨⟨fun i hi => ?_, fun i => ?_⟩, fun i => ?_, fun _ i => ?_⟩
  · rw [Context.active?, h] at hi
    rw [Context.bankCount, h]
    exact hs.active i hi
  · rw [hbank]
    exact hs.bank i
  · rw [hbank]
  · apply Nat.le_of_eq
    rw [hbank]

/-- A bank whose reservation grows. -/
theorem growing_setBank {amounts : Prop} {s : Context} {log log' : Log} {i : Nat} {b : Bank}
    (hdata : b.data = (s.bank i).data)
    (hb : (s.bank i).Laid → b.Laid ∧ (amounts → (s.bank i).reserved ≤ b.reserved)) :
    (growing amounts).rel { state := s, log } { state := s.setBank i b, log := log' } := by
  intro hs
  obtain ⟨hlaid, hgrow⟩ := hb (hs.bank i)
  have hbank : ∀ j, ((s.setBank i b).bank j).data = (s.bank j).data ∧
      (amounts → (s.bank j).reserved ≤ ((s.setBank i b).bank j).reserved) := by
    intro j
    by_cases hj : j = i
    · subst hj
      rcases Nat.lt_or_ge j s.bankCount with hlt | hge
      · rw [Context.bank_setBank_self hlt]
        exact ⟨hdata, hgrow⟩
      · rw [Context.bank_setBank_of_le hge]
        exact ⟨rfl, fun _ => Nat.le_refl _⟩
    · rw [Context.bank_setBank_of_ne hj]
      exact ⟨rfl, fun _ => Nat.le_refl _⟩
  exact ⟨hs.setBank hlaid, fun j => (hbank j).1, fun ha j => (hbank j).2 ha⟩

/-- Reserving a moderate amount does not wrap around. -/
theorem reserved_extended {b : Bank} (h : b.Laid) {n : Nat} (hn : n < moderate) :
    (b.extended n).reserved = b.reserved + n := by
  have hres := h.reserved
  unfold moderate at hn
  unfold bankSize at hres hn
  exact Nat.mod_eq_of_lt (by omega)

theorem reports_growing {amounts : Prop} (e : Error) : (growing amounts).Reports e :=
  Run.Frame.reports_of_log (fun _ _ => growing_of_rom rfl) (fun _ _ => trivial) e

/-- The steps of the layout keep the cursor at the end of what is reserved, and write no bytes. -/
theorem allows_growing (amounts : Prop) (P : Location → Prop) :
    Allows (growing amounts) P (fun _ _ => True) (fun n => amounts → n < moderate) where
  reports e _ := reports_growing e
  internal _ := reports_growing _
  scopes :=
    { rel scope s t h := by
        have henter : (growing amounts).rel s { s with state := s.state.enter scope } :=
          growing_of_rom rfl
        exact (growing amounts).trans ((growing amounts).trans henter h) (growing_of_rom rfl)
      abort _ _ _ _ := trivial }
  fold demand m e _ := Run.Frame.holds_fold_of_blind (fun _ _ _ => growing_of_rom rfl)
    (fun _ _ _ => trivial) _ _ _
  reserve what n pos hn := Run.Frame.holds_of_ok (fun _ _ => trivial) fun s _ t h => by
    obtain ⟨i, origin, -, ho, -, hroom, rfl⟩ := Pass.reserve_eq_ok.1 h
    refine growing_setBank rfl fun hb => ⟨hb.extended ho hroom, fun ha => ?_⟩
    rw [reserved_extended hb (hn ha)]
    exact Nat.le_add_right _ _
  counter what missing pos _ := Run.Frame.holds_of_ok (fun _ _ => trivial) fun s _ t h => by
    obtain ⟨i, -, -, rfl⟩ := Pass.programCounter_eq_ok.1 h
    exact (growing amounts).refl t
  switch index pos := Run.Frame.holds_of_ok (fun _ _ => trivial) fun s _ t h => by
    obtain ⟨hlt, rfl⟩ := Pass.switchBank_eq_ok.1 h
    intro hs
    refine ⟨⟨fun i hi => ?_, fun i => ?_⟩, fun i => ?_, fun _ i => ?_⟩
    · rw [Context.active?_activate hlt] at hi
      cases hi
      rw [Context.bankCount_activate]
      exact hlt
    · rw [Context.bank_activate]
      exact hs.bank i
    · rw [Context.bank_activate]
    · apply Nat.le_of_eq
      rw [Context.bank_activate]
  org address pos := Run.Frame.holds_of_ok (fun _ _ => trivial) fun s _ t h => by
    obtain ⟨i, b, -, hb, rfl⟩ := Pass.onBank_eq_ok.1 h
    rcases Bank.org_eq_ok.1 hb with ⟨hnone, rfl⟩ | ⟨current, -, -, hexpand⟩
    · exact growing_setBank rfl fun hlaid =>
        ⟨⟨hlaid.position, hlaid.reserved, fun hno => by cases hno⟩, fun _ => Nat.le_refl _⟩
    · obtain ⟨origin, ho, -, hroom, rfl⟩ := Bank.expand_eq_ok.1 hexpand
      refine growing_setBank rfl fun hlaid => ⟨hlaid.extended ho hroom, fun _ => ?_⟩
      have hn : address.toNat - current < moderate :=
        moderate_of_lt (Nat.lt_of_le_of_lt (Nat.sub_le _ _) address.toNat_lt)
      rw [reserved_extended hlaid hn]
      exact Nat.le_add_right _ _
  note n := Run.Frame.holds_update fun _ => growing_of_rom rfl
  selections m entry _ := Run.Frame.holds_update fun _ => growing_of_rom rfl
  branches m entry _ := Run.Frame.holds_update fun _ => growing_of_rom rfl
  contents m entry _ := Run.Frame.holds_update fun _ => growing_of_rom rfl
  place m address _ := Run.Frame.holds_update fun _ => growing_of_rom rfl

/-- The layout of a statement keeps the invariant. -/
theorem laid_layOut {files : Files} {stmt : Statement} {location : Location} {s t : Logged Context}
    (h : stmt.layOut files location s = .ok () t) (hs : s.state.Laid) : t.state.Laid :=
  (((allows_growing False fun _ => True).nests.holds_layOut (fun _ _ => False.elim) stmt location
    (fun _ _ => trivial) (Statement.covers_true _ _) fun _ _ => False.elim).rel_of_ok h hs).1

/-- The layout of a command keeps the invariant. -/
theorem laid_command {c : Command} {receiver : Operand} {receiverAt argumentAt : Location}
    {s t : Logged Context} (h : c.layOut receiver receiverAt argumentAt s = .ok () t)
    (hs : s.state.Laid) : t.state.Laid :=
  (((allows_growing False fun _ => True).holds_command (fun _ _ => False.elim) c receiver trivial
    (fun _ _ => trivial) fun _ _ => trivial).rel_of_ok h hs).1

/-- The layout of commands reserves more and more. -/
theorem reserved_le_commands {location : Location} {receiver : Operand} {commands : List Command}
    {index : Nat} {s t : Logged Context}
    (h : Command.layOutAll location receiver index commands s = .ok () t) (hs : s.state.Laid)
    (i : Nat) : (s.state.bank i).reserved ≤ (t.state.bank i).reserved :=
  (((allows_growing True fun _ => True).holds_commands (fun _ hn _ => moderate_of_le hn)
    (fun _ _ => trivial) commands index (fun _ _ => trivial) fun _ _ _ _ _ => trivial).rel_of_ok h
      hs).2.2 trivial i

/-- The layout of statements with moderate amounts reserves more and more. -/
theorem reserved_le_layOutAll {files : Files} {statements : List Statement} {location : Location}
    {index : Nat} {s t : Logged Context}
    (h : Statement.layOutAll files location index statements s = .ok () t) (hs : s.state.Laid)
    (hamounts : ∀ n ∈ Statement.amountsAll files statements, n < moderate) (i : Nat) :
    (s.state.bank i).reserved ≤ (t.state.bank i).reserved :=
  (((allows_growing True fun _ => True).nests.holds_layOutAll (fun _ hn _ => moderate_of_le hn)
    statements location index (fun _ _ _ _ => trivial) (Statement.covers_true _ _) fun n hn _ =>
      hamounts n hn).rel_of_ok h hs).2.2 trivial i

end Layout

end Cartridge
