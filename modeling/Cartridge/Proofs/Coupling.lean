import Cartridge.Proofs.Run

/-!
# Couplings of runs

Two runs can be compared step by step. As long as both go on their states and their logs stay
related. Then both are abandoned, or the first one alone while the second one goes on: a limit that
is reached earlier abandons a run earlier. The second run is never abandoned alone.

What is compared when a run is abandoned are the logs only. So a coupling of logs, and a relation
between states that holds while both runs go on, say all there is to say.

Main definitions:

- `Log.Coupling`: how the logs of two runs are related.
- `Log.Coupling.trailing`: what the second run may do after the first one was abandoned.
- `Run.Couples`: two runs are coupled.

Main results:

- Theorem `Run.Couples.bind`: runs in two parts are coupled if their parts are.
- Theorems `Run.Couples.error_of_confuses` and `Run.Couples.fatal_of_confuses`: reports of errors
  that are not told apart.
- Theorem `Run.Couples.focus`: runs over parts of the states.
-/

namespace Cartridge

/-- One error, at one position. -/
def Error.Same (e : Error) (pos : Position) (e' : Error) (pos' : Position) : Prop :=
  e' = e ∧ pos' = pos

theorem Error.same_self (e : Error) (pos : Position) : e.Same pos e pos :=
  ⟨rfl, rfl⟩

/-- How the logs of two runs are related: while both go on, when both are abandoned, and when only
the first one is. What the two runs report at the same time may differ as far as the coupling
confuses it. -/
structure Log.Coupling where
  rel : Log → Log → Prop
  abort : Log → Log → Prop
  early : Log → Log → Prop
  /-- Errors with their positions that need not be told apart. -/
  confuses : Error → Position → Error → Position → Prop := Error.Same
  confuses_self : ∀ e pos, confuses e pos e pos := by exact Error.same_self
  soft : ∀ {a b e pos e' pos'}, confuses e pos e' pos' → rel a b → a.count + 1 < a.limit →
    b.count + 1 < b.limit ∧ rel (a.soft e pos) (b.soft e' pos')
  full : ∀ {a b e pos e' pos'}, confuses e pos e' pos' → rel a b → a.limit ≤ a.count + 1 →
    b.limit ≤ b.count + 1 → abort (a.soft e pos).giveUp (b.soft e' pos').giveUp
  leave : ∀ {a b e pos e' pos'}, confuses e pos e' pos' → rel a b → a.limit ≤ a.count + 1 →
    b.count + 1 < b.limit → early (a.soft e pos).giveUp (b.soft e' pos')
  fatal : ∀ {a b e pos e' pos'}, confuses e pos e' pos' → rel a b →
    abort (a.fatal e pos) (b.fatal e' pos')
  early_soft : ∀ {a b} e pos, early a b → early a (b.soft e pos)
  early_full : ∀ {a b} e pos, early a b → abort a (b.soft e pos).giveUp
  early_fatal : ∀ {a b} e pos, early a b → abort a (b.fatal e pos)

/-- What the second run may do after the first one was abandoned. -/
def Log.Coupling.trailing (C : Log.Coupling) (σ : Type) : Run.Frame σ where
  rel s t := ∀ log, C.early log s.log → C.early log t.log
  abort s t := ∀ log, C.early log s.log → C.abort log t.log
  refl _ _ h := h
  trans hst htu log h := htu log (hst log h)
  trans_abort hst htu log h := htu log (hst log h)

/-- The second run may report anything once the first one was abandoned. -/
theorem Log.Coupling.reports_trailing (C : Log.Coupling) (σ : Type) (e : Error) :
    (C.trailing σ).Reports e :=
  ⟨fun _ pos _ h => C.early_soft e pos h, fun _ pos _ h => C.early_full e pos h,
    fun _ pos _ h => C.early_fatal e pos h⟩

/-- The second run may change its state once the first one was abandoned. -/
theorem Log.Coupling.trailing_update (C : Log.Coupling) {σ : Type} (f : σ → σ) :
    (C.trailing σ).Holds (Run.update f) :=
  Run.Frame.holds_update fun _ _ h => h

namespace Run

variable {σ σ' τ τ' α β : Type} {C : Log.Coupling} {S : σ → σ' → Prop}

/-- How the ends of two runs are related. -/
def Meet (C : Log.Coupling) (S : σ → σ' → Prop) :
    EStateM.Result Abort (Logged σ) α → EStateM.Result Abort (Logged σ') α → Prop
  | .ok a s, .ok b t => a = b ∧ S s.state t.state ∧ C.rel s.log t.log
  | .error _ s, .error _ t => C.abort s.log t.log
  | .error _ s, .ok _ t => C.early s.log t.log
  | .ok _ _, .error _ _ => False

/-- Two runs are coupled: they keep a relation between their states. -/
structure Couples (C : Log.Coupling) (S : σ → σ' → Prop) (act : Run σ α) (act' : Run σ' α) :
    Prop where
  both : ∀ s t, S s.state t.state → C.rel s.log t.log → Meet C S (act s) (act' t)
  alone : (C.trailing σ').Holds act'

/-- Runs that meet under a relation meet under a weaker one. -/
theorem Meet.imp {T : σ → σ' → Prop} {r : EStateM.Result Abort (Logged σ) α}
    {r' : EStateM.Result Abort (Logged σ') α} (h : Meet C S r r') (hST : ∀ s t, S s t → T s t) :
    Meet C T r r' := by
  cases r with
  | error x s =>
    cases r' with
    | error y t => exact h
    | ok b t => exact h
  | ok a s =>
    cases r' with
    | error y t => exact h
    | ok b t => exact ⟨h.1, hST _ _ h.2.1, h.2.2⟩

/-- From given starts, runs in two parts meet if their parts do. The relation that the first parts
keep may be another one. -/
theorem meet_bind {T : σ → σ' → Prop} {act : Run σ α} {act' : Run σ' α} {next : α → Run σ β}
    {next' : α → Run σ' β} {s : Logged σ} {t : Logged σ'} (h : Meet C T (act s) (act' t))
    (hnext : ∀ a u v, act s = .ok a u → act' t = .ok a v → T u.state v.state →
      C.rel u.log v.log → Meet C S (next a u) (next' a v))
    (halone : ∀ a, (C.trailing σ').Holds (next' a)) :
    Meet C S ((act >>= next) s) ((act' >>= next') t) := by
  cases ha : act s with
  | error x u =>
    rw [bind_apply_of_error ha]
    cases hb : act' t with
    | error y v =>
      rw [bind_apply_of_error hb]
      rw [ha, hb] at h
      exact h
    | ok b v =>
      rw [bind_apply_of_ok hb]
      rw [ha, hb] at h
      have htrail := halone b v
      cases hc : next' b v with
      | ok c w =>
        rw [hc] at htrail
        exact htrail u.log h
      | error z w =>
        rw [hc] at htrail
        exact htrail u.log h
  | ok a u =>
    cases hb : act' t with
    | error y v =>
      rw [ha, hb] at h
      exact h.elim
    | ok b v =>
      rw [bind_apply_of_ok ha, bind_apply_of_ok hb]
      rw [ha, hb] at h
      obtain ⟨rfl, hstate, hlog⟩ := h
      exact hnext a u v ha hb hstate hlog

/-- From given starts, runs over parts of the states meet if the runs over those parts do. -/
theorem meet_focus {T : τ → τ' → Prop} {get : σ → τ} {put : τ → σ → σ} {get' : σ' → τ'}
    {put' : τ' → σ' → σ'} {act : Run τ α} {act' : Run τ' α} {s : Logged σ} {t : Logged σ'}
    (h : Meet C T (act { state := get s.state, log := s.log })
      (act' { state := get' t.state, log := t.log }))
    (hput : ∀ u v, T u v → S (put u s.state) (put' v t.state)) :
    Meet C S (Run.focus get put act s) (Run.focus get' put' act' t) := by
  unfold Run.focus
  cases ha : act { state := get s.state, log := s.log } with
  | ok a u =>
    cases hb : act' { state := get' t.state, log := t.log } with
    | ok b v =>
      rw [ha, hb] at h
      exact ⟨h.1, hput _ _ h.2.1, h.2.2⟩
    | error y v =>
      rw [ha, hb] at h
      exact h
  | error x u =>
    cases hb : act' { state := get' t.state, log := t.log } with
    | ok b v =>
      rw [ha, hb] at h
      exact h
    | error y v =>
      rw [ha, hb] at h
      exact h

namespace Couples

theorem pure (a : α) : Couples C S (pure a) (pure a) :=
  ⟨fun _ _ hs hl => ⟨rfl, hs, hl⟩, Frame.holds_pure _ a⟩

/-- Runs in two parts are coupled if their parts are. -/
theorem bind {act : Run σ α} {act' : Run σ' α} {next : α → Run σ β} {next' : α → Run σ' β}
    (h : Couples C S act act') (hnext : ∀ a, Couples C S (next a) (next' a)) :
    Couples C S (act >>= next) (act' >>= next') where
  both s t hs hl := meet_bind (h.both s t hs hl) (fun a u v _ _ => (hnext a).both u v)
    fun a => (hnext a).alone
  alone := Frame.holds_bind h.alone fun a => (hnext a).alone

/-- Reports of errors that are not told apart. -/
theorem error_of_confuses {e e' : Error} {pos pos' : Position} (h : C.confuses e pos e' pos') :
    Couples C S (Run.error e pos) (Run.error e' pos') where
  both s t hs hl := by
    rcases Nat.lt_or_ge (s.log.count + 1) s.log.limit with ha | ha
    · obtain ⟨hb, hrel⟩ := C.soft h hl ha
      rw [error_of_room ha, error_of_room hb]
      exact ⟨rfl, hs, hrel⟩
    · rw [error_of_full ha]
      rcases Nat.lt_or_ge (t.log.count + 1) t.log.limit with hb | hb
      · rw [error_of_room hb]
        exact C.leave h hl ha hb
      · rw [error_of_full hb]
        exact C.full h hl ha hb
  alone := (C.reports_trailing σ' e').holds_error pos'

/-- Errors that need not be told apart may end both runs. -/
theorem fatal_of_confuses {e e' : Error} {pos pos' : Position} (h : C.confuses e pos e' pos') :
    Couples C S (Run.fatal e pos : Run σ α) (Run.fatal e' pos') :=
  ⟨fun _ _ _ hl => C.fatal h hl, (C.reports_trailing σ' e').holds_fatal pos'⟩

/-- Reports of the same error. -/
theorem error (e : Error) (pos : Position) : Couples C S (Run.error e pos) (Run.error e pos) :=
  error_of_confuses (C.confuses_self e pos)

theorem fatal (e : Error) (pos : Position) :
    Couples C S (Run.fatal e pos : Run σ α) (Run.fatal e pos) :=
  fatal_of_confuses (C.confuses_self e pos)

theorem internal (what : String) (pos : Position) :
    Couples C S (Run.internal what pos : Run σ α) (Run.internal what pos) :=
  fatal _ pos

/-- Changes of the states that keep the relation. -/
theorem update {f : σ → σ} {f' : σ' → σ'} (h : ∀ s t, S s t → S (f s) (f' t)) :
    Couples C S (Run.update f) (Run.update f') :=
  ⟨fun s t hs hl => ⟨rfl, h s.state t.state hs, hl⟩, C.trailing_update f'⟩

/-- Runs that start by reading parts of their states that agree, when all that comes after depends
on these parts. -/
theorem read {γ : Type} (get : σ → γ) (get' : σ' → γ) (h : ∀ s t, S s t → get' t = get s)
    (hcover : ∀ t, ∃ s, get' t = get s) {next : σ → Run σ β} {next' : σ' → Run σ' β}
    (hnext : ∀ s t, get' t = get s → Couples C S (next s) (next' t)) :
    Couples C S (Run.read >>= next) (Run.read >>= next') where
  both s t hs hl := by
    rw [read_bind_apply, read_bind_apply]
    exact (hnext _ _ (h _ _ hs)).both s t hs hl
  alone := by
    refine Frame.holds_read_bind fun t => ?_
    obtain ⟨s, hs⟩ := hcover t
    exact (hnext s t hs).alone

/-- Runs that start by reading the same part of their states. -/
theorem read_same {γ : Type} {R : σ → σ → Prop} (get : σ → γ) (h : ∀ s t, R s t → get t = get s)
    {next next' : σ → Run σ β} (hnext : ∀ s t, get t = get s → Couples C R (next s) (next' t)) :
    Couples C R (Run.read >>= next) (Run.read >>= next') :=
  read get get h (fun t => ⟨t, rfl⟩) hnext

/-- Runs over equal states that start by reading them. -/
theorem read_eq {next : σ → Run σ β} (h : ∀ s, Couples C Eq (next s) (next s)) :
    Couples C Eq (Run.read >>= next) (Run.read >>= next) :=
  read_same id (fun _ _ hs => hs.symm) fun s t hs => by
    cases hs
    exact h s

theorem update_eq (f : σ → σ) : Couples C Eq (Run.update f) (Run.update f) :=
  update fun _ _ hs => congrArg f hs

/-- Runs over parts of the states are coupled if the runs over those parts are. -/
theorem focus {T : τ → τ' → Prop} {get : σ → τ} {put : τ → σ → σ} {get' : σ' → τ'}
    {put' : τ' → σ' → σ'} {act : Run τ α} {act' : Run τ' α} (h : Couples C T act act')
    (hget : ∀ s t, S s t → T (get s) (get' t))
    (hput : ∀ s t u v, S s t → T u v → S (put u s) (put' v t)) :
    Couples C S (Run.focus get put act) (Run.focus get' put' act') where
  both _ _ hs hl := meet_focus (h.both _ _ (hget _ _ hs) hl) fun u v => hput _ _ u v hs
  alone := Frame.holds_focus (fun _ _ h => h) (fun _ _ h => h) h.alone

end Couples

end Run

end Cartridge
