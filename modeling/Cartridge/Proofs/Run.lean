import Cartridge.Diagnostic.Run

/-!
# Frames of runs

A frame says what a run may do to the state and to the log: one relation for runs that finish, and
one for runs that are abandoned. Since nothing may happen and steps may follow each other, a frame
of the parts of a run is a frame of the whole run.

Main definitions:

- `Run.Frame`: a frame, and `Run.Frame.Holds`: a run stays inside it.
- `Run.Frame.total` and `Run.Frame.finishing`: frames with the same relation for both endings, and
  frames that say nothing about abandoned runs.

Main results:

- Theorem `Run.Frame.holds_bind`: a run in two parts stays inside the frames of its parts.
- Theorem `Run.Frame.holds_focus`: a run over a part of the state.
- Theorems `Run.error_eq_ok` and `Run.focus_eq_ok`: how runs that finish come about.
-/

namespace Cartridge

/-- Whether a cause says that something is wrong with the passes themselves. -/
def Error.isInternal : Error → Bool
  | internal _ => true
  | _ => false

namespace Run

variable {σ τ α β : Type}

/-! ## Runs that finish -/

@[simp] theorem pure_apply (a : α) (s : Logged σ) : (pure a : Run σ α) s = .ok a s :=
  rfl

@[simp] theorem read_apply (s : Logged σ) : (read : Run σ σ) s = .ok s.state s :=
  rfl

@[simp] theorem update_apply (f : σ → σ) (s : Logged σ) :
    update f s = .ok () { s with state := f s.state } :=
  rfl

@[simp] theorem fatal_apply (e : Error) (pos : Position) (s : Logged σ) :
    (fatal e pos : Run σ α) s = .error .abort { s with log := s.log.fatal e pos } :=
  rfl

@[simp] theorem internal_apply (what : String) (pos : Position) (s : Logged σ) :
    (internal what pos : Run σ α) s =
      .error .abort { s with log := s.log.fatal (.internal what) pos } :=
  rfl

/-- A run that starts by reading the state goes on with that state. -/
@[simp] theorem read_bind_apply (next : σ → Run σ β) (s : Logged σ) :
    (read >>= next) s = next s.state s :=
  rfl

/-- A run that starts by changing the state goes on from the changed state. -/
@[simp] theorem update_bind_apply (f : σ → σ) (next : Unit → Run σ β) (s : Logged σ) :
    (update f >>= next) s = next () { s with state := f s.state } :=
  rfl

/-- The second part of a run starts where the first part ends. -/
theorem bind_apply_of_ok {act : Run σ α} {next : α → Run σ β} {s t : Logged σ} {a : α}
    (h : act s = .ok a t) : (act >>= next) s = next a t := by
  show EStateM.bind act next s = next a t
  unfold EStateM.bind
  rw [h]

/-- A run whose first part is abandoned is abandoned there. -/
theorem bind_apply_of_error {act : Run σ α} {next : α → Run σ β} {s t : Logged σ} {x : Abort}
    (h : act s = .error x t) : (act >>= next) s = .error x t := by
  show EStateM.bind act next s = .error x t
  unfold EStateM.bind
  rw [h]

/-- Whether a run has finished, in a state with a property. -/
def finishes (p : Logged σ → Bool) : EStateM.Result Abort (Logged σ) α → Bool
  | .ok _ t => p t
  | .error _ _ => false

/-- A run that was computed to finish gives its result and its last state. -/
theorem exists_of_finishes {p : Logged σ → Bool} {r : EStateM.Result Abort (Logged σ) α}
    (h : finishes p r = true) : ∃ a t, r = .ok a t ∧ p t = true := by
  cases r with
  | ok a t => exact ⟨a, t, rfl, h⟩
  | error x t => cases h

/-- Whether a run was abandoned, in a state with a property. -/
def stops (p : Logged σ → Bool) : EStateM.Result Abort (Logged σ) α → Bool
  | .ok _ _ => false
  | .error _ t => p t

/-- A run that was computed to stop gives the reason and its last state. -/
theorem exists_of_stops {p : Logged σ → Bool} {r : EStateM.Result Abort (Logged σ) α}
    (h : stops p r = true) : ∃ x t, r = .error x t ∧ p t = true := by
  cases r with
  | ok a t => cases h
  | error x t => exact ⟨x, t, rfl, h⟩

/-- A run that was computed not to finish was abandoned. -/
theorem exists_of_not_finishes {r : EStateM.Result Abort (Logged σ) α}
    (h : finishes (fun _ => true) r = false) : ∃ x t, r = .error x t := by
  cases r with
  | ok a t => cases h
  | error x t => exact ⟨x, t, rfl⟩

/-- A recoverable error is followed by more exactly below the limit. -/
theorem error_eq_ok {e : Error} {pos : Position} {s t : Logged σ} {u : Unit} :
    error e pos s = .ok u t ↔
      s.log.count + 1 < s.log.limit ∧ t = { s with log := s.log.soft e pos } := by
  rcases Nat.lt_or_ge (s.log.count + 1) s.log.limit with h | h
  · rw [error_of_room h]
    constructor
    · intro hok
      cases hok
      exact ⟨h, rfl⟩
    · rintro ⟨-, rfl⟩
      rfl
  · rw [error_of_full h]
    constructor
    · intro hok
      cases hok
    · rintro ⟨hlt, -⟩
      exact absurd h (Nat.not_le.2 hlt)

/-- A run over a part of the state finishes exactly if the run over that part does. -/
theorem focus_eq_ok {get : σ → τ} {put : τ → σ → σ} {act : Run τ α} {s t : Logged σ} {a : α} :
    focus get put act s = .ok a t ↔
      ∃ u, act { state := get s.state, log := s.log } = .ok a u ∧
        t = { state := put u.state s.state, log := u.log } := by
  unfold focus
  cases h : act { state := get s.state, log := s.log } with
  | ok b u =>
    constructor
    · intro hok
      cases hok
      exact ⟨u, rfl, rfl⟩
    · rintro ⟨v, hv, rfl⟩
      cases hv
      rfl
  | error x u =>
    constructor
    · intro hok
      cases hok
    · rintro ⟨v, hv, -⟩
      cases hv

/-! ## Frames -/

/-- What a run may do: what holds between its start and its end if it finishes, and if it is
abandoned. -/
structure Frame (σ : Type) where
  rel : Logged σ → Logged σ → Prop
  /-- What holds of a run that is abandoned. -/
  abort : Logged σ → Logged σ → Prop
  refl : ∀ s, rel s s
  trans : ∀ {s t u}, rel s t → rel t u → rel s u
  trans_abort : ∀ {s t u}, rel s t → abort t u → abort s u

namespace Frame

variable {F : Frame σ}

/-- A frame that does not care how a run ends. -/
def total (rel : Logged σ → Logged σ → Prop) (refl : ∀ s, rel s s)
    (trans : ∀ {s t u}, rel s t → rel t u → rel s u) : Frame σ where
  rel := rel
  abort := rel
  refl := refl
  trans := trans
  trans_abort := trans

/-- A frame that says nothing about abandoned runs. -/
def finishing (rel : Logged σ → Logged σ → Prop) (refl : ∀ s, rel s s)
    (trans : ∀ {s t u}, rel s t → rel t u → rel s u) : Frame σ where
  rel := rel
  abort _ _ := True
  refl := refl
  trans := trans
  trans_abort _ _ := trivial

/-- The frame of what stays true once it is true, up to the end of a run that finishes. -/
def invariant (P : Logged σ → Prop) : Frame σ :=
  finishing (fun s t => P s → P t) (fun _ h => h) fun hst htu h => htu (hst h)

/-- The frame of what two frames allow. -/
def both (F G : Frame σ) : Frame σ where
  rel s t := F.rel s t ∧ G.rel s t
  abort s t := F.abort s t ∧ G.abort s t
  refl s := ⟨F.refl s, G.refl s⟩
  trans hst htu := ⟨F.trans hst.1 htu.1, G.trans hst.2 htu.2⟩
  trans_abort hst htu := ⟨F.trans_abort hst.1 htu.1, G.trans_abort hst.2 htu.2⟩

/-- What a frame says of a run that started in a state and has ended. -/
def Ends (F : Frame σ) (s : Logged σ) : EStateM.Result Abort (Logged σ) α → Prop
  | .ok _ t => F.rel s t
  | .error _ t => F.abort s t

/-- A run stays inside a frame, wherever it starts. -/
def Holds (F : Frame σ) (act : Run σ α) : Prop :=
  ∀ s, F.Ends s (act s)

/-- What a frame says of a run that has finished. -/
theorem Holds.rel_of_ok {act : Run σ α} (h : F.Holds act) {s t : Logged σ} {a : α}
    (hok : act s = .ok a t) : F.rel s t := by
  have hs := h s
  rw [hok] at hs
  exact hs

/-- A run stays inside two frames at once if it stays inside each of them. -/
theorem Holds.both {G : Frame σ} {act : Run σ α} (hF : F.Holds act) (hG : G.Holds act) :
    (F.both G).Holds act := by
  intro s
  have hFs := hF s
  have hGs := hG s
  cases h : act s with
  | ok a t =>
    rw [h] at hFs hGs
    exact ⟨hFs, hGs⟩
  | error x t =>
    rw [h] at hFs hGs
    exact ⟨hFs, hGs⟩

/-- Only runs that finish matter to a frame that says nothing about others. -/
theorem holds_of_ok (habort : ∀ s t, F.abort s t) {act : Run σ α}
    (h : ∀ s a t, act s = .ok a t → F.rel s t) : F.Holds act := by
  intro s
  cases ha : act s with
  | ok a t => exact h s a t ha
  | error x t => exact habort s t

theorem holds_pure (F : Frame σ) (a : α) : F.Holds (pure a : Run σ α) :=
  fun s => F.refl s

/-- A run that changes the state stays inside a frame that allows the change. -/
theorem holds_update {f : σ → σ} (h : ∀ s, F.rel s { s with state := f s.state }) :
    F.Holds (update f) :=
  h

/-- From a given start, a run in two parts stays inside the frame of its parts. -/
theorem ends_bind {act : Run σ α} {next : α → Run σ β} {s : Logged σ} (h : F.Ends s (act s))
    (hnext : ∀ a t, act s = .ok a t → F.Ends t (next a t)) : F.Ends s ((act >>= next) s) := by
  cases ha : act s with
  | error x t =>
    rw [bind_apply_of_error ha]
    rw [ha] at h
    exact h
  | ok a t =>
    rw [bind_apply_of_ok ha]
    rw [ha] at h
    have hn := hnext a t ha
    cases hb : next a t with
    | ok b u =>
      rw [hb] at hn
      exact F.trans h hn
    | error x u =>
      rw [hb] at hn
      exact F.trans_abort h hn

/-- A run in two parts stays inside the frame of its parts. -/
theorem holds_bind {act : Run σ α} {next : α → Run σ β} (h : F.Holds act)
    (hnext : ∀ a, F.Holds (next a)) : F.Holds (act >>= next) :=
  fun s => ends_bind (h s) fun a t _ => hnext a t

/-- A run that starts by reading the state stays inside the frame of what follows. -/
theorem holds_read_bind {next : σ → Run σ β} (h : ∀ a, F.Holds (next a)) :
    F.Holds (read >>= next) :=
  fun s => h s.state s

/-- A run over a part of the state stays inside a frame that follows from one for that part. -/
theorem holds_focus {G : Frame τ} {get : σ → τ} {put : τ → σ → σ} {act : Run τ α}
    (hrel : ∀ (s : Logged σ) (t : Logged τ), G.rel { state := get s.state, log := s.log } t →
      F.rel s { state := put t.state s.state, log := t.log })
    (habort : ∀ (s : Logged σ) (t : Logged τ), G.abort { state := get s.state, log := s.log } t →
      F.abort s { state := put t.state s.state, log := t.log })
    (h : G.Holds act) : F.Holds (focus get put act) := by
  intro s
  have hs := h { state := get s.state, log := s.log }
  unfold focus
  cases ha : act { state := get s.state, log := s.log } with
  | ok a t =>
    rw [ha] at hs
    exact hrel s t hs
  | error x t =>
    rw [ha] at hs
    exact habort s t hs

/-! ## Reports -/

/-- A frame allows a cause to be reported. -/
structure Reports (F : Frame σ) (e : Error) : Prop where
  soft : ∀ (s : Logged σ) pos, F.rel s { s with log := s.log.soft e pos }
  giveUp : ∀ (s : Logged σ) pos, F.abort s { s with log := (s.log.soft e pos).giveUp }
  fatal : ∀ (s : Logged σ) pos, F.abort s { s with log := s.log.fatal e pos }

/-- Reporting an error that a frame allows stays inside it, whether the limit is reached or not. -/
theorem Reports.holds_error {e : Error} (h : F.Reports e) (pos : Position) :
    F.Holds (error e pos : Run σ Unit) := by
  intro s
  rcases Nat.lt_or_ge (s.log.count + 1) s.log.limit with hc | hc
  · rw [error_of_room hc]
    exact h.soft s pos
  · rw [error_of_full hc]
    exact h.giveUp s pos

/-- Giving up with an error that a frame allows stays inside it. -/
theorem Reports.holds_fatal {e : Error} (h : F.Reports e) (pos : Position) :
    F.Holds (Run.fatal e pos : Run σ α) :=
  fun s => h.fatal s pos

/-- What may be reported in each of two frames may be reported in both at once. -/
theorem Reports.both {G : Frame σ} {e : Error} (hF : F.Reports e) (hG : G.Reports e) :
    (F.both G).Reports e :=
  ⟨fun s pos => ⟨hF.soft s pos, hG.soft s pos⟩, fun s pos => ⟨hF.giveUp s pos, hG.giveUp s pos⟩,
    fun s pos => ⟨hF.fatal s pos, hG.fatal s pos⟩⟩

/-- A frame that says nothing about the log allows every report. -/
theorem reports_of_log (hrel : ∀ (s : Logged σ) log, F.rel s { s with log })
    (habort : ∀ (s : Logged σ) log, F.abort s { s with log }) (e : Error) : F.Reports e where
  soft s _ := hrel s _
  giveUp s _ := habort s _
  fatal s _ := habort s _

end Frame

end Run

end Cartridge
