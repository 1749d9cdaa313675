import Cartridge.Proofs.Finding

/-!
# Folding by rules

How a fold comes about, as a derivation: one rule for a node whose result is known, one for a node
with a result of its own, one for a constant and one for an operation, each with what happens if a
part of it is abandoned. The rules know nothing of the room that is left for constants; they only
look at the chain of constants that are being expanded. A derivation also records what happens on
the way: which nodes are folded, what they come to, and what is reported at which of them.

Main definitions:

- `Event`: something that happens during a fold.
- `SymbolTable.Folds`: the rules of folding.

Main results:

- Theorem `SymbolTable.fold_iff`: every fold has a derivation, and all its derivations end as it
  does.
- Theorem `SymbolTable.Folds.entries`: what is reported during a fold is what the log gains.
- Theorem `SymbolTable.Folds.silent`: a fold that does not come to an invalid result reports
  nothing.
- Theorem `SymbolTable.Folds.ne_pending`: what has to be folded does not stay pending.
- Theorem `SymbolTable.Folds.le`: a fold forgets nothing.
-/

namespace Cartridge

/-- Where a run has ended, whether it has finished or was abandoned. -/
def Run.ending {σ α : Type} : EStateM.Result Abort (Logged σ) α → Logged σ
  | .ok _ u => u
  | .error _ u => u

/-- What comes of a fold. -/
abbrev Outcome := EStateM.Result Abort (Logged Memo) Folded

/-- A result may be added where nothing was known. -/
theorem Memo.Le.set {m n : Memo} (h : m.Le n) {site : Site} (hm : m.result site = .pending)
    {folded : Folded} : m.Le (n.set site folded) := by
  intro other ho
  have hne : other ≠ site := by
    rintro rfl
    exact ho hm
  rw [Memo.set_of_ne hne]
  exact h other ho

/-! ## Events -/

/-- Something that happens during a fold. -/
inductive Event where
  /-- A node is to be folded. -/
  | called (site : Site)
  | returned (site : Site) (folded : Folded)
  /-- An entry is added to the log, on account of a node. The closing entry is on no node's
  account. -/
  | reported (source : Option Site) (entry : Diagnostic)

namespace Event

/-- The entry that is added to the log. -/
def entry? : Event → Option Diagnostic
  | reported _ entry => some entry
  | _ => none

/-- The node on whose account something is reported. -/
def source? : Event → Option Site
  | reported source _ => source
  | _ => none

@[simp] theorem entries_called (site : Site) (events : List Event) :
    (called site :: events).filterMap entry? = events.filterMap entry? :=
  rfl

@[simp] theorem entries_returned (site : Site) (folded : Folded) (events : List Event) :
    (returned site folded :: events).filterMap entry? = events.filterMap entry? :=
  rfl

/-- Every entry that is added is reported. -/
theorem exists_of_mem_entries {events : List Event} {entry : Diagnostic}
    (h : entry ∈ events.filterMap entry?) : ∃ source, reported source entry ∈ events := by
  obtain ⟨event, hmem, hentry⟩ := List.mem_filterMap.1 h
  cases event with
  | called site => cases hentry
  | returned site folded => cases hentry
  | reported source other =>
    cases hentry
    exact ⟨source, hmem⟩

end Event

/-! ## Rules -/

/-- What comes of a verdict on a node: its result, after a report if something is wrong. -/
inductive Concludes (site : Site) : Verdict → Logged Memo → List Event → Outcome → Prop
  | result {folded : Folded} {s : Logged Memo} :
      Concludes site (.result folded) s [.returned site folded]
        (.ok folded { s with state := s.state.set site folded })
  | wrong {e : Error} {pos : Position} {s : Logged Memo}
      (room : s.log.count + 1 < s.log.limit) :
      Concludes site (.wrong e pos) s
        [.reported (some site) { fatal := false, pos := some pos, error := e },
          .returned site .invalid]
        (.ok .invalid { state := s.state.set site .invalid, log := s.log.soft e pos })
  | gaveUp {e : Error} {pos : Position} {s : Logged Memo}
      (full : s.log.limit ≤ s.log.count + 1) :
      Concludes site (.wrong e pos) s
        [.reported (some site) { fatal := false, pos := some pos, error := e },
          .reported none
            { fatal := true, pos := none, error := .tooManyErrors (s.log.count + 1) }]
        (.error .abort { s with log := (s.log.soft e pos).giveUp })

namespace SymbolTable

/-- The rules of folding a node of an expression, inside a chain of constants that are being
expanded. -/
inductive Folds (t : SymbolTable) (demand : Demand) :
    List DefId → ScopeId → Site → Expr → Logged Memo → List Event → Outcome → Prop
  | known {chain scope site e s} (known : s.state.result site ≠ .pending) :
      Folds t demand chain scope site e s [.called site, .returned site (s.state.result site)]
        (.ok (s.state.result site) s)
  | own {chain scope site e s verdict events r} (fresh : s.state.result site = .pending)
      (finding : t.finding demand scope e = .own verdict)
      (concludes : Concludes site verdict s events r) :
      Folds t demand chain scope site e s (.called site :: events) r
  | constant {chain scope site e s id value inner events folded u}
      (fresh : s.state.result site = .pending)
      (finding : t.finding demand scope e = .constant id value inner)
      (room : chain.length < maxExpansions)
      (inside : Folds t demand (chain ++ [id]) inner { anchor := .constant id } value s events
        (.ok folded u)) :
      Folds t demand chain scope site e s
        (.called site :: (events ++ [.returned site folded]))
        (.ok folded { u with state := u.state.set site folded })
  | constantAborts {chain scope site e s id value inner events x u}
      (fresh : s.state.result site = .pending)
      (finding : t.finding demand scope e = .constant id value inner)
      (room : chain.length < maxExpansions)
      (inside : Folds t demand (chain ++ [id]) inner { anchor := .constant id } value s events
        (.error x u)) :
      Folds t demand chain scope site e s (.called site :: events) (.error x u)
  | tooDeep {chain scope site e s id value inner} (fresh : s.state.result site = .pending)
      (finding : t.finding demand scope e = .constant id value inner)
      (full : maxExpansions ≤ chain.length) :
      Folds t demand chain scope site e s
        [.called site, .reported (some site)
          { fatal := true, pos := some e.pos,
            error := .tooManyExpansions maxExpansions (t.chainText (chain ++ [id])) }]
        (.error .abort { s with
          log := s.log.fatal (.tooManyExpansions maxExpansions (t.chainText (chain ++ [id])))
            e.pos })
  | leftAborts {chain scope site e s op a b events x u} (fresh : s.state.result site = .pending)
      (finding : t.finding demand scope e = .operation op a b)
      (left : Folds t demand chain scope (site.child .left) a s events (.error x u)) :
      Folds t demand chain scope site e s (.called site :: events) (.error x u)
  | rightAborts {chain scope site e s op a b events events' l v x u}
      (fresh : s.state.result site = .pending)
      (finding : t.finding demand scope e = .operation op a b)
      (left : Folds t demand chain scope (site.child .left) a s events (.ok l v))
      (right : Folds t demand chain scope (site.child .right) b v events' (.error x u)) :
      Folds t demand chain scope site e s (.called site :: (events ++ events')) (.error x u)
  | operation {chain scope site e s op a b events events' events'' l v r w result}
      (fresh : s.state.result site = .pending)
      (finding : t.finding demand scope e = .operation op a b)
      (left : Folds t demand chain scope (site.child .left) a s events (.ok l v))
      (right : Folds t demand chain scope (site.child .right) b v events' (.ok r w))
      (concludes : Concludes site (op.verdict e.pos l r) w events'' result) :
      Folds t demand chain scope site e s (.called site :: (events ++ events' ++ events'')) result

variable {t : SymbolTable} {demand : Demand} {chain : List DefId} {scope : ScopeId} {site : Site}
  {e : Expr} {s : Logged Memo} {events : List Event} {r : Outcome}

/-! ## Every fold has a derivation -/

end SymbolTable

open SymbolTable in
/-- A verdict concludes the way it is acted upon. -/
theorem Concludes.eq {site : Site} {verdict : Verdict} {s w : Logged Memo} {events : List Event}
    {r : Outcome} (h : Concludes site verdict s events r) {compute : Run Memo Folded}
    (hfresh : w.state.result site = .pending) (hcompute : compute w = verdict.act s) :
    remember site compute w = r := by
  rw [remember_of_pending hfresh]
  cases h with
  | result => exact Run.bind_apply_of_ok hcompute
  | @wrong e pos s room =>
    have hact : (Verdict.wrong e pos).act s =
        .ok Folded.invalid { s with log := s.log.soft e pos } :=
      Run.bind_apply_of_ok (Run.error_of_room room)
    exact Run.bind_apply_of_ok (hcompute.trans hact)
  | @gaveUp e pos s full =>
    have hact : (Verdict.wrong e pos).act s =
        (.error .abort { s with log := (s.log.soft e pos).giveUp } : Outcome) :=
      Run.bind_apply_of_error (Run.error_of_full full)
    exact Run.bind_apply_of_error (hcompute.trans hact)

/-- Every verdict comes to a conclusion. -/
theorem exists_concludes (site : Site) (verdict : Verdict) (s : Logged Memo) :
    ∃ events r, Concludes site verdict s events r := by
  cases verdict with
  | result folded => exact ⟨_, _, .result⟩
  | wrong e pos =>
    rcases Nat.lt_or_ge (s.log.count + 1) s.log.limit with hroom | hfull
    · exact ⟨_, _, .wrong hroom⟩
    · exact ⟨_, _, .gaveUp hfull⟩

namespace SymbolTable

variable {t : SymbolTable} {demand : Demand} {chain : List DefId} {scope : ScopeId} {site : Site}
  {e : Expr} {s : Logged Memo} {events : List Event} {r : Outcome}

/-- A derivation ends as the fold does, if there is room for the constants that the chain leaves. -/
theorem Folds.eq (h : t.Folds demand chain scope site e s events r) {room : Nat}
    (hroom : room + chain.length = maxExpansions) :
    t.foldWith demand (t.expandUpTo demand room chain) scope site e s = r := by
  induction h generalizing room with
  | known known => exact foldWith_of_known known _
  | own fresh finding concludes =>
    rw [foldWith_of_own finding]
    exact concludes.eq fresh rfl
  | @constant chain _ _ _ _ id _ _ _ _ _ fresh finding hlt _ ih =>
    obtain ⟨room, rfl⟩ := Nat.exists_eq_add_one.2 (show 0 < room by omega)
    rw [foldWith_of_constant finding, remember_of_pending fresh]
    refine Run.bind_apply_of_ok (ih ?_)
    rw [List.length_append, List.length_singleton]
    omega
  | @constantAborts chain _ _ _ _ id _ _ _ _ _ fresh finding hlt _ ih =>
    obtain ⟨room, rfl⟩ := Nat.exists_eq_add_one.2 (show 0 < room by omega)
    rw [foldWith_of_constant finding, remember_of_pending fresh]
    refine Run.bind_apply_of_error (ih ?_)
    rw [List.length_append, List.length_singleton]
    omega
  | tooDeep fresh finding full =>
    obtain rfl : room = 0 := by omega
    rw [foldWith_of_constant finding, remember_of_pending fresh]
    exact Run.bind_apply_of_error rfl
  | leftAborts fresh finding _ ih =>
    rw [foldWith_of_operation finding, remember_of_pending fresh]
    exact Run.bind_apply_of_error (Run.bind_apply_of_error (ih hroom))
  | rightAborts fresh finding _ _ ihl ihr =>
    rw [foldWith_of_operation finding, remember_of_pending fresh]
    refine Run.bind_apply_of_error ?_
    rw [Run.bind_apply_of_ok (ihl hroom)]
    exact Run.bind_apply_of_error (ihr hroom)
  | operation fresh finding _ _ concludes ihl ihr =>
    rw [foldWith_of_operation finding]
    refine concludes.eq fresh ?_
    rw [Run.bind_apply_of_ok (ihl hroom), Run.bind_apply_of_ok (ihr hroom)]

/-- There is a derivation for a node if there are derivations for the parts that it asks for. -/
theorem exists_folds_of_parts (s : Logged Memo)
    (hinside : chain.length < maxExpansions → ∀ id value inner s, ∃ events r,
      t.Folds demand (chain ++ [id]) inner { anchor := .constant id } value s events r)
    (hoperands : ∀ op a b, t.finding demand scope e = .operation op a b →
      (∀ s, ∃ events r, t.Folds demand chain scope (site.child .left) a s events r) ∧
        ∀ s, ∃ events r, t.Folds demand chain scope (site.child .right) b s events r) :
    ∃ events r, t.Folds demand chain scope site e s events r := by
  by_cases hfresh : s.state.result site = .pending
  case neg => exact ⟨_, _, .known hfresh⟩
  cases hfinding : t.finding demand scope e with
  | own verdict =>
    obtain ⟨events, r, hconcludes⟩ := exists_concludes site verdict s
    exact ⟨_, r, .own hfresh hfinding hconcludes⟩
  | constant id value inner =>
    rcases Nat.lt_or_ge chain.length maxExpansions with hlt | hfull
    · obtain ⟨events, r, hfolds⟩ := hinside hlt id value inner s
      cases r with
      | ok folded u => exact ⟨_, _, .constant hfresh hfinding hlt hfolds⟩
      | error x u => exact ⟨_, _, .constantAborts hfresh hfinding hlt hfolds⟩
    · exact ⟨_, _, .tooDeep hfresh hfinding hfull⟩
  | operation op a b =>
    obtain ⟨hleft, hright⟩ := hoperands op a b hfinding
    obtain ⟨events, r, hl⟩ := hleft s
    cases r with
    | error x u => exact ⟨_, _, .leftAborts hfresh hfinding hl⟩
    | ok l v =>
      obtain ⟨events', r, hr⟩ := hright v
      cases r with
      | error x u => exact ⟨_, _, .rightAborts hfresh hfinding hl hr⟩
      | ok r w =>
        obtain ⟨events'', result, hconcludes⟩ := exists_concludes site (op.verdict e.pos l r) w
        exact ⟨_, _, .operation hfresh hfinding hl hr hconcludes⟩

/-- There are derivations for the nodes of an expression if there are some for the constants that
may be expanded inside it. -/
theorem exists_folds_of_inside
    (hinside : chain.length < maxExpansions → ∀ id value inner s, ∃ events r,
      t.Folds demand (chain ++ [id]) inner { anchor := .constant id } value s events r)
    (scope : ScopeId) (site : Site) (e : Expr) (s : Logged Memo) :
    ∃ events r, t.Folds demand chain scope site e s events r := by
  induction e generalizing site s with
  | number v pos => exact exists_folds_of_parts s hinside fun _ _ _ h => by cases h
  | reference path pos =>
    exact exists_folds_of_parts s hinside fun _ _ _ h => absurd h referent_ne_operation
  | operation op a b pos ihl ihr =>
    refine exists_folds_of_parts s hinside fun _ _ _ h => ?_
    cases h
    exact ⟨fun s => ihl _ s, fun s => ihr _ s⟩

/-- There is a derivation for every node, since a chain of constants comes to an end. -/
theorem exists_folds (t : SymbolTable) (demand : Demand) {room : Nat}
    (hroom : room + chain.length = maxExpansions) (scope : ScopeId) (site : Site) (e : Expr)
    (s : Logged Memo) : ∃ events r, t.Folds demand chain scope site e s events r := by
  induction room generalizing chain scope site e s with
  | zero => exact exists_folds_of_inside (fun hlt => absurd hlt (by omega)) scope site e s
  | succ room ih =>
    refine exists_folds_of_inside (fun _ id value inner s => ih ?_ inner _ value s) scope site e s
    rw [List.length_append, List.length_singleton]
    omega

/-- Every fold has a derivation. -/
theorem folds_fold (t : SymbolTable) (demand : Demand) (scope : ScopeId) (anchor : Anchor)
    (e : Expr) (s : Logged Memo) :
    ∃ events, t.Folds demand [] scope { anchor } e s events (t.fold demand scope anchor e s) := by
  have hroom : maxExpansions + ([] : List DefId).length = maxExpansions := rfl
  obtain ⟨events, r, h⟩ := exists_folds t demand hroom scope { anchor } e s
  have heq : t.fold demand scope anchor e s = r := h.eq hroom
  exact ⟨events, heq ▸ h⟩

/-- Every fold has a derivation, and each of its derivations ends as the fold does. -/
theorem fold_iff {anchor : Anchor} :
    (∃ events, t.Folds demand [] scope { anchor } e s events r) ↔
      r = t.fold demand scope anchor e s := by
  constructor
  · rintro ⟨events, h⟩
    exact (h.eq rfl).symm
  · rintro rfl
    exact t.folds_fold demand scope anchor e s

/-! ## Reports -/

end SymbolTable

namespace Concludes

variable {site : Site} {verdict : Verdict} {s : Logged Memo} {events : List Event} {r : Outcome}

theorem entries (h : Concludes site verdict s events r) :
    (Run.ending r).log.entries = s.log.entries ++ events.filterMap Event.entry? := by
  cases h with
  | result => exact (List.append_nil _).symm
  | wrong room => rfl
  | gaveUp full => exact List.append_assoc _ _ _

/-- What is reported for a verdict is its cause, or that there are too many errors. -/
theorem cause_of_mem (h : Concludes site verdict s events r) {source : Option Site}
    {entry : Diagnostic} (hmem : .reported source entry ∈ events) :
    (∃ pos, verdict = .wrong entry.error pos) ∨ ∃ count, entry.error = .tooManyErrors count := by
  cases h with
  | result => cases List.mem_singleton.1 hmem
  | wrong room =>
    rcases List.mem_cons.1 hmem with heq | hmem
    · cases heq
      exact .inl ⟨_, rfl⟩
    · cases List.mem_singleton.1 hmem
  | gaveUp full =>
    rcases List.mem_cons.1 hmem with heq | hmem
    · cases heq
      exact .inl ⟨_, rfl⟩
    · cases List.mem_singleton.1 hmem
      exact .inr ⟨_, rfl⟩

/-- The result is that of the verdict, and it is remembered. -/
theorem folded_eq {folded : Folded} {u : Logged Memo}
    (h : Concludes site verdict s events (.ok folded u)) :
    folded = verdict.folded ∧ u.state = s.state.set site folded := by
  cases h <;> exact ⟨rfl, rfl⟩

/-- Nothing is reported on the way to a result that is not invalid. -/
theorem log_eq {folded : Folded} {u : Logged Memo}
    (h : Concludes site verdict s events (.ok folded u)) (hne : folded ≠ .invalid) :
    u.log = s.log := by
  cases h with
  | result => rfl
  | wrong room => exact absurd rfl hne

/-- The results of other nodes stay as they are. -/
theorem result_of_ne (h : Concludes site verdict s events r) {other : Site} (hne : other ≠ site) :
    (Run.ending r).state.result other = s.state.result other := by
  cases h with
  | result | wrong => exact Memo.set_of_ne hne
  | gaveUp => rfl

/-- A result for the node may be added. -/
theorem le {m : Memo} (h : Concludes site verdict s events r) (hm : m.result site = .pending)
    (hle : m.Le s.state) : m.Le (Run.ending r).state := by
  cases h with
  | result | wrong => exact hle.set hm
  | gaveUp => exact hle

end Concludes

namespace SymbolTable

variable {t : SymbolTable} {demand : Demand} {chain : List DefId} {scope : ScopeId} {site : Site}
  {e : Expr} {s : Logged Memo} {events : List Event} {r : Outcome}

namespace Folds

/-- What is reported during a fold is what the log gains. -/
theorem entries (h : t.Folds demand chain scope site e s events r) :
    (Run.ending r).log.entries = s.log.entries ++ events.filterMap Event.entry? := by
  induction h with
  | known known => exact (List.append_nil _).symm
  | own fresh finding concludes => exact concludes.entries
  | constant fresh finding room inside ih => simpa [Run.ending] using ih
  | constantAborts fresh finding room inside ih => exact ih
  | tooDeep fresh finding full => rfl
  | leftAborts fresh finding left ih => exact ih
  | rightAborts fresh finding left right ihl ihr =>
    simp only [Run.ending] at ihl ihr ⊢
    simp [ihr, ihl]
  | operation fresh finding left right concludes ihl ihr =>
    simp only [Run.ending] at ihl ihr
    simp [concludes.entries, ihr, ihl]

/-- A fold that does not come to an invalid result reports nothing. -/
theorem silent {folded : Folded} {u : Logged Memo}
    (h : t.Folds demand chain scope site e s events (.ok folded u)) (hne : folded ≠ .invalid) :
    u.log = s.log := by
  generalize hr : (EStateM.Result.ok folded u : Outcome) = r at h
  induction h generalizing folded u with
  | known known =>
    cases hr
    rfl
  | own fresh finding concludes =>
    cases hr
    exact concludes.log_eq hne
  | constant fresh finding room inside ih =>
    cases hr
    have hlog := ih hne rfl
    exact hlog
  | constantAborts | tooDeep | leftAborts | rightAborts => cases hr
  | @operation _ _ _ _ _ op _ _ _ _ _ l _ r _ _ fresh finding left right concludes ihl ihr =>
    cases hr
    -- An invalid operand would make the operation invalid.
    have hoperand : ∀ {f : Folded}, l = f ∨ r = f → f ≠ .invalid := by
      rintro f hf rfl
      rw [concludes.folded_eq.1, BinaryOp.verdict_of_invalid hf] at hne
      exact hne rfl
    rw [concludes.log_eq hne, ihr (hoperand (.inr rfl)) rfl, ihl (hoperand (.inl rfl)) rfl]

/-- What has to be folded does not stay pending. -/
theorem ne_pending {folded : Folded} {u : Logged Memo}
    (h : t.Folds demand chain scope site e s events (.ok folded u))
    (hmust : demand.mustFold = true) : folded ≠ .pending := by
  generalize hr : (EStateM.Result.ok folded u : Outcome) = r at h
  induction h generalizing folded u with
  | known known =>
    cases hr
    exact known
  | own fresh finding concludes =>
    cases hr
    rw [concludes.folded_eq.1]
    exact (plain_of_finding finding).ne_pending hmust
  | constant fresh finding room inside ih =>
    cases hr
    exact ih rfl
  | constantAborts | tooDeep | leftAborts | rightAborts => cases hr
  | operation fresh finding left right concludes ihl ihr =>
    cases hr
    rw [concludes.folded_eq.1]
    exact BinaryOp.verdict_ne_pending (ihl rfl) (ihr rfl)

/-- A fold forgets nothing, however it ends. -/
theorem le (h : t.Folds demand chain scope site e s events r) :
    s.state.Le (Run.ending r).state := by
  induction h with
  | known known => exact .refl _
  | own fresh finding concludes => exact concludes.le fresh (.refl _)
  | constant fresh finding room inside ih => exact ih.set fresh
  | constantAborts fresh finding room inside ih => exact ih
  | tooDeep fresh finding full => exact .refl _
  | leftAborts fresh finding left ih => exact ih
  | rightAborts fresh finding left right ihl ihr => exact ihl.trans ihr
  | operation fresh finding left right concludes ihl ihr =>
    exact concludes.le fresh (ihl.trans ihr)

end Folds

end SymbolTable

end Cartridge
