import Cartridge.Proofs.Session
import Cartridge.Proofs.Waiting

/-!
# Nothing is folded or reported twice

The events of a session tell which nodes were folded, what they came to and what was reported about
them. Read from the start, they build up the memo. At every moment the memo decides what may happen
next: a node that has a result is not reported any more, and returns this result as soon as it is
asked for.

Main definitions:

- `Event.record`: what an event adds to a memo.
- `Event.Orderly`: events that may happen one after the other.
- `Session`: a session with its events.

Main results:

- Theorem `SymbolTable.Folds.accounts`: the events of a fold are in order, and build up the memo.
- Theorem `Session.accounts`: so are the events of a session.
- Theorem `Pass.foldIn_again`: what an expression has come to it comes to after any session.
- Theorem `Session.folds_once`: in a session every node is reported at most once, and a node that
  has come to a result comes to this result again, without a report.
-/

namespace Cartridge

namespace Memo

/-- Storing what is known already changes nothing. -/
theorem set_result (memo : Memo) (site : Site) : memo.set site (memo.result site) = memo := by
  unfold set
  congr
  funext other
  split
  · rename_i heq
    rw [heq]
  · rfl

/-- The later result at a site counts. -/
theorem set_set (memo : Memo) (site : Site) (folded folded' : Folded) :
    (memo.set site folded).set site folded' = memo.set site folded' := by
  unfold set
  congr
  funext other
  dsimp only
  split <;> rfl

end Memo

/-! ## Events in order -/

namespace Event

/-- What an event adds to a memo. A node that something was reported about is invalid from then
on. -/
def record (memo : Memo) : Event → Memo
  | called _ => memo
  | returned site folded => memo.set site folded
  | reported (some site) _ => memo.set site .invalid
  | reported none _ => memo

/-- An event may happen before others, given what is known: a node with a result returns it at once,
and no other result and no report comes from such a node. -/
def Allowed (memo : Memo) (rest : List Event) : Event → Prop
  | called site => memo.result site ≠ .pending →
      ∃ tail, rest = .returned site (memo.result site) :: tail
  | returned site folded => memo.result site = .pending ∨ memo.result site = folded
  | reported (some site) _ => memo.result site = .pending
  | reported none _ => True

/-- Events that may happen one after the other. -/
def Orderly : Memo → List Event → Prop
  | _, [] => True
  | memo, event :: rest => event.Allowed memo rest ∧ Orderly (event.record memo) rest

variable {memo : Memo} {event : Event} {events rest : List Event} {site : Site}

/-- What may happen before some events may happen before more. -/
theorem Allowed.append (h : event.Allowed memo rest) (more : List Event) :
    event.Allowed memo (rest ++ more) := by
  cases event with
  | called site =>
    intro hknown
    obtain ⟨tail, rfl⟩ := h hknown
    exact ⟨tail ++ more, rfl⟩
  | returned site folded => exact h
  | reported source entry => cases source <;> exact h

/-- An event changes nothing that is known. -/
theorem Allowed.record_result (h : event.Allowed memo rest) (hknown : memo.result site ≠ .pending) :
    (event.record memo).result site = memo.result site := by
  have hset : ∀ {other folded}, memo.result other = .pending ∨ memo.result other = folded →
      (memo.set other folded).result site = memo.result site := by
    intro other folded hother
    by_cases heq : site = other
    · subst heq
      rw [Memo.set_self, hother.resolve_left hknown]
    · exact Memo.set_of_ne heq
  cases event with
  | called other => rfl
  | returned other folded => exact hset h
  | reported source entry =>
    cases source with
    | none => rfl
    | some other => exact hset (.inl h)

namespace Orderly

/-- Events stay in order when others follow that fit what they leave behind. -/
theorem append {more : List Event} (h : Orderly memo events)
    (hmore : Orderly (events.foldl record memo) more) : Orderly memo (events ++ more) := by
  induction events generalizing memo with
  | nil => exact hmore
  | cons event rest ih => exact ⟨h.1.append more, ih h.2 hmore⟩

/-- The last part of events in order is in order, after what the first part leaves behind. -/
theorem drop {more : List Event} (h : Orderly memo (events ++ more)) :
    Orderly (events.foldl record memo) more := by
  induction events generalizing memo with
  | nil => exact h
  | cons event rest ih => exact ih h.2

/-- What is known stays known. -/
theorem result_eq {more : List Event} (h : Orderly memo (events ++ more))
    (hknown : memo.result site ≠ .pending) :
    (events.foldl record memo).result site = memo.result site := by
  induction events generalizing memo with
  | nil => rfl
  | cons event rest ih =>
    have hnext := h.1.record_result hknown
    exact (ih h.2 (hnext ▸ hknown)).trans hnext

/-- Nothing is reported about a node that has a result. -/
theorem not_mem_sources (h : Orderly memo events) (hknown : memo.result site ≠ .pending) :
    site ∉ events.filterMap source? := by
  induction events generalizing memo with
  | nil => exact List.not_mem_nil
  | cons event rest ih =>
    have hnext := h.1.record_result hknown
    have hrest := ih h.2 (hnext ▸ hknown)
    cases event with
    | called other => exact hrest
    | returned other folded => exact hrest
    | reported source entry =>
      cases source with
      | none => exact hrest
      | some other =>
        intro hmem
        rcases List.mem_cons.1 hmem with rfl | hmem
        · exact hknown h.1
        · exact hrest hmem

/-- At most one thing is reported about each node. -/
theorem nodup_sources (h : Orderly memo events) : (events.filterMap source?).Nodup := by
  induction events generalizing memo with
  | nil => exact List.nodup_nil
  | cons event rest ih =>
    have hrest := ih h.2
    cases event with
    | called other => exact hrest
    | returned other folded => exact hrest
    | reported source entry =>
      cases source with
      | none => exact hrest
      | some other =>
        refine List.nodup_cons.2 ⟨h.2.not_mem_sources ?_, hrest⟩
        show (memo.set other .invalid).result other ≠ .pending
        rw [Memo.set_self]
        exact Folded.noConfusion

/-- A node that has returned a result returns it again, at once. -/
theorem returns_again {before between after : List Event} {folded : Folded}
    (h : Orderly memo (before ++ .returned site folded :: (between ++ .called site :: after)))
    (hne : folded ≠ .pending) : ∃ tail, after = .returned site folded :: tail := by
  have hbetween := h.drop.2
  have hknown : (record (before.foldl record memo) (.returned site folded)).result site = folded :=
    Memo.set_self _ _ _
  have hresult := hbetween.result_eq (hknown.symm ▸ hne)
  rw [hknown] at hresult
  have hcalled := hbetween.drop.1
  rw [Allowed, hresult] at hcalled
  exact hcalled hne

end Orderly

/-- Events that are in order, and that build up a memo if they led to one. -/
structure Accounts (events : List Event) (memo : Memo) (after : Option Memo) : Prop where
  orderly : Orderly memo events
  builds : ∀ final, after = some final → events.foldl record memo = final

namespace Accounts

variable {after : Option Memo}

/-- A call of a node that has no result yet may come first. -/
theorem call (h : Accounts events memo after) (hfresh : memo.result site = .pending) :
    Accounts (.called site :: events) memo after :=
  ⟨⟨fun hknown => absurd hfresh hknown, h.orderly⟩, h.builds⟩

/-- Events that build up a memo may be followed by those that build on it. -/
theorem append {more : List Event} {middle : Memo} (h : Accounts events memo (some middle))
    (hmore : Accounts more middle after) : Accounts (events ++ more) memo after := by
  have hmiddle := h.builds middle rfl
  refine ⟨h.orderly.append (hmiddle.symm ▸ hmore.orderly), fun final hfinal => ?_⟩
  rw [List.foldl_append, hmiddle]
  exact hmore.builds final hfinal

/-- A node that had no result returns one, which is remembered. -/
theorem returned {folded : Folded} (h : memo.result site = .pending) :
    Accounts [.returned site folded] memo (some (memo.set site folded)) :=
  ⟨⟨.inl h, trivial⟩, fun _ hfinal => Option.some.inj hfinal⟩

/-- A node that had no result reports something, after which no memo is built up. -/
theorem reported {entry : Diagnostic} (h : memo.result site = .pending) :
    Accounts [.reported (some site) entry] memo none :=
  ⟨⟨h, trivial⟩, fun _ hfinal => nomatch hfinal⟩

end Accounts

end Event

/-- What is seen of the state of a run that has finished. -/
def Run.finished? {σ α β : Type} (view : σ → β) :
    EStateM.Result Abort (Logged σ) α → Option β
  | .ok _ u => some (view u.state)
  | .error _ _ => none

open Event

/-- However a node concludes, the events are in order, given that it had no result before. -/
theorem Concludes.accounts {site : Site} {verdict : Verdict} {s : Logged Memo}
    {events : List Event} {r : Outcome} (h : Concludes site verdict s events r)
    (hfresh : s.state.result site = .pending) :
    Accounts events s.state (Run.finished? id r) := by
  cases h with
  | result => exact .returned hfresh
  | wrong room =>
    refine ⟨⟨hfresh, .inr (Memo.set_self _ _ _), trivial⟩, fun final hfinal => ?_⟩
    cases hfinal
    exact Memo.set_set _ _ _ _
  | gaveUp full => exact ⟨⟨hfresh, trivial, trivial⟩, fun _ hfinal => nomatch hfinal⟩

/-- The events of a fold are in order, and build up the memo. -/
theorem SymbolTable.Folds.accounts {t : SymbolTable} {demand : Demand} {chain : List DefId}
    {scope : ScopeId} {site : Site} {e : Expr} {s : Logged Memo} {events : List Event} {r : Outcome}
    (h : t.Folds demand chain scope site e s events r) {x : Expressions t}
    (hnode : x.Node site scope e) : Accounts events s.state (Run.finished? id r) := by
  induction h with
  | known known =>
    refine ⟨⟨fun _ => ⟨[], rfl⟩, .inr rfl, trivial⟩, fun final hfinal => ?_⟩
    cases hfinal
    exact Memo.set_result _ _
  | own fresh finding concludes => exact (concludes.accounts fresh).call fresh
  | constant fresh finding room inside ih =>
    obtain ⟨hneeds, hinner⟩ := Expressions.needs_constant hnode finding
    have hfresh := inside.fresh_inside hinner hneeds fresh
    exact ((ih hinner).append (.returned hfresh)).call fresh
  | constantAborts fresh finding room inside ih =>
    obtain ⟨-, hinner⟩ := Expressions.needs_constant hnode finding
    exact (ih hinner).call fresh
  | tooDeep fresh finding full => exact (Accounts.reported fresh).call fresh
  | leftAborts fresh finding left ih =>
    obtain ⟨-, ha⟩ := Expressions.needs_left hnode finding
    exact (ih ha).call fresh
  | rightAborts fresh finding left right ihl ihr =>
    obtain ⟨-, ha⟩ := Expressions.needs_left hnode finding
    obtain ⟨-, hb⟩ := Expressions.needs_right hnode finding
    exact ((ihl ha).append (ihr hb)).call fresh
  | operation fresh finding left right concludes ihl ihr =>
    obtain ⟨hneedsl, ha⟩ := Expressions.needs_left hnode finding
    obtain ⟨hneedsr, hb⟩ := Expressions.needs_right hnode finding
    have hfresh := right.fresh_inside hb hneedsr (left.fresh_inside ha hneedsl fresh)
    exact (((ihl ha).append (ihr hb)).append (concludes.accounts hfresh)).call fresh

/-! ## On whose account -/

/-- Everything that is reported is on the account of a node, but for what declarations report. -/
def Event.Attributed : Event → Prop
  | reported none entry => entry.OfDeclaration
  | _ => True

/-- However a node concludes, what is reported is on its account. -/
theorem Concludes.attributed {site : Site} {verdict : Verdict} {s : Logged Memo}
    {events : List Event} {r : Outcome} (h : Concludes site verdict s events r) :
    ∀ event ∈ events, event.Attributed := by
  cases h with
  | result => simp [Attributed]
  | wrong room => simp [Attributed]
  | gaveUp full => simp [Attributed, Diagnostic.OfDeclaration]

/-- What a fold reports is on the account of a node, but for the closing entry. -/
theorem SymbolTable.Folds.attributed {t : SymbolTable} {demand : Demand} {chain : List DefId}
    {scope : ScopeId} {site : Site} {e : Expr} {s : Logged Memo} {events : List Event} {r : Outcome}
    (h : t.Folds demand chain scope site e s events r) : ∀ event ∈ events, event.Attributed := by
  have hcall : ∀ {site events}, (∀ event ∈ events, event.Attributed) →
      ∀ event ∈ Event.called site :: events, event.Attributed :=
    fun h => List.forall_mem_cons.2 ⟨trivial, h⟩
  induction h with
  | known known => simp [Attributed]
  | own fresh finding concludes => exact hcall concludes.attributed
  | constant fresh finding room inside ih =>
    exact hcall (List.forall_mem_append.2 ⟨ih, by simp [Attributed]⟩)
  | constantAborts fresh finding room inside ih => exact hcall ih
  | tooDeep fresh finding full => simp [Attributed]
  | leftAborts fresh finding left ih => exact hcall ih
  | rightAborts fresh finding left right ihl ihr =>
    exact hcall (List.forall_mem_append.2 ⟨ihl, ihr⟩)
  | operation fresh finding left right concludes ihl ihr =>
    exact hcall (List.forall_mem_append.2 ⟨List.forall_mem_append.2 ⟨ihl, ihr⟩,
      concludes.attributed⟩)

/-! ## Sessions -/

/-- The expression of a constant is folded in the scope of its declaration. -/
def Action.Fits (ctx : Context) : Action → Prop
  | fold _ scope anchor e =>
    ∀ id, anchor = .constant id → ctx.symbols.meaning? id = some (.constant e scope)
  | _ => True

/-- The steps of a session do so when they are taken. -/
def Action.AllFit : List Action → Logged Context → Prop
  | [], _ => True
  | action :: rest, s => action.Fits s.state ∧ ∀ t, action.perform s = .ok () t → AllFit rest t

/-- What comes of a fold as a step of a session. -/
def Outcome.inContext (ctx : Context) : Outcome → EStateM.Result Abort (Logged Context) Unit
  | .ok _ u => .ok () { state := { ctx with memo := u.state }, log := u.log }
  | .error x u => .error x { state := { ctx with memo := u.state }, log := u.log }

/-- A fold as a step of a session is a fold over the table and the memo of the context. -/
theorem Action.perform_fold (demand : Demand) (scope : ScopeId) (anchor : Anchor) (e : Expr)
    (s : Logged Context) :
    (fold demand scope anchor e).perform s = Outcome.inContext s.state
      (s.state.symbols.fold demand scope anchor e { state := s.state.memo, log := s.log }) := by
  show (Pass.foldIn demand scope anchor e >>= fun _ => pure ()) s = _
  cases h : s.state.symbols.fold demand scope anchor e { state := s.state.memo, log := s.log } with
  | ok folded u =>
    rw [Run.bind_apply_of_ok (Pass.foldIn_eq_ok.2 ⟨u, h, rfl⟩)]
    rfl
  | error x u =>
    refine Run.bind_apply_of_error ?_
    unfold Pass.foldIn
    rw [Run.read_bind_apply, Run.focus, h]

/-- A step of a session with its events. -/
inductive Happens : Action → Logged Context → List Event →
    EStateM.Result Abort (Logged Context) Unit → Prop
  | declares {action s added} (declares : action.isFold = false)
      (entries : (Run.ending (action.perform s)).log.entries = s.log.entries ++ added) :
      Happens action s (added.map (.reported none)) (action.perform s)
  | folds {demand scope anchor e s events r}
      (fits : (Action.fold demand scope anchor e).Fits s.state)
      (folds : s.state.symbols.Folds demand [] scope { anchor } e
        { state := s.state.memo, log := s.log } events r) :
      Happens (.fold demand scope anchor e) s events (Outcome.inContext s.state r)

/-- A session with its events, up to the first step that is abandoned. -/
inductive Session : List Action → Logged Context → List Event →
    EStateM.Result Abort (Logged Context) Unit → Prop
  | done {s} : Session [] s [] (.ok () s)
  | goes {action rest s t events events' r} (step : Happens action s events (.ok () t))
      (goes : Session rest t events' r) : Session (action :: rest) s (events ++ events') r
  | stops {action rest s events x t} (step : Happens action s events (.error x t)) :
      Session (action :: rest) s events (.error x t)

namespace Happens

variable {action : Action} {s : Logged Context} {events : List Event}
  {r : EStateM.Result Abort (Logged Context) Unit}

/-- The events of a step go with what the step comes to. -/
theorem eq (h : Happens action s events r) : r = action.perform s := by
  cases h with
  | declares _ _ => rfl
  | folds fits folds => rw [Action.perform_fold, SymbolTable.fold_iff.1 ⟨_, folds⟩]

/-- The log gets exactly what the events report, in their order. -/
theorem entries (h : Happens action s events r) :
    (Run.ending r).log.entries = s.log.entries ++ events.filterMap Event.entry? := by
  cases h with
  | declares _ entries =>
    have hentry : Event.entry? ∘ Event.reported none = some := rfl
    rw [entries, List.filterMap_map, hentry, List.filterMap_some]
  | @folds _ _ _ _ _ _ r fits folds =>
    have hentries := folds.entries
    cases r <;> exact hentries

/-- Declarations add nothing to the memo, and the events of a fold build it up. -/
theorem accounts (h : Happens action s events r) :
    Accounts events s.state.memo (Run.finished? Context.memo r) := by
  cases h with
  | @declares _ _ added declares entries =>
    have hmemo := (Action.ending_perform declares s).1
    have hevents : Accounts (added.map (.reported none)) s.state.memo (some s.state.memo) := by
      clear entries
      induction added with
      | nil => exact ⟨trivial, fun _ h => Option.some.inj h⟩
      | cons entry rest ih => exact ⟨⟨trivial, ih.orderly⟩, ih.builds⟩
    refine ⟨hevents.orderly, fun final hfinal => hevents.builds final ?_⟩
    cases hr : action.perform s with
    | ok _ t =>
      rw [hr] at hmemo hfinal
      exact hmemo ▸ hfinal
    | error x t =>
      rw [hr] at hfinal
      cases hfinal
  | @folds demand scope anchor e _ _ r fits folds =>
    have haccounts := folds.accounts (SymbolTable.Expressions.node_around fits)
    cases r <;> exact haccounts

/-- What a step reports is on the account of a node. -/
theorem attributed (h : Happens action s events r) : ∀ event ∈ events, event.Attributed := by
  cases h with
  | @declares _ _ added declares entries =>
    obtain ⟨-, added', hadded', hof⟩ := (Action.ending_perform declares s).2
    obtain rfl := List.append_cancel_left (hadded'.symm.trans entries)
    intro event hevent
    obtain ⟨entry, hentry, rfl⟩ := List.mem_map.1 hevent
    exact hof entry hentry
  | folds fits folds => exact folds.attributed

end Happens

/-- Every step that fits has events. -/
theorem exists_happens {action : Action} {s : Logged Context} (h : action.Fits s.state) :
    ∃ events, Happens action s events (action.perform s) := by
  cases hfold : action.isFold with
  | false =>
    obtain ⟨-, added, hadded, -⟩ := (Action.ending_perform hfold s).2
    exact ⟨_, .declares hfold hadded⟩
  | true =>
    cases action with
    | fold demand scope anchor e =>
      obtain ⟨events, hfolds⟩ := s.state.symbols.folds_fold demand scope anchor e
        { state := s.state.memo, log := s.log }
      rw [Action.perform_fold]
      exact ⟨events, .folds h hfolds⟩
    | _ => cases hfold

namespace Session

variable {actions : List Action} {s : Logged Context} {events : List Event}
  {r : EStateM.Result Abort (Logged Context) Unit}

/-- The events of a session go with what the session comes to. -/
theorem eq (h : Session actions s events r) : r = Action.performAll actions s := by
  induction h with
  | done => rfl
  | goes step _ ih =>
    unfold Action.performAll
    rw [Run.bind_apply_of_ok step.eq.symm]
    exact ih
  | stops step =>
    unfold Action.performAll
    rw [Run.bind_apply_of_error step.eq.symm]

/-- The log of a session is what its events report, in their order. -/
theorem entries (h : Session actions s events r) :
    (Run.ending r).log.entries = s.log.entries ++ events.filterMap Event.entry? := by
  induction h with
  | done => exact (List.append_nil _).symm
  | goes step _ ih =>
    have hstep : _ = _ ++ _ := step.entries
    rw [ih, List.filterMap_append, ← List.append_assoc]
    exact congrArg (· ++ _) hstep
  | stops step => exact step.entries

/-- The events of a session are in order, and build up the memo. -/
theorem accounts (h : Session actions s events r) :
    Accounts events s.state.memo (Run.finished? Context.memo r) := by
  induction h with
  | done => exact ⟨trivial, fun _ h => Option.some.inj h⟩
  | goes step _ ih => exact step.accounts.append ih
  | stops step => exact step.accounts

/-- What a session reports is on the account of nodes. -/
theorem attributed (h : Session actions s events r) : ∀ event ∈ events, event.Attributed := by
  induction h with
  | done => exact fun _ h => absurd h List.not_mem_nil
  | goes step _ ih => exact List.forall_mem_append.2 ⟨step.attributed, ih⟩
  | stops step => exact step.attributed

end Session

/-- Every session whose steps fit has events. -/
theorem exists_session {actions : List Action} {s : Logged Context}
    (h : Action.AllFit actions s) :
    ∃ events, Session actions s events (Action.performAll actions s) := by
  induction actions generalizing s with
  | nil => exact ⟨[], .done⟩
  | cons action rest ih =>
    obtain ⟨events, hstep⟩ := exists_happens h.1
    unfold Action.performAll
    cases hr : action.perform s with
    | ok _ t =>
      obtain ⟨events', hrest⟩ := ih (h.2 t hr)
      rw [hr] at hstep
      rw [Run.bind_apply_of_ok hr]
      exact ⟨events ++ events', .goes hstep hrest⟩
    | error x t =>
      rw [hr] at hstep
      rw [Run.bind_apply_of_error hr]
      exact ⟨events, .stops hstep⟩

open SymbolTable in
/-- An expression that has come to a result comes to it again after any session, and nothing is
reported. -/
theorem Pass.foldIn_again {demand demand' : Demand} {scope scope' : ScopeId} {anchor : Anchor}
    {e e' : Expr} {actions : List Action} {s u v : Logged Context} {folded : Folded}
    (h : foldIn demand scope anchor e s = .ok folded u) (hne : folded ≠ .pending)
    (hlater : Action.performAll actions u = .ok () v) :
    foldIn demand' scope' anchor e' v = .ok folded v := by
  obtain ⟨w, hw, rfl⟩ := foldIn_eq_ok.1 h
  have hgrowing : (Run.Frame.onMemo (growing fun _ => True)).Holds (Action.performAll actions) :=
    Action.onMemo_performAll (G := growing fun _ => True) (fun _ _ => trivial)
      (fun s t hstate _ => ⟨hstate ▸ Memo.Le.refl _, fun _ hsite => absurd trivial hsite⟩)
      (fun _ _ scope anchor e => growing_mono (fun _ _ => trivial) (holds_growing scope anchor e))
      actions
  have hle := (hgrowing.rel_of_ok hlater).1
  have hw := result_of_fold hw
  have hknown : v.state.memo.result { anchor } = folded := by
    rw [hle _ (hw ▸ hne), hw]
  refine foldIn_eq_ok.2 ⟨{ state := v.state.memo, log := v.log }, ?_, rfl⟩
  unfold SymbolTable.fold
  rw [← hknown] at hne ⊢
  exact foldWith_of_known hne _

/-- A session has events, which tell all that is reported. Everything but what declarations report
is on the account of a node, and at most one entry is on the account of each node. A node that has
returned a result returns the same one whenever it is folded again, at once and so without a report.
An expression that has come to a result after the session comes to the same one after any more
steps, and nothing is reported. -/
theorem Session.folds_once {actions : List Action} {s : Logged Context}
    (hfit : Action.AllFit actions s) :
    (∃ events, Session actions s events (Action.performAll actions s)) ∧
    (∀ events r, Session actions s events r →
      r = Action.performAll actions s ∧
      (Run.ending r).log.entries = s.log.entries ++ events.filterMap Event.entry? ∧
      (∀ entry, .reported none entry ∈ events → entry.OfDeclaration) ∧
      (events.filterMap Event.source?).Nodup ∧
      ∀ before between after site folded,
        events = before ++ .returned site folded :: (between ++ .called site :: after) →
        folded ≠ .pending → ∃ tail, after = .returned site folded :: tail) ∧
    ∀ u, Action.performAll actions s = .ok () u →
      ∀ demand scope anchor e folded v, Pass.foldIn demand scope anchor e u = .ok folded v →
        folded ≠ .pending → ∀ later w, Action.performAll later v = .ok () w →
        ∀ demand' scope' e', Pass.foldIn demand' scope' anchor e' w = .ok folded w := by
  refine ⟨exists_session hfit, fun events r h => ?_, ?_⟩
  · have horderly := h.accounts.orderly
    refine ⟨h.eq, h.entries, fun entry hmem => h.attributed _ hmem, horderly.nodup_sources, ?_⟩
    rintro before between after site folded rfl hne
    exact horderly.returns_again hne
  · intro u _ demand scope anchor e folded v h hne later w hlater demand' scope' e'
    exact Pass.foldIn_again h hne hlater

/-- A constant that refers to an unknown name, which is folded by itself and then used twice. -/
def unknownSize : List Action :=
  let missing : Expr := .reference [{ text := "missing" }] {}
  let size : Expr := .reference [{ text := "size" }] {}
  [.put "size" none (.constant missing SymbolTable.root),
    .fold ⟨false, true⟩ SymbolTable.root (.constant ⟨11⟩) missing,
    .fold ⟨true, true⟩ SymbolTable.root (.detached 0) size,
    .fold ⟨true, true⟩ SymbolTable.root (.detached 1) size]

/-- The unknown name is reported once. -/
theorem Session.folds_once_unknownSize :
    ∃ events, Session unknownSize { state := {}, log := .empty 5 } events
        (Action.performAll unknownSize { state := {}, log := .empty 5 }) ∧
      (Run.ending (Action.performAll unknownSize { state := {}, log := .empty 5 })).log.count = 1 ∧
      (events.filterMap Event.source?).Nodup := by
  have hfit : Action.AllFit unknownSize { state := {}, log := .empty 5 } := by
    refine ⟨trivial, fun t ht => ?_⟩
    cases ht
    refine ⟨fun id hid => ?_, fun _ _ => ?_⟩
    · cases hid
      rfl
    · exact ⟨fun _ hid => Anchor.noConfusion hid, fun _ _ =>
        ⟨fun _ hid => Anchor.noConfusion hid, fun _ _ => trivial⟩⟩
  obtain ⟨⟨events, hevents⟩, hall, -⟩ := folds_once hfit
  exact ⟨events, hevents, by decide +kernel, (hall events _ hevents).2.2.2.1⟩

end Cartridge
