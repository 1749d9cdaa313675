import Cartridge.Compile.Basic
import Cartridge.Proofs.Alignment
import Cartridge.Proofs.GatherFrame
import Mathlib.Data.List.Forall2

/-!
# The emission follows the layout

The layout and the emission are two passes over the same tree. The emission goes back to the start
of every bank. From there on it visits every node with the same bank active and with every cursor in
the same place as the layout did, until it ends or is abandoned.

Main definitions:

- `Visit.Agrees`: a visit of the emission does what the visit of the layout has prepared.
- `Tracks`: a part of the emission follows a part of the layout.

Main results:

- Theorem `Tracks.append`: parts that follow each other.
- Theorem `Statement.tracks_statement`: the emission of a statement follows its layout.
- Theorem `Program.tracks`: the emission of a program follows its layout.
-/

namespace Cartridge

/-- What stands on the right of a relation between lists is related to something on the left. -/
theorem exists_left_of_mem {α β : Type} {R : α → β → Prop} {as : List α} {bs : List β}
    (h : List.Forall₂ R as bs) {b : β} (hb : b ∈ bs) : ∃ a ∈ as, R a b := by
  induction h with
  | nil => exact absurd hb List.not_mem_nil
  | cons hr _ ih =>
    rcases List.mem_cons.1 hb with rfl | hb
    · exact ⟨_, List.mem_cons_self, hr⟩
    · obtain ⟨a, ha, hab⟩ := ih hb
      exact ⟨a, List.mem_cons_of_mem _ ha, hab⟩

/-! ## Visits in pairs -/

namespace Visit

/-- A visit of the emission does what the visit of the layout to the same node has prepared. -/
structure Agrees (l : Context) (v w : Visit) : Prop where
  location : w.location = v.location
  node : w.node = v.node
  /-- The same bank is active, and the cursors stand in the same places. -/
  start : v.start.state.Aligned w.start.state
  finishes : w.Finishes → v.Finishes
  /-- So it is after the visit. -/
  after : w.Finishes → v.after.Aligned w.after
  /-- The cursor of every bank has advanced by what was reserved in it. -/
  advance : w.Finishes → ∀ i, (w.after.bank i).position =
    (w.start.state.bank i).position + v.reserves i
  /-- What was reserved for a node that takes up the space of its code is the size of the code, in
  the bank that was active, and nothing if it has none. -/
  size : w.Finishes → v.node.stays = true → ∀ i, v.reserves i =
    if v.start.state.active? = some i then (v.node.code? l v.location).elim 0 Code.size else 0

/-- The two passes stand at the same node, for which the layout has settled what is emitted. -/
structure Paired (l : Context) (v w : Visit) : Prop where
  location : w.location = v.location
  node : w.node = v.node
  stage : Stage l v.start.state w.start.state
  finishes : v.Finishes
  laid : v.after.Laid
  follows : v.after.Follows v.location.Under l
  finish : w.Finishes → v.after.Aligned w.after ∧
    ∀ i, (v.start.state.bank i).reserved ≤ (v.after.bank i).reserved
  settled : v.node.stays = true → ∃ emission,
    LaidOut v.node v.location v.start.state v.stop (v.node.code? l v.location) emission ∧
      w.result = emission w.start

theorem Paired.agrees {l : Context} {v w : Visit} (h : Paired l v w) : Agrees l v w where
  location := h.location
  node := h.node
  start := h.stage.aligned
  finishes _ := h.finishes
  after hw := (h.finish hw).1
  advance hw i := by
    obtain ⟨haligned, hgrow⟩ := h.finish hw
    rw [haligned.cursor, (h.laid.bank i).position, h.stage.aligned.cursor,
      (h.stage.laid.bank i).position, reserves, Nat.add_sub_cancel' (hgrow i)]
  size hw hstays i := by
    obtain ⟨emission, hlaid, hresult⟩ := h.settled hstays
    obtain ⟨t, ht⟩ := hw
    have hres := (hlaid.finish h.stage h.follows (.refl _) (hresult.symm.trans ht)).2 i
    rw [reserves, after, hres, Nat.add_sub_cancel_left]

/-- Visits in pairs go to the same places. -/
theorem map_place_eq {l : Context} {vs ws : List Visit} (h : List.Forall₂ (Paired l) vs ws) :
    vs.map place = ws.map place := by
  induction h with
  | nil => rfl
  | cons hvw _ ih => simp only [List.map_cons, place, hvw.location, hvw.node, ih]

end Visit

/-! ## Parts of the passes -/

/-- A part of the emission, from `e` on, follows a part of the layout, from `p` to `q`. With enough
room it is quiet. -/
structure Tracks (l : Context) (room : Prop) (vs ws : List Visit) (p q : Context)
    (e : Logged Context) (r : EStateM.Result Abort (Logged Context) Unit) : Prop where
  visits : ∃ done, done <+: vs ∧ List.Forall₂ (Visit.Paired l) done ws
  finish : ∀ t, r = .ok () t → q.Aligned t.state ∧
    (∀ i, (p.bank i).reserved ≤ (q.bank i).reserved) ∧ vs.length = ws.length
  quiet : room → (Run.Frame.quiet Context).Ends e r

namespace Tracks

variable {l p q u : Context} {room room' : Prop} {vs vs' ws : List Visit} {e : Logged Context}

theorem nil (h : p.Aligned e.state) : Tracks l room [] [] p p e (.ok () e) where
  visits := ⟨[], List.nil_prefix, .nil⟩
  finish t ht := by
    cases ht
    exact ⟨h, fun _ => Nat.le_refl _, rfl⟩
  quiet _ := (Run.Frame.quiet Context).refl e

/-- A part of the emission that finishes has followed all of the layout. -/
theorem forall₂_of_ok {t : Logged Context} (h : Tracks l room vs ws p q e (.ok () t)) :
    List.Forall₂ (Visit.Paired l) vs ws := by
  obtain ⟨done, hdone, hpairs⟩ := h.visits
  obtain ⟨-, -, hlength⟩ := h.finish t rfl
  have heq : done = vs := hdone.eq_of_length (hpairs.length_eq.trans hlength.symm)
  rwa [heq] at hpairs

/-- A part that is quiet with less room is quiet with more. -/
theorem weaken {r : EStateM.Result Abort (Logged Context) Unit} (h : Tracks l room vs ws p q e r)
    (hroom : room' → room) : Tracks l room' vs ws p q e r :=
  ⟨h.visits, h.finish, fun hr => h.quiet (hroom hr)⟩

/-- Parts that follow each other. -/
theorem append {a b : Pass Unit} {ws' : Logged Context → List Visit} (hroom : room → room')
    (first : Tracks l room' vs ws p q e (a e))
    (second : ∀ t, a e = .ok () t → Tracks l room vs' (ws' t) q u t (b t)) :
    Tracks l room (vs ++ vs') (ws ++ Walk.next (a e) ws') p u e ((do a; b) e) := by
  cases ha : a e with
  | error x t =>
    obtain ⟨done, hdone, hpairs⟩ := first.visits
    refine ⟨⟨done, hdone.trans (List.prefix_append _ _), ?_⟩, fun t' ht => ?_, fun h => ?_⟩
    · rw [Walk.next, List.append_nil]
      exact hpairs
    · rw [Run.bind_apply_of_error ha] at ht
      cases ht
    · rw [Run.bind_apply_of_error ha, ← ha]
      exact first.quiet (hroom h)
  | ok _ t =>
    have rest := second t ha
    rw [ha] at first
    obtain ⟨-, hgrow, hlength⟩ := first.finish t rfl
    obtain ⟨done, hdone, hpairs⟩ := rest.visits
    refine ⟨⟨vs ++ done, (List.prefix_append_right_inj vs).2 hdone, ?_⟩, fun t' ht => ?_,
      fun h => ?_⟩
    · exact List.rel_append first.forall₂_of_ok hpairs
    · rw [Run.bind_apply_of_ok ha] at ht
      obtain ⟨haligned, hgrow', hlength'⟩ := rest.finish t' ht
      refine ⟨haligned, fun i => Nat.le_trans (hgrow i) (hgrow' i), ?_⟩
      rw [Walk.next, List.length_append, List.length_append, hlength, hlength']
    · have hquiet := first.quiet (hroom h)
      rw [← ha] at hquiet
      refine Run.Frame.ends_bind hquiet fun _ t' ht' => ?_
      rw [ha] at ht'
      cases ht'
      exact rest.quiet h

/-- A node with everything inside it. -/
theorem cons {v w : Visit} {r : EStateM.Result Abort (Logged Context) Unit}
    (inside : Tracks l room vs ws p q e r) (hpair : Visit.Paired l v w) :
    Tracks l room (v :: vs) (w :: ws) p q e r where
  visits := by
    obtain ⟨done, hdone, hpairs⟩ := inside.visits
    exact ⟨v :: done, List.cons_prefix_cons.2 ⟨rfl, hdone⟩, .cons hpair hpairs⟩
  finish t ht := by
    obtain ⟨haligned, hgrow, hlength⟩ := inside.finish t ht
    exact ⟨haligned, hgrow, congrArg Nat.succ hlength⟩
  quiet := inside.quiet

/-- A node that is made of others, or a relocation. -/
theorem node {v w : Visit} {q : Logged Context} {r : EStateM.Result Abort (Logged Context) Unit}
    (hlocation : w.location = v.location) (hnode : w.node = v.node)
    (stage : Stage l v.start.state w.start.state) (hv : v.result = .ok () q) (hw : w.result = r)
    (hq : q.state.Laid) (hfollows : q.state.Follows v.location.Under l)
    (hmoves : v.node.stays = false)
    (inside : Tracks l room vs ws v.start.state q.state e r) :
    Tracks l room (v :: vs) (w :: ws) v.start.state q.state e r := by
  have hafter := Visit.after_of_ok hv
  refine inside.cons ⟨hlocation, hnode, stage, ⟨q, hv⟩, hafter ▸ hq, hafter ▸ hfollows, ?_, ?_⟩
  · rintro ⟨t, ht⟩
    obtain ⟨haligned, hgrow, -⟩ := inside.finish t (hw.symm.trans ht)
    rw [hafter, Visit.after_of_ok ht]
    exact ⟨haligned, hgrow⟩
  · intro hstays
    rw [hmoves] at hstays
    cases hstays

/-- A part of the passes inside a scope. -/
theorem within {scope : ScopeId} {act : Pass Unit}
    (h : Tracks l room vs ws (p.enter scope) q { e with state := e.state.enter scope }
      (act { e with state := e.state.enter scope })) :
    Tracks l room vs ws p q.exit e (Pass.within scope act e) where
  visits := h.visits
  finish t ht := by
    obtain ⟨u, hu, rfl⟩ := Pass.within_eq_ok.1 ht
    obtain ⟨haligned, hgrow, hlength⟩ := h.finish u hu
    exact ⟨⟨haligned.active, haligned.cursor⟩, hgrow, hlength⟩
  quiet hroom := by
    have hscoped : (Run.Frame.quiet Context).Scoped := ⟨fun _ _ _ h => h, fun _ _ _ h => h⟩
    exact hscoped.ends_within (h.quiet hroom)

/-- A node that takes up the space of its code. -/
theorem leaf {v w : Visit} {q : Logged Context} {emission : Pass Unit}
    (hlocation : w.location = v.location) (hnode : w.node = v.node)
    (stage : Stage l v.start.state w.start.state) (hv : v.result = .ok () q)
    (hw : w.result = emission w.start) (hq : q.state.Laid)
    (hfollows : q.state.Follows v.location.Under l)
    (hlaid : LaidOut v.node v.location v.start.state q (v.node.code? l v.location) emission)
    (hroom : room → (∀ code ∈ v.node.code? l v.location, code.size < Layout.moderate) ∧
      ∀ i, (q.state.bank i).reserved ≤ (l.bank i).reserved) :
    Tracks l room [v] [w] v.start.state q.state w.start (emission w.start) := by
  have hafter := Visit.after_of_ok hv
  have hfinish : ∀ t, emission w.start = .ok () t → q.state.Aligned t.state ∧
      ∀ i, (v.start.state.bank i).reserved ≤ (q.state.bank i).reserved := by
    intro t ht
    obtain ⟨haligned, hres⟩ := hlaid.finish stage hfollows (.refl _) ht
    refine ⟨haligned, fun i => ?_⟩
    rw [hres i]
    exact Nat.le_add_right _ _
  have hpair : Visit.Paired l v w := by
    refine ⟨hlocation, hnode, stage, ⟨q, hv⟩, hafter ▸ hq, hafter ▸ hfollows, ?_, ?_⟩
    · rintro ⟨t, ht⟩
      rw [hafter, Visit.after_of_ok ht]
      exact hfinish t (hw.symm.trans ht)
    · exact fun _ => ⟨emission, Visit.stop_of_ok hv ▸ hlaid, hw⟩
  refine ⟨⟨[v], List.prefix_rfl, .cons hpair .nil⟩, fun t ht => ?_, fun h => ?_⟩
  · exact ⟨(hfinish t ht).1, (hfinish t ht).2, rfl⟩
  · obtain ⟨hsize, hgrow⟩ := hroom h
    exact hlaid.quiet stage hfollows (.refl _) hsize hgrow

end Tracks

/-- The code of a node depends on what is recorded at its location only. -/
theorem Node.code?_of_same {m : Location} {s t : Context} (h : s.SameAt m t) (n : Node) :
    n.code? t m = n.code? s m := by
  cases n with
  | command receiver receiverAt c => simp only [code?, h.selections]
  | statement stmt => cases stmt <;> simp only [code?, h.branches, h.contents]

/-! ## Statements -/

/-- The emission of commands follows their layout. -/
theorem Command.tracks {files : Files} {l : Context} {location : Location} {receiver : Operand}
    {commands : List Command} {index : Nat} {p q e : Logged Context}
    (h : layOutAll location receiver index commands p = .ok () q) (stage : Stage l p.state e.state)
    (hq : q.state.Follows location.Under l) :
    Tracks l (∀ i, (q.state.bank i).reserved ≤ (l.bank i).reserved)
      (visits (.layout files) location receiver index commands p)
      (visits .emission location receiver index commands e) p.state q.state e
      (emitAll location receiver index commands e) := by
  induction commands generalizing index p e with
  | nil =>
    cases h
    exact .nil stage.aligned
  | cons c rest ih =>
    obtain ⟨_, u, hc, hrest⟩ := Run.bind_eq_ok.1 h
    have hv : ((Walk.layout files).toCommand location receiver index c p).result = .ok () u := hc
    have hlaid := Layout.laid_command hc stage.laid
    -- What is recorded of a command stays when the other commands are laid out.
    have hfollows : u.state.Follows (location.child (index + 1)).Under l := by
      refine Context.Follows.trans ?_ (hq.mono fun m hm => hm.of_child)
      refine (Layout.follows_commands hrest).mono fun m hm i hi => ?_
      rintro rfl
      have hcontra := hm.child_unique (.refl _)
      omega
    obtain ⟨hsettled, hsize⟩ := Command.laidOut hc
    rw [← Node.code?_of_same (hfollows.same _ (.refl _))] at hsettled hsize
    have hgrow := Layout.reserved_le_commands hrest hlaid
    have first : Tracks l (∀ i, (q.state.bank i).reserved ≤ (l.bank i).reserved)
        [(Walk.layout files).toCommand location receiver index c p]
        [Walk.emission.toCommand location receiver index c e] p.state u.state e
        (c.emit receiver (location.child 0) (location.child (index + 1)) e) :=
      Tracks.leaf rfl rfl stage hv rfl hlaid hfollows hsettled fun hroom =>
        ⟨fun code hcode => Layout.moderate_of_le (hsize code hcode),
          fun i => Nat.le_trans (hgrow i) (hroom i)⟩
    unfold visits
    rw [hv]
    refine first.append id fun t ht => ih hrest ⟨hlaid, stage.final, ?_, ?_⟩
    · exact stage.unmoved.trans (Emission.unmoved_command ht)
    · exact (first.finish t ht).1

/-- The emission of a relocation follows its layout. -/
theorem Relocation.tracks {l : Context} {location : Location} {pos : Position} {target : Relocation}
    {p q e : Logged Context} (h : target.layOut location pos p = .ok () q)
    (stage : Stage l p.state e.state) (hq : q.state.Follows location.Under l)
    (hcount : q.state.bankCount = p.state.bankCount) :
    Tracks l (∀ i, (q.state.bank i).reserved ≤ (l.bank i).reserved) [] [] p.state q.state e
      (target.emit location pos e) := by
  cases target with
  | ram dest =>
    cases h
    exact .nil stage.aligned
  | rom bank dest =>
    obtain ⟨_, u, hbank, hdest⟩ := Run.bind_eq_ok.1 h
    have hmemo : u.state.memo.Le q.state.memo := by
      cases dest with
      | none =>
        cases hdest
        exact .refl _
      | some x =>
        obtain ⟨-, -, -, -, -, -, -, hle⟩ := layOutDest_of_ok hdest
        exact hle
    obtain ⟨t, ht, hlog, hstage, hsame⟩ := emitBank_of_stage hbank stage (hmemo.trans hq.memo)
      (hq.bankCount.trans hcount)
    obtain ⟨hfinish, hroom⟩ := emitDest_of_stage hdest hstage hq
    rw [emit, Run.bind_apply_of_ok ht]
    refine ⟨⟨[], List.nil_prefix, .nil⟩, fun t' ht' => ?_, fun hr => ?_⟩
    · obtain ⟨haligned, hgrow⟩ := hfinish t' ht'
      refine ⟨haligned, fun i => ?_, rfl⟩
      rw [← hsame]
      exact hgrow i
    · obtain ⟨t', ht', hlog'⟩ := hroom hr
      rw [ht']
      refine ⟨[], ?_, fun _ h => absurd h List.not_mem_nil⟩
      rw [hlog', hlog, List.append_nil]

theorem Stage.enter {l p e : Context} (h : Stage l p e) (scope : ScopeId) :
    Stage l (p.enter scope) (e.enter scope) :=
  ⟨⟨h.laid.active, h.laid.bank⟩, h.final, h.unmoved.trans (Context.unmoved_enter e scope),
    ⟨h.aligned.active, h.aligned.cursor⟩⟩

namespace Statement

/-- The emission of a statement that takes up the space of its code follows its layout. -/
theorem tracks_leaf {files : Files} {l : Context} {stmt : Statement} {location : Location}
    {p q e : Logged Context} (h : stmt.layOut files location p = .ok () q)
    (stage : Stage l p.state e.state) (hq : q.state.Follows location.Under l)
    (hnew : p.state.contents.at? location = none)
    (hstays : (Node.statement stmt).stays = true)
    (hinside : ∀ w s, stmt.visitsInside w location s = []) :
    Tracks l ((∀ n ∈ stmt.amounts files, n < Layout.moderate) ∧
        ∀ i, (q.state.bank i).reserved ≤ (l.bank i).reserved)
      (stmt.visits (.layout files) location p) (stmt.visits .emission location e) p.state q.state e
      (stmt.emit location e) := by
  obtain ⟨hlaid, hsize⟩ := Statement.laidOut h hnew hstays
  rw [← Node.code?_of_same (hq.same location (.refl _))] at hlaid hsize
  simp only [visits, hinside]
  refine Tracks.leaf (v := (Walk.layout files).toStatement location stmt p)
    (w := Walk.emission.toStatement location stmt e) rfl rfl stage h rfl
    (Layout.laid_layOut h stage.laid) hq hlaid fun hroom => ⟨fun code hcode => ?_, hroom.2⟩
  rcases hsize code hcode with hsmall | hmem
  · exact Layout.moderate_of_le hsmall
  · exact hroom.1 _ hmem

mutual

/-- The emission of a statement follows its layout. -/
theorem tracks_statement {files : Files} {l : Context} :
    ∀ (stmt : Statement) {location : Location} {p q e : Logged Context},
      stmt.layOut files location p = .ok () q → Stage l p.state e.state →
      q.state.Follows location.Under l →
      (∀ m, location.Under m → p.state.contents.at? m = none) →
      Tracks l ((∀ n ∈ stmt.amounts files, n < Layout.moderate) ∧
          ∀ i, (q.state.bank i).reserved ≤ (l.bank i).reserved)
        (stmt.visits (.layout files) location p)
        (stmt.visits .emission location e) p.state q.state e
        (stmt.emit location e)
  | .block kind statements pos, location, p, q, e, h, stage, hq, hnew => by
    have hlaid := Layout.laid_layOut h stage.laid
    have hscopes := (Layout.follows_layOut h).scopes
    refine Tracks.node (v := (Walk.layout files).toStatement location _ p)
      (w := Walk.emission.toStatement location _ e) rfl rfl stage h rfl hlaid hq rfl ?_
    unfold layOut at h
    obtain ⟨scope, u, hscope, hwithin⟩ := Run.bind_eq_ok.1 h
    obtain ⟨hat, rfl⟩ := Pass.scopeOf_eq_ok.1 hscope
    obtain ⟨v, hv, rfl⟩ := Pass.within_eq_ok.1 hwithin
    have heat : e.state.scopes.at? location = some scope := by
      rw [stage.unmoved.scopes, hq.scopes, hscopes]
      exact hat
    have hemit : (block kind statements pos).emit location e =
        Pass.within scope (emitAll location 0 statements) e := by
      rw [emit, Run.bind_apply_of_ok (Pass.scopeOf_eq_ok.2 ⟨heat, rfl⟩)]
    simp only [visitsInside, hat, heat]
    rw [hemit]
    refine Tracks.within ?_
    refine tracks_statements statements hv (stage.enter scope) ?_ fun m i _ hm => hnew m hm.of_child
    exact ⟨fun m hm => ⟨(hq.same m hm).1, (hq.same m hm).2, (hq.same m hm).3⟩, hq.memo, hq.scopes,
      hq.labels, hq.settings, hq.bankCount, hq.origin⟩
  | .command c, location, p, q, e, h, stage, hq, _ => by
    have hlaid := Layout.laid_layOut h stage.laid
    refine Tracks.node (v := (Walk.layout files).toStatement location _ p)
      (w := Walk.emission.toStatement location _ e) rfl rfl stage h rfl hlaid hq rfl ?_
    simp only [visitsInside, emit]
    exact (Command.tracks h stage hq).weaken And.right
  | .relocation target pos, location, p, q, e, h, stage, hq, _ => by
    have hlaid := Layout.laid_layOut h stage.laid
    have hcount := (Layout.follows_layOut h).bankCount
    refine Tracks.node (v := (Walk.layout files).toStatement location _ p)
      (w := Walk.emission.toStatement location _ e) rfl rfl stage h rfl hlaid hq rfl ?_
    simp only [visitsInside, emit]
    exact (Relocation.tracks h stage hq hcount).weaken And.right
  | .data d, _, _, _, _, h, stage, hq, hnew =>
    tracks_leaf h stage hq (hnew _ (.refl _)) rfl fun _ _ => rfl
  | .branch b, _, _, _, _, h, stage, hq, hnew =>
    tracks_leaf h stage hq (hnew _ (.refl _)) rfl fun _ _ => rfl
  | .embed path pos, _, _, _, _, h, stage, hq, hnew =>
    tracks_leaf h stage hq (hnew _ (.refl _)) rfl fun _ _ => rfl
  | .header _, _, _, _, _, h, stage, hq, hnew =>
    tracks_leaf h stage hq (hnew _ (.refl _)) rfl fun _ _ => rfl
  | .label _, _, _, _, _, h, stage, hq, hnew =>
    tracks_leaf h stage hq (hnew _ (.refl _)) rfl fun _ _ => rfl
  | .constant _ _, _, _, _, _, h, stage, hq, hnew =>
    tracks_leaf h stage hq (hnew _ (.refl _)) rfl fun _ _ => rfl
  | .storage _, _, _, _, _, h, stage, hq, hnew =>
    tracks_leaf h stage hq (hnew _ (.refl _)) rfl fun _ _ => rfl

/-- The emission of the statements of a block follows their layout. -/
theorem tracks_statements {files : Files} {l : Context} :
    ∀ (statements : List Statement) {location : Location} {index : Nat} {p q e : Logged Context},
      layOutAll files location index statements p = .ok () q → Stage l p.state e.state →
      q.state.Follows location.Under l →
      (∀ m i, index ≤ i → (location.child i).Under m → p.state.contents.at? m = none) →
      Tracks l ((∀ n ∈ amountsAll files statements, n < Layout.moderate) ∧
          ∀ i, (q.state.bank i).reserved ≤ (l.bank i).reserved)
        (visitsAll (.layout files) location index statements p)
        (visitsAll .emission location index statements e) p.state q.state e
        (emitAll location index statements e)
  | [], _, _, p, q, e, h, stage, _, _ => by
    cases h
    exact .nil stage.aligned
  | stmt :: rest, location, index, p, q, e, h, stage, hq, hnew => by
    obtain ⟨_, u, hstmt, hrest⟩ := Run.bind_eq_ok.1 h
    have hv : ((Walk.layout files).toStatement (location.child index) stmt p).result = .ok () u :=
      hstmt
    have hlaid := Layout.laid_layOut hstmt stage.laid
    -- What is recorded of a statement stays when the statements after it are laid out.
    have hfollows : u.state.Follows (location.child index).Under l := by
      refine Context.Follows.trans ?_ (hq.mono fun m hm => hm.of_child)
      refine (Layout.follows_layOutAll hrest).mono fun m hm i hi hi' => ?_
      have hcontra := hm.child_unique hi'
      omega
    have hfresh : ∀ m i, index + 1 ≤ i → (location.child i).Under m →
        u.state.contents.at? m = none := by
      intro m i hi hm
      have hother : ¬ (location.child index).Under m := by
        intro hm'
        have hcontra := hm.child_unique hm'
        omega
      rw [((Layout.follows_layOut hstmt).same m hother).contents]
      exact hnew m i (Nat.le_of_succ_le hi) hm
    have first := tracks_statement stmt hstmt stage hfollows
      fun m hm => hnew m index (Nat.le_refl _) hm
    rw [visitsAll_cons, visitsAll_cons, hv]
    refine first.append ?_ fun t ht => ?_
    · rintro ⟨hamounts, hroom⟩
      refine ⟨fun n hn => hamounts n (List.mem_append_left _ hn), fun i => ?_⟩
      refine Nat.le_trans (Layout.reserved_le_layOutAll hrest hlaid (fun n hn => ?_) i) (hroom i)
      exact hamounts n (List.mem_append_right _ hn)
    · have hstage : Stage l u.state t.state :=
        ⟨hlaid, stage.final, stage.unmoved.trans (Emission.unmoved_emit ht), (first.finish t ht).1⟩
      refine (tracks_statements rest hrest hstage hq hfresh).weaken ?_
      rintro ⟨hamounts, hroom⟩
      exact ⟨fun n hn => hamounts n (List.mem_append_right _ hn), hroom⟩

end

end Statement

/-! ## Programs -/

theorem Context.Blank.laid {ctx : Context} (h : ctx.Blank) : ctx.Laid where
  active i hi := by
    rw [h.active] at hi
    cases hi
  bank i := by
    rw [h.bank]
    exact ⟨rfl, Nat.zero_le _, fun _ => rfl⟩

namespace Context

/-- The context after every bank was rewound. -/
def rewind (ctx : Context) : Context :=
  { ctx with rom := ctx.rom.map Rom.rewind }

/-- Rewinding moves every cursor to the start of its bank. -/
theorem bank_rewind (ctx : Context) (i : Nat) : ctx.rewind.bank i = (ctx.bank i).rewind := by
  cases hr : ctx.rom with
  | none => simp [rewind, bank, hr, Bank.rewind]
  | some rom => simp [rewind, bank, hr, Rom.bank_rewind]

theorem active?_rewind (ctx : Context) : ctx.rewind.active? = none := by
  cases hr : ctx.rom <;> simp [rewind, active?, hr, Rom.rewind]

theorem unmoved_rewind (ctx : Context) : ctx.Unmoved ctx.rewind := by
  refine ⟨⟨fun _ _ => ⟨rfl, rfl, rfl⟩, .refl _, rfl, rfl, Option.map_map _ _ _, ?_,
    fun i origin h => ?_⟩, rfl, rfl, fun i => ?_, fun i => ?_⟩
  · cases hr : ctx.rom <;> simp [rewind, bankCount, hr, Rom.rewind]
  · rw [bank_rewind]
    exact h
  · rw [bank_rewind]
    rfl
  · rw [bank_rewind]
    rfl

end Context

namespace Program

variable {program : Program} {files : Files} {config : Config} {g l : Logged Context}

/-- After the gathering there is a rom, in which nothing is placed. -/
theorem blank_of_gather (h : program.gather (start config) = .ok () g) :
    g.state.Blank ∧ g.state.rom.isSome = true := by
  obtain ⟨_, u, hu, hnote⟩ := Run.bind_eq_ok.1 h
  have hsome := Gathering.isSome_gather hu
  have hblank := Gathering.blank_gather hu ⟨rfl, fun _ => rfl, fun _ => rfl, nofun⟩
  cases hnote
  exact ⟨⟨hblank.active, hblank.bank, hblank.contents, hblank.size⟩, hsome⟩

/-- Rewinding finishes if there is a rom. -/
theorem rewind_of_isSome {s : Logged Context} (h : s.state.rom.isSome = true) :
    program.rewind s = .ok () { s with state := s.state.rewind } := by
  obtain ⟨rom, hrom⟩ := Option.isSome_iff_exists.1 h
  refine Pass.onRom_eq_ok.2 ⟨rom, _, hrom, rfl, ?_⟩
  rw [Context.rewind, hrom]
  rfl

/-- After the layout the emission starts where the layout did. -/
theorem stage_of_layOut (hg : program.gather (start config) = .ok () g)
    (hl : program.layOut files g = .ok () l) :
    ∃ q, program.block.layOut files .top g = .ok () q ∧ l = { q with state := q.state.noteBanks } ∧
      program.rewind l = .ok () { l with state := l.state.rewind } ∧
      Stage l.state g.state l.state.rewind ∧ q.state.Follows Location.top.Under l.state := by
  obtain ⟨hblank, hsome⟩ := blank_of_gather hg
  obtain ⟨_, q, hq, hnote⟩ := Run.bind_eq_ok.1 hl
  cases hnote
  have hlaid := Layout.laid_layOut hq hblank.laid
  have hrom : q.state.rom.isSome = true := by
    rw [← Option.isSome_map (f := Rom.settings), (Layout.follows_layOut hq).settings,
      Option.isSome_map, hsome]
  refine ⟨q, hq, rfl, rewind_of_isSome hrom, ⟨hblank.laid, ⟨hlaid.active, hlaid.bank⟩,
    Context.unmoved_rewind _, ?_, fun i => ?_⟩, ?_⟩
  · rw [Context.active?_rewind, hblank.active]
  · rw [Context.bank_rewind, hblank.bank]
    rfl
  · exact .of_rom (fun _ _ => ⟨rfl, rfl, rfl⟩) (.refl _) rfl rfl rfl

/-- The emission of a program follows its layout. -/
theorem tracks (hg : program.gather (start config) = .ok () g)
    (hl : program.layOut files g = .ok () l) :
    Tracks l.state (∀ n ∈ program.block.amounts files, n < Layout.moderate)
      (program.block.visits (.layout files) .top g)
      (program.block.visits .emission .top { l with state := l.state.rewind }) g.state l.state
      { l with state := l.state.rewind } (program.emit { l with state := l.state.rewind }) := by
  obtain ⟨q, hq, hnotes, -, stage, hfollows⟩ := stage_of_layOut hg hl
  obtain ⟨hblank, -⟩ := blank_of_gather hg
  have h := Statement.tracks_statement (e := { l with state := l.state.rewind }) program.block hq
    stage hfollows fun m _ => hblank.contents m
  subst hnotes
  refine ⟨h.visits, fun t ht => ?_, fun hamounts => h.quiet ⟨hamounts, fun _ => Nat.le_refl _⟩⟩
  obtain ⟨haligned, hgrow, hlength⟩ := h.finish t ht
  exact ⟨⟨haligned.active, haligned.cursor⟩, hgrow, hlength⟩

/-- If the gathering and the layout of a program finish, then every place of the program has been
visited, and up to its end or to where it is abandoned the emission visits the same places in the
same order, each with the same bank active and with every cursor in the same place as when the
layout came there, and advances every cursor by what was reserved. If no data statement and no file
is so large that amounts wrap around, then nothing is reported about placement. -/
theorem emission_follows_layout (program : Program) (files : Files) (config : Config)
    {g l : Logged Context} (hg : program.gather (start config) = .ok () g)
    (hl : program.layOut files g = .ok () l) :
    (program.block.visits (.layout files) .top g).map Visit.place = program.block.places .top ∧
    ∃ e, program.rewind l = .ok () e ∧
      (∃ done, done <+: program.block.visits (.layout files) .top g ∧
        List.Forall₂ (Visit.Agrees l.state) done (program.block.visits .emission .top e)) ∧
      (∀ t, program.emit e = .ok () t →
        (program.block.visits .emission .top e).map Visit.place = program.block.places .top) ∧
      ((∀ n ∈ program.block.amounts files, n < Layout.moderate) →
        (Run.Frame.quiet Context).Ends e (program.emit e)) := by
  obtain ⟨q, hq, -, hrewind, -, -⟩ := stage_of_layOut hg hl
  have hplaces := Statement.places_visits (Walk.lawful_layout files) program.block .top hq
  have h := tracks hg hl
  refine ⟨hplaces, _, hrewind, ?_, fun t ht => ?_, h.quiet⟩
  · obtain ⟨done, hdone, hpairs⟩ := h.visits
    exact ⟨done, hdone, hpairs.imp fun v w hvw => hvw.agrees⟩
  · rw [ht] at h
    rw [← hplaces]
    exact (Visit.map_place_eq h.forall₂_of_ok).symm

/-- A small program with a package, a move of the program counter, references in both directions,
and an embedded file. -/
def sample : Program where
  statements :=
    [.constant { text := "base" } (.number 0x8000 {}),
      .header
        { settings :=
            [⟨{ text := "mapper" }, .number 0 {}⟩, ⟨{ text := "prg" }, .number 1 {}⟩,
              ⟨{ text := "chr" }, .number 1 {}⟩] },
      .relocation (.rom (some (.number 1 {})) (some (.reference [{ text := "base" }] {}))) {},
      .block (.package { text := "main" })
        [.label { text := "loop" },
          .command
            { receiver := { mode := .builtin .a }
              commands :=
                [{ kind := .get
                   argument := some
                    { mode := .direct, expr := some (.reference [{ text := "table" }] {}) } },
                  { kind := .add
                    argument := some { mode := .immediate, expr := some (.number 1 {}) } }] },
          .embed "logo.bin" {},
          .branch
            { kind := .goto
              destination := some
                { mode := .label, expr := some (.reference [{ text := "loop" }] {}) } }] {},
      .relocation (.rom none (some (.number 0x8010 {}))) {},
      .label { text := "table" },
      .data
        { width := .word
          items := [.value (.reference [{ text := "main" }, { text := "loop" }] {}),
            .string "ok" {}] }]

/-- The passes over the sample agree although its file is missing, which is reported. -/
theorem emission_follows_layout_sample :
    ∃ g l e, sample.gather (start {}) = .ok () g ∧
      sample.layOut (fun _ => .error .notFound) g = .ok () l ∧ sample.rewind l = .ok () e ∧
      (∃ done, done <+: sample.block.visits (.layout fun _ => .error .notFound) .top g ∧
        List.Forall₂ (Visit.Agrees l.state) done (sample.block.visits .emission .top e)) ∧
      (Run.Frame.quiet Context).Ends e (sample.emit e) := by
  have hrun : Run.finishes (fun _ => true)
      ((do sample.gather; sample.layOut fun _ => .error .notFound) (start {})) = true := by
    decide +kernel
  obtain ⟨_, l, hrun, -⟩ := Run.exists_of_finishes hrun
  obtain ⟨_, g, hg, hl⟩ := Run.bind_eq_ok.1 hrun
  obtain ⟨-, e, he, hvisits, -, hquiet⟩ := emission_follows_layout sample _ {} hg hl
  exact ⟨g, l, e, hg, hl, he, hvisits, hquiet (by decide)⟩

end Program

end Cartridge
