import Cartridge.Proofs.Headers
import Cartridge.Proofs.Remembered

/-!
# Which headers are accepted

A header is accepted exactly if it names settings that there are, each one once, with values in
their ranges, and all those that are required. If it is refused then everything that is wrong with
it was reported before: each name that is not known, each name that was there before, each first
value that is out of its range, and each required setting that is absent.

Main definitions:

- `Header.Evaluates`: the values of the settings of a header.
- `Header.Acceptable`: nothing is wrong with a header.
- `Header.complaints`: what is wrong with a header, entry by entry.

Main results:

- Theorem `Header.exists_evaluates`: every header can be evaluated.
- Theorem `Header.Progress.delivers_readSetting`: what one setting adds to what was read before.
- Theorem `Header.delivers_review`: what is found out about a header.
- Theorem `Header.accepted_iff`: which headers are accepted, what they describe, and what is
  reported about the others.
-/

namespace Cartridge

/-! ## Runs that may be cut short -/

namespace Run

variable {σ α β : Type}

/-- A run finishes with a property, unless it is cut short. -/
def Delivers (P : α → Logged σ → Prop) : EStateM.Result Abort (Logged σ) α → Prop
  | .ok a t => P a t
  | .error _ t => t.log.isCutShort = true

theorem Delivers.imp {P Q : α → Logged σ → Prop} {r : EStateM.Result Abort (Logged σ) α}
    (h : Delivers P r) (hPQ : ∀ a t, P a t → Q a t) : Delivers Q r := by
  cases r with
  | ok a t => exact hPQ a t h
  | error x t => exact h

/-- A run delivers what its second part does from whatever the first part delivers. -/
theorem Delivers.bind {P : α → Logged σ → Prop} {Q : β → Logged σ → Prop} {act : Run σ α}
    {next : α → Run σ β} {s : Logged σ} (h : Delivers P (act s))
    (hnext : ∀ a t, P a t → Delivers Q (next a t)) : Delivers Q ((act >>= next) s) := by
  cases hact : act s with
  | ok a t =>
    rw [hact] at h
    rw [bind_apply_of_ok hact]
    exact hnext a t h
  | error x t =>
    rw [hact] at h
    rw [bind_apply_of_error hact]
    exact h

/-- An error that is reported is in the log, unless the limit cuts the run short. -/
theorem delivers_error (e : Error) (pos : Position) (s : Logged σ) :
    Delivers (fun _ t => t = { s with log := s.log.soft e pos }) (error e pos s) := by
  rcases Nat.lt_or_ge (s.log.count + 1) s.log.limit with hroom | hfull
  · rw [error_of_room hroom]
    exact rfl
  · rw [error_of_full hfull]
    exact Log.isCutShort_giveUp _

end Run

/-! ## Entries besides those of folds -/

/-- A log gains the given entries, and besides them only what folds report. -/
def Log.Adds (entries : List Diagnostic) (a b : Log) : Prop :=
  ∃ added, b.entries = a.entries ++ added ∧ added.filter (fun d => !d.error.ofFolding) = entries

namespace Log.Adds

variable {a b c : Log} {entries entries' : List Diagnostic}

theorem refl (a : Log) : a.Adds [] a :=
  ⟨[], (List.append_nil _).symm, rfl⟩

theorem trans (h : a.Adds entries b) (h' : b.Adds entries' c) :
    a.Adds (entries ++ entries') c := by
  obtain ⟨added, hb, rfl⟩ := h
  obtain ⟨added', hc, rfl⟩ := h'
  refine ⟨added ++ added', ?_, List.filter_append _ _⟩
  rw [hc, hb, List.append_assoc]

/-- A report that is not one of a fold adds its entry. -/
theorem soft (a : Log) {e : Error} (he : e.ofFolding = false) (pos : Position) :
    a.Adds [{ fatal := false, pos := some pos, error := e }] (a.soft e pos) := by
  refine ⟨[_], rfl, List.filter_cons_of_pos ?_⟩
  rw [he]
  rfl

/-- What a fold reports is not counted among the entries. -/
theorem of_gains (h : a.Gains (fun d => d.error.ofFolding = true) b) : a.Adds [] b := by
  obtain ⟨-, added, hb, hadded⟩ := h
  refine ⟨added, hb, List.filter_eq_nil_iff.2 fun d hd => ?_⟩
  rw [hadded d hd]
  exact Bool.false_ne_true

end Log.Adds

/-! ## Folds of settings -/

/-- What the fold of an expression of the tree leaves behind, given what was remembered first. -/
structure Pass.Settled (symbols : SymbolTable) (tree : Location → ScopeId → Expr → Prop)
    (first : Memo) (location : Location) (e : Expr) (s : Logged Context) (value? : Option UInt16)
    (t : Logged Context) : Prop where
  state : t.state = { s.state with memo := t.state.memo }
  exact : symbols.Exact tree first t.state.memo
  value : ∀ v, value? = some v ↔
    symbols.Settles first { anchor := .tree location } symbols.current e v
  log : s.log.Adds [] t.log
  silent : value?.isSome = true → t.log = s.log

/-- A fold of an expression of the tree delivers the value that the table and the memo settle. -/
theorem Pass.delivers_fold {demand : Demand} {symbols : SymbolTable}
    {tree : Location → ScopeId → Expr → Prop} {first : Memo} {location : Location} {e : Expr}
    {s : Logged Context} (hsymbols : s.state.symbols = symbols)
    (hunique : SymbolTable.SingleRooted tree) (hroot : tree location symbols.current e)
    (hs : symbols.Exact tree first s.state.memo) :
    Run.Delivers (Pass.Settled symbols tree first location e s)
      (Pass.fold demand location e s) := by
  subst hsymbols
  obtain ⟨events, hfolds⟩ := s.state.symbols.folds_fold demand s.state.symbols.current
    (.tree location) e { state := s.state.memo, log := s.log }
  cases hfold : s.state.symbols.fold demand s.state.symbols.current (.tree location) e
      { state := s.state.memo, log := s.log } with
  | ok folded u =>
    rw [hfold] at hfolds
    have hok := Pass.foldAt_eq_ok.2 ⟨folded, u, hfold, rfl, rfl⟩
    obtain ⟨hexact, hvalue⟩ := hfolds.exact hunique (.tree hroot) hs
    unfold fold
    rw [hok]
    refine ⟨rfl, hexact, fun v => ?_, .of_gains (SymbolTable.gains_fold hfold), fun hsome => ?_⟩
    · rw [← hvalue]
      cases folded <;> simp [Folded.value?]
    · refine hfolds.silent ?_
      rintro rfl
      cases hsome
  | error x u =>
    rw [hfold] at hfolds
    have herror : Pass.foldAt demand (.tree location) e s =
        .error x { state := { s.state with memo := u.state }, log := u.log } := by
      unfold foldAt
      rw [Run.read_bind_apply]
      refine Run.bind_apply_of_error ?_
      unfold Run.focus
      rw [hfold]
    unfold fold
    rw [herror]
    exact hfolds.isCutShort

/-! ## What is wrong with a header -/

namespace Header

/-- The names of the settings of a header. -/
def names (header : Header) : List String :=
  header.settings.map fun s => s.name.text

/-- The values of the settings of a header by their indices, in a context where some results are
remembered. An expression that cannot be folded to a number has none. -/
def Evaluates (header : Header) (location : Location) (ctx : Context)
    (value? : Nat → Option UInt16) : Prop :=
  ∀ i setting, header.settings[i]? = some setting → ∀ v, value? i = some v ↔
    ctx.symbols.Settles ctx.memo { anchor := .tree (location.child i) } ctx.symbols.current
      setting.value v

/-- Every header can be evaluated in every context, since a setting has at most one value. -/
theorem exists_evaluates (header : Header) (location : Location) (ctx : Context) :
    ∃ value?, header.Evaluates location ctx value? := by
  have hone (i : Nat) : ∃ value : Option UInt16, ∀ setting, header.settings[i]? = some setting →
      ∀ v, value = some v ↔ ctx.symbols.Settles ctx.memo { anchor := .tree (location.child i) }
        ctx.symbols.current setting.value v := by
    cases header.settings[i]? with
    | none =>
      refine ⟨none, fun _ h => ?_⟩
      cases h
    | some setting =>
      by_cases hsome : ∃ v, ctx.symbols.Settles ctx.memo { anchor := .tree (location.child i) }
          ctx.symbols.current setting.value v
      · obtain ⟨v, hv⟩ := hsome
        refine ⟨some v, ?_⟩
        rintro _ ⟨⟩ w
        refine ⟨?_, fun hw => congrArg some (hv.unique hw)⟩
        rintro ⟨⟩
        exact hv
      · refine ⟨none, ?_⟩
        rintro _ ⟨⟩ w
        refine ⟨fun h => ?_, fun hw => absurd ⟨w, hw⟩ hsome⟩
        cases h
  exact Classical.skolem.1 hone

/-- Nothing is wrong with a header, given the values of its settings by their indices. -/
structure Acceptable (header : Header) (value? : Nat → Option UInt16) : Prop where
  admitted : ∀ i s, header.settings[i]? = some s → ∃ rule v,
    SettingRule.ofName? s.name.text = some rule ∧ value? i = some v ∧ rule.admits v = true
  nodup : header.names.Nodup
  required : ∀ rule ∈ SettingRule.all, rule.required = true → rule.name ∈ header.names

end Header

/-- What is to be reported about a setting, given the names of those before it and its value.
Nothing is to be added about a value that cannot be folded. -/
def Setting.complaint? (setting : Setting) (earlier : List String) (value? : Option UInt16) :
    Option Diagnostic :=
  match SettingRule.ofName? setting.name.text with
  | none => some
    { fatal := false
      pos := some setting.name.pos
      error := .unknownSetting setting.name.text }
  | some rule =>
    if setting.name.text ∈ earlier then some
      { fatal := false
        pos := some setting.name.pos
        error := .duplicateSetting setting.name.text }
    else value?.bind fun v =>
      if rule.admits v then none else some
        { fatal := false
          pos := some setting.value.pos
          error := .settingRange setting.name.text v rule.min rule.max }

namespace Header

/-- What is to be reported about the setting with the given index. -/
def complaint? (header : Header) (value? : Nat → Option UInt16) (i : Nat) : Option Diagnostic :=
  header.settings[i]?.bind fun s => s.complaint? (header.names.take i) (value? i)

/-- The required settings that do not have one of the given names. -/
def missing (names : List String) (rules : List SettingRule) : List SettingRule :=
  rules.filter fun rule => rule.required && decide (rule.name ∉ names)

/-- What is to be reported about a setting that is missing. -/
def omission (header : Header) (rule : SettingRule) : Diagnostic where
  fatal := false
  pos := some header.pos
  error := .missingSetting rule.name

/-- What is to be reported about a header: first about its settings, then about those that are
missing. -/
def complaints (header : Header) (value? : Nat → Option UInt16) : List Diagnostic :=
  (List.range header.settings.length).filterMap (header.complaint? value?) ++
    (missing header.names SettingRule.all).map header.omission

/-- Nothing is wrong with the setting with the given index. -/
def Fits (header : Header) (value? : Nat → Option UInt16) (i : Nat) : Prop :=
  ∃ s rule v, header.settings[i]? = some s ∧ SettingRule.ofName? s.name.text = some rule ∧
    s.name.text ∉ header.names.take i ∧ value? i = some v ∧ rule.admits v = true

variable {header : Header} {value? : Nat → Option UInt16} {i : Nat} {setting : Setting}

theorem length_names : header.names.length = header.settings.length :=
  List.length_map _

/-- The name of a setting stands at the setting's index. -/
theorem getElem?_names (h : header.settings[i]? = some setting) :
    header.names[i]? = some setting.name.text := by
  unfold names
  rw [List.getElem?_map, h]
  rfl

/-- A setting fits if its name is known and was not used before, and its value is known and in
range. -/
theorem fits_iff (h : header.settings[i]? = some setting) :
    header.Fits value? i ↔ ∃ rule v, SettingRule.ofName? setting.name.text = some rule ∧
      setting.name.text ∉ header.names.take i ∧ value? i = some v ∧ rule.admits v = true := by
  constructor
  · rintro ⟨s, rule, v, hs, hfits⟩
    cases h.symm.trans hs
    exact ⟨rule, v, hfits⟩
  · rintro ⟨rule, v, hfits⟩
    exact ⟨setting, rule, v, h, hfits⟩

/-- No name occurs twice exactly if none occurs among those before it. -/
theorem nodup_names_iff :
    header.names.Nodup ↔ ∀ i s, header.settings[i]? = some s →
      s.name.text ∉ header.names.take i := by
  unfold List.Nodup
  rw [List.pairwise_iff_getElem]
  constructor
  · intro h i s hs hmem
    obtain ⟨hi, hname⟩ := List.getElem?_eq_some_iff.1 (getElem?_names hs)
    obtain ⟨j, hj, heq⟩ := List.mem_take_iff_getElem.1 hmem
    exact h j i _ hi (by omega) (heq.trans hname.symm)
  · intro h i j hi hj hij heq
    have hs := List.getElem?_eq_getElem (length_names ▸ hj)
    have hname := getElem?_names hs
    rw [List.getElem?_eq_getElem hj, ← heq] at hname
    refine h j _ hs ?_
    rw [← Option.some.inj hname]
    exact List.mem_take_iff_getElem.2 ⟨i, by omega, rfl⟩

/-- Nothing is missing if every required setting has been named. -/
theorem missing_eq_nil {names : List String} {rules : List SettingRule} :
    missing names rules = [] ↔ ∀ rule ∈ rules, rule.required = true → rule.name ∈ names := by
  unfold missing
  rw [List.filter_eq_nil_iff]
  refine forall₂_congr fun rule _ => ?_
  cases rule.required <;> simp

/-- Nothing is wrong with a header exactly if nothing is wrong with its settings, and none is
missing. -/
theorem acceptable_iff :
    header.Acceptable value? ↔
      (∀ i < header.settings.length, header.Fits value? i) ∧
        missing header.names SettingRule.all = [] := by
  rw [missing_eq_nil]
  constructor
  · intro h
    refine ⟨fun i hi => ?_, h.required⟩
    have hs := List.getElem?_eq_getElem hi
    obtain ⟨rule, v, hrule, hv, hadmits⟩ := h.admitted i _ hs
    exact ⟨_, rule, v, hs, hrule, nodup_names_iff.1 h.nodup i _ hs, hv, hadmits⟩
  · rintro ⟨hfits, hrequired⟩
    have hall : ∀ i s, header.settings[i]? = some s → ∃ rule v,
        SettingRule.ofName? s.name.text = some rule ∧ s.name.text ∉ header.names.take i ∧
          value? i = some v ∧ rule.admits v = true :=
      fun i s hs => (fits_iff hs).1 (hfits i (List.getElem?_eq_some_iff.1 hs).1)
    refine ⟨fun i s hs => ?_, nodup_names_iff.2 fun i s hs => ?_, hrequired⟩
    · obtain ⟨rule, v, hrule, -, hv, hadmits⟩ := hall i s hs
      exact ⟨rule, v, hrule, hv, hadmits⟩
    · obtain ⟨rule, v, -, hnew, -⟩ := hall i s hs
      exact hnew

/-! ## Reading a header -/

/-- The expressions of a header, where they hang in the tree. -/
def expressions (header : Header) (location : Location) (current : ScopeId) (m : Location)
    (scope : ScopeId) (e : Expr) : Prop :=
  ∃ i s, header.settings[i]? = some s ∧ m = location.child i ∧ scope = current ∧ e = s.value

/-- The settings stand at different children, so one expression hangs from each location. -/
theorem singleRooted_expressions (header : Header) (location : Location) (current : ScopeId) :
    SymbolTable.SingleRooted (header.expressions location current) := by
  rintro m scope scope' e e' ⟨i, s, hs, rfl, rfl, rfl⟩ ⟨j, s', hs', heq, rfl, rfl⟩
  obtain ⟨rfl, -⟩ := Location.child_inj.1 heq
  cases hs.symm.trans hs'
  exact ⟨rfl, rfl⟩

/-- What has become of a header once its settings up to an index were read. -/
structure Progress (header : Header) (value? : Nat → Option UInt16) (location : Location)
    (start : Logged Context) (index : Nat) (tally : Tally) (s : Logged Context) : Prop where
  state : s.state = { start.state with memo := s.state.memo }
  exact : start.state.symbols.Exact (header.expressions location start.state.symbols.current)
    start.state.memo s.state.memo
  mentions : ∀ name, (SettingRule.ofName? name).isSome = true →
    (tally.mentions name = true ↔ name ∈ header.names.take index)
  valid : tally.valid = true ↔ ∀ i < index, header.Fits value? i
  silent : tally.valid = true → s.log = start.log
  log : start.log.Adds ((List.range index).filterMap (header.complaint? value?)) s.log

namespace Progress

variable {location : Location} {start s t : Logged Context} {index : Nat} {tally tally' : Tally}

/-- Before the first setting nothing has been read and nothing reported. -/
theorem initial (header : Header) (value? : Nat → Option UInt16) (location : Location)
    (s : Logged Context) : Progress header value? location s 0 {} s where
  state := rfl
  exact := .refl _ _ _
  mentions _ _ := ⟨fun h => Bool.noConfusion h, fun h => absurd h List.not_mem_nil⟩
  valid := ⟨fun _ _ hi => absurd hi (Nat.not_lt_zero _), fun _ => rfl⟩
  silent _ := rfl
  log := .refl _

/-- One more setting was read. -/
theorem advance (h : Progress header value? location start index tally s)
    (hsetting : header.settings[index]? = some setting)
    (hstate : t.state = { s.state with memo := t.state.memo })
    (hexact : start.state.symbols.Exact
      (header.expressions location start.state.symbols.current) start.state.memo t.state.memo)
    (hmentions : ∀ name, (SettingRule.ofName? name).isSome = true →
      (tally'.mentions name = true ↔ tally.mentions name = true ∨ name = setting.name.text))
    (hvalid : tally'.valid = true ↔ tally.valid = true ∧ header.Fits value? index)
    (hsilent : tally'.valid = true → t.log = s.log)
    (hlog : s.log.Adds (setting.complaint? (header.names.take index) (value? index)).toList
      t.log) : Progress header value? location start (index + 1) tally' t where
  state := by
    rw [hstate, h.state]
  exact := hexact
  mentions name hname := by
    rw [hmentions name hname, h.mentions name hname, List.take_add_one, getElem?_names hsetting,
      List.mem_append]
    simp
  valid := by
    rw [hvalid, h.valid, Nat.forall_lt_succ_right]
  silent hv := (hsilent hv).trans (h.silent (hvalid.1 hv).1)
  log := by
    have hcomplaint : header.complaint? value? index =
        setting.complaint? (header.names.take index) (value? index) := by
      unfold complaint?
      rw [hsetting]
      rfl
    rw [List.range_succ, List.filterMap_append]
    refine h.log.trans ?_
    rw [List.filterMap_cons, hcomplaint]
    cases hc : setting.complaint? (header.names.take index) (value? index) with
    | none =>
      rw [hc] at hlog
      exact hlog
    | some d =>
      rw [hc] at hlog
      exact hlog

/-- A setting with which something is wrong was reported. -/
theorem delivers_spoiled (h : Progress header value? location start index tally s)
    (hsetting : header.settings[index]? = some setting) {e : Error} {pos : Position}
    (he : e.ofFolding = false)
    (hcomplaint : setting.complaint? (header.names.take index) (value? index) =
      some { fatal := false, pos := some pos, error := e })
    (hfits : ¬ header.Fits value? index)
    (hmentions : (SettingRule.ofName? setting.name.text).isSome = true →
      tally.mentions setting.name.text = true) :
    Run.Delivers (Progress header value? location start (index + 1))
      ((do Run.error e pos; return tally.spoiled : Pass Tally) s) := by
  refine (Run.delivers_error e pos s).bind ?_
  rintro _ _ rfl
  refine h.advance hsetting rfl h.exact (fun name hname => ?_) ?_ (fun hv => ?_) ?_
  · refine ⟨.inl, fun hor => hor.elim id ?_⟩
    rintro rfl
    exact hmentions hname
  · exact ⟨fun hv => Bool.noConfusion hv, fun hv => absurd hv.2 hfits⟩
  · cases hv
  · rw [hcomplaint]
    exact .soft _ he pos

/-- A setting was entered. -/
theorem entered (h : Progress header value? location start index tally s)
    (hsetting : header.settings[index]? = some setting)
    (hstate : t.state = { s.state with memo := t.state.memo })
    (hexact : start.state.symbols.Exact
      (header.expressions location start.state.symbols.current) start.state.memo t.state.memo)
    {value : Option UInt16} {valid : Bool} (hvalid : valid = true ↔ header.Fits value? index)
    (hsilent : valid = true → t.log = s.log)
    (hlog : s.log.Adds (setting.complaint? (header.names.take index) (value? index)).toList
      t.log) :
    Progress header value? location start (index + 1)
      (tally.enter setting.name.text value valid) t := by
  have hboth : (tally.enter setting.name.text value valid).valid = true ↔
      tally.valid = true ∧ valid = true := Bool.and_eq_true_iff
  refine h.advance hsetting hstate hexact (fun name _ => ?_) ?_ (fun hv => ?_) hlog
  · simp [Tally.mentions_iff, Tally.enter]
  · rw [hboth, hvalid]
  · exact hsilent (hboth.1 hv).2

/-- Reading a setting makes progress. -/
theorem delivers_readSetting (hvalue : header.Evaluates location start.state value?)
    (h : Progress header value? location start index tally s)
    (hsetting : header.settings[index]? = some setting) :
    Run.Delivers (Progress header value? location start (index + 1))
      (readSetting (location.child index) setting tally s) := by
  have hfits : header.Fits value? index ↔ _ := fits_iff hsetting
  unfold readSetting
  cases hrule : SettingRule.ofName? setting.name.text with
  | none =>
    refine h.delivers_spoiled hsetting rfl ?_ ?_ fun hknown => ?_
    · simp only [Setting.complaint?, hrule]
    · simp [hfits, hrule]
    · rw [hrule] at hknown
      cases hknown
  | some rule =>
    have hmentions := h.mentions setting.name.text (hrule ▸ rfl)
    simp only
    split
    · rename_i hearlier
      have hmem := hmentions.1 hearlier
      refine h.delivers_spoiled hsetting rfl ?_ ?_ fun _ => hearlier
      · simp only [Setting.complaint?, hrule, if_pos hmem]
      · simp [hfits, hmem]
    · rename_i hnew
      rw [hmentions] at hnew
      have hsymbols : s.state.symbols = start.state.symbols := by rw [h.state]
      refine (Pass.delivers_fold hsymbols (header.singleRooted_expressions _ _)
        ⟨index, setting, hsetting, rfl, rfl, rfl⟩ h.exact).bind fun found t ht => ?_
      -- The fold finds the value that the setting is said to have.
      have hfound : value? index = found :=
        Option.ext fun v => (hvalue index setting hsetting v).trans (ht.value v).symm
      cases found with
      | none =>
        refine h.entered hsetting ht.state ht.exact ?_ (fun hv => absurd hv Bool.false_ne_true) ?_
        · simp [hfits, hfound]
        · simpa [Setting.complaint?, hrule, hnew, hfound] using ht.log
      | some v =>
        have hquiet := ht.silent rfl
        simp only
        split
        · rename_i hadmits
          refine h.entered hsetting ht.state ht.exact ?_ (fun _ => hquiet) ?_
          · simp [hfits, hfound, hrule, hnew, hadmits]
          · simpa [Setting.complaint?, hrule, hnew, hfound, hadmits] using ht.log
        · rename_i hrange
          refine (Run.delivers_error _ _ t).bind ?_
          rintro _ _ rfl
          refine h.entered hsetting ?_ ?_ ?_ (fun hv => absurd hv Bool.false_ne_true) ?_
          · exact ht.state
          · exact ht.exact
          · simp [hfits, hfound, hrule, hrange]
          · simp only [Setting.complaint?, hrule, if_neg hnew, hfound, Option.bind_some,
              if_neg hrange]
            rw [← hquiet]
            exact .soft _ rfl _

/-- Reading settings makes progress. -/
theorem delivers_readSettings (hvalue : header.Evaluates location start.state value?)
    {rest : List Setting} (h : Progress header value? location start index tally s)
    (hrest : header.settings.drop index = rest) :
    Run.Delivers (Progress header value? location start (index + rest.length))
      (readSettings location index rest tally s) := by
  induction rest generalizing index tally s with
  | nil => exact h
  | cons setting rest ih =>
    have hsetting : header.settings[index]? = some setting := by
      rw [← List.head?_drop, hrest, List.head?_cons]
    have htail : header.settings.drop (index + 1) = rest := by
      rw [← List.tail_drop, hrest, List.tail_cons]
    unfold readSettings
    refine (h.delivers_readSetting hvalue hsetting).bind fun next t ht => ?_
    rw [List.length_cons, Nat.add_comm rest.length, ← Nat.add_assoc]
    exact ih ht htail

end Progress

/-- Every required setting that is missing is reported. -/
theorem delivers_reportMissing (header : Header) (rules : List SettingRule) (tally : Tally)
    (s : Logged Context) :
    let absent := missing (tally.values.map Prod.fst) rules
    Run.Delivers
      (fun tally' t => t.state = s.state ∧
        (tally'.valid = true ↔ tally.valid = true ∧ absent = []) ∧
        (tally'.valid = true → t.log = s.log) ∧ s.log.Adds (absent.map header.omission) t.log)
      (reportMissing header.pos rules tally s) := by
  induction rules generalizing tally s with
  | nil => exact ⟨rfl, by simp [missing], fun _ => rfl, .refl _⟩
  | cons rule rest ih =>
    have htest : (rule.required && !tally.mentions rule.name) =
        (rule.required && decide (rule.name ∉ tally.values.map Prod.fst)) := by
      rw [decide_not, ← Bool.decide_coe (tally.mentions rule.name)]
      simp only [Tally.mentions_iff]
    unfold reportMissing missing
    rw [htest, List.filter_cons]
    split
    · refine (Run.delivers_error _ _ s).bind ?_
      rintro _ _ rfl
      refine (ih tally.spoiled _).imp fun tally' t ht => ?_
      obtain ⟨hstate, hvalid, -, hlog⟩ := ht
      have hinvalid : ¬ tally'.valid = true := fun hv => Bool.noConfusion (hvalid.1 hv).1
      refine ⟨hstate, ?_, fun hv => absurd hv hinvalid, (Log.Adds.soft s.log rfl _).trans hlog⟩
      exact ⟨fun hv => absurd hv hinvalid, fun hv => absurd hv.2 (List.cons_ne_nil _ _)⟩
    · exact ih tally s

/-! ## Accepting a header -/

/-- The settings that are missing from a header that was read. -/
theorem Progress.missing_eq {location : Location} {start s : Logged Context} {tally : Tally}
    (h : Progress header value? location start header.settings.length tally s) :
    missing (tally.values.map Prod.fst) SettingRule.all = missing header.names SettingRule.all := by
  have hknown : ∀ rule ∈ SettingRule.all, (SettingRule.ofName? rule.name).isSome = true := by
    decide
  have hall : header.names.take header.settings.length = header.names :=
    List.take_of_length_le (Nat.le_of_eq length_names)
  refine List.filter_congr fun rule hrule => ?_
  have hmentions := h.mentions rule.name (hknown rule hrule)
  rw [Tally.mentions_iff, hall] at hmentions
  simp only [hmentions]

/-- What a header describes with the values that are remembered once it was read, it describes with
the values of its settings. -/
theorem Evaluates.describes {location : Location} {ctx : Context} {memo : Memo}
    (hvalue : header.Evaluates location ctx value?)
    (hexact : ctx.symbols.Exact (header.expressions location ctx.symbols.current) ctx.memo memo)
    {settings : Settings}
    (h : header.Describes (fun i => memo.value? (.tree (location.child i))) settings) :
    header.Describes value? settings := by
  refine h.agree fun i v hi hv => ?_
  have hsetting := List.getElem?_eq_getElem hi
  have hresult := Memo.value?_eq_some.1 hv
  have hknown : memo.result { anchor := .tree (location.child i) } ≠ .pending := by
    rw [hresult]
    exact Folded.noConfusion
  rw [hvalue i _ hsetting]
  exact (hexact.value_iff (.tree ⟨i, _, hsetting, rfl, rfl, rfl⟩) hknown v).1 hresult

/-- Reads a header and looks for what is missing. -/
def review (location : Location) (header : Header) : Pass Tally := do
  let tally ← readSettings location 0 header.settings {}
  reportMissing header.pos SettingRule.all tally

/-- A header is resolved by a review, after which an invalid tally is fatal. -/
theorem resolve_eq (location : Location) (header : Header) :
    header.resolve location = header.review location >>= fun tally =>
      if tally.valid then pure tally.settings else Run.fatal .invalidHeader header.pos := by
  unfold resolve review
  rw [bind_assoc]

/-- Everything that is wrong with a header is reported, and nothing if it is acceptable. -/
theorem delivers_review {location : Location} {s : Logged Context}
    (hvalue : header.Evaluates location s.state value?) :
    Run.Delivers
      (fun tally t => (tally.valid = true ↔ header.Acceptable value?) ∧
        s.state.symbols.Exact (header.expressions location s.state.symbols.current) s.state.memo
          t.state.memo ∧
        (tally.valid = true → t.log = s.log) ∧ s.log.Adds (header.complaints value?) t.log)
      (header.review location s) := by
  have hread := (Progress.initial header value? location s).delivers_readSettings hvalue
    List.drop_zero
  rw [Nat.zero_add] at hread
  refine hread.bind fun tally u hu => ?_
  refine (delivers_reportMissing header SettingRule.all tally u).imp fun tally' t ht => ?_
  rw [hu.missing_eq] at ht
  obtain ⟨hstate, hvalid, hsilent, hlog⟩ := ht
  refine ⟨?_, ?_, fun hv => ?_, hu.log.trans hlog⟩
  · rw [hvalid, hu.valid, acceptable_iff]
  · rw [hstate]
    exact hu.exact
  · rw [hsilent hv, hu.silent (hvalid.1 hv).1]

/-- How the resolution of a header ends, unless it is cut short. -/
def Resolved (header : Header) (value? : Nat → Option UInt16) (start : Logged Context) :
    EStateM.Result Abort (Logged Context) Settings → Prop
  | .ok settings t => header.Acceptable value? ∧ header.Describes value? settings ∧
    t.log = start.log
  | .error _ t => t.log.isCutShort = true ∨ ¬ header.Acceptable value? ∧ ∃ added,
    t.log.entries = start.log.entries ++ added ++
      [{ fatal := true, pos := some header.pos, error := .invalidHeader }] ∧
    added.filter (fun d => !d.error.ofFolding) = header.complaints value?

/-- The resolution of a header reports its complaints, and gives settings if there are none. -/
theorem resolved_resolve {location : Location} {s : Logged Context}
    (hvalue : header.Evaluates location s.state value?) :
    header.Resolved value? s (header.resolve location s) := by
  have hreview := delivers_review hvalue
  cases hr : header.review location s with
  | error x t =>
    rw [hr] at hreview
    rw [resolve_eq, Run.bind_apply_of_error hr]
    exact .inl hreview
  | ok tally t =>
    rw [hr] at hreview
    obtain ⟨hvalid, hexact, hsilent, hlog⟩ := hreview
    cases hv : tally.valid with
    | true =>
      have hok : header.resolve location s = .ok tally.settings t := by
        rw [resolve_eq, Run.bind_apply_of_ok hr, hv]
        rfl
      rw [hok]
      exact ⟨hvalid.1 hv, hvalue.describes hexact (Gathering.resolve_of_ok hok), hsilent hv⟩
    | false =>
      have hrefused : header.resolve location s =
          .error .abort { t with log := t.log.fatal .invalidHeader header.pos } := by
        rw [resolve_eq, Run.bind_apply_of_ok hr, hv]
        rfl
      obtain ⟨added, hadded, hfilter⟩ := hlog
      rw [hrefused]
      refine .inr ⟨fun hacceptable => ?_, added, ?_, hfilter⟩
      · exact Bool.false_ne_true (hv.symm.trans (hvalid.2 hacceptable))
      · show t.log.entries ++ _ = _
        rw [hadded]

/-- A header is accepted exactly if nothing is wrong with it, unless the resolution is cut short. It
then describes the settings of the rom, and nothing is reported. A header that is refused ends the
compilation, after everything that is wrong with it was reported; besides there are only the reports
of the folds. -/
theorem accepted_iff {location : Location} {s : Logged Context}
    (hvalue : header.Evaluates location s.state value?)
    (hrun : ∀ x t, header.resolve location s = .error x t → t.log.isCutShort = false) :
    ((∃ settings t, header.resolve location s = .ok settings t) ↔ header.Acceptable value?) ∧
      (∀ settings t, header.resolve location s = .ok settings t →
        header.Describes value? settings ∧ t.log = s.log) ∧
      ∀ x t, header.resolve location s = .error x t → ∃ added,
        t.log.entries = s.log.entries ++ added ++
          [{ fatal := true, pos := some header.pos, error := .invalidHeader }] ∧
        added.filter (fun d => !d.error.ofFolding) = header.complaints value? := by
  have hresolved := resolved_resolve hvalue
  cases hr : header.resolve location s with
  | ok settings t =>
    rw [hr] at hresolved
    obtain ⟨hacceptable, hdescribes, hlog⟩ := hresolved
    refine ⟨⟨fun _ => hacceptable, fun _ => ⟨settings, t, rfl⟩⟩, ?_, fun x u hu => ?_⟩
    · rintro settings' t' heq
      cases heq
      exact ⟨hdescribes, hlog⟩
    · cases hu
  | error x t =>
    rw [hr] at hresolved
    have hcut : ¬ t.log.isCutShort = true := by
      rw [hrun x t hr]
      exact Bool.false_ne_true
    obtain ⟨hrefused, hadded⟩ := hresolved.resolve_left hcut
    refine ⟨⟨?_, fun h => absurd h hrefused⟩, fun settings u hu => ?_, ?_⟩
    · rintro ⟨settings, u, hu⟩
      cases hu
    · cases hu
    · rintro x' t' heq
      cases heq
      exact hadded

/-- A context in which there is one constant. -/
def sized : Context where
  symbols := SymbolTable.empty.define
    { name := "size", meaning := .constant (.number 300 {}) SymbolTable.root,
      owner := SymbolTable.root }

/-- A header with a constant that is out of range, a name that is not known, a name that occurs
twice and a value that cannot be folded. A required setting is missing. -/
def flawed : Header where
  settings :=
    [{ name := { text := "mapper" }, value := .number 4 {} },
      { name := { text := "prg" }, value := .reference [{ text := "size" }] { line := 2 } },
      { name := { text := "speed", pos := { line := 3 } }, value := .number 1 {} },
      { name := { text := "mapper", pos := { line := 4 } }, value := .number 2 {} },
      { name := { text := "battery" }, value := .reference [{ text := "charge" }] { line := 5 } }]
  pos := { line := 1 }

/-- The values of its settings. -/
def flawedValue? (i : Nat) : Option UInt16 :=
  ([some 4, some 300, some 1, some 2, none] : List (Option UInt16))[i]?.join

/-- These are the values of the flawed header; what is not declared has none. -/
theorem evaluates_flawed : flawed.Evaluates .top sized flawedValue? := by
  have hnumber : ∀ site n v, some n = some v ↔
      sized.symbols.Settles .empty site SymbolTable.root (.number n {}) v := by
    intro site n v
    have hfinding : sized.symbols.finding .early SymbolTable.root (.number n {}) =
        .own (.result (.value n)) := rfl
    rw [SymbolTable.settles_iff_of_own rfl hfinding]
    simp [Verdict.folded]
  have hsize : sized.symbols.finding .early SymbolTable.root
      (.reference [{ text := "size" }] { line := 2 }) =
        .constant SymbolTable.empty.nextDef (.number 300 {}) SymbolTable.root :=
    rfl
  have hcharge : sized.symbols.finding .early SymbolTable.root
      (.reference [{ text := "charge" }] { line := 5 }) =
        .own (.wrong (.indeterminate "charge") { line := 5 }) :=
    rfl
  intro i setting hsetting v
  rcases i with _ | _ | _ | _ | _ | i <;> cases hsetting
  · exact hnumber _ 4 v
  · exact (hnumber _ 300 v).trans (SymbolTable.settles_iff_of_constant rfl hsize).symm
  · exact hnumber _ 1 v
  · exact hnumber _ 2 v
  · refine Iff.trans ?_ (SymbolTable.settles_iff_of_own rfl hcharge).symm
    constructor <;> intro h <;> cases h

/-- Everything that is wrong with the header is reported. -/
theorem accepted_iff_flawed :
    let start : Logged Context := { state := sized, log := .empty 20 }
    ¬ flawed.Acceptable flawedValue? ∧ ∃ x t added, flawed.resolve .top start = .error x t ∧
      t.log.entries = added ++
        [{ fatal := true, pos := some { line := 1 }, error := .invalidHeader }] ∧
      added.filter (fun d => !d.error.ofFolding) =
        [{ fatal := false, pos := some { line := 2 }, error := .settingRange "prg" 300 1 255 },
          { fatal := false, pos := some { line := 3 }, error := .unknownSetting "speed" },
          { fatal := false, pos := some { line := 4 }, error := .duplicateSetting "mapper" },
          { fatal := false, pos := some { line := 1 }, error := .missingSetting "chr" }] := by
  intro start
  have hstops : Run.stops (fun t => !t.log.isCutShort) (flawed.resolve .top start) = true := by
    decide +kernel
  obtain ⟨x, t, hresolve, hcut⟩ := Run.exists_of_stops hstops
  obtain ⟨hiff, -, hrefused⟩ := accepted_iff evaluates_flawed (s := start) fun x' t' h' => by
    cases hresolve.symm.trans h'
    simpa using hcut
  obtain ⟨added, hentries, hadded⟩ := hrefused x t hresolve
  refine ⟨fun h => ?_, x, t, added, hresolve, hentries, hadded.trans ?_⟩
  · obtain ⟨settings, u, hu⟩ := hiff.2 h
    cases hresolve.symm.trans hu
  · decide +kernel

end Header

end Cartridge
