import Cartridge.Proofs.Declarations

/-!
# What a header describes

A header that is accepted names settings that there are, each one at most once, with values in their
ranges, and all those that are required. The settings of the rom are these values; a setting that is
absent is zero.

Main definitions:

- `Header.Describes`: a header describes settings, given the values of its expressions.

Main results:

- Theorem `Gathering.resolve_of_ok`: a header that is accepted describes the settings of the rom.
-/

namespace Cartridge

/-- Every setting fits into a byte. -/
theorem SettingRule.le_of_admits {name : String} {rule : SettingRule} {v : UInt16}
    (h : ofName? name = some rule) (hv : rule.admits v = true) : v.toNat ≤ 255 := by
  have hmax : ∀ rule ∈ all, rule.max.toNat ≤ 255 := by decide
  have hle : v ≤ rule.max := of_decide_eq_true (Bool.and_eq_true_iff.1 hv).2
  exact Nat.le_trans (UInt16.le_iff_toNat_le.1 hle) (hmax rule (List.mem_of_find?_eq_some h))

namespace Header

/-- The value of the setting with the given name, from the values of the settings by their indices.
It is zero if the header does not have this setting. -/
def setting (header : Header) (value? : Nat → Option UInt16) (name : String) : UInt16 :=
  ((header.settings.findIdx? fun s => name == s.name.text).bind value?).getD 0

/-- A header describes the settings of a rom, given the values of its settings by their indices. -/
structure Describes (header : Header) (value? : Nat → Option UInt16) (settings : Settings) :
    Prop where
  admitted : ∀ i s, header.settings[i]? = some s → ∃ rule v,
    SettingRule.ofName? s.name.text = some rule ∧ value? i = some v ∧ rule.admits v = true
  nodup : (header.settings.map fun s => s.name.text).Nodup
  required : ∀ rule ∈ SettingRule.all, rule.required = true →
    rule.name ∈ header.settings.map fun s => s.name.text
  mapper : settings.mapper.toNat = (header.setting value? "mapper").toNat
  prg : settings.prg.toNat = (header.setting value? "prg").toNat
  chr : settings.chr.toNat = (header.setting value? "chr").toNat
  mirroring : settings.mirroring = (header.setting value? "mirroring" != 0)
  battery : settings.battery = (header.setting value? "battery" != 0)
  fourscreen : settings.fourscreen = (header.setting value? "fourscreen" != 0)

variable {header : Header} {value? : Nat → Option UInt16}

/-- If every setting is in its range then its value fits into a byte. -/
theorem setting_le (h : ∀ i s, header.settings[i]? = some s → ∃ rule v,
      SettingRule.ofName? s.name.text = some rule ∧ value? i = some v ∧ rule.admits v = true)
    (name : String) : (header.setting value? name).toNat ≤ 255 := by
  unfold setting
  cases hi : header.settings.findIdx? fun s => name == s.name.text with
  | none => exact Nat.zero_le _
  | some i =>
    obtain ⟨hlt, -⟩ := List.findIdx?_eq_some_iff_getElem.1 hi
    obtain ⟨rule, v, hrule, hv, hadmits⟩ := h i _ (List.getElem?_eq_getElem hlt)
    rw [Option.bind_some, hv]
    exact SettingRule.le_of_admits hrule hadmits

/-- A header describes the same settings when its expressions have the same values. -/
theorem Describes.agree {settings : Settings} (h : header.Describes value? settings)
    {more? : Nat → Option UInt16}
    (hmore : ∀ i v, i < header.settings.length → value? i = some v → more? i = some v) :
    header.Describes more? settings := by
  have hsame : ∀ name, header.setting more? name = header.setting value? name := by
    intro name
    unfold setting
    cases hi : header.settings.findIdx? fun s => name == s.name.text with
    | none => rfl
    | some i =>
      obtain ⟨hlt, -⟩ := List.findIdx?_eq_some_iff_getElem.1 hi
      obtain ⟨rule, v, -, hv, -⟩ := h.admitted i _ (List.getElem?_eq_getElem hlt)
      simp only [Option.bind_some, hv, hmore i v hlt hv]
  refine ⟨fun i s hs => ?_, h.nodup, h.required, ?_, ?_, ?_, ?_, ?_, ?_⟩
  · obtain ⟨rule, v, hrule, hv, hadmits⟩ := h.admitted i s hs
    exact ⟨rule, v, hrule, hmore i v (List.getElem?_eq_some_iff.1 hs).1 hv, hadmits⟩
  · rw [hsame, h.mapper]
  · rw [hsame, h.prg]
  · rw [hsame, h.chr]
  · rw [hsame, h.mirroring]
  · rw [hsame, h.battery]
  · rw [hsame, h.fourscreen]

/-- A header describes the same settings when more values are known. -/
theorem Describes.mono {settings : Settings} (h : header.Describes value? settings)
    {more? : Nat → Option UInt16} (hmore : ∀ i v, value? i = some v → more? i = some v) :
    header.Describes more? settings :=
  h.agree fun i v _ => hmore i v

/-- The names of settings with their values, from the one with the given index on. -/
def entries (value? : Nat → Option UInt16) : Nat → List Setting → List (String × Option UInt16)
  | _, [] => []
  | index, s :: rest => (s.name.text, value? index) :: entries value? (index + 1) rest

theorem map_fst_entries (index : Nat) (settings : List Setting) :
    (entries value? index settings).map Prod.fst = settings.map fun s => s.name.text := by
  induction settings generalizing index with
  | nil => rfl
  | cons s rest ih => simp only [entries, List.map_cons, ih]

theorem lookup_entries (name : String) (index : Nat) (settings : List Setting) :
    (entries value? index settings).lookup name =
      (settings.findIdx? fun s => name == s.name.text).map fun i => value? (index + i) := by
  induction settings generalizing index with
  | nil => rfl
  | cons s rest ih =>
    simp only [entries, List.lookup_cons, List.findIdx?_cons, ih]
    cases name == s.name.text with
    | true => rfl
    | false =>
      simp only [Bool.false_eq_true, ↓reduceIte, Option.map_map]
      refine congrArg (Option.map · _) (funext fun i => ?_)
      simp only [Function.comp, Nat.add_assoc, Nat.add_comm 1 i]

end Header

namespace Tally

/-- A tally after settings were read, with which nothing was wrong. -/
structure Reads (value? : Nat → Option UInt16) (index : Nat) (settings : List Setting)
    (before after : Tally) : Prop where
  valid : before.valid = true
  values : after.values = before.values ++ Header.entries value? index settings
  admitted : ∀ k s, settings[k]? = some s → ∃ rule v,
    SettingRule.ofName? s.name.text = some rule ∧ value? (index + k) = some v ∧
      rule.admits v = true
  nodup : (before.values.map Prod.fst).Nodup → (after.values.map Prod.fst).Nodup

variable {tally : Tally} {name : String}

theorem mentions_iff : tally.mentions name = true ↔ name ∈ tally.values.map Prod.fst := by
  simp [mentions]

/-- A setting that has not appeared yet may be entered. -/
theorem nodup_enter (h : tally.mentions name = false) (value : Option UInt16) (valid : Bool)
    (hnodup : (tally.values.map Prod.fst).Nodup) :
    ((tally.enter name value valid).values.map Prod.fst).Nodup := by
  have hnot : name ∉ tally.values.map Prod.fst := by
    rw [← mentions_iff, h]
    exact Bool.false_ne_true
  simp only [enter, List.map_append, List.map_cons, List.map_nil]
  refine List.nodup_append.2 ⟨hnodup, List.nodup_cons.2 ⟨List.not_mem_nil, List.nodup_nil⟩, ?_⟩
  intro a ha b hb hab
  rw [hab, List.mem_singleton.1 hb] at ha
  exact hnot ha

/-- The value of a setting, once all the settings of a header were read. -/
theorem value_of_entries {header : Header} {value? : Nat → Option UInt16}
    (h : tally.values = Header.entries value? 0 header.settings) (name : String) :
    tally.value name = header.setting value? name := by
  unfold value Header.setting
  rw [h, Header.lookup_entries]
  cases header.settings.findIdx? fun s => name == s.name.text with
  | none => rfl
  | some i => simp only [Option.map_some, Option.join_some, Option.bind_some, Nat.zero_add]

/-- The settings of a header were read. If the required ones are among them then they are what the
header describes. -/
theorem Reads.describes {header : Header} {value? : Nat → Option UInt16}
    (h : Reads value? 0 header.settings {} tally)
    (hrequired : ∀ rule ∈ SettingRule.all, rule.required = true →
      tally.mentions rule.name = true) : header.Describes value? tally.settings := by
  have hvalues : tally.values = Header.entries value? 0 header.settings := h.values
  have hnames : tally.values.map Prod.fst = header.settings.map fun s => s.name.text := by
    rw [hvalues, Header.map_fst_entries]
  have hadmitted : ∀ i s, header.settings[i]? = some s → ∃ rule v,
      SettingRule.ofName? s.name.text = some rule ∧ value? i = some v ∧
        rule.admits v = true := by
    intro i s hs
    have hi := h.admitted i s hs
    rw [Nat.zero_add] at hi
    exact hi
  have hbyte : ∀ name, (tally.value name).toUInt8.toNat = (header.setting value? name).toNat := by
    intro name
    rw [value_of_entries hvalues name, UInt16.toNat_toUInt8]
    exact Nat.mod_eq_of_lt (Nat.lt_succ_of_le (Header.setting_le hadmitted name))
  have hflag : ∀ name, (tally.value name != 0) = (header.setting value? name != 0) := by
    intro name
    rw [value_of_entries hvalues name]
  exact
    { admitted := hadmitted
      nodup := hnames ▸ h.nodup List.nodup_nil
      required := fun rule hrule hreq => hnames ▸ mentions_iff.1 (hrequired rule hrule hreq)
      mapper := hbyte _
      prg := hbyte _
      chr := hbyte _
      mirroring := hflag _
      battery := hflag _
      fourscreen := hflag _ }

end Tally

namespace Gathering

/-- A setting with which nothing is wrong has a value in its range. -/
theorem readSetting_of_ok {location : Location} {setting : Setting} {tally tally' : Tally}
    {s t : Logged Context} (h : Header.readSetting location setting tally s = .ok tally' t)
    (hvalid : tally'.valid = true) :
    ∃ rule v, SettingRule.ofName? setting.name.text = some rule ∧
      tally.mentions setting.name.text = false ∧ rule.admits v = true ∧
      t.state.memo.value? (.tree location) = some v ∧ tally.valid = true ∧
      tally' = tally.enter setting.name.text (some v) true := by
  unfold Header.readSetting at h
  cases hr : SettingRule.ofName? setting.name.text with
  | none =>
    simp only [hr] at h
    obtain ⟨_, u, -, hret⟩ := Run.bind_eq_ok.1 h
    cases hret
    cases hvalid
  | some rule =>
    simp only [hr] at h
    split at h
    · obtain ⟨_, u, -, hret⟩ := Run.bind_eq_ok.1 h
      cases hret
      cases hvalid
    · rename_i hfresh
      obtain ⟨v, u, hfold, hnext⟩ := Run.bind_eq_ok.1 h
      obtain ⟨-, -, -, hv, -⟩ := Pass.fold_of_ok hfold
      cases v with
      | none =>
        cases hnext
        simp [Tally.enter] at hvalid
      | some value =>
        dsimp only at hnext
        split at hnext
        · rename_i hadmits
          cases hnext
          exact ⟨rule, value, rfl, Bool.eq_false_iff.2 hfresh, hadmits, hv.symm,
            by simpa [Tally.enter] using hvalid, rfl⟩
        · obtain ⟨_, w, -, hret⟩ := Run.bind_eq_ok.1 hnext
          cases hret
          simp [Tally.enter] at hvalid

theorem readSettings_of_ok {location : Location} {settings : List Setting} {index : Nat}
    {tally tally' : Tally} {s t : Logged Context}
    (h : Header.readSettings location index settings tally s = .ok tally' t)
    (hvalid : tally'.valid = true) :
    tally.Reads (fun i => t.state.memo.value? (.tree (location.child i))) index settings
      tally' := by
  induction settings generalizing index tally s with
  | nil =>
    cases h
    exact ⟨hvalid, (List.append_nil _).symm, fun _ _ hk => (nomatch hk), fun hnodup => hnodup⟩
  | cons setting rest ih =>
    unfold Header.readSettings at h
    obtain ⟨next, u, hu, hrest⟩ := Run.bind_eq_ok.1 h
    have hreads := ih hrest
    obtain ⟨rule, v, hrule, hfresh, hadmits, hv, htally, rfl⟩ := readSetting_of_ok hu hreads.valid
    have hmemo := (((allows_extending fun _ => True).holds_settings rest (index + 1) _
      fun _ _ _ => trivial).rel_of_ok hrest).1.memo
    have hv' := hmemo.value? hv
    refine ⟨htally, ?_, fun k other hk => ?_, fun hnodup => hreads.nodup ?_⟩
    · rw [hreads.values, Tally.enter, Header.entries, hv', List.append_assoc]
      rfl
    · cases k with
      | zero =>
        cases hk
        exact ⟨rule, v, hrule, hv', hadmits⟩
      | succ k =>
        obtain ⟨other', w, hother, hw, hadmits'⟩ := hreads.admitted k other hk
        rw [Nat.add_right_comm index 1 k] at hw
        exact ⟨other', w, hother, hw, hadmits'⟩
    · exact Tally.nodup_enter hfresh _ _ hnodup

/-- If nothing is missing then every required setting has appeared. -/
theorem reportMissing_of_ok {pos : Position} {rules : List SettingRule} {tally tally' : Tally}
    {s t : Logged Context} (h : Header.reportMissing pos rules tally s = .ok tally' t)
    (hvalid : tally'.valid = true) :
    tally' = tally ∧ ∀ rule ∈ rules, rule.required = true → tally.mentions rule.name = true := by
  induction rules generalizing tally s with
  | nil =>
    cases h
    exact ⟨rfl, fun _ hrule => absurd hrule List.not_mem_nil⟩
  | cons rule rest ih =>
    unfold Header.reportMissing at h
    split at h
    · obtain ⟨_, u, -, hrest⟩ := Run.bind_eq_ok.1 h
      rw [(ih hrest).1] at hvalid
      cases hvalid
    · rename_i hpresent
      obtain ⟨htally, hall⟩ := ih h
      refine ⟨htally, fun other hother hrequired => ?_⟩
      rcases List.mem_cons.1 hother with rfl | hother
      · simpa [hrequired] using hpresent
      · exact hall other hother hrequired

/-- A header that is accepted describes the settings of the rom. -/
theorem resolve_of_ok {location : Location} {header : Header} {s t : Logged Context}
    {settings : Settings} (h : header.resolve location s = .ok settings t) :
    header.Describes (fun i => t.state.memo.value? (.tree (location.child i))) settings := by
  unfold Header.resolve at h
  obtain ⟨tally, u, hu, hnext⟩ := Run.bind_eq_ok.1 h
  obtain ⟨tally', w, hw, hret⟩ := Run.bind_eq_ok.1 hnext
  cases hvalid : tally'.valid with
  | false =>
    simp only [hvalid] at hret
    cases hret
  | true =>
    simp only [hvalid] at hret
    cases hret
    obtain ⟨rfl, hmissing⟩ := reportMissing_of_ok hw hvalid
    have hmemo := (((allows_extending fun _ => True).holds_missing header.pos SettingRule.all
      tally').rel_of_ok hw).1.memo
    have hdescribes := (readSettings_of_ok hu hvalid).describes hmissing
    exact hdescribes.mono fun i v hv => hmemo.value? hv

end Gathering

end Cartridge
