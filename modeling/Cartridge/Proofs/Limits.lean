import Cartridge.Proofs.Lockstep

/-!
# The error limit

A compilation is given up once it has reported as many errors as the limit allows. Nothing else
depends on the limit: with a greater one the same things are reported first, and an image is the
same with every limit.

Main definitions:

- `Failure.Truncates`: a failure reports the first errors of another one.
- `Log.truncation`: the logs of two runs with different limits.

Main results:

- Theorem `Program.result_eq_ok_iff_of_limits`: an image does not depend on the limit.
- Theorem `Program.errorLimit_truncates`: a smaller limit only cuts off what is reported.
-/

namespace Cartridge

open Run

/-! ## Failures -/

/-- The entry that closes a log. -/
def Diagnostic.closing (count : Nat) : Diagnostic where
  fatal := true
  pos := none
  error := .tooManyErrors count

/-- Whether an entry closes a log. All the others have positions. -/
def Diagnostic.isClosing (d : Diagnostic) : Bool :=
  d.pos.isNone && match d.error with
    | .tooManyErrors _ => true
    | _ => false

namespace Failure

/-- Whether the last entry closes the log. -/
def isClosed (f : Failure) : Bool :=
  f.diagnostics.getLast?.any Diagnostic.isClosing

/-- What was reported, without the entry that closes the log. -/
def reports (f : Failure) : List Diagnostic :=
  if f.isClosed then f.diagnostics.dropLast else f.diagnostics

/-- The number of recoverable errors. -/
def softErrors (f : Failure) : Nat :=
  f.diagnostics.countP fun d => !d.fatal

/-- A failure reports the first errors of another one, as many as a limit allows. Its log is closed
exactly if its recoverable errors have reached the limit. -/
structure Truncates (limit : Nat) (f f' : Failure) : Prop where
  reports : f.reports = f'.reports.take (min limit f'.reports.length)
  isClosed : f.isClosed = true ↔ limit ≤ f.softErrors

variable {f f' : Failure} {limit : Nat} {first rest : List Diagnostic}

/-- A failure whose entries all have positions was not cut short. -/
theorem isClosed_of_located (h : ∀ d ∈ f.diagnostics, d.pos.isSome = true) :
    f.isClosed = false := by
  unfold isClosed
  cases hl : f.diagnostics.getLast? with
  | none => rfl
  | some d =>
    have hd : d.pos.isNone = false := Option.isNone_eq_false_iff.2 (h d (List.mem_of_getLast? hl))
    rw [Option.any_some]
    unfold Diagnostic.isClosing
    rw [hd, Bool.false_and]

/-- Where no entry closes the log, all of them are reports. -/
theorem reports_of_located (h : ∀ d ∈ f.diagnostics, d.pos.isSome = true) :
    f.reports = f.diagnostics := by
  unfold reports
  rw [isClosed_of_located h]
  rfl

/-- A failure that ends in a closing entry was cut short. -/
theorem isClosed_of_closing {count : Nat} (h : f.diagnostics = first ++ [.closing count]) :
    f.isClosed = true := by
  unfold isClosed
  rw [h, List.getLast?_concat]
  rfl

/-- The closing entry is not a report. -/
theorem reports_of_closing {count : Nat} (h : f.diagnostics = first ++ [.closing count]) :
    f.reports = first := by
  unfold reports
  rw [isClosed_of_closing h, if_pos rfl, h, List.dropLast_concat]

/-- A log that was closed at the limit reports the first errors of every log that starts alike. -/
theorem Truncates.of_closing {count : Nat} (h : f.diagnostics = first ++ [.closing count])
    (hsoft : ∀ d ∈ first, d.fatal = false) (hlimit : first.length = limit)
    (hreports : f'.reports = first ++ rest) : f.Truncates limit f' where
  reports := by
    have hmin : min limit (first ++ rest).length = first.length := by
      rw [List.length_append]
      omega
    rw [reports_of_closing h, hreports, hmin, List.take_left]
  isClosed := by
    have hcount : first.countP (fun d => !d.fatal) = first.length :=
      List.countP_eq_length.2 fun d hd => by rw [hsoft d hd]; rfl
    refine ⟨fun _ => ?_, fun _ => isClosed_of_closing h⟩
    unfold softErrors
    rw [h, List.countP_append, hcount, hlimit]
    exact Nat.le_add_right _ _

/-- A log that was not closed reports the same as an equal one. -/
theorem Truncates.of_located (h : ∀ d ∈ f.diagnostics, d.pos.isSome = true)
    (hsame : f'.diagnostics = f.diagnostics) (hlength : f.diagnostics.length ≤ limit)
    (hsoft : f.softErrors < limit) : f.Truncates limit f' where
  reports := by
    rw [reports_of_located h, reports_of_located (hsame ▸ h), hsame, Nat.min_eq_right hlength,
      List.take_length]
  isClosed := by
    rw [isClosed_of_located h]
    exact ⟨nofun, fun hle => absurd hsoft (Nat.not_lt.2 hle)⟩

end Failure

/-! ## Logs -/

namespace Log

/-- A log below its limit, of recoverable errors only. -/
structure Open (log : Log) : Prop where
  room : log.count < log.limit
  length : log.entries.length = log.count
  soft : ∀ d ∈ log.entries, d.fatal = false
  located : ∀ d ∈ log.entries, d.pos.isSome = true

/-- A log was closed at a limit, and another one that starts alike goes on. -/
def Outlived (limit : Nat) (a b : Log) : Prop :=
  ∃ first rest, a.entries = first ++ [.closing a.count] ∧ first.length = limit ∧
    (∀ d ∈ first, d.fatal = false) ∧ b.entries = first ++ rest ∧
    (∀ d ∈ b.entries, d.pos.isSome = true) ∧ 0 < b.count

variable {a b : Log} {limit : Nat}

theorem open_empty (errorLimit : Nat) : (empty errorLimit).Open :=
  ⟨Nat.le_max_right _ _, rfl, fun _ h => absurd h List.not_mem_nil,
    fun _ h => absurd h List.not_mem_nil⟩

theorem located_append (h : ∀ d ∈ a.entries, d.pos.isSome = true) (fatal : Bool) (e : Error)
    (pos : Position) :
    ∀ d ∈ a.entries ++ [{ fatal, pos := some pos, error := e }], d.pos.isSome = true := by
  intro d hd
  rcases List.mem_append.1 hd with hd | hd
  · exact h d hd
  · rw [List.mem_singleton.1 hd]
    rfl

/-- A log of recoverable errors stays one when another is reported. -/
theorem Open.soft_append (h : a.Open) (e : Error) (pos : Position) :
    ∀ d ∈ (a.soft e pos).entries, d.fatal = false := by
  intro d hd
  rcases List.mem_append.1 hd with hd | hd
  · exact h.soft d hd
  · rw [List.mem_singleton.1 hd]

/-- A log below its limit has one entry for each error. -/
theorem Open.length_append (h : a.Open) (fatal : Bool) (e : Error) (pos : Position) :
    (a.entries ++ [{ fatal, pos := some pos, error := e : Diagnostic }]).length = a.count + 1 := by
  rw [List.length_append, h.length]
  rfl

/-- The error that reaches the limit is the last entry, so there are as many as the limit says. -/
theorem Open.length_full (h : a.Open) (hfull : a.limit ≤ a.count + 1) (e : Error)
    (pos : Position) : (a.soft e pos).entries.length = a.limit :=
  (h.length_append false e pos).trans (Nat.le_antisymm h.room hfull)

/-- The log that goes on has positions in all its entries. -/
theorem Outlived.located (h : Outlived limit a b) : ∀ d ∈ b.entries, d.pos.isSome = true := by
  obtain ⟨_, _, _, _, _, _, hlocated, _⟩ := h
  exact hlocated

/-- The log that goes on has an error in it, the one at which the other was closed. -/
theorem Outlived.count_pos (h : Outlived limit a b) : 0 < b.count := by
  obtain ⟨_, _, _, _, _, _, _, hcount⟩ := h
  exact hcount

/-- The log that was closed reports the first errors of the one that goes on. -/
theorem Outlived.truncates (h : Outlived limit a b) {f : Failure} {more : List Diagnostic}
    (hreports : f.reports = b.entries ++ more) :
    (Program.ofRun.failure a).Truncates limit f := by
  obtain ⟨first, rest, ha, hlimit, hsoft, hb, -⟩ := h
  rw [hb, List.append_assoc] at hreports
  exact .of_closing ha hsoft hlimit hreports

/-- The logs of two runs with different limits. While both are below their limits they are the same
otherwise. -/
def truncation {limit limit' : Nat} (h : limit ≤ limit') : Coupling where
  rel a b := a.limit = limit ∧ b = { a with limit := limit' } ∧ a.Open
  abort a b := (Program.ofRun.failure a).Truncates limit (Program.ofRun.failure b)
  early := Outlived limit
  soft := by
    rintro a b _ _ e pos ⟨rfl, rfl⟩ ⟨rfl, rfl, ha⟩ hroom
    exact ⟨Nat.lt_of_lt_of_le hroom h, rfl, rfl, hroom, ha.length_append false e pos,
      ha.soft_append e pos, located_append ha.located _ _ _⟩
  full := by
    rintro a b _ _ e pos ⟨rfl, rfl⟩ ⟨rfl, rfl, ha⟩ hfull -
    have hreports : ∀ count, Failure.reports ⟨count, (a.soft e pos).entries ++ [.closing count]⟩ =
        (a.soft e pos).entries ++ [] :=
      fun _ => (Failure.reports_of_closing rfl).trans (List.append_nil _).symm
    exact .of_closing rfl (ha.soft_append e pos) (ha.length_full hfull e pos) (hreports _)
  leave := by
    rintro a b _ _ e pos ⟨rfl, rfl⟩ ⟨rfl, rfl, ha⟩ hfull -
    exact ⟨(a.soft e pos).entries, [], rfl, ha.length_full hfull e pos, ha.soft_append e pos,
      (List.append_nil _).symm, located_append ha.located _ _ _, Nat.succ_pos _⟩
  fatal := by
    rintro a b _ _ e pos ⟨rfl, rfl⟩ ⟨rfl, rfl, ha⟩
    have hsoft : a.entries.countP (fun d => !d.fatal) ≤ a.count := ha.length ▸ List.countP_le_length
    refine .of_located (located_append ha.located _ _ _) rfl ?_ ?_
    · exact Nat.le_trans (Nat.le_of_eq (ha.length_append true e pos)) ha.room
    · unfold Failure.softErrors Program.ofRun.failure Log.fatal
      rw [List.countP_append]
      exact Nat.lt_of_le_of_lt hsoft ha.room
  early_soft := by
    rintro a b e pos ⟨first, rest, ha, hlimit, hsoft, hb, hlocated, -⟩
    refine ⟨first, rest ++ [{ fatal := false, pos := some pos, error := e }], ha, hlimit, hsoft, ?_,
      located_append hlocated _ _ _, Nat.succ_pos _⟩
    unfold Log.soft
    rw [hb, List.append_assoc]
  early_full e pos h := h.truncates (Failure.reports_of_closing rfl)
  early_fatal e pos h :=
    h.truncates (Failure.reports_of_located (located_append h.located _ _ _))

end Log

/-! ## Programs -/

namespace Program

/-- A failure comes from a run that was abandoned, or that finished with errors. -/
theorem failure_of_result {r : EStateM.Result Abort (Logged Context) (List UInt8)} {f : Failure}
    (h : (ofRun r).result = .error f) :
    ∃ s, f = ofRun.failure s.log ∧ ((∃ image, r = .ok image s) ∨ ∃ x, r = .error x s) := by
  cases r with
  | error x s =>
    cases h
    exact ⟨s, rfl, .inr ⟨x, rfl⟩⟩
  | ok image s =>
    unfold ofRun at h
    dsimp only at h
    split at h
    · cases h
    · cases h
      exact ⟨s, rfl, .inl ⟨image, rfl⟩⟩

variable {limit limit' : Nat} {hle : limit ≤ limit'} {S : Context → Context → Prop}
  {r r' : EStateM.Result Abort (Logged Context) (List UInt8)}

/-- Runs whose logs differ by their limits make the same image. -/
theorem result_ofRun_of_meet (h : Meet (Log.truncation hle) S r r') (image : List UInt8) :
    (ofRun r).result = .ok image ↔ (ofRun r').result = .ok image := by
  rw [result_ofRun, result_ofRun]
  cases r with
  | ok bytes s =>
    cases r' with
    | error x t => exact h.elim
    | ok bytes' t =>
      obtain ⟨rfl, -, -, hlog, -⟩ := h
      have hclean : t.log.isClean = s.log.isClean := by
        rw [hlog]
        rfl
      constructor
      · rintro ⟨_, ⟨⟩, hs⟩
        exact ⟨t, rfl, hclean.trans hs⟩
      · rintro ⟨_, ⟨⟩, ht⟩
        exact ⟨s, rfl, hclean.symm.trans ht⟩
  | error x s =>
    cases r' with
    | error y t => exact ⟨nofun, nofun⟩
    | ok bytes t =>
      have houtlived : Log.Outlived limit s.log t.log := h
      refine ⟨nofun, ?_⟩
      rintro ⟨_, ⟨⟩, ht⟩
      exact absurd (beq_iff_eq.1 ht) (Nat.ne_of_gt houtlived.count_pos)

/-- Of two runs whose logs differ by their limits one reports the first errors of the other. -/
theorem truncates_ofRun_of_meet (h : Meet (Log.truncation hle) S r r') {f f' : Failure}
    (hf : (ofRun r).result = .error f) (hf' : (ofRun r').result = .error f') :
    f.Truncates limit f' := by
  obtain ⟨s, rfl, hs⟩ := failure_of_result hf
  obtain ⟨t, rfl, ht⟩ := failure_of_result hf'
  rcases hs with ⟨bytes, rfl⟩ | ⟨x, rfl⟩
  · rcases ht with ⟨bytes', rfl⟩ | ⟨y, rfl⟩
    · obtain ⟨-, -, rfl, hlog, ha⟩ := h
      rw [hlog]
      exact .of_located ha.located rfl (ha.length ▸ Nat.le_of_lt ha.room)
        (Nat.lt_of_le_of_lt (ha.length ▸ List.countP_le_length) ha.room)
    · exact h.elim
  · rcases ht with ⟨bytes', rfl⟩ | ⟨y, rfl⟩
    · have houtlived : Log.Outlived limit s.log t.log := h
      have hreports := Failure.reports_of_located (f := ofRun.failure t.log) houtlived.located
      exact houtlived.truncates (hreports.trans (List.append_nil _).symm)
    · exact h

/-- Compilations of one program differ by their limits. -/
theorem meet_of_limit_le (files : Files) (program : Program) {config config' : Config}
    (h : max config.errorLimit 1 ≤ max config'.errorLimit 1) :
    Meet (Log.truncation h) (Context.Alike .same) (program.passes files (start config))
      (program.passes files (start config')) :=
  meet_passes (.self program.block (Atlas.sends_same _)) rfl ⟨rfl, rfl, Log.open_empty _⟩

/-- An image does not depend on the limit. -/
theorem result_eq_ok_iff_of_limits (files : Files) (program : Program) (config config' : Config)
    (image : List UInt8) :
    (program.compile files config).result = .ok image ↔
      (program.compile files config').result = .ok image := by
  rcases Nat.le_total (max config.errorLimit 1) (max config'.errorLimit 1) with h | h
  · exact result_ofRun_of_meet (meet_of_limit_le files program h) image
  · exact (result_ofRun_of_meet (meet_of_limit_le files program h) image).symm

/-- A smaller limit only cuts off what is reported. There is an image with both limits, which is the
same, or with none of them. Then the errors that are reported with the smaller limit are the first
ones of those that are reported with the greater one, and the log is closed exactly if the
recoverable errors have reached the limit. A limit of zero acts as one. -/
theorem errorLimit_truncates (files : Files) (program : Program) (config config' : Config)
    (h : config.errorLimit ≤ config'.errorLimit) :
    (∀ image, (program.compile files config).result = .ok image ↔
        (program.compile files config').result = .ok image) ∧
      ∀ f f', (program.compile files config).result = .error f →
        (program.compile files config').result = .error f' →
        f.Truncates (max config.errorLimit 1) f' := by
  have hle : max config.errorLimit 1 ≤ max config'.errorLimit 1 := by
    omega
  refine ⟨result_eq_ok_iff_of_limits files program config config', fun f f' hf hf' => ?_⟩
  exact truncates_ofRun_of_meet (meet_of_limit_le files program hle) hf hf'

/-- A program that declares one constant three times and has no header. -/
def redefined : Program where
  statements :=
    [.constant { text := "x" } (.number 1 {}), .constant { text := "x" } (.number 2 {}),
      .constant { text := "x" } (.number 3 {})]

/-- With a limit of zero only the first of two redefinitions and a missing header is reported. -/
theorem errorLimit_truncates_redefined :
    let files : Files := fun _ => .error .notFound
    ∃ f f', (redefined.compile files { errorLimit := 0 }).result = .error f ∧
      (redefined.compile files { errorLimit := 5 }).result = .error f' ∧
      f.isClosed = true ∧ f.softErrors = 1 ∧ f'.isClosed = false ∧ f'.reports.length = 3 ∧
      f.Truncates 1 f' := by
  intro files
  have hzero : (redefined.compile files { errorLimit := 0 }).result = .error _ := rfl
  have hfive : (redefined.compile files { errorLimit := 5 }).result = .error _ := rfl
  refine ⟨_, _, hzero, hfive, rfl, rfl, rfl, rfl, ?_⟩
  exact (errorLimit_truncates files redefined { errorLimit := 0 } { errorLimit := 5 }
    (Nat.zero_le 5)).2 _ _ hzero hfive

end Program

end Cartridge
