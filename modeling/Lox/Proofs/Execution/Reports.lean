import Lox.Proofs.Execution.Outcomes

/-!
# What a report says at each stage

The stage at which a source ends decides what its report holds: every stage has codes of its own, a failure
is never reported without an error, and an error of a running program comes last. A source that fails
before its program runs leaves nothing behind.
-/

namespace Lox

/-! ### Codes -/

/-- The first digit of an error code, which tells the stage. -/
def errorGroup? (code : String) : Option Char :=
  match code.toList with
  | ['E', group, tens, ones] => if tens.isDigit && ones.isDigit then some group else none
  | _ => none

theorem LexError.errorGroup?_code (e : LexError) : errorGroup? e.code = some '0' := by
  cases e <;> simp [errorGroup?, code]

theorem SyntaxError.errorGroup?_code (e : SyntaxError) : errorGroup? e.code = some '1' := by
  cases e <;> simp [errorGroup?, code]

theorem RuntimeError.errorGroup?_code (e : RuntimeError) : errorGroup? e.code = some '4' := by
  cases e <;> simp [errorGroup?, code]

namespace Diagnostic

/-- An error with a code of the group. -/
structure IsErrorOf (group : Char) (d : Diagnostic) : Prop where
  severity : d.severity = .error
  code : errorGroup? d.code = some group

/-- The warning about a global name that nothing declares. -/
structure IsNameWarning (d : Diagnostic) : Prop where
  severity : d.severity = .warning
  code : d.code = "W301"

variable {d : Diagnostic} {group : Char}

theorem severity_withSource (source : String) : (d.withSource source).severity = d.severity := by
  unfold withSource
  split <;> rfl

theorem IsErrorOf.withSource (h : d.IsErrorOf group) (source : String) :
    (d.withSource source).IsErrorOf group where
  severity := (severity_withSource source).trans h.severity
  code := by rw [code_withSource, h.code]

theorem IsNameWarning.withSource (h : d.IsNameWarning) (source : String) :
    (d.withSource source).IsNameWarning where
  severity := (severity_withSource source).trans h.severity
  code := by rw [code_withSource, h.code]

theorem IsNameWarning.severity_ne (h : d.IsNameWarning) : d.severity ≠ .error := by
  rw [h.severity]
  decide

theorem IsNameWarning.isError (h : d.IsNameWarning) : d.isError = false := by
  rw [Diagnostic.isError, h.severity]
  rfl

theorem IsErrorOf.isError (h : d.IsErrorOf group) : d.isError = true := by
  rw [Diagnostic.isError, h.severity]
  rfl

end Diagnostic

/-! ### What the stages find -/

theorem LexError.isErrorOf_diagnostic (e : LexError) (span : Span) (source : String) :
    (e.diagnostic span source).IsErrorOf '0' := ⟨rfl, e.errorGroup?_code⟩

theorem SyntaxFault.isErrorOf_diagnostic (f : SyntaxFault) (source : Option String) :
    (f.diagnostic source).IsErrorOf '1' := ⟨rfl, f.error.errorGroup?_code⟩

theorem RuntimeError.isErrorOf_diagnostic (e : RuntimeError) (span : Span) :
    (e.diagnostic span).IsErrorOf '4' := ⟨rfl, e.errorGroup?_code⟩

theorem Finding.isErrorOf_or_isNameWarning (f : Finding) :
    f.diagnostic.IsErrorOf '3' ∨ f.diagnostic.IsNameWarning := by
  obtain ⟨issue, span⟩ := f
  cases issue with
  | undefinedGlobal name => exact Or.inr ⟨rfl, rfl⟩
  | _ => exact Or.inl ⟨rfl, by simp [errorGroup?, diagnostic, ScopeIssue.code]⟩

namespace Resolution

variable {config : Config} {r : Resolution}

theorem isErrorOf_or_isNameWarning {d : Diagnostic} (hd : d ∈ r.diagnostics config) :
    d.IsErrorOf '3' ∨ d.IsNameWarning := by
  obtain ⟨f, -, rfl⟩ := List.mem_map.mp hd
  exact f.isErrorOf_or_isNameWarning

theorem isNameWarning_of_mem_diagnostics (h : r.hasErrors = false) {d : Diagnostic}
    (hd : d ∈ r.diagnostics config) : d.IsNameWarning := by
  refine (isErrorOf_or_isNameWarning hd).resolve_left fun herror => ?_
  have hno := isError_of_mem_diagnostics h hd
  rw [herror.isError] at hno
  cases hno

/-- The limit on errors is positive, so the first error is reported under every limit. -/
theorem exists_error_of_hasErrors (h : r.hasErrors = true) :
    ∃ d ∈ r.diagnostics config, d.IsErrorOf '3' := by
  obtain ⟨f, hf, hferror⟩ := List.any_eq_true.mp h
  have hne : r.findings.filter Finding.isError ≠ [] :=
    List.ne_nil_of_mem (List.mem_filter.mpr ⟨hf, hferror⟩)
  obtain ⟨g, gs, hg⟩ := List.exists_cons_of_ne_nil hne
  obtain ⟨n, hn⟩ := Nat.exists_eq_succ_of_ne_zero (Nat.ne_of_gt config.maxErrors.property)
  have hmem : g ∈ (r.reported config).filter Finding.isError := by
    rw [reported, Finding.filter_isError_limitErrors, hg, hn, List.take_succ_cons]
    exact List.mem_cons_self
  obtain ⟨hreported, hgerror⟩ := List.mem_filter.mp hmem
  refine ⟨g.diagnostic, List.mem_map_of_mem hreported, ?_⟩
  refine g.isErrorOf_or_isNameWarning.resolve_right fun hwarning => ?_
  have hno := hwarning.isError
  rw [Finding.isError_diagnostic, hgerror] at hno
  cases hno

end Resolution

theorem Parser.ne_nil_of_parse {limit : Nat} {tokens : List Token} {faults : List SyntaxFault}
    (h : parse limit tokens = .error faults) : faults ≠ [] := by
  unfold parse at h
  dsimp only at h
  split at h
  · cases h
  · rename_i hempty
    obtain rfl := Except.error.inj h
    exact fun hnil => hempty (List.isEmpty_iff.mpr hnil)

/-! ### Reports by stage -/

namespace Report

/-- The diagnostics of a report are those of its stage. -/
def FitsStage (r : Report) : Prop :=
  match r.stage with
  | .lex => ∃ d, r.diagnostics = [d] ∧ d.IsErrorOf '0'
  | .parse => r.diagnostics ≠ [] ∧ ∀ d ∈ r.diagnostics, d.IsErrorOf '1'
  | .resolve =>
    (∃ d ∈ r.diagnostics, d.IsErrorOf '3') ∧
      ∀ d ∈ r.diagnostics, d.IsErrorOf '3' ∨ d.IsNameWarning
  | .runtime =>
    ∃ warnings d, r.diagnostics = warnings ++ [d] ∧ (∀ w ∈ warnings, w.IsNameWarning) ∧
      d.IsErrorOf '4' ∧ r.errorCode? = some d.code
  | .done => ∀ d ∈ r.diagnostics, d.IsNameWarning

theorem FitsStage.success_iff {r : Report} (h : r.FitsStage) :
    r.success = true ↔ ∀ d ∈ r.diagnostics, d.severity ≠ .error := by
  obtain ⟨stage, diagnostics⟩ := r
  have hfailed : ∀ {stage : Stage}, stage ≠ .done → (∃ d ∈ diagnostics, d.severity = .error) →
      (success ⟨stage, diagnostics⟩ = true ↔ ∀ d ∈ diagnostics, d.severity ≠ .error) := by
    intro stage hstage hd
    obtain ⟨d, hmem, herror⟩ := hd
    exact iff_of_false (fun hs => hstage (eq_of_beq hs)) fun hall => hall d hmem herror
  cases stage with
  | lex =>
    obtain ⟨d, rfl, hd⟩ : ∃ d, diagnostics = [d] ∧ d.IsErrorOf '0' := h
    exact hfailed (by decide) ⟨d, List.mem_cons_self, hd.severity⟩
  | parse =>
    obtain ⟨hne, hall⟩ := h
    obtain ⟨d, ds, rfl⟩ := List.exists_cons_of_ne_nil hne
    exact hfailed (by decide) ⟨d, List.mem_cons_self, (hall d List.mem_cons_self).severity⟩
  | resolve =>
    obtain ⟨⟨d, hmem, hd⟩, -⟩ := h
    exact hfailed (by decide) ⟨d, hmem, hd.severity⟩
  | runtime =>
    obtain ⟨warnings, d, hds, -, hd, -⟩ := h
    have hmem : d ∈ diagnostics := by
      rw [show diagnostics = _ from hds]
      exact List.mem_append_right warnings List.mem_cons_self
    exact hfailed (by decide) ⟨d, hmem, hd.severity⟩
  | done =>
    have hwarnings : ∀ d ∈ diagnostics, d.IsNameWarning := h
    exact iff_of_true rfl fun d hmem => (hwarnings d hmem).severity_ne

end Report

namespace Session

variable {source : String} {ds : List Diagnostic}

theorem forall_mem_reportOn {P : Diagnostic → Prop} {stage : Stage}
    (h : ∀ d ∈ ds, P (d.withSource source)) : ∀ d ∈ (reportOn source stage ds).diagnostics, P d :=
  List.forall_mem_map.mpr h

theorem fitsStage_lex {d : Diagnostic} (h : d.IsErrorOf '0') :
    (reportOn source .lex [d]).FitsStage := ⟨_, rfl, h.withSource source⟩

theorem fitsStage_parse (hne : ds ≠ []) (h : ∀ d ∈ ds, d.IsErrorOf '1') :
    (reportOn source .parse ds).FitsStage :=
  ⟨fun hnil => hne (List.map_eq_nil_iff.mp hnil),
    forall_mem_reportOn fun d hd => (h d hd).withSource source⟩

theorem fitsStage_resolve (herror : ∃ d ∈ ds, d.IsErrorOf '3')
    (h : ∀ d ∈ ds, d.IsErrorOf '3' ∨ d.IsNameWarning) :
    (reportOn source .resolve ds).FitsStage := by
  obtain ⟨d, hd, herror⟩ := herror
  refine ⟨⟨_, List.mem_map_of_mem hd, herror.withSource source⟩, forall_mem_reportOn fun d hd => ?_⟩
  exact (h d hd).imp (·.withSource source) (·.withSource source)

theorem fitsStage_runtime {d : Diagnostic} (h : ∀ w ∈ ds, w.IsNameWarning) (hd : d.IsErrorOf '4') :
    (reportOn source .runtime (ds ++ [d])).FitsStage := by
  have hlines : (reportOn source .runtime (ds ++ [d])).diagnostics =
      ds.map (·.withSource source) ++ [d.withSource source] := List.map_append
  refine ⟨_, _, hlines, List.forall_mem_map.mpr fun w hw => (h w hw).withSource source,
    hd.withSource source, ?_⟩
  rw [errorCode?_last (fun w hw => (h w hw).isError) hd.isError, Diagnostic.code_withSource]

theorem fitsStage_done (h : ∀ d ∈ ds, d.IsNameWarning) : (reportOn source .done ds).FitsStage :=
  forall_mem_reportOn fun d hd => (h d hd).withSource source

/-- A source that does not get as far as running prints nothing and leaves the session as it is. -/
def Outcome.Untouched (o : Outcome) (s : Session) : Prop := o.printed = [] ∧ o.session = s

variable {s : Session} {file : String} {report : Report}

theorem Reported.fitsStage (h : s.Reported file source report) : report.FitsStage := by
  cases h with
  | lex ht =>
    obtain ⟨e, span, rfl⟩ := Lexer.diagnostic_of_tokenize ht
    exact fitsStage_lex (e.isErrorOf_diagnostic span source)
  | parse ht hp =>
    have hne := Parser.ne_nil_of_parse hp
    exact fitsStage_parse (fun hnil => hne (List.map_eq_nil_iff.mp hnil))
      (List.forall_mem_map.mpr fun f _ => f.isErrorOf_diagnostic _)
  | resolve ht hp herrors =>
    exact fitsStage_resolve (Resolution.exists_error_of_hasErrors herrors)
      fun d hd => Resolution.isErrorOf_or_isNameWarning hd
  | done hp hstop =>
    exact fitsStage_done fun d hd =>
      Resolution.isNameWarning_of_mem_diagnostics (hasErrors_of_accepts hp) hd
  | @runtime p e span hp hstop =>
    have hwarnings : ∀ d ∈ (s.resolve p).diagnostics s.config, d.IsNameWarning :=
      fun d hd => Resolution.isNameWarning_of_mem_diagnostics (hasErrors_of_accepts hp) hd
    exact fitsStage_runtime hwarnings (e.isErrorOf_diagnostic span)

theorem Reported.untouched (h : s.Reported file source report)
    (hstage : report.stage = .lex ∨ report.stage = .parse ∨ report.stage = .resolve) :
    (s.runSource file source).Untouched s := by
  cases h with
  | lex ht =>
    simp only [runSource, ht]
    exact ⟨rfl, rfl⟩
  | parse ht hp =>
    simp only [runSource, ht, hp]
    exact ⟨rfl, rfl⟩
  | resolve ht hp herrors =>
    simp only [runSource, ht, hp, runProgram, herrors, if_true]
    exact ⟨rfl, rfl⟩
  | done => rcases hstage with h | h | h <;> cases h
  | runtime => rcases hstage with h | h | h <;> cases h

/-- What a report says fits its stage: it is one of success just if it has no error, and where it is about
a program that was not run, nothing was printed and the session is the one from before. -/
theorem report_fits_stage (s : Session) (file source : String) {report : Report}
    (h : (s.runSource file source).result = .ok report) :
    report.FitsStage ∧ (report.success = true ↔ ∀ d ∈ report.diagnostics, d.severity ≠ .error) ∧
      (report.stage = .lex ∨ report.stage = .parse ∨ report.stage = .resolve →
        (s.runSource file source).Untouched s) := by
  have hreported := reported_of_runSource h
  exact ⟨hreported.fitsStage, hreported.fitsStage.success_iff, hreported.untouched⟩

def Outcome.report? (o : Outcome) : Option Report :=
  match o.result with
  | .ok report => some report
  | .error _ => none

theorem Outcome.result_of_report? {o : Outcome} {report : Report} (h : o.report? = some report) :
    o.result = .ok report := by
  unfold report? at h
  split at h
  · rename_i hr
    rw [hr, Option.some.inj h]
  · cases h

/-- A session in which one static error is reported at most. -/
def strict : Session := { bare with config := { natives := some [], maxErrors := ⟨1, Nat.zero_lt_one⟩ } }

theorem report_fits_stage_limited :
    ∃ report, (strict.runSource "" "{ var a; var a; var a; x; }").result = .ok report ∧
      report.diagnostics.map Diagnostic.code = ["E303", "W301"] ∧ report.FitsStage ∧
        report.success = false ∧ (strict.runSource "" "{ var a; var a; var a; x; }").Untouched strict := by
  let o := strict.runSource "" "{ var a; var a; var a; x; }"
  have hrun : (o.report?.any fun report => report.stage == .resolve &&
      report.diagnostics.map Diagnostic.code == ["E303", "W301"]) = true := by
    decide +kernel
  obtain ⟨report, hreport, hstage⟩ := (Option.any_eq_true _ _).mp hrun
  obtain ⟨hresolve, hcodes⟩ := (Bool.and_eq_true _ _).mp hstage
  have hok := Outcome.result_of_report? hreport
  have hfits := report_fits_stage strict "" "{ var a; var a; var a; x; }" hok
  have hfailed : report.success = false := by
    rw [Report.success, eq_of_beq hresolve]
    rfl
  exact ⟨report, hok, eq_of_beq hcodes, hfits.1, hfailed, hfits.2.2 (Or.inr (Or.inr (eq_of_beq hresolve)))⟩

end Session

end Lox
