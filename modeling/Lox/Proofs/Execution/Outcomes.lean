import Lox.Proofs.Execution.Deepening
import Lox.Proofs.Execution.Sessions

/-!
# Outcomes

What the outcome of a source says: a source that is accepted is run, and the outcome tells how its
program ended; any other source is reported on before anything runs.
-/

namespace Lox

/-! ### Verdicts -/

/-- How a source ended, without its places and warnings. -/
inductive Verdict where
  | reported (stage : Stage) (code : Option String)
  | defect
  | endless
  | refused
deriving DecidableEq

def Verdict.ofStop : Option Stop → Verdict
  | none => .reported .done none
  | some (.error e _) => .reported .runtime (some e.code)
  | some (.defect _) => .defect
  | some .passesUsedUp => .endless
  | some .refused => .refused

def Session.Outcome.verdict (o : Session.Outcome) : Verdict :=
  match o.result with
  | .ok report => .reported report.stage report.errorCode?
  | .error (.defect _) => .defect
  | .error .refused => .refused
  | .error _ => .endless

/-! ### How runs end -/

namespace Run

def stop? : EStateM.Result Stop World Unit → Option Stop
  | .ok _ _ => none
  | .error stop _ => some stop

def world : EStateM.Result Stop World Unit → World
  | .ok _ w => w
  | .error _ w => w

end Run

/-- The stack of the host was exhausted. -/
def Stop.isExhausted : Stop → Bool
  | .error .stackExhausted _ => true
  | _ => false

/-- The host is why: it refused the stack, or the stack was exhausted. -/
def Stop.isOfHost : Stop → Bool
  | .refused => true
  | stop => stop.isExhausted

namespace Session

theorem execute_eq (s : Session) (r : Resolution) :
    s.execute r = (Run.stop? (s.run r.program.statements),
      (Run.world (s.run r.program.statements)).printed.toList,
      { s with table := s.table.extend r.bindings, world := Run.world (s.run r.program.statements) }) := by
  cases h : s.run r.program.statements with
  | ok u w => exact execute_of_ok h
  | error stop w => exact execute_of_error h

/-- The program runs into the end of the stack of the host. -/
def Exhausts (s : Session) (p : Program Unit) : Prop :=
  (s.execute (s.resolve p)).1.any Stop.isExhausted = true

instance (s : Session) (p : Program Unit) : Decidable (s.Exhausts p) := inferInstanceAs (Decidable (_ = _))

theorem exhausts_iff {s : Session} {p : Program Unit} :
    s.Exhausts p ↔ (Run.stop? (s.run p.annotate.statements)).any Stop.isExhausted = true := by
  rw [Exhausts, execute_eq, program_resolve]

section Room

variable {s : Session} {ss : List ResolvedStmt}

/-- A program does in a session what it does there with ample room, unless it exhausts the stack. -/
theorem run_ample {room : Room} (hroom : s.room? = some room)
    (h : (Run.stop? (s.run ss)).any Stop.isExhausted = false) :
    s.run ss = (execProgram s.host globals ss).run room.ample s.cleared := by
  rw [run_of_room hroom] at h ⊢
  rcases Run.ample_or_exhausted s.host globals ss room s.cleared with heq | ⟨span, v, hstop⟩
  · exact heq.symm
  · rw [hstop] at h
    cases h

theorem exists_ample_run (h : (Run.stop? (s.run ss)).any Stop.isOfHost = false) :
    ∃ room : Room, room.IsAmple ∧ s.run ss = (execProgram s.host globals ss).run room s.cleared := by
  cases hroom : s.room? with
  | none =>
    rw [run_of_refused hroom] at h
    cases h
  | some room =>
    have hstack : (Run.stop? (s.run ss)).any Stop.isExhausted = false := by
      cases hstop : Run.stop? (s.run ss) with
      | none => rfl
      | some stop =>
        rw [hstop] at h
        cases stop <;> first | exact h | rfl
    exact ⟨room.ample, room.isAmple_ample, run_ample hroom hstack⟩

end Room

end Session

/-! ### Diagnostics with their lines -/

namespace Diagnostic

variable (d : Diagnostic) (source : String)

theorem code_withSource : (d.withSource source).code = d.code := by
  unfold withSource
  split <;> rfl

theorem message_withSource : (d.withSource source).message = d.message := by
  unfold withSource
  split <;> rfl

theorem span_withSource : (d.withSource source).span = d.span := by
  unfold withSource
  split <;> rfl

theorem isError_withSource : (d.withSource source).isError = d.isError := by
  unfold withSource
  split <;> rfl

end Diagnostic

theorem RuntimeError.isError_diagnostic (e : RuntimeError) (span : Span) :
    (e.diagnostic span).isError = true := rfl

/-! ### Codes -/

theorem LexError.code_ne (e : LexError) (r : RuntimeError) : e.code ≠ r.code := by
  cases e <;> cases r <;> simp [code, RuntimeError.code]

theorem SyntaxError.code_ne (e : SyntaxError) (r : RuntimeError) : e.code ≠ r.code := by
  cases e <;> cases r <;> simp [code, RuntimeError.code]

theorem ScopeIssue.code_ne (i : ScopeIssue) (r : RuntimeError) : i.code ≠ r.code := by
  cases i <;> cases r <;> simp [code, RuntimeError.code]

namespace Resolution

theorem isError_of_mem_diagnostics {config : Config} {r : Resolution} (h : r.hasErrors = false)
    {d : Diagnostic} (hd : d ∈ r.diagnostics config) : d.isError = false := by
  obtain ⟨f, hf, rfl⟩ := List.mem_map.mp hd
  rw [Finding.isError_diagnostic]
  exact Bool.not_eq_true _ ▸ List.any_eq_false.mp h f (Finding.mem_of_mem_limitErrors hf)

end Resolution

theorem Lexer.diagnostic_of_tokenize {file source : String} {d : Diagnostic}
    (h : tokenize file source = .error d) : ∃ e span, d = LexError.diagnostic e span source := by
  unfold tokenize at h
  dsimp only at h
  split at h
  · cases h
  · exact ⟨_, _, (Except.error.inj h).symm⟩

namespace Session

theorem errors_reportOn {source : String} {stage : Stage} {ds : List Diagnostic} :
    (reportOn source stage ds).errors = (ds.filter Diagnostic.isError).map (·.withSource source) := by
  simp only [Report.errors, reportOn, List.filter_map, Function.comp_def,
    Diagnostic.isError_withSource]

theorem errorCode?_warnings {source : String} {stage : Stage} {ds : List Diagnostic}
    (h : ∀ d ∈ ds, d.isError = false) : (reportOn source stage ds).errorCode? = none := by
  have hnil : ds.filter Diagnostic.isError = [] := List.filter_eq_nil_iff.mpr fun d hd => by
    rw [h d hd]
    decide
  rw [Report.errorCode?, errors_reportOn, hnil]
  rfl

theorem errorCode?_last {source : String} {stage : Stage} {ds : List Diagnostic} {d : Diagnostic}
    (h : ∀ d ∈ ds, d.isError = false) (hd : d.isError = true) :
    (reportOn source stage (ds ++ [d])).errorCode? = some d.code := by
  have hnil : ds.filter Diagnostic.isError = [] := List.filter_eq_nil_iff.mpr fun d hd => by
    rw [h d hd]
    decide
  rw [Report.errorCode?, errors_reportOn, List.filter_append, hnil, List.nil_append,
    List.filter_cons_of_pos hd]
  exact congrArg some (d.code_withSource source)

/-! ### Programs without errors -/

section Programs

variable {s : Session} {p : Program Unit} (h : (s.resolve p).hasErrors = false) (source : String)

include h

theorem result_runProgram : (s.runProgram source p).result =
    match (s.execute (s.resolve p)).1 with
    | none => .ok (reportOn source .done ((s.resolve p).diagnostics s.config))
    | some (.error e span) =>
      .ok (reportOn source .runtime ((s.resolve p).diagnostics s.config ++ [e.diagnostic span]))
    | some stop => .error stop := by
  simp only [runProgram, h, Bool.false_eq_true, if_false]
  split <;> rename_i hexec <;> rw [hexec]
  rename_i stop _ _ hstop
  cases stop with
  | error e span => exact absurd rfl (hstop e span)
  | _ => rfl

theorem printed_runProgram : (s.runProgram source p).printed = (s.execute (s.resolve p)).2.1 := by
  simp only [runProgram, h, Bool.false_eq_true, if_false]
  split <;> rename_i hexec <;> rw [hexec]

theorem session_runProgram : (s.runProgram source p).session = (s.execute (s.resolve p)).2.2 := by
  simp only [runProgram, h, Bool.false_eq_true, if_false]
  split <;> rename_i hexec <;> rw [hexec]

theorem verdict_runProgram :
    (s.runProgram source p).verdict = .ofStop (s.execute (s.resolve p)).1 := by
  have hwarnings : ∀ d ∈ (s.resolve p).diagnostics s.config, d.isError = false :=
    fun d hd => Resolution.isError_of_mem_diagnostics h hd
  rw [Outcome.verdict, result_runProgram h source]
  cases (s.execute (s.resolve p)).1 with
  | none => exact congrArg (Verdict.reported _) (errorCode?_warnings hwarnings)
  | some stop =>
    cases stop with
    | error e span =>
      exact congrArg (Verdict.reported _) (errorCode?_last hwarnings (e.isError_diagnostic span))
    | _ => rfl

end Programs

/-! ### Sources -/

variable {s : Session} {file source : String}

theorem hasErrors_of_accepts {p : Program Unit} (h : s.config.Accepts s.machine.nesting file source p) :
    (s.resolve p).hasErrors = false :=
  (Resolution.hasErrors_ofProgram s.config s.globalNames p).mpr h.accepted

theorem runSource_of_accepts {p : Program Unit} (h : s.config.Accepts s.machine.nesting file source p) :
    s.runSource file source = s.runProgram source p := by
  obtain ⟨tokens, ht, hp, -⟩ := Config.accepts_iff.mp h
  simp only [runSource, ht, hp]

/-- A source that is not accepted leaves the session alone, and its report has no error of a program
that runs. -/
theorem runSource_of_not_accepts (h : ∀ p, ¬ s.config.Accepts s.machine.nesting file source p) :
    ∃ report events, s.runSource file source = s.rejected report events ∧
      ∀ d ∈ report.diagnostics, ∀ e : RuntimeError, d.code ≠ e.code := by
  have hreport : ∀ {stage : Stage} {ds : List Diagnostic},
      (∀ d ∈ ds, ∀ e : RuntimeError, d.code ≠ e.code) →
        ∀ d ∈ (reportOn source stage ds).diagnostics, ∀ e : RuntimeError, d.code ≠ e.code := by
    intro stage ds hds d hd e
    obtain ⟨d, hmem, rfl⟩ := List.mem_map.mp hd
    rw [Diagnostic.code_withSource]
    exact hds d hmem e
  cases ht : Lexer.tokenize file source with
  | error d =>
    obtain ⟨e, span, rfl⟩ := Lexer.diagnostic_of_tokenize ht
    simp only [runSource, ht]
    exact ⟨_, _, rfl, hreport (List.forall_mem_singleton.mpr e.code_ne)⟩
  | ok tokens =>
    cases hp : Parser.parse s.machine.nesting tokens with
    | error faults =>
      simp only [runSource, ht, hp]
      exact ⟨_, _, rfl, hreport (List.forall_mem_map.mpr fun f _ => f.error.code_ne)⟩
    | ok p =>
      have herrors : (s.resolve p).hasErrors = true := by
        by_contra hn
        have haccepted := (Resolution.hasErrors_ofProgram s.config s.globalNames p).mp
          (Bool.not_eq_true _ ▸ hn)
        exact h p (Config.accepts_iff.mpr ⟨tokens, ht, hp, haccepted⟩)
      simp only [runSource, ht, hp, runProgram, herrors, if_true]
      exact ⟨_, _, rfl, hreport (List.forall_mem_map.mpr fun f _ => f.issue.code_ne)⟩

/-- The reports that a source can end with: on the fault that reading stops at, on the faults of the parse,
on what is wrong with names, and on a program that has been run. -/
inductive Reported (s : Session) (file source : String) : Report → Prop where
  | lex {d : Diagnostic} : Lexer.tokenize file source = .error d →
    Reported s file source (reportOn source .lex [d])
  | parse {tokens : List Token} {faults : List SyntaxFault} : Lexer.tokenize file source = .ok tokens →
    Parser.parse s.machine.nesting tokens = .error faults →
      Reported s file source (reportOn source .parse (faults.map fun f => f.diagnostic (some source)))
  | resolve {tokens : List Token} {p : Program Unit} : Lexer.tokenize file source = .ok tokens →
    Parser.parse s.machine.nesting tokens = .ok p → (s.resolve p).hasErrors = true →
      Reported s file source (reportOn source .resolve ((s.resolve p).diagnostics s.config))
  | done {p : Program Unit} : s.config.Accepts s.machine.nesting file source p →
    (s.execute (s.resolve p)).1 = none →
      Reported s file source (reportOn source .done ((s.resolve p).diagnostics s.config))
  | runtime {p : Program Unit} {e : RuntimeError} {span : Span} :
    s.config.Accepts s.machine.nesting file source p → (s.execute (s.resolve p)).1 = some (.error e span) →
      Reported s file source
        (reportOn source .runtime ((s.resolve p).diagnostics s.config ++ [e.diagnostic span]))

theorem reported_of_runSource {report : Report} (h : (s.runSource file source).result = .ok report) :
    s.Reported file source report := by
  cases ht : Lexer.tokenize file source with
  | error d =>
    simp only [runSource, ht] at h
    exact Except.ok.inj h ▸ .lex ht
  | ok tokens =>
    cases hp : Parser.parse s.machine.nesting tokens with
    | error faults =>
      simp only [runSource, ht, hp] at h
      exact Except.ok.inj h ▸ .parse ht hp
    | ok p =>
      cases herrors : (s.resolve p).hasErrors with
      | true =>
        simp only [runSource, ht, hp, runProgram, herrors, if_true] at h
        exact Except.ok.inj h ▸ .resolve ht hp herrors
      | false =>
        have haccepted : s.config.Accepts s.machine.nesting file source p := Config.accepts_iff.mpr
          ⟨tokens, ht, hp, (Resolution.hasErrors_ofProgram s.config s.globalNames p).mp herrors⟩
        simp only [runSource, ht, hp] at h
        rw [result_runProgram herrors source] at h
        split at h
        · rename_i hstop
          exact Except.ok.inj h ▸ .done haccepted hstop
        · rename_i hstop
          exact Except.ok.inj h ▸ .runtime haccepted hstop
        · cases h

/-- The outcomes of sources that are run one after the other. -/
def outcomes (s : Session) : List (String × String) → List Outcome
  | [] => []
  | run :: runs =>
    let o := s.runSource run.1 run.2
    o :: o.session.outcomes runs

/-! ### What runs leave alone -/

/-- Runs change what is bound and the world, and nothing else of a session. -/
def Succeeds (s t : Session) : Prop := ∃ table w, t = { s with table, world := w }

namespace Succeeds

variable {t : Session} (h : s.Succeeds t)

include h

theorem config : t.config = s.config := by
  obtain ⟨table, w, rfl⟩ := h
  rfl

theorem natives : t.natives = s.natives := by
  obtain ⟨table, w, rfl⟩ := h
  rfl

theorem machine : t.machine = s.machine := by
  obtain ⟨table, w, rfl⟩ := h
  rfl

end Succeeds

theorem succeeds_create {config : Config} {natives : Registry} {clock : Nat → Float} {machine : Machine}
    (h : create config natives clock machine = .ok s) :
    Succeeds ⟨config, natives, clock, machine, .empty, {}⟩ s :=
  ⟨_, _, eq_of_create h⟩

theorem succeeds_runSource (s : Session) (file source : String) :
    s.Succeeds (s.runSource file source).session := by
  rcases s.runSource_cases file source with ⟨hsame, -⟩ | ⟨p, -, hsession, -⟩
  · exact ⟨s.table, s.world, hsame⟩
  · rw [hsession, execute_eq]
    exact ⟨_, _, rfl⟩

theorem succeeds_after (s : Session) (runs : List (String × String)) : s.Succeeds (s.after runs) := by
  refine after_induction (P := s.Succeeds) ⟨s.table, s.world, rfl⟩ ?_
  rintro _ ⟨table, w, rfl⟩ run -
  exact succeeds_runSource { s with table, world := w } run.1 run.2

theorem config_after (s : Session) (runs : List (String × String)) : (s.after runs).config = s.config :=
  (s.succeeds_after runs).config

theorem machine_after (s : Session) (runs : List (String × String)) :
    (s.after runs).machine = s.machine :=
  (s.succeeds_after runs).machine

end Session

end Lox
