import Lox.Proofs.Execution.Blame
import Lox.Proofs.Execution.Reports
import Lox.Proofs.Execution.Restored
import Lox.Proofs.Quoting.Lines
import Lox.Proofs.Quoting.Places

/-!
# Quoted lines

A report quotes lines of the source that is run, by the number of the line on which a place begins. For all
that is found in this source that is the line of the place, as long as line feeds are the only line breaks
up to its end. A runtime error in a function of an earlier program is placed in the source of that program,
and still quotes the line with its number in the source that is run.
-/

namespace Lox

variable {source : String}

/-! ### Diagnostics -/

/-- The line that is quoted, if any, is the one with the number of the line on which the place begins. -/
def Diagnostic.QuotesByNumber (source : String) (d : Diagnostic) : Prop :=
  ∀ line, d.sourceLine = some line → Source.line? source d.span.first.line = some line

theorem Diagnostic.quotesByNumber_of_none {d : Diagnostic} (h : d.sourceLine = none) :
    d.QuotesByNumber source := by
  intro line hline
  rw [h] at hline
  cases hline

theorem Diagnostic.QuotesByNumber.withSource {d : Diagnostic} (h : d.QuotesByNumber source) :
    (d.withSource source).QuotesByNumber source := by
  unfold Diagnostic.withSource
  split
  · exact h
  · exact fun _ hline => hline

theorem SyntaxFault.quotesByNumber_diagnostic (f : SyntaxFault) :
    (f.diagnostic (some source)).QuotesByNumber source := by
  intro line hline
  unfold diagnostic at hline
  dsimp only at hline
  split at hline
  · exact hline
  · cases hline

theorem Resolution.quotesByNumber_of_mem_diagnostics {config : Config} {r : Resolution} {d : Diagnostic}
    (hd : d ∈ r.diagnostics config) : d.QuotesByNumber source := by
  obtain ⟨f, -, rfl⟩ := List.mem_map.mp hd
  exact Diagnostic.quotesByNumber_of_none rfl

namespace Session

variable {s : Session} {file : String} {report : Report}

/-- Whichever stage looks a line up, it is the line of that number. -/
theorem Reported.quotesByNumber (h : s.Reported file source report) :
    ∀ d ∈ report.diagnostics, d.QuotesByNumber source := by
  have hresolved (p : Program Unit) : ∀ d ∈ (s.resolve p).diagnostics s.config,
      (d.withSource source).QuotesByNumber source :=
    fun d hd => (Resolution.quotesByNumber_of_mem_diagnostics hd).withSource
  cases h with
  | lex ht =>
    obtain ⟨e, span, rfl⟩ := Lexer.diagnostic_of_tokenize ht
    have hfault : (e.diagnostic span source).QuotesByNumber source := fun _ hline => hline
    exact forall_mem_reportOn (List.forall_mem_singleton.mpr hfault.withSource)
  | parse =>
    refine forall_mem_reportOn (List.forall_mem_map.mpr fun f _ => ?_)
    exact f.quotesByNumber_diagnostic.withSource
  | @resolve _ p | @done p => exact forall_mem_reportOn (hresolved p)
  | @runtime p e span =>
    refine forall_mem_reportOn (List.forall_mem_append.mpr ⟨hresolved p, ?_⟩)
    exact List.forall_mem_singleton.mpr (Diagnostic.quotesByNumber_of_none rfl).withSource

/-! ### Places of errors -/

theorem Declares.append {runs : List (String × String)} {d : Declaration (Option Nat)}
    (h : s.Declares runs d) (more : List (String × String)) : s.Declares (runs ++ more) d := by
  obtain ⟨before, file, source, later, p, rfl, hp, hd⟩ := h
  exact ⟨before, file, source, later ++ more, p, by simp, hp, hd⟩

theorem declares_concat {earlier : List (String × String)} {d : Declaration (Option Nat)}
    (h : s.Declares (earlier ++ [(file, source)]) d) : s.Declares earlier d ∨
      ∃ p, s.config.Accepts s.machine.nesting file source p ∧
        d ∈ ((s.after earlier).resolve p).program.functions := by
  obtain ⟨before, file', source', later, p, hruns, hp, hd⟩ := h
  rcases List.eq_nil_or_concat later with rfl | ⟨later, run, rfl⟩
  · obtain ⟨rfl, hrun⟩ := List.append_inj' hruns rfl
    obtain ⟨rfl, rfl⟩ := Prod.mk.inj (List.cons.inj hrun).1
    exact Or.inr ⟨p, hp, hd⟩
  · rw [List.concat_eq_append, ← List.cons_append, ← List.append_assoc] at hruns
    obtain ⟨rfl, -⟩ := List.append_inj' hruns rfl
    exact Or.inl ⟨before, file', source', later, p, rfl, hp, hd⟩

theorem places_resolve (s : Session) (p : Program Unit) : (s.resolve p).program.places = p.places := by
  rw [resolve, Resolution.ofProgram_eq]
  exact (p.numbered.places_map _).trans p.places_numbered

theorem places_of_declared {p : Program Unit} {d : Declaration (Option Nat)}
    (hd : d ∈ (s.resolve p).program.functions) : Stmt.placesAll d.body ⊆ p.places := by
  rw [← s.places_resolve p]
  exact Stmt.placesAll_of_functions hd

theorem place_of_error {config : Config} {natives : Registry} {clock : Nat → Float} {machine : Machine}
    (hn : natives.ReturnsGiven) (hs : create config natives clock machine = .ok s)
    {earlier : List (String × String)} {p : Program Unit}
    (hp : s.config.Accepts s.machine.nesting file source p) {e : RuntimeError} {span : Span}
    (herror : ((s.after earlier).execute ((s.after earlier).resolve p)).1 = some (.error e span)) :
    span ∈ p.places ∨ ∃ d, s.Declares earlier d ∧ span ∈ Stmt.placesAll d.body := by
  let t := s.after earlier
  let O := s.origin (earlier ++ [(file, source)])
  have hnatives : s.natives.ReturnsGiven := by rwa [(succeeds_create hs).natives]
  have ht : t.natives.ReturnsGiven := by rwa [show t.natives = _ from (s.succeeds_after earlier).natives]
  have hearlier : (s.origin earlier).Holds t.world.store :=
    holds_after hnatives (List.nil_append earlier).symm (holds_create hs _)
  have hmore : ∀ d, (s.origin earlier).known d → O.known d := fun d hd => Declares.append hd _
  have hholds : O.Holds t.cleared.store := hearlier.mono hmore rfl
  let place (q : Span) : Prop := q ∈ p.places ∨ ∃ d, s.Declares earlier d ∧ q ∈ Stmt.placesAll d.body
  -- What is known while the program runs was declared by an earlier program or by itself.
  have hbodies : ∀ d, O.known d → ∀ q ∈ Stmt.placesAll d.body, place q := by
    intro d hd q hq
    rcases declares_concat hd with hd | ⟨p', hp', hd⟩
    · exact Or.inr ⟨d, hd, hq⟩
    · obtain rfl := Option.some.inj (hp'.symm.trans hp)
      exact Or.inl (places_of_declared hd hq)
  have hknown : ∀ d ∈ Stmt.functionsAll (t.resolve p).program.statements, O.known d :=
    fun d hd => ⟨earlier, file, source, [], p, rfl, hp, hd⟩
  have hplaces : ∀ q ∈ Stmt.placesAll (t.resolve p).program.statements, place q :=
    fun q hq => Or.inl (t.places_resolve p ▸ hq)
  rw [execute_eq] at herror
  cases hroom : t.room? with
  | none =>
    rw [run_of_refused hroom] at herror
    cases herror
  | some room =>
    rw [run_of_room hroom] at herror
    cases hrun : (execProgram t.host globals (t.resolve p).program.statements).run room t.cleared with
    | ok u w =>
      rw [hrun] at herror
      cases herror
    | error stop w =>
      rw [hrun] at herror
      obtain rfl := Option.some.inj herror
      exact Origin.Blames.place_of_execProgram hbodies ht rfl hknown hplaces hholds hrun

/-- A place in the body of a function that an earlier program of a session declares, read from the source of
that program. -/
def InEarlierFunction (s : Session) (earlier : List (String × String)) (span : Span) : Prop :=
  ∃ before file source later p d, earlier = before ++ (file, source) :: later ∧
    s.config.Accepts s.machine.nesting file source p ∧ d ∈ ((s.after before).resolve p).program.functions ∧
      span ∈ Stmt.placesAll d.body ∧ span.ReadFrom file source

theorem inEarlierFunction_of_declares {earlier : List (String × String)} {d : Declaration (Option Nat)}
    {span : Span} (hd : s.Declares earlier d) (hspan : span ∈ Stmt.placesAll d.body) :
    s.InEarlierFunction earlier span := by
  obtain ⟨before, file, source, later, p, hruns, hp, hd⟩ := hd
  have hread := hp.readFrom span (places_of_declared hd hspan)
  exact ⟨before, file, source, later, p, d, hruns, hp, hd, hspan, hread⟩

theorem not_inEarlierFunction_nil (span : Span) : ¬ s.InEarlierFunction [] span := by
  rintro ⟨before, file, source, later, p, d, hruns, -⟩
  cases before <;> cases hruns

/-- What is reported has its place in the source, but for an error of a running program, the last. -/
theorem Reported.readFrom {place : Span → Prop} (h : s.Reported file source report)
    (herror : ∀ p e span, s.config.Accepts s.machine.nesting file source p →
      (s.execute (s.resolve p)).1 = some (.error e span) → span.ReadFrom file source ∨ place span) :
    ∀ d ∈ report.diagnostics, d.span.ReadFrom file source ∨
      report.stage = .runtime ∧ report.diagnostics.getLast? = some d ∧ place d.span := by
  have hspan {d : Diagnostic} (hd : d.span.ReadFrom file source) :
      (d.withSource source).span.ReadFrom file source := by rwa [d.span_withSource]
  have hresolved {p : Program Unit} (hp : s.config.Accepts s.machine.nesting file source p) :
      ∀ d ∈ (s.resolve p).diagnostics s.config, (d.withSource source).span.ReadFrom file source := by
    obtain ⟨tokens, ht, hp, -⟩ := Config.accepts_iff.mp hp
    exact fun d hd => hspan (Resolution.readFrom_of_mem_diagnostics ht hp hd)
  cases h with
  | lex ht =>
    have hfault := hspan (Lexer.readFrom_of_error ht)
    exact forall_mem_reportOn (List.forall_mem_singleton.mpr (Or.inl hfault))
  | parse ht hp =>
    have hfaults := Parser.readFrom_of_faults ht hp
    exact forall_mem_reportOn (List.forall_mem_map.mpr fun f hf => Or.inl (hspan (hfaults f hf)))
  | resolve ht hp =>
    refine forall_mem_reportOn fun d hd => Or.inl (hspan ?_)
    exact Resolution.readFrom_of_mem_diagnostics ht hp hd
  | done hp => exact forall_mem_reportOn fun d hd => Or.inl (hresolved hp d hd)
  | @runtime p e span hp hstop =>
    refine forall_mem_reportOn (List.forall_mem_append.mpr ⟨fun d hd => Or.inl (hresolved hp d hd), ?_⟩)
    have hlast : (reportOn source .runtime ((s.resolve p).diagnostics s.config ++
        [e.diagnostic span])).diagnostics.getLast? = some ((e.diagnostic span).withSource source) := by
      rw [reportOn, List.map_append]
      exact List.getLast?_concat
    rw [List.forall_mem_singleton, Diagnostic.span_withSource]
    exact (herror p e span hp hstop).imp_right fun hplace => ⟨rfl, hlast, hplace⟩

variable {config : Config} {natives : Registry} {clock : Nat → Float} {machine : Machine}

theorem readFrom_or_inEarlierFunction (hn : natives.ReturnsGiven)
    (hs : create config natives clock machine = .ok s) (earlier : List (String × String))
    (h : ((s.after earlier).runSource file source).result = .ok report) :
    ∀ d ∈ report.diagnostics, d.span.ReadFrom file source ∨
      report.stage = .runtime ∧ report.diagnostics.getLast? = some d ∧
        s.InEarlierFunction earlier d.span := by
  refine (reported_of_runSource h).readFrom fun p e span hp hstop => ?_
  rw [config_after, machine_after] at hp
  rcases place_of_error hn hs hp hstop with hspan | ⟨d, hd, hspan⟩
  · exact Or.inl (hp.readFrom span hspan)
  · exact Or.inr (inEarlierFunction_of_declares hd hspan)

/-- A line that is quoted when a source with no line breaks but line feeds is run is the line of this source
on which the place begins. The exception is a runtime error in a function of an earlier program: its place
was read from the source of that program, and the line with its number in the source that is run is quoted. -/
theorem quoted_line_in_session (hn : natives.ReturnsGiven) (hs : create config natives clock machine = .ok s)
    (earlier : List (String × String))
    (hfeeds : ∀ c ∈ source.toList, Source.isLineBreak c = true → c = '\n')
    (h : ((s.after earlier).runSource file source).result = .ok report) {d : Diagnostic}
    (hd : d ∈ report.diagnostics) {line : String} (hline : d.sourceLine = some line) :
    (d.span.ReadFrom file source ∧
        line.toList = Source.lineAt source.toList d.span.first.offset) ∨
      (report.stage = .runtime ∧ report.diagnostics.getLast? = some d ∧
        s.InEarlierFunction earlier d.span ∧ Source.line? source d.span.first.line = some line) := by
  have hquoted := (reported_of_runSource h).quotesByNumber d hd line hline
  rcases readFrom_or_inEarlierFunction hn hs earlier h d hd with hspan | ⟨hstage, hlast, hearlier⟩
  · exact Or.inl ⟨hspan, Source.toList_of_line? hspan.isIn.first hfeeds hquoted⟩
  · exact Or.inr ⟨hstage, hlast, hearlier, hquoted⟩

/-- A diagnostic that quotes the line at the place is reported. -/
def Outcome.quotes (o : Outcome) (line : String) (span : Span) : Bool :=
  o.report?.any fun report => report.diagnostics.any fun d => d.sourceLine == some line && d.span == span

theorem Outcome.exists_of_quotes {o : Outcome} {line : String} {span : Span}
    (h : o.quotes line span = true) :
    ∃ report d, o.result = .ok report ∧ d ∈ report.diagnostics ∧ d.sourceLine = some line ∧
      d.span = span := by
  obtain ⟨report, hreport, hany⟩ := (Option.any_eq_true _ _).mp h
  obtain ⟨d, hd, hboth⟩ := List.any_eq_true.mp hany
  obtain ⟨hline, hspan⟩ := (Bool.and_eq_true _ _).mp hboth
  exact ⟨report, d, result_of_report? hreport, hd, eq_of_beq hline, eq_of_beq hspan⟩

/-- The error is at `-nil` in the first program, and the line quoted is the only one of the second. -/
theorem quoted_line_in_session_later :
    let earlier := [("", "fun f() { return -nil; }")]
    ∃ report d, ((bare.after earlier).runSource "" "f();").result = .ok report ∧ d ∈ report.diagnostics ∧
      d.sourceLine = some "f();" ∧ d.span = ⟨"", ⟨1, 18, 17⟩, ⟨1, 22, 21⟩⟩ ∧ report.stage = .runtime ∧
        report.diagnostics.getLast? = some d ∧ bare.InEarlierFunction earlier d.span := by
  let earlier := [("", "fun f() { return -nil; }")]
  let span : Span := ⟨"", ⟨1, 18, 17⟩, ⟨1, 22, 21⟩⟩
  have hrun : ((bare.after earlier).runSource "" "f();").quotes "f();" span = true := by decide +kernel
  obtain ⟨report, d, hok, hd, hquoted, hplace⟩ := Outcome.exists_of_quotes hrun
  have hcreate : create bare.config .standard bare.clock .standard = .ok bare := rfl
  have hplain : ("f();".toList.all fun c => !Source.isLineBreak c) = true := by decide
  have hfeeds : ∀ c ∈ "f();".toList, Source.isLineBreak c = true → c = '\n' := by
    intro c hc hbreak
    have hno := List.all_eq_true.mp hplain c hc
    rw [hbreak] at hno
    cases hno
  have h := quoted_line_in_session Registry.returnsGiven_standard hcreate earlier hfeeds hok hd hquoted
  -- The second program has no offset 17, so the place cannot be one of its own.
  have hbeyond : ¬ d.span.ReadFrom "" "f();" := by
    rw [hplace]
    exact fun hread => absurd hread.isIn.first.inside (by decide)
  obtain ⟨hstage, hlast, hearlier, -⟩ := h.resolve_left fun hin => hbeyond hin.1
  exact ⟨report, d, hok, hd, hquoted, hplace, hstage, hlast, hearlier⟩

/-- The line that is quoted when a single source is run is the one with the number of the line on which the
place begins. It is the line between line feeds around the place, or that without a carriage return at its
end, if up to there all line breaks are line feeds with or without a carriage return. -/
theorem quoted_line_of_source (hn : natives.ReturnsGiven) (hs : create config natives clock machine = .ok s)
    (h : (s.runSource file source).result = .ok report) {d : Diagnostic} (hd : d ∈ report.diagnostics)
    {line : String} (hline : d.sourceLine = some line) :
    d.span.ReadFrom file source ∧ d.span.IsIn file source ∧
      Source.line? source d.span.first.line = some line ∧
      (Source.PlainBreaks (source.toList.take (Source.lineEnd source.toList d.span.first.offset + 1)) →
        Source.Quotes line.toList (Source.lineAt source.toList d.span.first.offset)) := by
  have hquoted := (reported_of_runSource h).quotesByNumber d hd line hline
  have hspan := (readFrom_or_inEarlierFunction hn hs [] h d hd).resolve_right fun hno =>
    not_inEarlierFunction_nil d.span hno.2.2
  exact ⟨hspan, hspan.isIn, hquoted, fun hplain => Source.quotes_of_line? hspan.isIn.first hplain hquoted⟩

theorem quoted_line_of_source_return :
    ∃ report d, (bare.runSource "" "// a\r\n@\r\n").result = .ok report ∧ d ∈ report.diagnostics ∧
      d.sourceLine = some "@" ∧ Source.Quotes ['@'] (Source.lineAt "// a\r\n@\r\n".toList 6) := by
  let span : Span := ⟨"", ⟨2, 1, 6⟩, ⟨2, 2, 7⟩⟩
  have hrun : (bare.runSource "" "// a\r\n@\r\n").quotes "@" span = true := by decide +kernel
  obtain ⟨report, d, hok, hd, hquoted, hplace⟩ := Outcome.exists_of_quotes hrun
  have hcreate : create bare.config .standard bare.clock .standard = .ok bare := rfl
  obtain ⟨-, -, -, hquotes⟩ :=
    quoted_line_of_source Registry.returnsGiven_standard hcreate hok hd hquoted
  rw [hplace] at hquotes
  exact ⟨report, d, hok, hd, hquoted, hquotes (by decide)⟩

-- A form feed in a comment is a line break for the lookup, and none for places.
example : (bare.runSource "" "// a\x0Cb\n@").report?.map (fun report =>
    report.diagnostics.map fun d => (d.span.first.line, d.sourceLine)) = some [(2, some "b")] := by
  decide +kernel

end Session

end Lox
