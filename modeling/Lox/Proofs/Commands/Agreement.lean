import Lox.CommandLine.Commands
import Lox.Proofs.Execution.Reports
import Lox.Proofs.Execution.Undefined
import Lox.Proofs.Syntax.Limits

/-!
# Commands on one file agree

Checking a file and running it go separate ways to the same findings: a new session knows as global just
the built-in functions that a check counts on. So both write the same to the error output, but for the
error that stops the program while it runs, and both end with the same exit code, but for what the program
does then. The tree of a file is shown unless it fails before its names are resolved. Each command has a
stack of its own: none of this is so of a file that nests too deep for one command and not for another, or
of a program that the host refuses to run.
-/

namespace Lox

/-! ### Globals of a new session -/

theorem Registry.isSome_find?_of_mem_names {r : Registry} {name : String} (h : name ∈ r.names) :
    (r.find? name).isSome := by
  rw [names, List.mem_mergeSort, List.mem_map] at h
  obtain ⟨native, hmem, rfl⟩ := h
  rw [find?, List.find?_isSome]
  exact ⟨native, hmem, beq_self_eq_true _⟩

namespace Session

variable {config : Config} {natives : Registry} {clock : Nat → Float} {machine : Machine} {s : Session}

theorem fst_install {env : Environment} {names : List String} (w : World)
    (h : ∀ name ∈ names, (natives.find? name).isSome) : (install natives env names w).1 = none := by
  induction names generalizing w with
  | nil => rfl
  | cons name names ih =>
    obtain ⟨hname, hnames⟩ := List.forall_mem_cons.mp h
    obtain ⟨native, hfind⟩ := Option.isSome_iff_exists.mp hname
    simp only [install, hfind]
    exact ih _ hnames

theorem isSome_slot?_install {env : Environment} {names : List String} {w : World}
    (henv : env.frame < w.store.size) (h : (install natives env names w).1 = none) (x : String) :
    ((install natives env names w).2.store.slot? env.frame x).isSome ↔
      x ∈ names ∨ (w.store.slot? env.frame x).isSome := by
  induction names generalizing w with
  | nil => simp [install]
  | cons name names ih =>
    unfold install at h ⊢
    split at h
    · cases h
    · rename_i native hfind
      have hsize : env.frame < (w.store.define env.frame name
          (.function w.functions (.native name native.arity))).size := by
        rwa [Store.size_define_eq]
      have hslot := Store.slot?_define henv name (.function w.functions (.native name native.arity))
        env.frame x
      rw [ih hsize h, hslot, List.mem_cons]
      by_cases hx : x = name
      · simp [hx]
      · simp [hx]

theorem mem_globalNames_create (h : create config natives clock machine = .ok s) (name : String) :
    name ∈ s.globalNames ↔ name ∈ nativeNames config natives := by
  have hempty : (Store.alloc {} "globals").2.slot? globals.frame name = none := by
    rw [Store.slot?_alloc]
    rfl
  have hnone : (install natives globals (nativeNames config natives)
      { store := (Store.alloc {} "globals").2 }).1 = none := by
    unfold create at h
    dsimp only at h
    split at h
    · cases h
    · rename_i heq
      rw [heq]
  have hinstalled := isSome_slot?_install (w := { store := (Store.alloc {} "globals").2 })
    (show globals.frame < _ from Nat.zero_lt_one) hnone name
  obtain rfl := eq_of_create h
  rw [mem_globalNames_iff, hinstalled]
  simp [hempty]

theorem exists_create (h : CommandLine.unknownNatives config natives = []) (clock : Nat → Float)
    (machine : Machine) : ∃ s, create config natives clock machine = .ok s := by
  have hknown : ∀ name ∈ nativeNames config natives, (natives.find? name).isSome := by
    cases hnatives : config.natives with
    | none =>
      rw [nativeNames, hnatives]
      exact fun name => Registry.isSome_find?_of_mem_names
    | some names =>
      rw [CommandLine.unknownNatives, hnatives] at h
      rw [nativeNames, hnatives]
      intro name hmem
      have hfound := List.filter_eq_nil_iff.mp h name hmem
      rwa [Bool.not_eq_true, Option.isNone_eq_false_iff] at hfound
  have hnone : (install natives globals _ _).1 = none :=
    fst_install { store := (Store.alloc {} "globals").2 } hknown
  unfold create
  dsimp only
  split
  · rename_i heq
    rw [heq] at hnone
    cases hnone
  · exact ⟨_, rfl⟩

end Session

theorem Resolution.ofProgram_congr (config : Config) {natives natives' : List String}
    (h : ∀ name, name ∈ natives ↔ name ∈ natives') (p : Program Unit) :
    ofProgram config natives p = ofProgram config natives' p := by
  have hglobal : ∀ name, natives.contains name = natives'.contains name := by
    intro name
    rw [Bool.eq_iff_iff, List.contains_iff_mem, List.contains_iff_mem]
    exact h name
  simp only [ofProgram, rulesFor, hglobal]

/-- A new session resolves a program as a check of the program does. -/
theorem Session.resolve_create {config : Config} {natives : Registry} {clock : Nat → Float}
    {machine : Machine} {s : Session} (h : create config natives clock machine = .ok s) (p : Program Unit) :
    s.resolve p = Resolution.ofProgram config (nativeNames config natives) p := by
  rw [resolve, (succeeds_create h).config]
  exact Resolution.ofProgram_congr config (mem_globalNames_create h) p

namespace CommandLine

/-! ### What is written to the error output -/

/-- The reports as they stand on the error output. -/
def reportTexts (ds : List Diagnostic) : List String := ds.map fun d => d.render ++ "\n"

theorem errTexts_reports (ds : List Diagnostic) :
    (reports ds).filterMap Chunk.errText? = reportTexts ds := by
  rw [reports, List.filterMap_map, reportTexts, ← List.filterMap_eq_map]
  rfl

theorem logged_of_ne {level : LogLevel} (h : level ≠ .debug) (events : List Event) :
    logged level events = [] := if_neg h

theorem errTexts_outLines (texts : List String) :
    (texts.map Chunk.outLine).filterMap Chunk.errText? = [] := by
  rw [List.filterMap_map]
  exact List.filterMap_eq_nil_iff.mpr fun _ _ => rfl

/-- What a run writes to the error output without a log: its reports. -/
theorem err_runFile {level : LogLevel} (hlevel : level ≠ .debug) {s : Session} {file source : String}
    {report : Report} (h : (s.runSource file source).result = .ok report) :
    (runFile s level file source).err = String.join (reportTexts report.diagnostics) := by
  simp only [runFile, Transcript.err, outcomeChunks, h, logged_of_ne hlevel, List.nil_append,
    List.append_nil, List.filterMap_append, errTexts_outLines, errTexts_reports]

theorem err_done_reports (ds : List Diagnostic) (exit : Exit) :
    (Transcript.done (reports ds) exit).err = String.join (reportTexts ds) := by
  rw [Transcript.done, Transcript.err, errTexts_reports]

/-! ### Files that are not read -/

section Unread

variable {machine : Machine} {file source : String} {ds : List Diagnostic}

theorem runSource_of_unread {s : Session} (h : readProgram s.machine file source = .error ds) :
    ∃ stage, (stage = .lex ∨ stage = .parse) ∧ (s.runSource file source).result = .ok ⟨stage, ds⟩ := by
  unfold readProgram at h
  cases ht : Lexer.tokenize file source with
  | error d =>
    simp only [ht] at h
    obtain rfl := Except.error.inj h
    simp only [Session.runSource, ht]
    exact ⟨.lex, Or.inl rfl, rfl⟩
  | ok tokens =>
    cases hp : Parser.parse s.machine.nesting tokens with
    | ok p => simp only [ht, hp, reduceCtorEq] at h
    | error faults =>
      simp only [ht, hp] at h
      obtain rfl := Except.error.inj h
      simp only [Session.runSource, ht, hp, Session.rejected, Session.reportOn, List.map_map]
      exact ⟨.parse, Or.inr rfl, rfl⟩

theorem checkFile_of_unread (h : readProgram machine file source = .error ds) (config : Config)
    (natives : Registry) (level : LogLevel) :
    checkFile machine config natives level file source = .done (reports ds) .badData := by
  rw [checkFile, h]

theorem showFile_of_unread (h : readProgram machine file source = .error ds) :
    showFile machine file source = .done (reports ds) .badData := by
  rw [showFile, h]

/-- The file nests too deep for the machine, which is among what is reported when it is read. -/
def NestsTooDeep (machine : Machine) (file source : String) : Prop :=
  ∃ ds, readProgram machine file source = .error ds ∧ ∃ d ∈ ds, d.code = SyntaxError.nestingTooDeep.code

instance (machine : Machine) (file source : String) : Decidable (NestsTooDeep machine file source) :=
  match h : readProgram machine file source with
  | .error ds =>
    decidable_of_iff (∃ d ∈ ds, d.code = SyntaxError.nestingTooDeep.code)
      ⟨fun hd => ⟨ds, h, hd⟩, fun ⟨_, heq, hd⟩ => Except.error.inj (h.symm.trans heq) ▸ hd⟩
  | .ok _ => isFalse fun ⟨_, heq, _⟩ => nomatch h.symm.trans heq

theorem nestsTooDeep_of_cutOff {tokens : List Token} (ht : Lexer.tokenize file source = .ok tokens)
    (h : Parser.CutOff (Parser.parseProgram machine.nesting tokens).faults) :
    NestsTooDeep machine file source := by
  obtain ⟨f, hf, herror⟩ := h
  have hfails : Parser.parse machine.nesting tokens =
      .error (Parser.parseProgram machine.nesting tokens).faults := by
    rw [Parser.parse, if_neg fun hnil => List.ne_nil_of_mem hf (List.isEmpty_iff.mp hnil)]
  refine ⟨_, by simp only [readProgram, ht, hfails]; rfl, _, List.mem_map_of_mem hf, ?_⟩
  rw [Diagnostic.code_withSource, ← herror]
  rfl

/-- Machines that a file does not nest too deep for read it alike. -/
theorem readProgram_eq {machine' : Machine} (h : ¬ NestsTooDeep machine file source)
    (h' : ¬ NestsTooDeep machine' file source) :
    readProgram machine file source = readProgram machine' file source := by
  unfold readProgram
  cases ht : Lexer.tokenize file source with
  | error d => rfl
  | ok tokens =>
    have hparse := Parser.parse_eq_of_not_cutOff (fun hcut => h (nestsTooDeep_of_cutOff ht hcut))
      fun hcut => h' (nestsTooDeep_of_cutOff ht hcut)
    simp only [hparse]

theorem unread_of_unread {machine' : Machine}
    (h : NestsTooDeep machine file source ↔ NestsTooDeep machine' file source)
    (hread : readProgram machine file source = .error ds) :
    ∃ ds', readProgram machine' file source = .error ds' := by
  by_cases hdeep : NestsTooDeep machine' file source
  · obtain ⟨ds', hread', -⟩ := hdeep
    exact ⟨ds', hread'⟩
  · exact ⟨ds, (readProgram_eq hdeep (h.not.mpr hdeep)).trans hread⟩

/-- A tree is shown, if it is not too deep, just if there is one. -/
theorem ending_showFile (hshallow : ∀ p, readProgram machine file source = .ok p →
    (p.render? machine.prints).isSome) :
    (showFile machine file source).ending = .ok .badData ↔
      ∃ ds, readProgram machine file source = .error ds := by
  cases hread : readProgram machine file source with
  | error ds =>
    rw [showFile_of_unread hread]
    exact iff_of_true rfl ⟨ds, rfl⟩
  | ok p =>
    obtain ⟨tree, htree⟩ := Option.isSome_iff_exists.mp (hshallow p hread)
    have hshown : showFile machine file source = .done [.outLine tree] .success := by
      rw [showFile, hread]
      simp only [htree]
    rw [hshown]
    exact iff_of_false nofun nofun

end Unread

/-! ### Files that are read -/

section Read

variable {machine : Machine} {config : Config} {natives : Registry} {level : LogLevel}
  {file source : String} {p : Program Unit}

theorem runSource_of_read {s : Session} (h : readProgram s.machine file source = .ok p) :
    s.runSource file source = s.runProgram source p := by
  unfold readProgram at h
  cases ht : Lexer.tokenize file source with
  | error d => simp only [ht, reduceCtorEq] at h
  | ok tokens =>
    cases hp : Parser.parse s.machine.nesting tokens with
    | error faults => simp only [ht, hp, reduceCtorEq] at h
    | ok q =>
      simp only [ht, hp] at h
      obtain rfl := Except.ok.inj h
      simp only [Session.runSource, ht, hp]

variable (hread : readProgram machine file source = .ok p) (hlevel : level ≠ .debug)

include hread

theorem ending_checkFile :
    (checkFile machine config natives level file source).ending =
      .ok (if (Resolution.ofProgram config (Session.nativeNames config natives) p).hasErrors then .badData
        else .success) := by
  simp only [checkFile, hread]
  split <;> rfl

include hlevel

theorem err_checkFile (stage : Stage) :
    (checkFile machine config natives level file source).err =
      String.join (reportTexts (Session.reportOn source stage
        ((Resolution.ofProgram config (Session.nativeNames config natives) p).diagnostics
          config)).diagnostics) := by
  simp only [checkFile, hread, logged_of_ne hlevel, List.nil_append, Session.reportOn]
  split
  · exact err_done_reports _ _
  · have hcount : ∀ n : Nat, (if n = 0 then [] else [Chunk.outLine ("  " ++ toString n ++
        " warning(s)")]).filterMap Chunk.errText? = [] := by
      intro n
      split <;> rfl
    rw [Transcript.done, Transcript.err, List.filterMap_append, errTexts_reports, List.filterMap_cons,
      hcount]
    exact congrArg String.join (List.append_nil _)

end Read

/-! ### A check against a run -/

/-- The diagnostics of a report that are found without running the program. -/
def foreseen (r : Report) : List Diagnostic :=
  if r.stage = .runtime then r.diagnostics.dropLast else r.diagnostics

theorem foreseen_runtime (source : String) (ds : List Diagnostic) (d : Diagnostic) :
    foreseen (Session.reportOn source .runtime (ds ++ [d])) =
      (Session.reportOn source .runtime ds).diagnostics := by
  show (List.map _ _).dropLast = _
  rw [List.map_append, List.map_cons, List.map_nil, List.dropLast_concat]
  rfl

/-- A check ends and reports as a run does that never gets to an error of its own. -/
structure Foresees (check : Transcript) (r : Report) : Prop where
  ending : check.ending = .ok (if r.stage = .runtime then .success else exitAfter r)
  err : check.err = String.join (reportTexts (foreseen r))

theorem foresees_checkFile {machine machine' : Machine} {config : Config} {natives : Registry}
    {clock : Nat → Float} {s : Session} {level : LogLevel} {file source : String} {report : Report}
    (hs : Session.create config natives clock machine = .ok s) (hlevel : level ≠ .debug)
    (hsame : readProgram machine' file source = readProgram s.machine file source)
    (h : (s.runSource file source).result = .ok report) :
    Foresees (checkFile machine' config natives level file source) report := by
  have hconfig : s.config = config := (Session.succeeds_create hs).config
  -- Both commands read the source in the same way; only what has been read is resolved.
  cases hread : readProgram s.machine file source with
  | error ds =>
    obtain ⟨stage, hstage, hresult⟩ := runSource_of_unread hread
    obtain rfl := Except.ok.inj (hresult.symm.trans h)
    rw [checkFile_of_unread (hsame.trans hread)]
    rcases hstage with rfl | rfl
    · exact ⟨rfl, err_done_reports ds _⟩
    · exact ⟨rfl, err_done_reports ds _⟩
  | ok p =>
    have hresolve := Session.resolve_create hs p
    have hcheck := hsame.trans hread
    have hending : (checkFile machine' config natives level file source).ending = _ :=
      ending_checkFile hcheck
    have herr (stage : Stage) : (checkFile machine' config natives level file source).err = _ :=
      err_checkFile hcheck hlevel stage
    rw [runSource_of_read hread] at h
    rw [← hresolve] at hending herr
    cases herrors : (s.resolve p).hasErrors with
    | true =>
      simp only [Session.runProgram, herrors, if_true, hconfig] at h
      obtain rfl := Except.ok.inj h
      rw [herrors] at hending
      exact ⟨hending, herr .resolve⟩
    | false =>
      rw [Session.result_runProgram herrors, hconfig] at h
      rw [herrors] at hending
      split at h
      · obtain rfl := Except.ok.inj h
        exact ⟨hending, herr .done⟩
      · rename_i e span _
        obtain rfl := Except.ok.inj h
        refine ⟨hending, (herr .runtime).trans ?_⟩
        rw [foreseen_runtime]
      · cases h

/-! ### Commands with their arguments -/

/-- The arguments ask for a command, and the configuration found for it is valid, asks for known built-in
functions only and logs nothing of what goes on inside. -/
structure Asks (around : Surroundings) (config : Config) (command : Command) (args : List String) :
    Prop where
  parsed : ∃ path verbosity, parse args = .ok ⟨path, verbosity, command⟩ ∧
    Config.load around.bounds around.read (path.map Path.ofText) around.find? around.vars = .ok config ∧
      logLevel config verbosity ≠ .debug
  known : unknownNatives config around.natives = []

/-- The text of a source file, every line of which ends in a line feed alone. -/
def sourceText (text : String) : String := String.ofList (Text.unifyNewlines text.toList)

variable {around : Surroundings} {config : Config} {file text : String} {args : List String}

theorem withFile_of_find? (hfile : around.find? (Path.ofText file) = some (.file text))
    (k : String → Transcript) : withFile around file k = k (sourceText text) := by
  simp only [withFile, hfile, sourceText]

theorem Asks.start {command : Command} (h : Asks around config command args) :
    ∃ level, level ≠ .debug ∧ start around args = execute around config level command := by
  obtain ⟨path, verbosity, hparse, hload, hlevel⟩ := h.parsed
  refine ⟨_, hlevel, ?_⟩
  simp only [CommandLine.start, hparse, perform, hload, h.known]

theorem Asks.transcript_run (h : Asks around config (.run (some file)) args)
    (hfile : around.find? (Path.ofText file) = some (.file text)) {s : Session}
    (hs : Session.create config around.natives around.clock (around.machine (.run (some file))) = .ok s)
    (input : String) : ∃ level, level ≠ .debug ∧
      transcript around args input = runFile s level file (sourceText text) := by
  obtain ⟨level, hlevel, hstart⟩ := h.start
  refine ⟨level, hlevel, ?_⟩
  simp only [transcript, hstart, execute, withFile_of_find? hfile, newSession, hs, logged_of_ne hlevel]
  rfl

theorem Asks.transcript_check (h : Asks around config (.check file) args)
    (hfile : around.find? (Path.ofText file) = some (.file text)) (input : String) :
    ∃ level, level ≠ .debug ∧
      transcript around args input =
        checkFile (around.machine (.check file)) config around.natives level file (sourceText text) := by
  obtain ⟨level, hlevel, hstart⟩ := h.start
  refine ⟨level, hlevel, ?_⟩
  simp only [transcript, hstart, execute, withFile_of_find? hfile]

theorem Asks.transcript_ast (h : Asks around config (.ast file) args)
    (hfile : around.find? (Path.ofText file) = some (.file text)) (input : String) :
    transcript around args input = showFile (around.machine (.ast file)) file (sourceText text) := by
  obtain ⟨level, -, hstart⟩ := h.start
  simp only [transcript, hstart, execute, withFile_of_find? hfile]

/-! ### Agreement -/

/-- A check ends with bad data just if a run does; otherwise it succeeds, and the run succeeds or has an
error of its own. -/
def SameExit (check run : Transcript) : Prop :=
  (check.ending = .ok .badData ↔ run.ending = .ok .badData) ∧
    (run.ending ≠ .ok .badData → check.ending = .ok .success ∧
      (run.ending = .ok .success ∨ run.ending = .ok .runtimeError))

/-- A check writes to the error output what a run does, up to the error in which the run ends. -/
def SameErr (check run : Transcript) (report : Report) : Prop :=
  (run.ending ≠ .ok .runtimeError → check.err = run.err) ∧
    (run.ending = .ok .runtimeError → ∃ d, report.diagnostics.getLast? = some d ∧ d.IsErrorOf '4' ∧
      run.err = check.err ++ (d.render ++ "\n"))

theorem Foresees.sameExit {check run : Transcript} {report : Report} (h : Foresees check report)
    (hrun : run.ending = .ok (exitAfter report)) : SameExit check run := by
  have hcheck := h.ending
  obtain ⟨stage, ds⟩ := report
  cases stage <;> simp [SameExit, hcheck, hrun, exitAfter]

theorem reportTexts_concat (ds : List Diagnostic) (d : Diagnostic) :
    String.join (reportTexts (ds ++ [d])) = String.join (reportTexts ds) ++ (d.render ++ "\n") := by
  rw [reportTexts, List.map_append, String.join_append, reportTexts]
  simp [String.join]

theorem Foresees.sameErr {check run : Transcript} {report : Report} (h : Foresees check report)
    (hfits : report.FitsStage) (hrun : run.ending = .ok (exitAfter report))
    (herr : run.err = String.join (reportTexts report.diagnostics)) : SameErr check run report := by
  have hcheck := h.err
  obtain ⟨stage, ds⟩ := report
  cases stage with
  | runtime =>
    obtain ⟨warnings, d, hds, -, hd, -⟩ := hfits
    obtain rfl : ds = warnings ++ [d] := hds
    refine ⟨fun hne => absurd hrun hne, fun _ => ⟨d, List.getLast?_concat, hd, ?_⟩⟩
    have hforeseen : foreseen ⟨.runtime, warnings ++ [d]⟩ = warnings := List.dropLast_concat
    rw [hcheck, hforeseen, herr, reportTexts_concat]
  | _ =>
    refine ⟨fun _ => hcheck.trans herr.symm, fun hexit => ?_⟩
    have hcontra := hrun.symm.trans hexit
    cases hcontra

/-- A file that neither machine reads is bad data to a check and to a run. -/
theorem sameExit_of_unread {machine : Machine} {natives : Registry} {level level' : LogLevel} {s : Session}
    {source : String} {ds ds' : List Diagnostic}
    (hcheck : readProgram machine file source = .error ds)
    (hrun : readProgram s.machine file source = .error ds') :
    SameExit (checkFile machine config natives level file source) (runFile s level' file source) := by
  obtain ⟨stage, hstage, hreport⟩ := runSource_of_unread hrun
  have hending : (runFile s level' file source).ending = .ok .badData := by
    simp only [runFile, hreport]
    rcases hstage with rfl | rfl <;> rfl
  rw [checkFile_of_unread hcheck]
  exact ⟨iff_of_true rfl hending, fun hne => absurd hending hne⟩

/-- The file nests too deep for the machine that the command finds. -/
def Surroundings.TooDeepFor (around : Surroundings) (file text : String) (command : Command) : Prop :=
  NestsTooDeep (around.machine command) file (sourceText text)

/-- Checking a file, running it and showing its tree agree, as far as the file nests too deep for all of them
or for none. A check and a run that ends do so with the same exit code, unless the program fails while it
runs. They write the same to the error output but for that failure, if the file nests too deep for neither.
The tree is shown, if it is not too deep, unless both of the others fail in reading tokens or in parsing. -/
theorem file_commands_agree (hfile : around.find? (Path.ofText file) = some (.file text))
    {runArgs checkArgs astArgs : List String} (hrun : Asks around config (.run (some file)) runArgs)
    (hcheck : Asks around config (.check file) checkArgs)
    (hast : Asks around config (.ast file) astArgs) (input : String) {exit : Exit}
    (hends : (transcript around runArgs input).ending = .ok exit) :
    ∃ s report,
      Session.create config around.natives around.clock (around.machine (.run (some file))) = .ok s ∧
      (s.runSource file (sourceText text)).result = .ok report ∧
        ((around.TooDeepFor file text (.run (some file)) ↔ around.TooDeepFor file text (.check file)) →
          SameExit (transcript around checkArgs input) (transcript around runArgs input)) ∧
        (¬ around.TooDeepFor file text (.run (some file)) → ¬ around.TooDeepFor file text (.check file) →
          SameErr (transcript around checkArgs input) (transcript around runArgs input) report) ∧
        ((around.TooDeepFor file text (.run (some file)) ↔ around.TooDeepFor file text (.check file)) →
          (around.TooDeepFor file text (.run (some file)) ↔ around.TooDeepFor file text (.ast file)) →
          (∀ p, readProgram (around.machine (.ast file)) file (sourceText text) = .ok p →
            (p.render? (around.machine (.ast file)).prints).isSome) →
          ((transcript around astArgs input).ending = .ok .badData ↔
            (report.stage = .lex ∨ report.stage = .parse) ∧
              ∃ ds, readProgram (around.machine (.check file)) file (sourceText text) = .error ds)) := by
  obtain ⟨s, hs⟩ := Session.exists_create hrun.known around.clock (around.machine (.run (some file)))
  obtain ⟨runLevel, hrunLevel, hrunEq⟩ := hrun.transcript_run hfile hs input
  obtain ⟨checkLevel, hcheckLevel, hcheckEq⟩ := hcheck.transcript_check hfile input
  have hastEq := hast.transcript_ast hfile input
  have hrunDeep : around.TooDeepFor file text (.run (some file)) ↔
      NestsTooDeep s.machine file (sourceText text) := by
    rw [Surroundings.TooDeepFor, (Session.succeeds_create hs).machine]
  rw [hrunEq] at hends ⊢
  rw [hcheckEq, hastEq, hrunDeep]
  cases hresult : (s.runSource file (sourceText text)).result with
  | error stop =>
    simp only [runFile, hresult, reduceCtorEq] at hends
  | ok report =>
    have hending : (runFile s runLevel file (sourceText text)).ending = .ok (exitAfter report) := by
      simp only [runFile, hresult]
    have hforesees (h : ¬ NestsTooDeep (around.machine (.check file)) file (sourceText text))
        (h' : ¬ NestsTooDeep s.machine file (sourceText text)) :=
      foresees_checkFile hs hcheckLevel (readProgram_eq h h') hresult
    refine ⟨s, report, hs, hresult, fun hdeep => ?_, fun hrunDepth hcheckDepth => ?_,
      fun hdeep hastDeep hshallow => ?_⟩
    · by_cases hrunDepth : NestsTooDeep s.machine file (sourceText text)
      · obtain ⟨ds, hread, -⟩ := hdeep.mp hrunDepth
        obtain ⟨ds', hread', -⟩ := hrunDepth
        exact sameExit_of_unread hread hread'
      · exact (hforesees (hdeep.not.mp hrunDepth) hrunDepth).sameExit hending
    · have hfits := (Session.reported_of_runSource hresult).fitsStage
      exact (hforesees hcheckDepth hrunDepth).sameErr hfits hending (err_runFile hrunLevel hresult)
    · rw [ending_showFile hshallow]
      constructor
      · rintro ⟨ds, hread⟩
        obtain ⟨ds', hread'⟩ := unread_of_unread hastDeep.symm hread
        obtain ⟨stage, hstage, hreport⟩ := runSource_of_unread hread'
        obtain rfl := Except.ok.inj (hreport.symm.trans hresult)
        exact ⟨hstage, unread_of_unread hdeep hread'⟩
      · rintro ⟨-, ds, hread⟩
        obtain ⟨ds', hread'⟩ := unread_of_unread hdeep.symm hread
        exact unread_of_unread hastDeep hread'

def Transcript.exit? (t : Transcript) : Option Exit :=
  match t.ending with
  | .ok exit => some exit
  | .error _ => none

theorem Transcript.ending_of_exit? {t : Transcript} {exit : Exit} (h : t.exit? = some exit) :
    t.ending = .ok exit := by
  unfold exit? at h
  split at h
  · rename_i hending
    rw [hending, Option.some.inj h]
  · cases h

/-- The command breaks down because the host refuses to run the program. -/
def Transcript.isRefused (t : Transcript) : Bool :=
  match t.ending with
  | .error (.program .refused) => true
  | _ => false

/-- One source file, and one built-in function. -/
def desk : Surroundings where
  bounds := {}
  read := fun _ => .error .malformed
  find? path := if path.text == "f" then some (.file "y;") else none
  vars := []
  natives := ⟨[.str]⟩
  clock := fun _ => default
  machine := fun _ => .standard

theorem file_commands_agree_undefined :
    (transcript desk ["-v", "check", "f"] "").ending = .ok .success ∧
      ∃ d : Diagnostic, d.IsErrorOf '4' ∧ (transcript desk ["run", "f"] "").err =
        (transcript desk ["-v", "check", "f"] "").err ++ (d.render ++ "\n") := by
  have hrun : Asks desk {} (.run (some "f")) ["run", "f"] :=
    ⟨⟨none, 0, by rfl, by rfl, by decide⟩, by rfl⟩
  have hcheck : Asks desk {} (.check "f") ["-v", "check", "f"] :=
    ⟨⟨none, 1, by rfl, by rfl, by decide⟩, by rfl⟩
  have hast : Asks desk {} (.ast "f") ["ast", "f"] :=
    ⟨⟨none, 0, by rfl, by rfl, by decide⟩, by rfl⟩
  have hexit : (transcript desk ["run", "f"] "").exit? = some .runtimeError := by decide +kernel
  have hends := Transcript.ending_of_exit? hexit
  have hfile : desk.find? (Path.ofText "f") = some (.file "y;") := by rfl
  have hdepth : ¬ NestsTooDeep .standard "f" (sourceText "y;") := by decide +kernel
  obtain ⟨s, report, -, -, hsame, herr, -⟩ := file_commands_agree hfile hrun hcheck hast "" hends
  obtain ⟨d, -, hd, htexts⟩ := (herr hdepth hdepth).2 hends
  have hgood : (transcript desk ["run", "f"] "").ending ≠ .ok .badData := by
    rw [hends]
    nofun
  exact ⟨((hsame (iff_of_false hdepth hdepth)).2 hgood).1, d, hd, htexts⟩

/-- Commands that have little of the stack left: a run, which parses one call further down, gets one level
less deep than the others. -/
def narrowDesk : Surroundings where
  bounds := {}
  read := fun _ => .error .malformed
  find? path := if path.text == "f" then some (.file "print -1;") else none
  vars := []
  natives := ⟨[]⟩
  clock := fun _ => default
  machine
    | .run _ => { Machine.standard with nesting := 4 }
    | .check _ | .ast _ => { Machine.standard with nesting := 5 }

/-- A program that may have more calls in progress than the host gives a stack for. -/
def crowdedDesk : Surroundings :=
  { desk with
    find? := fun path => if path.text == "f" then some (.file "print 1;") else none
    vars := [("TREELOX_MAX_CALL_DEPTH", "200000000")] }

/-- A file may nest too deep to be run and not too deep to be checked; and there may be no stack to run a
program with that is checked without one. -/
theorem file_commands_disagree :
    ((transcript narrowDesk ["check", "f"] "").exit? = some .success ∧
      (transcript narrowDesk ["run", "f"] "").exit? = some .badData) ∧
    (transcript crowdedDesk ["check", "f"] "").exit? = some .success ∧
      (transcript crowdedDesk ["run", "f"] "").isRefused = true := by
  decide +kernel

end CommandLine

end Lox
