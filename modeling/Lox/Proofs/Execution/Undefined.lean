import Lox.Proofs.Execution.Discipline
import Lox.Proofs.Execution.Outcomes
import Lox.Proofs.Scope.Warnings
import Lox.Proofs.Syntax.Relocation

/-!
# Undefined variables

A global name that has a value keeps having one, and the references of a function are those of the program
that declares it. So where a variable is found undefined at run time, the program with that reference
declares it at top level or was warned about it, however much later the function is called.
-/

namespace Lox

theorem Frame.mem_names_iff (f : Frame) (name : String) :
    name ∈ f.names ↔ (f.get? name).isSome := by
  rw [isSome_get?, names, List.mem_mergeSort, contains, List.any_eq_true, List.mem_map]
  simp only [beq_iff_eq]

theorem Session.mem_globalNames_iff (s : Session) (name : String) :
    name ∈ s.globalNames ↔ (s.world.store.slot? globals.frame name).isSome :=
  Frame.mem_names_iff _ name

theorem Value.Within.mono {place place' : Environment → Prop}
    {reference reference' : Reference (Option Nat) → Prop} {v : Value} (h : v.Within place reference)
    (hplace : ∀ env, place env → place' env) (hreference : ∀ r, reference r → reference' r) :
    v.Within place' reference' := by
  cases v with
  | function id f =>
    cases f with
    | native name arity => trivial
    | closure c => exact ⟨hplace c.env h.1, fun r hr => hreference r (h.2 r hr)⟩
  | _ => trivial

/-! ### Global references -/

/-- A reference that is global has a name with a value, or is excused where it stands. -/
def Announced (known : String → Prop) (excused : String → Span → Prop)
    (r : Reference (Option Nat)) : Prop :=
  r.ref = none → known r.name ∨ excused r.name r.span

/-- Functions see the globals of the session, known names have values there, and global references are
announced. -/
structure Store.Announces (known : String → Prop) (excused : String → Span → Prop) (s : Store) :
    Prop where
  values : ∀ id name v, s.slot? id name = some v →
    v.Within (fun env => env.outermost = Session.globals.frame) (Announced known excused)
  known : ∀ x, known x → (s.slot? Session.globals.frame x).isSome

def Discipline.announced (known : String → Prop) (excused : String → Span → Prop) : Discipline where
  store := Store.Announces known excused
  place _ env := env.outermost = Session.globals.frame
  reference := Announced known excused
  undefined := excused
  place_mono _ he := he
  held hs _ _ hv := hs.values _ _ _ hv
  missing := by
    intro s env r hs he hr href hslot
    refine (hr href).resolve_left fun hknown => ?_
    have hsome := hs.known r.name hknown
    rw [← show env.outermost = _ from he, hslot] at hsome
    cases hsome
  define name hs _ _ hv := by
    refine ⟨fun id x u hu => ?_, fun x hx => Store.isSome_slot?_define (hs.known x hx) _ name _⟩
    rcases Store.slot?_define_cases hu with ⟨-, rfl⟩ | hu
    · exact hv
    · exact hs.values id x u hu
  alloc name hs he := by
    refine ⟨⟨fun id x v hv => ?_, fun x hx => ?_⟩, ?_⟩
    · rw [Store.slot?_alloc] at hv
      exact hs.values id x v hv
    · rw [Store.slot?_alloc]
      exact hs.known x hx
    · rw [Environment.outermost_child]
      exact he

namespace Session

/-! ### Sessions -/

variable {excused : String → Span → Prop}

/-- What holds between two programs: the functions of the session have announced their references. -/
structure Announces (excused : String → Span → Prop) (config : Config) (s : Session) : Prop where
  settings : s.config = config
  natives : s.natives.ReturnsGiven
  store : s.world.store.Announces (· ∈ s.globalNames) excused

theorem Announces.of_store {config : Config} {s : Session} {known : String → Prop} {table : Table}
    {w : World} (h : s.Announces excused config) (hw : w.store.Announces known excused) :
    ({ s with table, world := w } : Session).Announces excused config where
  settings := h.settings
  natives := h.natives
  store := by
    refine ⟨fun id name v hv => (hw.values id name v hv).mono (fun _ he => he) ?_, fun x hx => ?_⟩
    · exact fun r hr href => (hr href).imp_left fun hknown =>
        (mem_globalNames_iff _ _).mpr (hw.known r.name hknown)
    · exact (mem_globalNames_iff _ x).mp hx

theorem Announces.execute {config : Config} {s : Session} (h : s.Announces excused config)
    {p : Program Unit} (hp : ∀ r ∈ p.annotate.references, Announced (· ∈ s.globalNames) excused r) :
    (s.execute (s.resolve p)).2.2.Announces excused config ∧
      ∀ x span, (s.execute (s.resolve p)).1 = some (.error (.undefinedVariable x) span) →
        excused x span := by
  let D := Discipline.announced (· ∈ s.globalNames) excused
  have hkeeps : D.Keeps s.cleared (execProgram s.host globals (s.resolve p).program.statements)
      fun _ _ => True := by
    rw [program_resolve]
    exact .execProgram h.natives p.annotate.statements hp h.store rfl
  have hrun : D.store (Run.world (s.run (s.resolve p).program.statements)).store ∧
      ∀ x span, Run.stop? (s.run (s.resolve p).program.statements) =
        some (.error (.undefinedVariable x) span) → excused x span := by
    refine run_induction (P := fun result => D.store (Run.world result).store ∧
      ∀ x span, Run.stop? result = some (.error (.undefinedVariable x) span) → excused x span)
      ⟨h.store, fun _ _ hstop => nomatch hstop⟩ fun room => ?_
    have hkept := hkeeps room
    split at hkept <;> rename_i heq <;> rw [heq]
    · exact ⟨hkept.1.store, fun _ _ hstop => nomatch hstop⟩
    · refine ⟨hkept.1.store, fun x span hstop => ?_⟩
      obtain rfl := Option.some.inj hstop
      exact hkept.2
  rw [execute_eq]
  exact ⟨h.of_store hrun.1, hrun.2⟩

/-- A global reference of a program is announced if its name is declared at top level or warned about. -/
theorem announced_of_reported {config : Config} {s : Session} (hs : s.config = config)
    (hwarn : config.warnUndefinedGlobals = true) {p : Program Unit}
    (hp : ∀ r ∈ p.annotate.references, r.ref = none →
      ((∃ f ∈ (s.resolve p).reported config, f.issue = .undefinedGlobal r.name) ∨
        r.name ∈ Resolution.topLevelNames p) → excused r.name r.span)
    {r : Reference (Option Nat)} (hr : r ∈ p.annotate.references) :
    Announced (· ∈ s.globalNames) excused r := by
  subst hs
  intro href
  rcases Resolution.reported_of_global hwarn s.globalNames p hr href with htop | hknown | hwarns
  · exact Or.inr (hp r hr href (Or.inr htop))
  · exact Or.inl hknown
  · exact Or.inr (hp r hr href (Or.inl hwarns))

/-! ### New sessions -/

theorem announces_create {config : Config} {natives : Registry} {clock : Nat → Float} {machine : Machine}
    {s : Session} (hn : natives.ReturnsGiven) (h : create config natives clock machine = .ok s) :
    s.Announces excused config := by
  have hempty : (Store.alloc {} "globals").2.Announces (fun _ => False) excused := by
    refine ⟨fun id name v hv => ?_, fun x hx => hx.elim⟩
    rw [slot?_new] at hv
    cases hv
  -- nothing is known to be global yet, and built-in functions refer to nothing
  have hstore : s.world.store.Announces (fun _ => False) excused := by
    refine create_induction (P := fun w => w.store.Announces (fun _ => False) excused) h hempty ?_
    intro w hw native _
    exact (Discipline.announced (fun _ => False) excused).define native.name hw
      (show globals.outermost = _ from rfl) List.mem_cons_self trivial
  obtain rfl := eq_of_create h
  refine ⟨rfl, hn, ⟨fun id name v hv => (hstore.values id name v hv).mono (fun _ he => he) ?_, ?_⟩⟩
  · exact fun r hr href => (hr href).imp_left False.elim
  · exact fun x hx => (mem_globalNames_iff _ x).mp hx

/-! ### Sources -/

theorem eq_of_diagnostic {e : RuntimeError} {x source : String} {span span' : Span}
    (h : (e.diagnostic span').withSource source =
      ((RuntimeError.undefinedVariable x).diagnostic span).withSource source) :
    e = .undefinedVariable x ∧ span' = span := by
  have hcode := congrArg Diagnostic.code h
  have hmessage := congrArg Diagnostic.message h
  have hspan := congrArg Diagnostic.span h
  rw [Diagnostic.code_withSource, Diagnostic.code_withSource] at hcode
  rw [Diagnostic.message_withSource, Diagnostic.message_withSource] at hmessage
  rw [Diagnostic.span_withSource, Diagnostic.span_withSource] at hspan
  refine ⟨?_, hspan⟩
  cases e with
  | undefinedVariable y =>
    have hname : "undefined variable '" ++ y ++ "'" = "undefined variable '" ++ x ++ "'" := hmessage
    have hchars := congrArg String.toList hname
    simp only [String.toList_append, List.append_cancel_left_eq, List.append_cancel_right_eq] at hchars
    rw [String.toList_injective hchars]
  | _ => simp [RuntimeError.diagnostic, RuntimeError.code] at hcode

theorem Announces.runSource {config : Config} {s : Session} (h : s.Announces excused config)
    (hwarn : config.warnUndefinedGlobals = true) {file source : String}
    (hp : ∀ p, config.Accepts s.machine.nesting file source p → ∀ r ∈ p.annotate.references, r.ref = none →
      ((∃ f ∈ (s.resolve p).reported config, f.issue = .undefinedGlobal r.name) ∨
        r.name ∈ Resolution.topLevelNames p) → excused r.name r.span) :
    (s.runSource file source).session.Announces excused config ∧
      ∀ report x span, (s.runSource file source).result = .ok report →
        ((RuntimeError.undefinedVariable x).diagnostic span).withSource source ∈ report.diagnostics →
          excused x span := by
  by_cases haccepted : ∃ p, s.config.Accepts s.machine.nesting file source p
  · obtain ⟨p, hap⟩ := haccepted
    have herrors := hasErrors_of_accepts hap
    have hexec := h.execute fun r hr =>
      announced_of_reported h.settings hwarn (hp p (h.settings ▸ hap)) hr
    rw [runSource_of_accepts hap, session_runProgram herrors, result_runProgram herrors]
    refine ⟨hexec.1, fun report x span hresult hmem => ?_⟩
    -- warnings about names have other codes than errors of a program that runs
    have hfindings : ∀ d ∈ (s.resolve p).diagnostics s.config, d.withSource source ≠
        ((RuntimeError.undefinedVariable x).diagnostic span).withSource source := by
      intro d hd heq
      obtain ⟨f, -, rfl⟩ := List.mem_map.mp hd
      have hcode := congrArg Diagnostic.code heq
      rw [Diagnostic.code_withSource, Diagnostic.code_withSource] at hcode
      exact f.issue.code_ne (.undefinedVariable x) hcode
    split at hresult
    · obtain rfl := Except.ok.inj hresult
      obtain ⟨d, hd, heq⟩ := List.mem_map.mp hmem
      exact absurd heq (hfindings d hd)
    · rename_i e span' hstop
      obtain rfl := Except.ok.inj hresult
      obtain ⟨d, hd, heq⟩ := List.mem_map.mp hmem
      rcases List.mem_append.mp hd with hd | hd
      · exact absurd heq (hfindings d hd)
      · obtain rfl := List.mem_singleton.mp hd
        obtain ⟨rfl, rfl⟩ := eq_of_diagnostic heq
        exact hexec.2 x span' hstop
    · cases hresult
  · obtain ⟨report, events, hrun, hcodes⟩ :=
      runSource_of_not_accepts (not_exists.mp haccepted)
    rw [hrun]
    refine ⟨h, fun report' x span hresult hmem => ?_⟩
    obtain rfl := Except.ok.inj hresult
    refine absurd ?_ (hcodes _ hmem (.undefinedVariable x))
    rw [Diagnostic.code_withSource]
    rfl

/-- A reference that is found undefined in a session where the sources `runs` are run stands in one of
them, which has the name of the place; no scope around it declares its name, and the program of that
source either declares the name at top level or was warned about it. -/
def Excused (s : Session) (config : Config) (runs : List (String × String)) (x : String)
    (span : Span) : Prop :=
  ∃ before file source later, runs = before ++ (file, source) :: later ∧ span.file = file ∧
    ∃ p, config.Accepts s.machine.nesting file source p ∧
      (∃ r ∈ ((s.after before).resolve p).program.references,
        r.name = x ∧ r.span = span ∧ r.ref = none) ∧
      ((∃ f ∈ ((s.after before).resolve p).reported config, f.issue = .undefinedGlobal x) ∨
        x ∈ Resolution.topLevelNames p)

theorem file_of_accepts {config : Config} {limit : Nat} {file source : String} {p : Program Unit}
    (h : config.Accepts limit file source p) {r : Reference (Option Nat)}
    (hr : r ∈ p.annotate.references) : r.span.file = file := by
  obtain ⟨tokens, ht, hp, -⟩ := Config.accepts_iff.mp h
  rw [← Resolution.program_ofProgram config [] p, Resolution.ofProgram_eq, Program.references] at hr
  dsimp only [Resolution.program, Program.map] at hr
  rw [Stmt.referencesAll_mapAll] at hr
  obtain ⟨r, hmem, rfl⟩ := List.mem_map.mp hr
  refine Parser.file_of_parse ht hp (r.relabel noLabel) ?_
  rw [← p.map_numbered, Program.references, Program.map, Stmt.referencesAll_mapAll]
  exact List.mem_map_of_mem hmem

theorem excused_of_reported {s : Session} {config : Config} {before later : List (String × String)}
    {file source : String} {p : Program Unit} (hp : config.Accepts s.machine.nesting file source p)
    {r : Reference (Option Nat)} (hr : r ∈ p.annotate.references) (href : r.ref = none)
    (h : (∃ f ∈ ((s.after before).resolve p).reported config, f.issue = .undefinedGlobal r.name) ∨
      r.name ∈ Resolution.topLevelNames p) :
    Excused s config (before ++ (file, source) :: later) r.name r.span := by
  refine ⟨before, file, source, later, rfl, file_of_accepts hp hr, p, hp, ⟨r, ?_, rfl, rfl, href⟩, h⟩
  rwa [program_resolve]

theorem Announces.after {config : Config} {s : Session} (hwarn : config.warnUndefinedGlobals = true)
    (done todo rest : List (String × String))
    (h : (s.after done).Announces (Excused s config (done ++ todo ++ rest)) config) :
    (s.after (done ++ todo)).Announces (Excused s config (done ++ todo ++ rest)) config := by
  induction todo generalizing done with
  | nil => rwa [List.append_nil] at h ⊢
  | cons run todo ih =>
    have hmore : done ++ run :: todo = done ++ [run] ++ todo := by simp
    rw [hmore] at h ⊢
    refine ih (done ++ [run]) ?_
    rw [Session.after, List.foldl_append]
    refine (h.runSource hwarn fun p hp r hr href hreported => ?_).1
    rw [machine_after] at hp
    rw [List.append_assoc, List.append_assoc]
    exact excused_of_reported hp hr href hreported

/-- Where a session warns about undefined globals, a variable that is found undefined at run time is no
surprise: the program with that reference, this one or an earlier one whose function is called, was
warned about the name when it was resolved or declares it at top level. -/
theorem excused_of_undefined {config : Config} {natives : Registry} {clock : Nat → Float}
    {machine : Machine} {s : Session} (hn : natives.ReturnsGiven)
    (hs : create config natives clock machine = .ok s)
    (hwarn : config.warnUndefinedGlobals = true) (earlier : List (String × String))
    {file source x : String} {span : Span} {report : Report}
    (hreport : ((s.after earlier).runSource file source).result = .ok report)
    (hx : ((RuntimeError.undefinedVariable x).diagnostic span).withSource source ∈
      report.diagnostics) :
    Excused s config (earlier ++ [(file, source)]) x span := by
  have hearlier := Announces.after hwarn [] earlier [(file, source)] (announces_create hn hs)
  refine (hearlier.runSource hwarn fun p hp r hr href hreported => ?_).2 report x span hreport hx
  rw [machine_after] at hp
  exact excused_of_reported hp hr href hreported

theorem excused_of_undefined_in_call :
    Excused bare bare.config [("f", "fun f() { x; }"), ("", "f();")] "x"
      ⟨"f", ⟨1, 11, 10⟩, ⟨1, 12, 11⟩⟩ := by
  let later := (bare.after [("f", "fun f() { x; }")]).runSource "" "f();"
  let d := ((RuntimeError.undefinedVariable "x").diagnostic
    ⟨"f", ⟨1, 11, 10⟩, ⟨1, 12, 11⟩⟩).withSource "f();"
  have hrun : (later.result.toOption.any fun report => report.diagnostics.contains d) = true := by
    decide +kernel
  obtain ⟨report, hreport, hd⟩ := (Option.any_eq_true _ _).mp hrun
  have hcreate : create bare.config .standard bare.clock .standard = .ok bare := rfl
  have hok : later.result = .ok report → Excused bare bare.config [("f", "fun f() { x; }"), ("", "f();")]
      "x" ⟨"f", ⟨1, 11, 10⟩, ⟨1, 12, 11⟩⟩ := fun h =>
    excused_of_undefined Registry.returnsGiven_standard hcreate rfl [("f", "fun f() { x; }")] h
      (List.contains_iff_mem.mp hd)
  apply hok
  cases hresult : later.result with
  | error stop =>
    rw [hresult] at hreport
    cases hreport
  | ok r =>
    rw [hresult] at hreport
    exact congrArg Except.ok (Option.some.inj hreport)

end Session

end Lox
