import Lox.Proofs.Execution.Calls
import Lox.Proofs.Scope.Bindings
import Lox.Proofs.Syntax.Recognition
import Lox.Session

/-!
# Sessions are safe

A session starts with built-in functions only, and every source that it runs leaves its world sound. So
in no session is a resolved place missing, with one exception: a local variable that its own initializer
assigns has no value yet.
-/

namespace Lox

namespace Config

/-- The program of a source that reads, parses within the limit on nesting and resolves without an error. -/
def accepted? (config : Config) (limit : Nat) (file source : String) : Option (Program Unit) :=
  match Lexer.tokenize file source with
  | .error _ => none
  | .ok tokens =>
    match Parser.parse limit tokens with
    | .error _ => none
    | .ok p => if (Resolution.ofProgram config [] p).hasErrors then none else some p

def Accepts (config : Config) (limit : Nat) (file source : String) (p : Program Unit) : Prop :=
  config.accepted? limit file source = some p

instance (config : Config) (limit : Nat) (file source : String) :
    Decidable (∃ p, config.Accepts limit file source p) :=
  decidable_of_iff ((config.accepted? limit file source).isSome = true) Option.isSome_iff_exists

variable {config : Config} {limit : Nat} {file source : String} {p : Program Unit}

theorem accepts_iff : config.Accepts limit file source p ↔ ∃ tokens, Lexer.tokenize file source = .ok tokens ∧
      Parser.parse limit tokens = .ok p ∧ p.Accepted config.allowLocalRedeclaration := by
  unfold Accepts accepted?
  rw [← Resolution.hasErrors_ofProgram config [] p]
  cases Lexer.tokenize file source with
  | error d => simp
  | ok tokens =>
    dsimp only
    cases hparse : Parser.parse limit tokens with
    | error faults => simp [hparse]
    | ok q =>
      simp only [Except.ok.injEq, exists_eq_left', hparse]
      cases herrors : (Resolution.ofProgram config [] q).hasErrors with
      | true =>
        simp only [if_true, reduceCtorEq, false_iff, not_and]
        intro hq
        rw [← hq, herrors]
        decide
      | false =>
        simp only [Bool.false_eq_true, if_false, Option.some.injEq]
        constructor
        · intro hq
          exact ⟨hq, hq ▸ herrors⟩
        · intro hq
          exact hq.1

theorem Accepts.placed (h : config.Accepts limit file source p) : p.Placed := by
  obtain ⟨tokens, ht, hparse, -⟩ := accepts_iff.mp h
  exact Grammar.placed_of_isProgram (Parser.isProgram_of_parse (Lexer.ended_tokenize ht) hparse)

theorem Accepts.accepted (h : config.Accepts limit file source p) :
    p.Accepted config.allowLocalRedeclaration := by
  obtain ⟨tokens, -, -, ha⟩ := accepts_iff.mp h
  exact ha

end Config

namespace Session

variable {own : String → Prop}

def after (s : Session) (runs : List (String × String)) : Session :=
  runs.foldl (fun s run => (s.runSource run.1 run.2).session) s

/-- What holds of a session between two programs. -/
structure Sound (own : String → Prop) (config : Config) (machine : Machine) (s : Session) : Prop where
  settings : s.config = config
  machine : s.machine = machine
  natives : s.natives.ReturnsGiven
  sound : s.world.store.Sound config.allowLocalRedeclaration own
  covers : s.world.store.Covers [] globals

/-! ### Programs -/

theorem program_resolve (s : Session) (p : Program Unit) : (s.resolve p).program = p.annotate :=
  Resolution.program_ofProgram _ _ p

/-- What an interpreter finds in the table are the bindings of the program at hand. -/
theorem map_extend (t : Table) (r : Resolution) :
    r.numbered.map ((t.extend r.bindings).lookup t.programs) = r.program :=
  congrArg r.numbered.map (funext t.lookup_extend)

theorem execute_of_ok {s : Session} {r : Resolution} {w : World}
    (h : s.run r.program.statements = .ok () w) :
    s.execute r =
      (none, w.printed.toList, { s with table := s.table.extend r.bindings, world := w }) := by
  unfold execute
  simp only [map_extend, h]

theorem execute_of_error {s : Session} {r : Resolution} {stop : Stop} {w : World}
    (h : s.run r.program.statements = .error stop w) :
    s.execute r =
      (some stop, w.printed.toList, { s with table := s.table.extend r.bindings, world := w }) := by
  unfold execute
  simp only [map_extend, h]

theorem run_of_room {s : Session} {room : Room} (h : s.room? = some room) (ss : List ResolvedStmt) :
    s.run ss = (execProgram s.host globals ss).run room s.cleared := by
  unfold run
  rw [h]

theorem run_of_refused {s : Session} (h : s.room? = none) (ss : List ResolvedStmt) :
    s.run ss = .error .refused s.cleared := by
  unfold run
  rw [h]

/-- What holds of a refusal and of a run in any room holds of the run of a program in a session. -/
theorem run_induction {P : EStateM.Result Stop World Unit → Prop} {s : Session} {ss : List ResolvedStmt}
    (hrefused : P (.error .refused s.cleared))
    (hrun : ∀ room, P ((execProgram s.host globals ss).run room s.cleared)) : P (s.run ss) := by
  cases h : s.room? with
  | none => rwa [run_of_refused h]
  | some room =>
    rw [run_of_room h]
    exact hrun room

/-- A source either leaves the session alone and is reported on, or its program is executed. -/
theorem runSource_cases (s : Session) (file source : String) :
    ((s.runSource file source).session = s ∧ ∃ r, (s.runSource file source).result = .ok r) ∨
      ∃ p, s.config.Accepts s.machine.nesting file source p ∧
        (s.runSource file source).session = (s.execute (s.resolve p)).2.2 ∧
          ∀ stop, (s.runSource file source).result = .error stop →
            (s.execute (s.resolve p)).1 = some stop := by
  unfold runSource
  split
  · exact Or.inl ⟨rfl, _, rfl⟩
  · rename_i tokens htokens
    split
    · exact Or.inl ⟨rfl, _, rfl⟩
    · rename_i p hparse
      cases herrors : (s.resolve p).hasErrors with
      | true =>
        simp only [runProgram, herrors, if_true]
        exact Or.inl ⟨rfl, _, rfl⟩
      | false =>
        have haccepted := (Resolution.hasErrors_ofProgram s.config s.globalNames p).mp herrors
        refine Or.inr ⟨p, Config.accepts_iff.mpr ⟨tokens, htokens, hparse, haccepted⟩, ?_⟩
        simp only [runProgram, herrors, Bool.false_eq_true, if_false]
        split
        · rename_i h
          rw [h]
          exact ⟨rfl, fun _ hd => nomatch hd⟩
        · rename_i h
          rw [h]
          exact ⟨rfl, fun _ hd => nomatch hd⟩
        · rename_i stop _ _ _ h
          rw [h]
          refine ⟨rfl, fun stop' hd => ?_⟩
          rw [Except.error.inj hd]

section Sound

variable {config : Config} {machine : Machine} {s : Session} {p : Program Unit}

theorem Sound.follows {table : Table} {w : World} (h : s.Sound own config machine)
    (hw : s.cleared.Follows config.allowLocalRedeclaration own w) :
    ({ s with table, world := w } : Session).Sound own config machine where
  settings := h.settings
  machine := h.machine
  natives := h.natives
  sound := hw.sound
  covers := h.covers.mono hw.grows

theorem Sound.safe (h : s.Sound own config machine) (hp : p.Placed)
    (ha : p.Accepted config.allowLocalRedeclaration) (hs : ∀ x, p.SelfAssigns x → own x) :
    Safe config.allowLocalRedeclaration own s.cleared (execProgram s.host globals p.annotate.statements)
      fun _ _ => True :=
  Safe.execProgram h.natives p.statements hp ha hs h.sound h.covers

/-- The world behind a program is sound, and where it stopped on a defect it is excused. -/
theorem Sound.run (h : s.Sound own config machine) (hp : p.Placed)
    (ha : p.Accepted config.allowLocalRedeclaration) (hs : ∀ x, p.SelfAssigns x → own x) :
    match s.run p.annotate.statements with
    | .ok () w => s.cleared.Follows config.allowLocalRedeclaration own w
    | .error stop w => s.cleared.Follows config.allowLocalRedeclaration own w ∧ stop.Excused own := by
  refine run_induction (P := fun result => match result with
    | .ok () w => s.cleared.Follows config.allowLocalRedeclaration own w
    | .error stop w => s.cleared.Follows config.allowLocalRedeclaration own w ∧ stop.Excused own)
    ⟨⟨Store.Grows.refl _, h.sound⟩, trivial⟩ fun room => ?_
  have hsafe := h.safe hp ha hs room
  split at hsafe <;> rename_i heq <;> rw [heq]
  · exact hsafe.1
  · exact hsafe

theorem Sound.execute (h : s.Sound own config machine) (hp : p.Placed)
    (ha : p.Accepted config.allowLocalRedeclaration) (hs : ∀ x, p.SelfAssigns x → own x) :
    (s.execute (s.resolve p)).2.2.Sound own config machine ∧
      ∀ stop, (s.execute (s.resolve p)).1 = some stop → stop.Excused own := by
  have hsound := h.run hp ha hs
  rw [← program_resolve s] at hsound
  cases hrun : s.run (s.resolve p).program.statements with
  | ok u w =>
    rw [hrun] at hsound
    rw [execute_of_ok hrun]
    exact ⟨h.follows hsound, fun stop hstop => nomatch hstop⟩
  | error stop w =>
    rw [hrun] at hsound
    rw [execute_of_error hrun]
    exact ⟨h.follows hsound.1, fun _ hstop => Option.some.inj hstop ▸ hsound.2⟩

/-- What a source does to a sound session: it stays sound, and a defect is excused. -/
theorem Sound.runSource (h : s.Sound own config machine) {file source : String}
    (hs : ∀ p, config.Accepts machine.nesting file source p → ∀ x, p.SelfAssigns x → own x) :
    (s.runSource file source).session.Sound own config machine ∧
      ∀ stop, (s.runSource file source).result = .error stop → stop.Excused own := by
  rcases s.runSource_cases file source with ⟨hsame, r, hr⟩ | ⟨p, hp, hrun, hstop⟩
  · rw [hsame, hr]
    exact ⟨h, fun _ hd => nomatch hd⟩
  · rw [h.settings, h.machine] at hp
    have hexec := h.execute hp.placed hp.accepted (hs p hp)
    rw [hrun]
    exact ⟨hexec.1, fun stop hs => hexec.2 stop (hstop stop hs)⟩

end Sound

/-! ### Runs -/

/-- What is kept by every source holds behind all of them. -/
theorem after_induction {P : Session → Prop} {s : Session} {runs : List (String × String)} (h : P s)
    (hstep : ∀ s, P s → ∀ run ∈ runs, P (s.runSource run.1 run.2).session) : P (s.after runs) :=
  List.foldlRecOn runs _ h hstep

theorem Sound.after {config : Config} {machine : Machine} {s : Session} (h : s.Sound own config machine)
    {runs : List (String × String)} (hs : ∀ run ∈ runs, ∀ p, config.Accepts machine.nesting run.1 run.2 p →
      ∀ x, p.SelfAssigns x → own x) : (s.after runs).Sound own config machine :=
  after_induction h fun _ hs' run hrun => (hs'.runSource (hs run hrun)).1

/-! ### New sessions -/

variable {config : Config} {natives : Registry} {clock : Nat → Float} {machine : Machine} {s : Session}

theorem eq_of_create (h : create config natives clock machine = .ok s) :
    s = ⟨config, natives, clock, machine, .empty, (install natives globals (nativeNames config natives)
      { store := (Store.alloc {} "globals").2 }).2⟩ := by
  unfold create at h
  dsimp only at h
  split at h
  · cases h
  · rename_i heq
    rw [heq]
    exact (Except.ok.inj h).symm

theorem slot?_new (id : FrameId) (name : String) :
    (Store.alloc {} "globals").2.slot? id name = none :=
  (Store.slot?_alloc {} "globals" id name).trans rfl

/-- What holds while there are no globals and is kept when a built-in function is defined holds of the
world of a new session. -/
theorem create_induction {P : World → Prop} (h : create config natives clock machine = .ok s)
    (hempty : P { store := (Store.alloc {} "globals").2 })
    (hdefine : ∀ w : World, P w → ∀ native ∈ natives.natives,
      let f := Value.function w.functions (.native native.name native.arity)
      P { w with
        store := w.store.define globals.frame native.name f
        functions := w.functions + 1 }) : P s.world := by
  have hinstall : ∀ (names : List String) (w : World), P w → P (install natives globals names w).2 := by
    intro names
    induction names with
    | nil => exact fun w hw => hw
    | cons name names ih =>
      intro w hw
      unfold install
      cases hfind : natives.find? name with
      | none => exact hw
      | some native =>
        have hmatches := List.find?_some (p := fun n : Native => n.name == name) hfind
        have hname : native.name = name := eq_of_beq hmatches
        have hnext := hdefine w hw native (List.mem_of_find?_eq_some hfind)
        rw [hname] at hnext
        exact ih _ hnext
  rw [eq_of_create h]
  exact hinstall _ _ hempty

theorem sound_create (hn : natives.ReturnsGiven) (h : create config natives clock machine = .ok s) :
    s.Sound own config machine := by
  have hw : (Store.alloc {} "globals").2.Sound config.allowLocalRedeclaration own := by
    intro id name v hv
    rw [slot?_new] at hv
    cases hv
  have hc : (Store.alloc {} "globals").2.Covers [] globals :=
    ⟨Nat.zero_lt_one, fun name hops hh => nomatch hh⟩
  have hworld : s.world.store.Sound config.allowLocalRedeclaration own ∧
      s.world.store.Covers [] globals := by
    refine create_induction (P := fun w => w.store.Sound _ own ∧ w.store.Covers [] globals) h
      ⟨hw, hc⟩ ?_
    rintro w ⟨hw, hc⟩ native -
    exact ⟨hw.define hc.1 trivial, hc.define native.name _⟩
  obtain rfl := eq_of_create h
  exact ⟨rfl, rfl, hn, hworld.1, hworld.2⟩

def Outcome.defect? (o : Outcome) : Option Defect :=
  match o.result with
  | .error (.defect d) => some d
  | _ => none

theorem Outcome.result_of_defect? {o : Outcome} {d : Defect} (h : o.defect? = some d) :
    o.result = .error (.defect d) := by
  unfold defect? at h
  split at h
  · rename_i hr
    rw [hr, Option.some.inj h]
  · cases h

/-- A session in which sources were run meets no place that is missing at run time, but for a local
variable that one of its programs assigns in its own initializer: where that assignment is evaluated,
the variable has no value yet. Nothing is ever returned at top level, and no chain of frames is too
short. -/
theorem unbound_of_defect (hn : natives.ReturnsGiven) (hs : create config natives clock machine = .ok s)
    (earlier : List (String × String)) {file source : String} {d : Defect}
    (hd : ((s.after earlier).runSource file source).defect? = some d) :
    ∃ x frame, d = .unbound x frame 0 ∧ ∃ run ∈ earlier ++ [(file, source)], ∃ p,
      config.Accepts machine.nesting run.1 run.2 p ∧ p.SelfAssigns x := by
  let own : String → Prop := fun x =>
    ∃ run ∈ earlier ++ [(file, source)], ∃ p, config.Accepts machine.nesting run.1 run.2 p ∧ p.SelfAssigns x
  have hown : ∀ run ∈ earlier ++ [(file, source)], ∀ p, config.Accepts machine.nesting run.1 run.2 p →
      ∀ x, p.SelfAssigns x → own x := fun run hrun p hp x hx => ⟨run, hrun, p, hp, hx⟩
  have hafter : (s.after earlier).Sound own config machine :=
    (sound_create hn hs).after fun run hrun => hown run (List.mem_append_left _ hrun)
  have hlast := hafter.runSource (hown (file, source) (List.mem_append_right _ List.mem_cons_self))
  exact hlast.2 (.defect d) (Outcome.result_of_defect? hd)

def bare : Session where
  config := { natives := some [] }
  natives := .standard
  clock := fun _ => default
  machine := .standard
  table := .empty
  world := { store := (Store.alloc {} "globals").2 }

theorem unbound_of_defect_in_block :
    ∃ p, bare.config.Accepts bare.machine.nesting "" "{ var a = a = nil; }" p ∧ p.SelfAssigns "a" := by
  have hrun : (bare.runSource "" "{ var a = a = nil; }").defect? = some (.unbound "a" "block" 0) := by
    decide +kernel
  have hcreate : create bare.config .standard bare.clock .standard = .ok bare := rfl
  obtain ⟨x, frame, hd, run, hmem, p, hp, hx⟩ :=
    unbound_of_defect Registry.returnsGiven_standard hcreate [] hrun
  obtain rfl := List.mem_singleton.mp hmem
  cases hd
  exact ⟨p, hp, hx⟩

end Session

end Lox
