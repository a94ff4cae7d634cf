import Lox.Proofs.Execution.CallDepth
import Lox.Proofs.Execution.Counting
import Lox.Proofs.Execution.Origins
import Lox.Proofs.Execution.Reach
import Lox.Proofs.Execution.Tables

/-!
# What lasts between programs

However the programs of a session end, in front of the next one no call is counted as in progress, no
global is missing that was ever there, every environment that is reached from the globals has them
outermost, and every function that is reached is a declaration of one of the programs, with the bindings
that it was resolved with.
-/

namespace Lox

theorem Environment.getLast?_frames (env : Environment) : env.frames.getLast? = some env.outermost := by
  rw [frames, outermost, List.getLast?_cons, List.getLastD_eq_getLast?]

theorem Environment.outermost_of_ancestor? {env outer : Environment} {hops : Nat}
    (h : env.ancestor? hops = some outer) : outer.outermost = env.outermost := by
  unfold ancestor? at h
  split at h
  · cases h
  · rename_i f fs hdrop
    obtain rfl := Option.some.inj h
    have hlast := congrArg List.getLast? hdrop
    rw [List.getLast?_drop, env.getLast?_frames] at hlast
    split at hlast
    · cases hlast
    · exact Option.some.inj (((⟨f, fs⟩ : Environment).getLast?_frames).symm.trans hlast.symm)

namespace Session

/-! ### Sessions that count -/

/-- A session with the count of calls in progress and the snapshots of its programs. -/
structure Counted where
  session : Session
  count : Nat
  snapshots : List Snapshot

namespace Counted

def start (s : Session) : Counted := ⟨s, 0, [⟨0, [], s.world⟩]⟩

/-- Runs a resolved program and then sets the count to zero; a snapshot is taken in front of that. -/
def execute (c : Counted) (r : Resolution) : Counted :=
  let table := c.session.table.extend r.bindings
  match c.session.room? with
  | none => { c with session := { c.session with table, world := c.session.cleared } }
  | some room =>
    match (Tallied.execProgram c.session.host globals r.program.statements).run room
        ⟨c.session.cleared, c.count, c.snapshots⟩ with
    | .ok _ t | .error _ t =>
      ⟨{ c.session with table, world := t.world }, 0, t.snapshots ++ [⟨t.count, [], t.world⟩]⟩

def runSource (c : Counted) (file source : String) : Counted :=
  match Lexer.tokenize file source with
  | .error _ => c
  | .ok tokens =>
    match Parser.parse c.session.machine.nesting tokens with
    | .error _ => c
    | .ok p =>
      let resolution := c.session.resolve p
      if resolution.hasErrors then c else c.execute resolution

def after (c : Counted) (runs : List (String × String)) : Counted :=
  runs.foldl (fun c run => c.runSource run.1 run.2) c

/-- No call is counted, and the snapshots fit the world. -/
structure Right (c : Counted) : Prop where
  count : c.count = 0
  snapshots : ∀ x ∈ c.snapshots, x.Fits c.session.config.maxCallDepth.val c.session.world

theorem right_start (s : Session) : (start s).Right where
  count := rfl
  snapshots := List.forall_mem_singleton.mpr
    ⟨rfl, Nat.zero_le _, World.persists_grown.refl s.world⟩

variable {c : Counted}

/-- A tally that a program has left makes a right session again once the count is set to zero. -/
theorem Right.follows (h : c.Right) {u : Tally}
    (hu : Tally.Follows c.session.config.maxCallDepth.val ⟨c.session.cleared, c.count, c.snapshots⟩ u)
    (table : Table) :
    Right ⟨{ c.session with table, world := u.world }, 0, u.snapshots ++ [⟨u.count, [], u.world⟩]⟩ := by
  have hcount : u.count = 0 := hu.count.trans h.count
  obtain ⟨since, hsnapshots, hsince⟩ := hu.snapshots
  refine ⟨rfl, ?_⟩
  rw [hsnapshots]
  refine List.forall_mem_append.mpr ⟨List.forall_mem_append.mpr ⟨?_, hsince⟩, ?_⟩
  · exact fun x hx => (h.snapshots x hx).mono hu.grown
  · exact List.forall_mem_singleton.mpr
      ⟨hcount, Nat.le_trans (Nat.le_of_eq hcount) (Nat.zero_le _), World.persists_grown.refl u.world⟩

theorem Right.execute (h : c.Right) (r : Resolution) :
    (c.execute r).session = (c.session.execute r).2.2 ∧ (c.execute r).Right := by
  unfold Counted.execute
  cases hroom : c.session.room? with
  | none =>
    rw [execute_of_error (run_of_refused hroom _)]
    exact ⟨rfl, h.count, fun x hx => (h.snapshots x hx).mono (World.persists_grown.refl _)⟩
  | some room =>
    let host : Host := c.session.host
    have htracks : Tracks host.maxCallDepth []
        (Tallied.execProgram host globals r.program.statements)
        (execProgram host globals r.program.statements) := Tracks.execProgram globals r.program.statements
    obtain ⟨u, hu, ⟨a, hm, hn⟩ | ⟨stop, hm, hn⟩⟩ :=
      htracks room ⟨c.session.cleared, c.count, c.snapshots⟩ h.count
    · dsimp only
      rw [hm, execute_of_ok ((run_of_room hroom _).trans hn)]
      exact ⟨rfl, h.follows hu _⟩
    · dsimp only
      rw [hm, execute_of_error ((run_of_room hroom _).trans hn)]
      exact ⟨rfl, h.follows hu _⟩

theorem Right.runSource (h : c.Right) (file source : String) :
    (c.runSource file source).session = (c.session.runSource file source).session ∧
      (c.runSource file source).Right := by
  cases ht : Lexer.tokenize file source with
  | error d =>
    simp only [Counted.runSource, Session.runSource, ht]
    exact ⟨rfl, h⟩
  | ok tokens =>
    cases hp : Parser.parse c.session.machine.nesting tokens with
    | error faults =>
      simp only [Counted.runSource, Session.runSource, ht, hp]
      exact ⟨rfl, h⟩
    | ok p =>
      cases herrors : (c.session.resolve p).hasErrors with
      | true =>
        simp only [Counted.runSource, Session.runSource, ht, hp, runProgram, herrors, if_true]
        exact ⟨rfl, h⟩
      | false =>
        simp only [Counted.runSource, Session.runSource, ht, hp, herrors, Bool.false_eq_true, if_false]
        rw [session_runProgram herrors]
        exact h.execute _

theorem Right.after (h : c.Right) (runs : List (String × String)) :
    (c.after runs).session = c.session.after runs ∧ (c.after runs).Right := by
  induction runs generalizing c with
  | nil => exact ⟨rfl, h⟩
  | cons run runs ih =>
    obtain ⟨hsession, hright⟩ := h.runSource run.1 run.2
    obtain ⟨hafter, hlast⟩ := ih hright
    refine ⟨hafter.trans ?_, hlast⟩
    rw [hsession]
    rfl

end Counted

/-! ### What is reached from the globals -/

/-- The global environment is reached, and from an environment those around it and those that functions in
its frame have captured. -/
inductive Reachable (s : Session) : Environment → Prop where
  | root : s.Reachable globals
  | around {env outer : Environment} {hops : Nat} (h : s.Reachable env)
      (ho : env.ancestor? hops = some outer) : s.Reachable outer
  | captured {env : Environment} {name : String} {id : Nat} {c : Closure} (h : s.Reachable env)
      (hc : s.world.store.slot? env.frame name = some (.function id (.closure c))) : s.Reachable c.env

/-- The function is declared in a program that the session has run, and is as resolved there. -/
def Declares (s : Session) (runs : List (String × String)) (d : Declaration (Option Nat)) : Prop :=
  ∃ before file source later p, runs = before ++ (file, source) :: later ∧
    s.config.Accepts s.machine.nesting file source p ∧ d ∈ ((s.after before).resolve p).program.functions

/-- Functions of the programs of a session, in environments inside its globals. -/
def origin (s : Session) (runs : List (String × String)) : Origin where
  root := globals.frame
  known := s.Declares runs
  nested := by
    rintro d e ⟨before, file, source, later, p, hruns, hp, hd⟩ he
    exact ⟨before, file, source, later, p, hruns, hp, Stmt.functionsAll_nested hd he⟩

theorem Reachable.outermost {s : Session} {O : Origin} (hroot : O.root = globals.frame)
    (h : O.Holds s.world.store) {env : Environment} (henv : s.Reachable env) :
    env.outermost = globals.frame := by
  induction henv with
  | root => rfl
  | around _ ho ih => exact (Environment.outermost_of_ancestor? ho).trans ih
  | captured _ hc _ => exact (h _ _ _ hc).1.trans hroot

theorem holds_create {config : Config} {natives : Registry} {clock : Nat → Float} {machine : Machine}
    {s : Session} (h : create config natives clock machine = .ok s) (O : Origin) : O.Holds s.world.store := by
  have hempty : O.Holds (Store.alloc {} "globals").2 := by
    intro id name v hv
    rw [slot?_new] at hv
    cases hv
  exact create_induction (P := fun w => O.Holds w.store) h hempty fun _ hw native _ =>
    hw.define globals.frame native.name trivial

variable {s : Session} {runs : List (String × String)}

theorem holds_runSource (hn : s.natives.ReturnsGiven) {before later : List (String × String)}
    {file source : String} (hruns : runs = before ++ (file, source) :: later)
    (h : (s.origin runs).Holds (s.after before).world.store) :
    (s.origin runs).Holds ((s.after before).runSource file source).session.world.store := by
  have hnatives : (s.after before).natives.ReturnsGiven := by
    rwa [(s.succeeds_after before).natives]
  rcases (s.after before).runSource_cases file source with ⟨hsame, -⟩ | ⟨p, hp, hsession, -⟩
  · rwa [hsame]
  · rw [config_after, machine_after] at hp
    have hknown : ∀ d ∈ Stmt.functionsAll ((s.after before).resolve p).program.statements,
        s.Declares runs d := fun d hd => ⟨before, file, source, later, p, hruns, hp, hd⟩
    have hkeeps : (s.origin runs).Keeps (execProgram (s.after before).host globals
        ((s.after before).resolve p).program.statements) fun _ => True :=
      .execProgram hnatives rfl _ hknown
    rw [hsession, execute_eq]
    refine run_induction (P := fun result => (s.origin runs).Holds (Run.world result).store) h fun room => ?_
    have hrun := hkeeps room (s.after before).cleared h
    split at hrun <;> rename_i heq <;> rw [heq]
    · exact hrun.1
    · exact hrun

theorem holds_after (hn : s.natives.ReturnsGiven) {before later : List (String × String)}
    (hruns : runs = before ++ later) (h : (s.origin runs).Holds (s.after before).world.store) :
    (s.origin runs).Holds (s.after runs).world.store := by
  induction later generalizing before with
  | nil =>
    rw [List.append_nil] at hruns
    subst hruns
    exact h
  | cons run later ih =>
    have hstep := holds_runSource hn hruns h
    have hnext : s.after (before ++ [run]) = ((s.after before).runSource run.1 run.2).session :=
      List.foldl_append
    exact ih (hruns.trans (List.append_cons before run later)) (hnext ▸ hstep)

/-! ### Between programs -/

/-- A function of a program that the session has run: its references have the bindings that are in the table
for that program, and those are the bindings that the program was resolved with. -/
def Bound (s : Session) (runs : List (String × String)) (d : Declaration (Option Nat)) : Prop :=
  ∃ before file source later p, runs = before ++ (file, source) :: later ∧
    s.config.Accepts s.machine.nesting file source p ∧
      let number := (s.after before).table.programs
      let resolution := (s.after before).resolve p
      (∃ written ∈ resolution.numbered.functions, d = written.map ((s.after runs).table.lookup number)) ∧
        ∀ node, (s.after runs).table.lookup number node = resolution.bindings.lookup node

theorem Declares.bound {d : Declaration (Option Nat)} (h : s.Declares runs d) : s.Bound runs d := by
  obtain ⟨before, file, source, later, p, rfl, hp, hd⟩ := h
  let t := s.after (before ++ (file, source) :: later)
  have hlookup : ∀ node, t.table.lookup (s.after before).table.programs node =
      ((s.after before).resolve p).bindings.lookup node := lookup_after hp
  rw [Resolution.program, Program.functions_map] at hd
  obtain ⟨written, hwritten, rfl⟩ := List.mem_map.mp hd
  refine ⟨before, file, source, later, p, rfl, hp, ⟨written, hwritten, ?_⟩, hlookup⟩
  rw [show t.table.lookup _ = _ from funext hlookup]

/-- However the programs of a new session ended, the count of calls is zero again. In every snapshot it
was the number of calls in progress, within the limit, and every global that was there is there still.
Unless built-in functions make functions, all environments that are reached have the globals outermost,
and every function that is reached is declared in one of the programs: the table still has the bindings
that this program was resolved with, and they are those of the function. -/
theorem restored_between_programs {config : Config} {natives : Registry} {clock : Nat → Float}
    {machine : Machine} (hs : create config natives clock machine = .ok s)
    (runs : List (String × String)) :
    ((Counted.start s).after runs).session = s.after runs ∧
      ((Counted.start s).after runs).count = 0 ∧
      (∀ x ∈ ((Counted.start s).after runs).snapshots,
        x.count = x.calls.length ∧ x.count ≤ config.maxCallDepth.val ∧
          ∀ name, (x.world.store.slot? globals.frame name).isSome →
            ((s.after runs).world.store.slot? globals.frame name).isSome) ∧
      (natives.ReturnsGiven → ∀ env, (s.after runs).Reachable env → env.outermost = globals.frame ∧
        ∀ name id c, (s.after runs).world.store.slot? env.frame name = some (.function id (.closure c)) →
          s.Bound runs c.declaration) := by
  have hconfig : s.config = config := (succeeds_create hs).config
  have hnatives : s.natives = natives := (succeeds_create hs).natives
  obtain ⟨hsession, hright⟩ := (Counted.right_start s).after runs
  refine ⟨hsession, hright.count, fun x hx => ?_, fun hn env henv => ?_⟩
  · have hfits := hright.snapshots x hx
    rw [hsession, config_after, show (Counted.start s).session.config = config from hconfig] at hfits
    exact ⟨hfits.count, hfits.limit, hfits.kept.slots globals.frame⟩
  · have hholds : (s.origin runs).Holds (s.after runs).world.store :=
      holds_after (hnatives ▸ hn) (List.nil_append runs).symm (holds_create hs _)
    exact ⟨henv.outermost rfl hholds, fun name id c hc => Declares.bound (hholds env.frame name _ hc).2⟩

/-- A program that fails for want of calls, one that does not parse, and one that leaves a function of a
block in a global. -/
def failedRuns : List (String × String) :=
  [("", "fun f() { f(); } f();"), ("", "var"),
    ("", "var g; { var a = true; fun h() { return a; } g = h; }")]

theorem restored_between_programs_failed :
    1 ∈ ((Counted.start shallow).after failedRuns).snapshots.map Snapshot.count ∧
      ((Counted.start shallow).after failedRuns).count = 0 ∧
        ∃ id c, (shallow.after failedRuns).world.store.slot? 0 "g" = some (.function id (.closure c)) ∧
          shallow.Bound failedRuns c.declaration := by
  have hcreate : create shallow.config .standard bare.clock .standard = .ok shallow := rfl
  obtain ⟨-, hcount, -, hreached⟩ := restored_between_programs hcreate failedRuns
  have hdeep : 1 ∈ ((Counted.start shallow).after failedRuns).snapshots.map Snapshot.count := by
    decide +kernel
  have hcaptured : ((shallow.after failedRuns).world.store.slot? 0 "g").map Value.captured =
      some [2, 0] := by
    decide +kernel
  have hnatives : Registry.standard.ReturnsGiven := Registry.returnsGiven_standard
  refine ⟨hdeep, hcount, ?_⟩
  obtain ⟨v, hv, hframes⟩ := Option.map_eq_some_iff.mp hcaptured
  cases v with
  | function id f =>
    cases f with
    | native name arity => cases hframes
    | closure c => exact ⟨id, c, hv, (hreached hnatives globals .root).2 "g" id c hv⟩
  | _ => cases hframes

end Session

end Lox
