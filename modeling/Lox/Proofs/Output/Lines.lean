import Lox.Proofs.Execution.Outcomes
import Lox.Proofs.Output.Chronicled
import Lox.Text.Fields

/-!
# Lines of output

The output of a session is cut into lines by its print statements and by nothing else: at each moment there
is one line for every print statement that has been completed, in the order of execution, whatever becomes
of the program later.
-/

namespace Lox

open Leaf (AllSpelled)

/-! ### Lines -/

namespace Text

/-- What is written when some lines are, each with a line feed at its end. -/
def ofLines (lines : List String) : String := String.join (lines.map (· ++ "\n"))

theorem fields_append {separator : Char} {cs : List Char} (h : separator ∉ cs) (ds : List Char) :
    fields separator (cs ++ separator :: ds) = cs :: fields separator ds := by
  induction cs with
  | nil => rw [List.nil_append, fields, if_pos rfl]
  | cons c cs ih =>
    obtain ⟨hc, hcs⟩ := not_or.mp (List.mem_cons.not.mp h)
    rw [List.cons_append, fields, if_neg (Ne.symm hc), ih hcs]

theorem toList_ofLines_cons (line : String) (lines : List String) :
    (ofLines (line :: lines)).toList = line.toList ++ '\n' :: (ofLines lines).toList := by
  rw [ofLines, List.map_cons, String.join_cons, String.toList_append, String.toList_append,
    List.append_assoc]
  rfl

theorem fields_ofLines {lines : List String} (h : ∀ line ∈ lines, '\n' ∉ line.toList) :
    fields '\n' (ofLines lines).toList = lines.map String.toList ++ [[]] := by
  induction lines with
  | nil => rfl
  | cons line lines ih =>
    obtain ⟨hline, hlines⟩ := List.forall_mem_cons.mp h
    rw [toList_ofLines_cons, fields_append hline, ih hlines, List.map_cons, List.cons_append]

end Text

/-! ### Programs and built-in functions -/

theorem Program.leaves_annotate {ρ : Type} (p : Program ρ) : p.annotate.leaves = p.leaves := by
  have h := congrArg Stmt.leavesAll (Stmt.mapAll_const_annotateAll () hopsLabel p.statements [])
  rwa [Stmt.leavesAll_mapAll, Stmt.leavesAll_mapAll] at h

theorem Config.Accepts.spelled {config : Config} {limit : Nat} {file source : String} {p : Program Unit}
    (h : config.Accepts limit file source p) : AllSpelled p.leaves := by
  obtain ⟨tokens, ht, hp, -⟩ := accepts_iff.mp h
  exact Program.spelled_of_parse ht hp

namespace Session

theorem bare_create {config : Config} {natives : Registry} {clock : Nat → Float} {machine : Machine}
    {s : Session} (hn : natives.Bare) (h : create config natives clock machine = .ok s) :
    s.world.Bare := by
  have hempty : World.Bare { store := (Store.alloc {} "globals").2 } := by
    intro id name v hv
    rw [slot?_new] at hv
    cases hv
  refine create_induction (P := World.Bare) h hempty fun w hw native hmem => ?_
  have hbare : (Value.function w.functions (.native native.name native.arity)).Bare := (hn native hmem).1
  exact hw.define globals.frame native.name hbare

/-! ### Sessions with a chronicle -/

/-- A session with all that its programs have written and the moments of their evaluation. -/
structure Recorded where
  session : Session
  written : List String
  moments : List Moment

namespace Recorded

def start (s : Session) : Recorded := ⟨s, [], []⟩

/-- The chronicle in front of the next program. -/
def begun (c : Recorded) : Chronicle := ⟨c.session.cleared, c.written, c.moments⟩

def run (c : Recorded) (statements : List ResolvedStmt) : EStateM.Result Stop Chronicle Unit :=
  match c.session.room? with
  | none => .error .refused c.begun
  | some room => (Chronicled.execProgram c.session.host globals statements).run room c.begun

def execute (c : Recorded) (r : Resolution) : Recorded :=
  match c.run r.program.statements with
  | .ok _ d | .error _ d =>
    ⟨{ c.session with table := c.session.table.extend r.bindings, world := d.world }, d.written, d.moments⟩

def runSource (c : Recorded) (file source : String) : Recorded :=
  match c.session.config.accepted? c.session.machine.nesting file source with
  | none => c
  | some p => c.execute (c.session.resolve p)

def after (c : Recorded) (runs : List (String × String)) : Recorded :=
  runs.foldl (fun c run => c.runSource run.1 run.2) c

/-- All values so far are bare, and the texts of the printed ones are what has been written. -/
structure Right (c : Recorded) : Prop where
  natives : c.session.natives.Bare
  world : c.session.world.Bare
  moments : ∀ x ∈ c.moments, x.Bare
  inStep : Moment.InStep [] c.moments
  written : c.written = (Moment.prints c.moments).map Value.text

/-- The record goes on as the session does, with the texts that are printed. -/
structure Extends (c d : Recorded) (s : Session) (printed : List String) : Prop where
  session : d.session = s
  written : d.written = c.written ++ printed
  right : d.Right

variable {c : Recorded}

theorem right_start {s : Session} (hn : s.natives.Bare) (hw : s.world.Bare) : (start s).Right :=
  ⟨hn, hw, nofun, trivial, rfl⟩

/-- The record of a program follows the plain run of the program, which starts with nothing printed. -/
theorem Right.follows (h : c.Right) {d : Chronicle} (hd : c.begun.Follows d) (table : Table) :
    c.Extends ⟨{ c.session with table, world := d.world }, d.written, d.moments⟩
      { c.session with table, world := d.world } d.world.printed.toList := by
  obtain ⟨since, hmoments, hbare, hstep, hwritten⟩ := hd.moments
  have hnothing : c.begun.written = c.written := List.append_nil c.written
  have hmoments : d.moments = c.moments ++ since := hmoments
  rw [hnothing] at hstep hwritten
  refine ⟨rfl, congrArg (· ++ d.world.printed.toList) hd.earlier, h.natives, hd.bare, ?_, ?_, ?_⟩
  · rw [hmoments]
    exact List.forall_mem_append.mpr ⟨h.moments, hbare⟩
  · rw [hmoments]
    refine Moment.inStep_append h.inStep ?_
    rwa [List.nil_append, ← h.written]
  · rw [hmoments, hwritten, h.written, Moment.prints_append, List.map_append]

theorem Right.run (h : c.Right) {ss : List ResolvedStmt} (hss : AllSpelled (Stmt.leavesAll ss)) :
    ∃ d, c.begun.Follows d ∧
      ((c.run ss = .ok () d ∧ c.session.run ss = .ok () d.world) ∨
        ∃ stop, c.run ss = .error stop d ∧ c.session.run ss = .error stop d.world) := by
  unfold Recorded.run
  cases hroom : c.session.room? with
  | none => exact ⟨c.begun, .refl h.world, Or.inr ⟨.refused, rfl, run_of_refused hroom ss⟩⟩
  | some room =>
    have hchronicles : Chronicles (Chronicled.execProgram c.session.host globals ss)
        (execProgram c.session.host globals ss) fun _ => True :=
      Chronicles.execProgram h.natives globals ss hss
    rw [run_of_room hroom]
    obtain ⟨d, hd, ⟨_, hm, hn, -⟩ | hstop⟩ := hchronicles room c.begun h.world
    · exact ⟨d, hd, Or.inl ⟨hm, hn⟩⟩
    · exact ⟨d, hd, Or.inr hstop⟩

theorem Right.execute (h : c.Right) {r : Resolution} (hr : AllSpelled r.program.leaves) :
    c.Extends (c.execute r) (c.session.execute r).2.2 (c.session.execute r).2.1 := by
  obtain ⟨d, hd, ⟨hm, hn⟩ | ⟨stop, hm, hn⟩⟩ := h.run hr
  · rw [Recorded.execute, hm, execute_of_ok hn]
    exact h.follows hd _
  · rw [Recorded.execute, hm, execute_of_error hn]
    exact h.follows hd _

theorem Right.runSource (h : c.Right) (file source : String) :
    c.Extends (c.runSource file source) (c.session.runSource file source).session
      (c.session.runSource file source).printed := by
  cases hp : c.session.config.accepted? c.session.machine.nesting file source with
  | none =>
    have hnot : ∀ p, ¬ c.session.config.Accepts c.session.machine.nesting file source p := fun p hacc => by
      rw [Config.Accepts, hp] at hacc
      cases hacc
    obtain ⟨report, events, hrun, -⟩ := runSource_of_not_accepts hnot
    rw [hrun, Recorded.runSource, hp]
    exact ⟨rfl, (List.append_nil _).symm, h⟩
  | some p =>
    have hspelled : AllSpelled (c.session.resolve p).program.leaves := by
      rw [program_resolve, p.leaves_annotate]
      exact Config.Accepts.spelled hp
    rw [runSource_of_accepts hp, session_runProgram (hasErrors_of_accepts hp),
      printed_runProgram (hasErrors_of_accepts hp), Recorded.runSource, hp]
    exact h.execute hspelled

theorem Right.after (h : c.Right) (runs : List (String × String)) :
    c.Extends (c.after runs) (c.session.after runs)
      ((c.session.outcomes runs).flatMap Outcome.printed) := by
  induction runs generalizing c with
  | nil => exact ⟨rfl, (List.append_nil _).symm, h⟩
  | cons run runs ih =>
    have hfirst := h.runSource run.1 run.2
    have hrest := ih hfirst.right
    rw [hfirst.session] at hrest
    refine ⟨hrest.session, ?_, hrest.right⟩
    rw [outcomes, List.flatMap_cons, ← List.append_assoc, ← hfirst.written]
    exact hrest.written

end Recorded

end Session

/-! ### One line for each print statement -/

/-- The string is at hand or in a frame. -/
def Moment.Holds (x : Moment) (t : String) : Prop :=
  .string t ∈ x.happening.values ∨ ∃ id name, x.world.store.slot? id name = some (.string t)

theorem Moment.Bare.holds {x : Moment} (h : x.Bare) {t : String} (ht : x.Holds t) : Text.Bare t := by
  rcases ht with ht | ⟨id, name, ht⟩
  · exact h.values _ ht
  · exact h.world id name _ ht

namespace Session

/-- In a session with the standard functions no string has a quotation mark or a line feed in it, at any
moment of any program. So at any moment the output is one line for each value printed by then, its text, in
the order of execution; and it stays so to the end, however the programs end. -/
theorem one_line_per_print {config : Config} {clock : Nat → Float} {machine : Machine} {s : Session}
    (hs : create config .standard clock machine = .ok s) (runs : List (String × String)) :
    ((Recorded.start s).after runs).session = s.after runs ∧
      ((Recorded.start s).after runs).written = (s.outcomes runs).flatMap Outcome.printed ∧
      ((Recorded.start s).after runs).written =
        (Moment.prints ((Recorded.start s).after runs).moments).map Value.text ∧
      (∀ id name t, (s.after runs).world.store.slot? id name = some (.string t) →
        '"' ∉ t.toList ∧ '\n' ∉ t.toList) ∧
      ∀ before x later, ((Recorded.start s).after runs).moments = before ++ x :: later →
        (∀ t, x.Holds t → '"' ∉ t.toList ∧ '\n' ∉ t.toList) ∧
          x.written = (Moment.prints (before ++ [x])).map Value.text ∧
          Text.fields '\n' (Text.ofLines x.written).toList =
            (Moment.prints (before ++ [x])).map (fun v => v.text.toList) ++ [[]] := by
  have hnatives : s.natives.Bare := (succeeds_create hs).natives ▸ Registry.bare_standard
  have hright := Recorded.right_start hnatives (bare_create Registry.bare_standard hs)
  have hafter := hright.after runs
  refine ⟨hafter.session, hafter.written, hafter.right.written, fun id name t ht => ?_,
    fun before x later hmoments => ?_⟩
  · have hworld := hafter.right.world
    rw [hafter.session] at hworld
    exact hworld id name _ ht
  · have hbare : ∀ y ∈ before ++ [x], y.Bare := by
      intro y hy
      refine hafter.right.moments y ?_
      rw [hmoments, List.append_cons]
      exact List.mem_append_left later hy
    have hwritten : x.written = (Moment.prints (before ++ [x])).map Value.text :=
      hafter.right.inStep.written hmoments
    have hlines : ∀ line ∈ x.written, '\n' ∉ line.toList := by
      intro line hline
      rw [hwritten] at hline
      obtain ⟨v, hv, rfl⟩ := List.mem_map.mp hline
      exact (Moment.bare_of_mem_prints hbare hv).text.2
    refine ⟨fun t ht => (hbare x (List.mem_append_right before List.mem_cons_self)).holds ht, hwritten, ?_⟩
    rw [Text.fields_ofLines hlines, hwritten, List.map_map]
    rfl

/-- A session that has no function but `str`. -/
def speaking : Session where
  config := { natives := some ["str"] }
  natives := .standard
  clock := bare.clock
  machine := .standard
  table := .empty
  world := (install .standard globals ["str"] { store := (Store.alloc {} "globals").2 }).2

/-- Two programs, of which the first fails between its print statements. -/
def interruptedRuns : List (String × String) :=
  [("", "{ fun f() { print nil; } print str(f) + str(true); f(f()); print f; }"), ("", "print str;")]

theorem one_line_per_print_interrupted :
    (speaking.outcomes interruptedRuns).map Outcome.verdict =
        [.reported .runtime (some "E404"), .reported .done none] ∧
      ((Recorded.start speaking).after interruptedRuns).written = ["<fn f>true", "nil", "<native fn str>"] ∧
      (Moment.prints ((Recorded.start speaking).after interruptedRuns).moments).map Value.text =
        ["<fn f>true", "nil", "<native fn str>"] ∧
      ∀ before x later,
        ((Recorded.start speaking).after interruptedRuns).moments = before ++ x :: later →
          Text.fields '\n' (Text.ofLines x.written).toList =
            (Moment.prints (before ++ [x])).map (fun v => v.text.toList) ++ [[]] := by
  have hcreate : create speaking.config .standard bare.clock .standard = .ok speaking := rfl
  obtain ⟨-, hprinted, hmoments, -, hlines⟩ := one_line_per_print hcreate interruptedRuns
  have htexts : (speaking.outcomes interruptedRuns).flatMap Outcome.printed =
      ["<fn f>true", "nil", "<native fn str>"] := by
    decide +kernel
  refine ⟨by decide +kernel, hprinted.trans htexts, hmoments.symm.trans (hprinted.trans htexts), ?_⟩
  exact fun before x later hsplit => (hlines before x later hsplit).2.2

end Session

end Lox
