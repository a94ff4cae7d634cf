import Lox.Evaluation
import Lox.Scope.Reference
import Lox.Scope.Table
import Lox.Syntax.Parser.Program
import Lox.Token.Lexer

/-!
# Sessions

A session runs programs one after the other against the same global frame. A program goes through
four stages, reading tokens, parsing, resolving names and running; the report says at which stage it
ended. Whatever a program does, later programs of the session find the globals as it left them.
-/

namespace Lox

/-! ### Reports -/

inductive Stage where
  | lex
  | parse
  | resolve
  | runtime
  | done
deriving DecidableEq, Repr, Inhabited

def Stage.name : Stage → String
  | lex => "lex"
  | parse => "parse"
  | resolve => "resolve"
  | runtime => "runtime"
  | done => "done"

/-- What is said about one run of a program. -/
structure Report where
  stage : Stage
  diagnostics : List Diagnostic
deriving Repr, Inhabited

namespace Report

def success (r : Report) : Bool := r.stage == .done

def errors (r : Report) : List Diagnostic := r.diagnostics.filter Diagnostic.isError

def errorCode? (r : Report) : Option String := r.errors.head?.map Diagnostic.code

/-- The errors in full with empty lines between them, if the program failed. -/
def errorMessage? (r : Report) : Option String :=
  if r.success then none
  else some ("\n\n".intercalate (r.errors.map fun d => d.render))

end Report

/-! ### Events -/

/-- What happens behind the scenes, for the log. -/
inductive Event where
  | installed (names : List String)
  | resolved (locals errors warnings : Nat)
  | executing (statements : Nat)
  | failed (code message : String)
deriving DecidableEq, Repr, Inhabited

namespace Event

def channel : Event → String
  | installed _ => "treelox.runtime.builtins"
  | resolved _ _ _ => "treelox.resolver"
  | executing _ | failed _ _ => "treelox.runtime.interpreter"

def message : Event → String
  | installed names =>
    "installed " ++ toString names.length ++ " native(s): " ++ ", ".intercalate names
  | resolved locals errors warnings =>
    "resolved " ++ toString locals ++ " local reference(s), " ++ toString errors ++ " error(s), " ++
      toString warnings ++ " warning(s)"
  | executing statements => "executing " ++ toString statements ++ " top-level statement(s)"
  | failed code message => "runtime error " ++ code ++ ": " ++ message

/-- The event comes behind the run of a program, not before it. -/
def isFailure : Event → Bool
  | failed _ _ => true
  | _ => false

def line (e : Event) : String := "DEBUG " ++ e.channel ++ ": " ++ e.message

def ofResolution (config : Config) (r : Resolution) : Event :=
  let reported := r.reported config
  .resolved r.program.localCount (reported.countP Finding.isError)
    (reported.countP fun f => !f.isError)

end Event

/-! ### Sessions -/

/-- An interpreter between two programs: its settings, its built-in functions, the time they see, the
machine that it runs on, the bindings of the programs so far, and the world that they have left. -/
structure Session where
  config : Config
  natives : Registry
  clock : Nat → Float
  machine : Machine
  table : Table
  world : World

namespace Session

def globals : Environment := ⟨0, []⟩

def host (s : Session) : Host where
  natives := s.natives
  clock := s.clock
  maxCallDepth := s.config.maxCallDepth.val
  maxPasses := s.machine.passes

/-- Defines built-in functions as globals in the given order, up to the first unknown name: that name,
or nothing. -/
def install (natives : Registry) (env : Environment) : List String → World → Option String × World
  | [], w => (none, w)
  | name :: names, w =>
    match natives.find? name with
    | none => (some name, w)
    | some native =>
      let f := Value.function w.functions (.native name native.arity)
      install natives env names
        { w with
          store := w.store.define env.frame name f
          functions := w.functions + 1 }

def nativeNames (config : Config) (natives : Registry) : List String :=
  config.natives.getD natives.names

/-- The message about a built-in function that is not there. -/
def unknownNative (name : String) : String := "Unknown built-in function: " ++ name

/-- A new session, or the first built-in function asked for that is not there. -/
def create (config : Config) (natives : Registry) (clock : Nat → Float) (machine : Machine) :
    Except String Session :=
  let (_, store) := Store.alloc {} "globals"
  match install natives globals (nativeNames config natives) { store := store } with
  | (some unknown, _) => .error unknown
  | (none, world) => .ok ⟨config, natives, clock, machine, .empty, world⟩

def globalFrame (s : Session) : Frame := s.world.store.frame globals.frame

def globalNames (s : Session) : List String := s.globalFrame.names

def globalValues (s : Session) : List (String × Value) :=
  s.globalNames.filterMap fun name => (s.globalFrame.get? name).map fun v => (name, v)

def resolve (s : Session) (p : Program Unit) : Resolution :=
  Resolution.ofProgram s.config s.globalNames p

/-- The room in which a program of the session begins, unless the host refuses it. -/
def room? (s : Session) : Option Room := s.machine.room? s.config.maxCallDepth.val

/-- The world of a session without the texts printed so far. -/
def cleared (s : Session) : World := { s.world with printed := #[] }

/-- Runs a resolved program, unless the host refuses the room for it. -/
def run (s : Session) (statements : List ResolvedStmt) : EStateM.Result Stop World Unit :=
  match s.room? with
  | none => .error .refused s.cleared
  | some room => (execProgram s.host globals statements).run room s.cleared

/-- Enters the bindings of a program in the table and runs it with the bindings found there: why it stopped
early, if it did; the texts it printed; and the session behind it. -/
def execute (s : Session) (r : Resolution) : Option Stop × List String × Session :=
  let table := s.table.extend r.bindings
  let program := r.numbered.map (table.lookup s.table.programs)
  match s.run program.statements with
  | .ok () world => (none, world.printed.toList, { s with table, world })
  | .error stop world => (some stop, world.printed.toList, { s with table, world })

/-- The outcome of one program in a session. A defect or a loop without end is no report. -/
structure Outcome where
  result : Except Stop Report
  printed : List String
  events : List Event
  session : Session

def reportOn (source : String) (stage : Stage) (ds : List Diagnostic) : Report :=
  ⟨stage, ds.map fun d => d.withSource source⟩

def rejected (s : Session) (report : Report) (events : List Event) : Outcome :=
  ⟨.ok report, [], events, s⟩

def runProgram (s : Session) (source : String) (p : Program Unit) : Outcome :=
  let resolution := s.resolve p
  let diagnostics := resolution.diagnostics s.config
  let resolved := Event.ofResolution s.config resolution
  if resolution.hasErrors then
    s.rejected (reportOn source .resolve diagnostics) [resolved]
  else
    let begun := [resolved, .executing p.statements.length]
    match s.execute resolution with
    | (none, printed, s') => ⟨.ok (reportOn source .done diagnostics), printed, begun, s'⟩
    | (some (.error e span), printed, s') =>
      ⟨.ok (reportOn source .runtime (diagnostics ++ [e.diagnostic span])), printed,
        begun ++ [.failed e.code e.message], s'⟩
    | (some stop, printed, s') => ⟨.error stop, printed, begun, s'⟩

def runSource (s : Session) (file source : String) : Outcome :=
  match Lexer.tokenize file source with
  | .error d => s.rejected (reportOn source .lex [d]) []
  | .ok tokens =>
    match Parser.parse s.machine.nesting tokens with
    | .error faults =>
      s.rejected (reportOn source .parse (faults.map fun f => f.diagnostic (some source))) []
    | .ok p => s.runProgram source p

end Session

end Lox
