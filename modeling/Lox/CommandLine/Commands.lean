import Lox.CommandLine.Arguments
import Lox.CommandLine.Transcript
import Lox.Config.File
import Lox.Session
import Lox.Syntax.Printer
import Lox.Text.Newlines

/-!
# The commands

A file is run, checked without running it, or shown as a tree; without a file a run is a dialogue, in
which every line is a program of its own. Before any of this the configuration is read, and names of
built-in functions that do not exist are refused.
-/

namespace Lox.CommandLine

/-- What a command finds around it. -/
structure Surroundings where
  /-- How far integers are read and data are shown. -/
  bounds : Data.Bounds
  /-- The reader of configuration files. -/
  read : Data.Reader
  find? : Path → Option Entry
  vars : Config.Variables
  natives : Registry
  clock : Nat → Float
  /-- The machine as each command finds it. -/
  machine : Command → Machine

/-! ### Writing -/

def logged (level : LogLevel) (events : List Event) : List Chunk :=
  if level = .debug then events.map fun e => .errLine e.line else []

def reports (ds : List Diagnostic) : List Chunk := ds.map fun d => .errLine d.render

/-- What a program in a session brings forth: what it prints, with the log of what came before and
behind it, and the reports. -/
def outcomeChunks (level : LogLevel) (o : Session.Outcome) : List Chunk :=
  let (failures, steps) := o.events.partition Event.isFailure
  let said :=
    match o.result with
    | .ok report => reports report.diagnostics
    | .error _ => []
  logged level steps ++ o.printed.map .outLine ++ logged level failures ++ said

/-! ### Commands on a file -/

def exitAfter (r : Report) : Exit :=
  match r.stage with
  | .done => .success
  | .runtime => .runtimeError
  | .lex | .parse | .resolve => .badData

def runFile (s : Session) (level : LogLevel) (file source : String) : Transcript :=
  let o := s.runSource file source
  ⟨outcomeChunks level o,
    match o.result with
    | .ok report => .ok (exitAfter report)
    | .error stop => .error (.program stop)⟩

def readProgram (machine : Machine) (file source : String) :
    Except (List Diagnostic) (Program Unit) :=
  match Lexer.tokenize file source with
  | .error d => .error [d.withSource source]
  | .ok tokens =>
    match Parser.parse machine.nesting tokens with
    | .ok p => .ok p
    | .error faults =>
      .error (faults.map fun f => (f.diagnostic (some source)).withSource source)

def approval (file : String) (r : Resolution) : String :=
  "OK: " ++ (Path.ofText file).name ++ " - " ++ toString r.program.statements.length ++
    " top-level statement(s), " ++ toString r.program.localCount ++ " resolved local reference(s)"

def checkFile (machine : Machine) (config : Config) (natives : Registry) (level : LogLevel)
    (file source : String) : Transcript :=
  match readProgram machine file source with
  | .error ds => .done (reports ds) .badData
  | .ok p =>
    let r := Resolution.ofProgram config (Session.nativeNames config natives) p
    let ds := (r.diagnostics config).map fun d => d.withSource source
    let said := logged level [Event.ofResolution config r] ++ reports ds
    if r.hasErrors then .done said .badData
    else
      let warnings := ds.countP Diagnostic.isWarning
      let count :=
        if warnings = 0 then [] else [Chunk.outLine ("  " ++ toString warnings ++ " warning(s)")]
      .done (said ++ Chunk.outLine (approval file r) :: count) .success

def showFile (machine : Machine) (file source : String) : Transcript :=
  match readProgram machine file source with
  | .error ds => .done (reports ds) .badData
  | .ok p =>
    match p.render? machine.prints with
    | some text => .done [.outLine text] .success
    | none => .done [.complaint "syntax tree too deep to print"] .badData

def withFile (around : Surroundings) (file : String) (k : String → Transcript) : Transcript :=
  let path := Path.ofText file
  match around.find? path with
  | some (.file text) => k (String.ofList (Text.unifyNewlines text.toList))
  | _ => .done [.complaint ("File not found: " ++ path.text)] .noInput

/-! ### Dialogues -/

def prompt : Chunk := .out "> "

def dialogueFile : String := "<stdin>"

structure Dialogue where
  session : Session
  level : LogLevel

/-- Answers a line: what is written, and the dialogue behind it unless it broke down. A blank line
has no answer. -/
def Dialogue.answer (d : Dialogue) (line : String) : List Chunk × Except Breakdown Dialogue :=
  if (Text.trim line).isEmpty then ([], .ok d)
  else
    let o := d.session.runSource dialogueFile line
    (outcomeChunks d.level o,
      match o.result with
      | .ok _ => .ok { d with session := o.session }
      | .error stop => .error (.program stop))

def Dialogue.transcript (d : Dialogue) : List String → Transcript
  | [] => .done [prompt, .outLine ""] .success
  | line :: lines =>
    match d.answer line with
    | (chunks, .ok d') => .after (prompt :: chunks) (d'.transcript lines)
    | (chunks, .error b) => ⟨prompt :: chunks, .error b⟩

/-- The lines of an input; the last one needs no line feed. -/
def inputLines (input : String) : List String :=
  let fields := Text.fields '\n' input.toList
  let whole := if fields.getLast? = some [] then fields.dropLast else fields
  whole.map String.ofList

/-! ### All commands -/

/-- What arguments lead to: something that is done at once, or a dialogue after some text. -/
inductive Start where
  | finished (t : Transcript)
  | dialogue (before : List Chunk) (d : Dialogue)

/-- How much is logged: what the configuration says, or what the options ask for. -/
def logLevel (config : Config) (verbosity : Nat) : LogLevel :=
  match verbosity with
  | 0 => config.logLevel
  | 1 => .info
  | _ => .debug

/-- The names of built-in functions asked for that do not exist. -/
def unknownNatives (config : Config) (natives : Registry) : List String :=
  (config.natives.getD []).filter fun name => (natives.find? name).isNone

/-- Complains about a configuration, if the problem is one that users are told about. -/
def refuseConfig (p : Config.Problem) : Transcript :=
  if p.isComplaint then .done [.complaint p.message] .badConfig else ⟨[], .error (.config p)⟩

def newSession (around : Surroundings) (command : Command) (config : Config) (level : LogLevel) :
    Except Transcript (List Chunk × Session) :=
  match Session.create config around.natives around.clock (around.machine command) with
  | .ok s => .ok (logged level [.installed (Session.nativeNames config around.natives)], s)
  | .error name => .error (.done [.complaint (Session.unknownNative name)] .badConfig)

def execute (around : Surroundings) (config : Config) (level : LogLevel) (command : Command) : Start :=
  match command with
  | .run none =>
    match newSession around command config level with
    | .ok (before, s) => .dialogue before ⟨s, level⟩
    | .error t => .finished t
  | .run (some file) =>
    .finished <| withFile around file fun source =>
      match newSession around command config level with
      | .ok (before, s) => .after before (runFile s level file source)
      | .error t => t
  | .check file =>
    .finished (withFile around file (checkFile (around.machine command) config around.natives level file))
  | .ast file => .finished (withFile around file (showFile (around.machine command) file))

def perform (around : Surroundings) (i : Invocation) : Start :=
  match Config.load around.bounds around.read (i.config.map Path.ofText) around.find? around.vars with
  | .error p => .finished (refuseConfig p)
  | .ok config =>
    match unknownNatives config around.natives with
    | [] => execute around config (logLevel config i.verbosity) i.command
    | names =>
      .finished (.done
        [.complaint ("unknown built-in(s) in natives: " ++ ", ".intercalate names)] .badConfig)

def start (around : Surroundings) (args : List String) : Start :=
  match parse args with
  | .ok i => perform around i
  | .error .help => .finished (.done [.out usageText] .success)
  | .error .usage => .finished (.done [.err usageText] .usage)

def transcript (around : Surroundings) (args : List String) (input : String) : Transcript :=
  match start around args with
  | .finished t => t
  | .dialogue before d => .after before (d.transcript (inputLines input))

end Lox.CommandLine
