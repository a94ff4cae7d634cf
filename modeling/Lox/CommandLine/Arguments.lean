import Lox.Text.Fields
import Lox.Text.Numeral

/-!
# Arguments of the command line

Options come before the command, the name of a file behind it. A long option may be cut short as long
as only one option begins that way; short options may share one dash, and a value may be written right
behind its option. Two dashes end the options. Anything that asks for help is answered with it, unless
an error comes first.
-/

namespace Lox.CommandLine

/-- What is to be done. A run without a file is a dialogue. -/
inductive Command where
  | run (file : Option String)
  | check (file : String)
  | ast (file : String)
deriving DecidableEq, Repr, Inhabited

structure Invocation where
  /-- The configuration file. -/
  config : Option String := none
  /-- How often more output was asked for. -/
  verbosity : Nat := 0
  command : Command
deriving DecidableEq, Repr, Inhabited

inductive Refusal where
  | help
  | usage
deriving DecidableEq, Repr, Inhabited

/-! ### Options -/

inductive Switch where
  | help
  | config
  | verbose
deriving DecidableEq, Repr, Inhabited

def Switch.takesValue : Switch → Bool
  | .config => true
  | .help | .verbose => false

abbrev Switches : Type := List (String × Switch)

def globalSwitches : Switches :=
  [("-h", .help), ("--help", .help), ("-c", .config), ("--config", .config), ("-v", .verbose),
    ("--verbose", .verbose)]

def commandSwitches : Switches := [("-h", .help), ("--help", .help)]

/-- Text right behind an option, or behind an equals sign. -/
structure Attached where
  text : String
  behindEquals : Bool
deriving DecidableEq, Repr

/-- An option as it was written: whether with one dash, and the text that is attached to it. -/
structure Given where
  switch : Switch
  isShort : Bool
  attached : Option Attached
deriving DecidableEq, Repr

inductive Shape where
  | operand
  | given (g : Given)
  | unknownOption
  /-- More than one option begins that way. -/
  | ambiguous
deriving DecidableEq, Repr

/-- The parts before and behind the first equals sign, if there is one. -/
def splitEquals (arg : String) : Option (String × String) :=
  let cs := arg.toList
  match cs.dropWhile fun c => c != '=' with
  | [] => none
  | _ :: behind => some (String.ofList (cs.takeWhile fun c => c != '='), String.ofList behind)

def isShort (name : String) : Bool := name.toList.length == 2

/-- The options that an argument may mean that is no option's name in full. -/
def candidates (known : Switches) (arg : String) : List Given :=
  match arg.toList with
  | '-' :: '-' :: _ =>
    let (start, attached) : String × Option Attached :=
      match splitEquals arg with
      | some (before, behind) => (before, some ⟨behind, true⟩)
      | none => (arg, none)
    (known.filter fun k => start.toList.isPrefixOf k.1.toList).map fun k => ⟨k.2, false, attached⟩
  | '-' :: c :: rest =>
    match known.lookup (String.ofList ['-', c]) with
    | some s => [⟨s, true, some ⟨String.ofList rest, false⟩⟩]
    | none => []
  | _ => []

def isNegativeNumber (arg : String) : Bool :=
  let isDigit := fun c => (Text.digitValue? c).isSome
  let isRun := fun (cs : List Char) => !cs.isEmpty && cs.all isDigit
  match arg.toList with
  | '-' :: cs =>
    match Text.fields '.' cs with
    | [whole] => isRun whole
    | [whole, fraction] => whole.all isDigit && isRun fraction
    | _ => false
  | _ => false

def shape (known : Switches) (arg : String) : Shape :=
  match known.lookup arg with
  | some s => .given ⟨s, isShort arg, none⟩
  | none =>
    match arg.toList with
    | '-' :: _ :: _ =>
      let inFull := (splitEquals arg).bind fun (before, behind) =>
        (known.lookup before).map fun s => Given.mk s (isShort before) (some ⟨behind, true⟩)
      match inFull, candidates known arg with
      | some g, _ => .given g
      | none, [g] => .given g
      | none, _ :: _ => .ambiguous
      | none, [] =>
        if isNegativeNumber arg || arg.contains ' ' then .operand else .unknownOption
    | _ => .operand

/-- A part of an argument: an option, with a value if it has one already, or something unknown. -/
inductive Part where
  | option (s : Switch) (value : Option String)
  | unknown
deriving DecidableEq, Repr

/-- The parts of an argument that begins with the option `s` behind one dash. Text behind an option
that takes no value is further options; only the last of them may have a value. -/
def cluster (known : Switches) (s : Switch) : List Char → Except Refusal (List Part)
  | [] => .ok [.option s none]
  | '=' :: cs => if s.takesValue then .ok [.option s (some (String.ofList cs))] else .error .usage
  | c :: cs =>
    if s.takesValue then .ok [.option s (some (String.ofList (c :: cs)))]
    else if c = '-' then .error .usage
    else
      match known.lookup (String.ofList ['-', c]) with
      | some t => do return .option s none :: (← cluster known t cs)
      | none => .ok [.option s none, .unknown]

def parts (known : Switches) (g : Given) : Except Refusal (List Part) :=
  match g.attached with
  | none => .ok [.option g.switch none]
  | some a =>
    if g.switch.takesValue then .ok [.option g.switch (some a.text)]
    else if g.isShort && !a.behindEquals then cluster known g.switch a.text.toList
    else .error .usage

def Part.needsValue : Part → Bool
  | .option s none => s.takesValue
  | _ => false

def Part.withValue (value : String) : Part → Part
  | .option s _ => .option s (some value)
  | .unknown => .unknown

/-- Gives a value to the option that needs one, if there is such an option: the next argument, which
must be there and be an operand. What remains of the arguments comes with it. -/
def complete (known : Switches) (rest : List String) :
    List Part → Except Refusal (List Part × List String)
  | [] => .ok ([], rest)
  | part :: more => do
    if part.needsValue then
      match rest with
      | next :: rest =>
        if next ≠ "--" && shape known next = .operand then
          return (part.withValue next :: more, rest)
        else throw .usage
      | [] => throw .usage
    else
      let (more, rest) ← complete known rest more
      return (part :: more, rest)

/-- An argument before the two dashes must not be ambiguous, wherever it stands. -/
def checkShapes (known : Switches) (args : List String) : Except Refusal Unit :=
  if (args.takeWhile fun a => a != "--").any fun a => shape known a == .ambiguous then .error .usage
  else .ok ()

/-! ### The arguments of a command -/

structure Operands where
  file : Option String := none
  /-- There was something that has no place there. -/
  surplus : Bool := false
deriving Repr

def Operands.add (o : Operands) (file : String) : Operands :=
  match o.file with
  | none => { o with file := some file }
  | some _ => { o with surplus := true }

def operands (o : Operands) : List String → Except Refusal Operands
  | [] => .ok o
  | arg :: rest =>
    if arg = "--" then .ok (rest.foldl Operands.add o)
    else
      match shape commandSwitches arg with
      | .operand => operands (o.add arg) rest
      | .unknownOption => operands { o with surplus := true } rest
      | .ambiguous => .error .usage
      | .given g => do
        let _ ← parts commandSwitches g
        throw .help

def neededFile (o : Operands) : Except Refusal String :=
  match o.file with
  | some file => .ok file
  | none => .error .usage

def command (name : String) (args : List String) : Except Refusal (Command × Bool) := do
  let read := do
    checkShapes commandSwitches args
    operands {} args
  if name = "run" then
    let o ← read
    return (.run o.file, o.surplus)
  else if name = "check" then
    let o ← read
    return (.check (← neededFile o), o.surplus)
  else if name = "ast" then
    let o ← read
    return (.ast (← neededFile o), o.surplus)
  else throw .usage

/-! ### All arguments -/

/-- What the options before the command have said. -/
structure Settings where
  config : Option String := none
  verbosity : Nat := 0
  /-- There was an option that is not known. -/
  surplus : Bool := false
deriving Repr

def Settings.apply (s : Settings) (part : Part) : Except Refusal Settings :=
  match part with
  | .option .help _ => .error .help
  | .option .config value => .ok { s with config := value }
  | .option .verbose _ => .ok { s with verbosity := s.verbosity + 1 }
  | .unknown => .ok { s with surplus := true }

/-- Reads options up to the command, then the command; `fuel` bounds the recursion. -/
def invocation : (fuel : Nat) → Settings → List String → Except Refusal Invocation
  | 0, _, _ => .error .usage
  | _, _, [] => .error .usage
  | fuel + 1, s, arg :: rest =>
    if arg = "--" then .error .usage
    else
      match shape globalSwitches arg with
      | .operand => do
        let (c, surplus) ← command arg rest
        if s.surplus || surplus then throw .usage
        return ⟨s.config, s.verbosity, c⟩
      | .unknownOption => invocation fuel { s with surplus := true } rest
      | .ambiguous => .error .usage
      | .given g => do
        let (found, rest) ← complete globalSwitches rest (← parts globalSwitches g)
        invocation fuel (← found.foldlM Settings.apply s) rest

def parse (args : List String) : Except Refusal Invocation := do
  checkShapes globalSwitches args
  invocation (args.length + 1) {} args

def usageText : String :=
  "usage: lox [-h] [-c FILE] [-v] run [FILE] | check FILE | ast FILE\n"

end Lox.CommandLine
