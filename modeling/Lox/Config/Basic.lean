/-!
# Settings

The settings that the resolver, the evaluator and the command line share. Limits are positive and log
levels come from a fixed list, so every value of `Config` is a valid configuration.
-/

namespace Lox

abbrev Limit : Type := { n : Nat // 0 < n }

inductive LogLevel where
  | debug
  | info
  | warning
  | error
  | critical
deriving DecidableEq, Repr, Inhabited

def LogLevel.all : List LogLevel := [.debug, .info, .warning, .error, .critical]

def LogLevel.name : LogLevel → String
  | .debug => "DEBUG"
  | .info => "INFO"
  | .warning => "WARNING"
  | .error => "ERROR"
  | .critical => "CRITICAL"

def LogLevel.ofName? (name : String) : Option LogLevel :=
  LogLevel.all.find? fun l => l.name == name

theorem LogLevel.ofName?_name (l : LogLevel) : LogLevel.ofName? l.name = some l := by
  cases l <;> decide

namespace Config

/-- Static errors that are reported at most unless something else is set. -/
def errorLimit : Limit := ⟨20, Nat.zero_lt_succ 19⟩

/-- Calls in progress at the same time unless something else is set. -/
def callLimit : Limit := ⟨1000, Nat.zero_lt_succ 999⟩

end Config

structure Config where
  /-- Static errors that are reported at most. -/
  maxErrors : Limit := Config.errorLimit
  /-- A local name may be declared again in its scope. -/
  allowLocalRedeclaration : Bool := false
  /-- Global names that nothing declares are warned about. -/
  warnUndefinedGlobals : Bool := true
  /-- The built-in functions to install; all of them if absent. -/
  natives : Option (List String) := none
  /-- Calls that may be in progress at the same time. -/
  maxCallDepth : Limit := Config.callLimit
  logLevel : LogLevel := .warning
deriving DecidableEq, Repr

instance : Inhabited Config := ⟨{}⟩

end Lox
