import Lox.Config.Basic
import Lox.Scope.Reference
import Lox.Scope.Walk

/-!
# Resolved programs

A program is resolved by one walk over it. The references are numbered for the walk, which keeps for
each number how many scopes out the declaration is; in the resolved program every reference knows its
hops, or that it is global.
-/

namespace Lox

/-- A program with the bindings of its numbered references, and everything found on the way. -/
structure Resolution where
  numbered : Program Nat
  bindings : List (Nat × Nat)
  findings : List Finding
deriving Inhabited

namespace Resolution

def topLevelNames {ρ : Type} (p : Program ρ) : List String := p.statements.filterMap Stmt.declared?

/-- The rules for a program under given settings; `natives` are the further names that are known to
be global. -/
def rulesFor {ρ : Type} (config : Config) (natives : List String) (p : Program ρ) : Rules :=
  let names := topLevelNames p
  { allowRedeclaration := config.allowLocalRedeclaration
    warnUndefined := config.warnUndefinedGlobals
    isGlobal := fun name => names.contains name || natives.contains name }

/-- Resolves a program; `natives` are the further names that are known to be global. -/
def ofProgram (config : Config) (natives : List String) (p : Program Unit) : Resolution :=
  let (_, progress) := (walkProgram (rulesFor config natives p) p.numbered).run {}
  ⟨p.numbered, progress.bindings, progress.findings.reverse⟩

/-- The program in which each reference has its binding. -/
def program (r : Resolution) : Program (Option Nat) := r.numbered.map fun n => r.bindings.lookup n

/-- The findings that are reported: all warnings, and errors up to the limit. -/
def reported (config : Config) (r : Resolution) : List Finding :=
  Finding.limitErrors config.maxErrors.val r.findings

def diagnostics (config : Config) (r : Resolution) : List Diagnostic :=
  (r.reported config).map Finding.diagnostic

def hasErrors (r : Resolution) : Bool := r.findings.any Finding.isError

end Resolution

end Lox
