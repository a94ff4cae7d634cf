import Lox.Diagnostic.Basic

/-!
# What is found wrong with names

The errors and the warning that follow from the declarations of a program alone, without running it.
-/

namespace Lox

/-- Something wrong with a name or with a `return`. -/
inductive ScopeIssue where
  | selfReference (name : String)
  | returnOutsideFunction
  | duplicateDeclaration (name : String) (previous : Span)
  | duplicateParameter (name : String)
  | undefinedGlobal (name : String)
deriving DecidableEq, Repr, Inhabited

namespace ScopeIssue

def code : ScopeIssue → String
  | selfReference _ => "E301"
  | returnOutsideFunction => "E302"
  | duplicateDeclaration _ _ => "E303"
  | duplicateParameter _ => "E304"
  | undefinedGlobal _ => "W301"

/-- Only an undefined global is no error: it may be defined by the time it is reached. -/
def severity : ScopeIssue → Severity
  | undefinedGlobal _ => .warning
  | _ => .error

def message : ScopeIssue → String
  | selfReference name => "can't read local variable '" ++ name ++ "' in its own initializer"
  | returnOutsideFunction => "can't return from top-level code"
  | duplicateDeclaration name _ => "variable '" ++ name ++ "' is already declared in this scope"
  | duplicateParameter name => "duplicate parameter '" ++ name ++ "'"
  | undefinedGlobal name => "'" ++ name ++ "' is not declared at top level or as a built-in"

def hints : ScopeIssue → List String
  | duplicateDeclaration _ _ => ["use assignment to change the existing variable"]
  | undefinedGlobal _ => ["the reference fails at run time if it is reached"]
  | _ => []

def notes : ScopeIssue → List Note
  | duplicateDeclaration name previous => [⟨"'" ++ name ++ "' first declared here", previous⟩]
  | _ => []

end ScopeIssue

structure Finding where
  issue : ScopeIssue
  span : Span
deriving DecidableEq, Repr, Inhabited

namespace Finding

def isError (f : Finding) : Bool := f.issue.severity == .error

def diagnostic (f : Finding) : Diagnostic where
  code := f.issue.code
  message := f.issue.message
  severity := f.issue.severity
  span := f.span
  hints := f.issue.hints
  notes := f.issue.notes

theorem isError_diagnostic (f : Finding) : f.diagnostic.isError = f.isError := rfl

/-- The findings with errors beyond the first `limit` left out; warnings all stay. -/
def limitErrors : Nat → List Finding → List Finding
  | _, [] => []
  | limit, f :: fs =>
    if f.isError then
      match limit with
      | 0 => limitErrors 0 fs
      | n + 1 => f :: limitErrors n fs
    else f :: limitErrors limit fs

theorem filter_isError_limitErrors (limit : Nat) (fs : List Finding) :
    (limitErrors limit fs).filter isError = (fs.filter isError).take limit := by
  induction fs generalizing limit with
  | nil => simp [limitErrors]
  | cons f fs ih =>
    by_cases h : f.isError = true
    · cases limit <;> simp [limitErrors, h, ih]
    · simp [limitErrors, h, ih]

theorem filter_not_isError_limitErrors (limit : Nat) (fs : List Finding) :
    (limitErrors limit fs).filter (fun f => !f.isError) = fs.filter fun f => !f.isError := by
  induction fs generalizing limit with
  | nil => rfl
  | cons f fs ih =>
    by_cases h : f.isError = true
    · cases limit <;> simp [limitErrors, h, ih]
    · simp [limitErrors, h, ih]

theorem mem_of_mem_limitErrors {limit : Nat} {fs : List Finding} {f : Finding}
    (h : f ∈ limitErrors limit fs) : f ∈ fs := by
  cases he : f.isError with
  | false =>
    have hmem : f ∈ (limitErrors limit fs).filter fun f => !f.isError :=
      List.mem_filter.mpr ⟨h, by rw [he]; rfl⟩
    rw [filter_not_isError_limitErrors] at hmem
    exact (List.mem_filter.mp hmem).1
  | true =>
    have hmem : f ∈ (limitErrors limit fs).filter isError := List.mem_filter.mpr ⟨h, he⟩
    rw [filter_isError_limitErrors] at hmem
    exact (List.mem_filter.mp (List.mem_of_mem_take hmem)).1

end Finding

end Lox
