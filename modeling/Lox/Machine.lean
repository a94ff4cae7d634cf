import Lox.Syntax.Basic

/-!
# Machines

What a program needs of the machine that it runs on. The parser, the printer of trees and the evaluation
recur on the stack of the host, which has room for so many frames: evaluation takes some of them for
everything that it is in the middle of, and where there is no room left the innermost call that can still
tell has overflowed. For the calls that a program may have in progress a larger stack is asked for, which
the host may refuse.
-/

namespace Lox

/-! ### The stack -/

/-- What an evaluation can be in the middle of. -/
inductive Activity where
  | literal
  | reference
  | assignment
  | unary
  | binary
  | logical
  | call
  | arguments
  | group
  | expression
  | print
  | varDecl
  | block
  | conditional
  | loop
  | funDecl
  | ret
  /-- The body of a function of the program. -/
  | body
  /-- A built-in function. -/
  | native
  /-- Telling what is wrong. -/
  | report
deriving DecidableEq, Repr, Inhabited

/-- The room that is left on the stack: the frames that are free and those that an activity takes, with
the place that is told about where they do not do. -/
structure Room where
  free : Nat
  takes : Activity → Nat
  blame : Span
deriving Inhabited

namespace Room

def fits (r : Room) (a : Activity) : Bool := r.takes a ≤ r.free

/-- The room inside an activity that fits. -/
def inside (r : Room) (a : Activity) : Room := { r with free := r.free - r.takes a }

def blaming (r : Room) (span : Span) : Room := { r with blame := span }

/-- The room in a call at the given place, which is told about if there is room to tell. -/
def calling (r : Room) (span : Span) : Room := if r.fits .report then r.blaming span else r

end Room

/-! ### The host -/

structure Machine where
  /-- Levels that the parser gets down to. -/
  nesting : Nat
  /-- The trees that the printer gets to the end of. -/
  prints : Program Unit → Bool
  /-- Frames of the stack, if no more are asked for. -/
  frames : Nat
  /-- The most frames that may be asked for. -/
  mostFrames : Nat
  /-- Frames that are in use when a program begins. -/
  used : Nat
  takes : Activity → Nat
  /-- Passes that a loop may make before it is cut off. -/
  passes : Nat

namespace Machine

def framesPerCall : Nat := 12

/-- Frames that are asked for so that so many calls can be in progress. -/
def needed (calls : Nat) : Nat := calls * framesPerCall + 200

/-- The frames that the host gives for so many calls, unless it refuses. -/
def granted? (m : Machine) (calls : Nat) : Option Nat :=
  if m.frames < needed calls then
    if needed calls ≤ m.mostFrames then some (needed calls) else none
  else some m.frames

/-- The room in which a program begins that may have so many calls in progress. -/
def room? (m : Machine) (calls : Nat) : Option Room :=
  (m.granted? calls).map fun frames => ⟨frames - m.used, m.takes, .nowhere⟩

/-- A machine of the usual size. -/
def standard : Machine where
  nesting := 500
  prints p := Stmt.heightAll p.statements ≤ 240
  frames := 1000
  mostFrames := 2147483647
  used := 12
  takes
    | .group | .arguments | .expression | .print | .varDecl | .funDecl | .ret => 1
    | .assignment | .unary | .binary | .logical | .call | .block | .conditional | .loop | .body => 2
    | .literal | .reference | .native | .report => 4
  passes := 1152921504606846976

end Machine

end Lox
