import Lox.Decimal.Reader
import Lox.Value

/-!
# Built-in functions

A registry holds built-in functions under their names; registering a function replaces the one of
the same name. A built-in function sees the time and its arguments, and gives a value or says what
is wrong with the arguments.
-/

namespace Lox

structure Native where
  name : String
  arity : Nat
  run : Float → List Value → Except String Value

instance : Inhabited Native := ⟨⟨"", 0, fun _ _ => .ok .nil⟩⟩

structure Registry where
  natives : List Native
deriving Inhabited

namespace Registry

def find? (r : Registry) (name : String) : Option Native :=
  r.natives.find? fun n => n.name == name

def register (r : Registry) (native : Native) : Registry :=
  if (r.find? native.name).isSome then
    ⟨r.natives.map fun n => if n.name == native.name then native else n⟩
  else ⟨r.natives ++ [native]⟩

def names (r : Registry) : List String :=
  (r.natives.map Native.name).mergeSort fun a b => decide (a ≤ b)

end Registry

namespace Native

def str : Native where
  name := "str"
  arity := 1
  run
    | _, [v] => .ok (.string v.text)
    | _, _ => .ok .nil

/-- The number that a string denotes; a number stays as it is. -/
def num : Native where
  name := "num"
  arity := 1
  run
    | _, [.number x] => .ok (.number x)
    | _, [.string s] =>
      match Decimal.float? s with
      | some x => .ok (.number x)
      | none => .error ("cannot convert \"" ++ s ++ "\" to a number")
    | _, [v] => .error ("expected a number or string, got " ++ v.kind.name)
    | _, _ => .ok .nil

def type : Native where
  name := "type"
  arity := 1
  run
    | _, [v] => .ok (.string v.kind.name)
    | _, _ => .ok .nil

def clock : Native where
  name := "clock"
  arity := 0
  run now _ := .ok (.number now)

end Native

def Registry.standard : Registry := ⟨[.str, .num, .type, .clock]⟩

end Lox
