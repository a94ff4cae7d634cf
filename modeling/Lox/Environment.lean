/-!
# Environments

An environment is the list of the frames that are visible at a place of a program, the innermost
first; the last one holds the globals. Frames are numbered cells, so an environment that a function
has captured stays valid for as long as the function lives.
-/

namespace Lox

abbrev FrameId : Type := Nat

/-- The frames visible at a place: the innermost one and those around it, from inside out. -/
structure Environment where
  frame : FrameId
  enclosing : List FrameId := []
deriving DecidableEq, Repr, Inhabited

namespace Environment

def frames (env : Environment) : List FrameId := env.frame :: env.enclosing

def child (env : Environment) (frame : FrameId) : Environment := ⟨frame, env.frames⟩

def ancestor? (env : Environment) (hops : Nat) : Option Environment :=
  match env.frames.drop hops with
  | [] => none
  | f :: fs => some ⟨f, fs⟩

def outermost (env : Environment) : FrameId := env.enclosing.getLastD env.frame

def depth (env : Environment) : Nat := env.enclosing.length

theorem outermost_child (env : Environment) (frame : FrameId) :
    (env.child frame).outermost = env.outermost :=
  List.getLastD_cons

end Environment

end Lox
