import Lox.Config.Field
import Lox.Evaluation

/-!
# What a command writes and how it ends

A command writes to the standard output and to the error output, in an order, and ends with an exit
code; or it is broken off by something that it has no answer to.
-/

namespace Lox.CommandLine

inductive Exit where
  | success
  | usage
  | badData
  | noInput
  | runtimeError
  | badConfig
deriving DecidableEq, Repr, Inhabited

def Exit.code : Exit → Nat
  | success => 0
  | usage => 64
  | badData => 65
  | noInput => 66
  | runtimeError => 70
  | badConfig => 78

inductive Breakdown where
  | config (p : Config.Problem)
  | program (s : Stop)
deriving Inhabited

/-- A piece of text on one of the two outputs. -/
inductive Chunk where
  | out (text : String)
  | err (text : String)
deriving DecidableEq, Repr, Inhabited

namespace Chunk

def outLine (text : String) : Chunk := .out (text ++ "\n")

def errLine (text : String) : Chunk := .err (text ++ "\n")

def complaint (message : String) : Chunk := errLine ("Error: " ++ message)

def outText? : Chunk → Option String
  | out text => some text
  | err _ => none

def errText? : Chunk → Option String
  | out _ => none
  | err text => some text

end Chunk

/-- All that a command wrote, and its end. -/
structure Transcript where
  chunks : List Chunk
  ending : Except Breakdown Exit
deriving Inhabited

namespace Transcript

def out (t : Transcript) : String := String.join (t.chunks.filterMap Chunk.outText?)

def err (t : Transcript) : String := String.join (t.chunks.filterMap Chunk.errText?)

def done (chunks : List Chunk) (exit : Exit) : Transcript := ⟨chunks, .ok exit⟩

def after (chunks : List Chunk) (t : Transcript) : Transcript := { t with chunks := chunks ++ t.chunks }

end Transcript

end Lox.CommandLine
