import Lox.CommandLine.Commands
import Lox.Yaml.Document

/-!
# The program

The outer layer of the command line: it looks at files, variables and the clock, reads the lines of a
dialogue and writes what the commands bring forth.
-/

namespace Lox.CommandLine

def emit (chunk : Chunk) : IO Unit := do
  match chunk with
  | .out text =>
    let stream ← IO.getStdout
    stream.putStr text
    stream.flush
  | .err text =>
    let stream ← IO.getStderr
    stream.putStr text
    stream.flush

/-- Ends the program; what it had no answer to is written to the error output. -/
def finish (ending : Except Breakdown Exit) : IO UInt32 := do
  match ending with
  | .ok exit => return UInt32.ofNat exit.code
  | .error (.config p) =>
    emit (.errLine p.message)
    return 1
  | .error (.program (.defect d)) =>
    emit (.errLine d.message)
    return 1
  | .error (.program _) => return 1

def look (path : Path) : IO (Option Entry) := do
  try
    return some (.file (← IO.FS.readFile path.text))
  catch
  | .inappropriateType .. => return some .directory
  | _ => return none

def namedPaths (args : List String) : List Path :=
  match parse args with
  | .error _ => []
  | .ok i =>
    let source :=
      match i.command with
      | .run file => file
      | .check file | .ast file => some file
    (i.config.toList ++ source.toList).map Path.ofText

def setVariables : IO Config.Variables := do
  let read ← Config.Field.all.mapM fun f => do
    return (← IO.getEnv f.varName).map fun value => (f.varName, value)
  return read.filterMap id

partial def converse (input : IO.FS.Stream) (d : Dialogue) : IO UInt32 := do
  emit prompt
  let line ← input.getLine
  if line.isEmpty then
    emit (.outLine "")
    finish (.ok .success)
  else
    let (chunks, next) := d.answer (String.ofList (line.toList.filter fun c => c != '\n'))
    chunks.forM emit
    match next with
    | .ok d => converse input d
    | .error b => finish (.error b)

end Lox.CommandLine

open Lox Lox.CommandLine in
def main (args : List String) : IO UInt32 := do
  let found ← (namedPaths args).mapM fun p => do return (p.text, ← look p)
  let now ← IO.monoMsNow
  let around : Surroundings :=
    { bounds := {}
      read := Yaml.data
      find? := fun p => (found.lookup p.text).bind id
      vars := ← setVariables
      natives := Registry.standard
      clock := fun _ => Float.ofNat now / 1000.0
      machine := fun _ => .standard }
  match start around args with
  | .finished t =>
    t.chunks.forM emit
    finish t.ending
  | .dialogue before d =>
    before.forM emit
    converse (← IO.getStdin) d
