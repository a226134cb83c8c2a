import LexicalLisp.Console.Program

/-!
# The executable

Connects the program to the terminal: arguments, files and lines come in, transcripts go out as
they arise. A prompt is printed only for a person at a terminal.
-/

namespace LexicalLisp.Console

/-- The depth allowed for evaluations, beyond what the machine's own stack allows. -/
def ampleDepth : Nat := 1000000000

/-- What an error of the file system means for the reader of a file. -/
def problemOf : IO.Error → FileProblem
  | .noFileOrDirectory .. => .missing
  | .inappropriateType _ 21 _ => .directory
  | .userError _ => .other "stream did not contain valid UTF-8"
  | e => .other (toString e)

/-- Puts a piece of output where it belongs. -/
def put : Output → IO Unit
  | .shown text => IO.print text
  | .report text => IO.eprintln text
  | .event event => IO.eprintln event.render

/-- Ends an evaluation for which the depth did not suffice. -/
def giveUp : IO UInt32 := do
  IO.eprintln "evaluation nested too deeply"
  return 134

/-- Takes lines from the terminal until they end or the dialogue does. -/
partial def converse (o : Options) (d : Dialogue) : IO UInt32 := do
  let input ← IO.getStdin
  if ← input.isTty then
    IO.print (if d.pending.isEmpty then ">> " else ".. ")
    (← IO.getStdout).flush
  let line : Except String String ←
    try .ok <$> input.getLine catch e => pure (.error (toString e))
  let answer : Option Dialogue.Answer :=
    match line with
    | .error problem => some (.withoutLine problem)
    | .ok "" => some ⟨[], none⟩
    | .ok line =>
      let line := line.toList
      d.feed ampleDepth o (if line.getLast? = some '\n' then line.dropLast else line)
  match answer with
  | none => giveUp
  | some answer =>
    answer.transcript.forM put
    match answer.dialogue with
    | none => return 0
    | some d => converse o d

/-- Puts out what a program that has ended left. -/
def conclude : Option Outcome → IO UInt32
  | none => giveUp
  | some outcome => do
    outcome.transcript.forM put
    return outcome.exitCode.toUInt32

end LexicalLisp.Console

open LexicalLisp.Console

/-- Runs the program. -/
def main (arguments : List String) : IO UInt32 := do
  match Command.ofArguments arguments with
  | .ok (.run .lines o) => converse o (.start .full)
  | .ok (.run (.file path) _) => do
    let content ← try .ok <$> IO.FS.readFile path catch e => pure (.error (problemOf e))
    conclude (program ampleDepth (fun _ ↦ content) arguments "")
  | _ => conclude (program ampleDepth (fun _ ↦ .error .missing) arguments "")
