import LexicalLisp.Console.CommandLine
import LexicalLisp.Console.Dialogue

/-!
# The program

The whole program as a function: from its arguments, the files it may read and its standard input
to an exit code and a transcript. Wrong usage exits with 2, a failed text or an unreadable file
with 1, and everything else with 0, whatever faults a dialogue has met.
-/

namespace LexicalLisp.Console

/-- The version of the program. -/
def versionText : String := "minilisp 0.1.0-dev\n"

/-- A summary of the command line. -/
def helpText : String :=
  "usage: minilisp [FILE | -e EXPR] [--tokens] [--ast] [--pretty] [-k] [-v]...\n" ++
  "  FILE               evaluate all forms in this file\n" ++
  "  -e, --eval EXPR    evaluate the given source text\n" ++
  "  --tokens           print each token tree before building it\n" ++
  "  --ast              print each syntax tree before evaluating it\n" ++
  "  --pretty           print results in the indented multi-line form\n" ++
  "  -k, --keep-going   report errors and continue with the next form\n" ++
  "  -v                 raise log verbosity (-v debug, -vv trace)\n" ++
  "  -V, --version      print the version\n" ++
  "  -h, --help         print this summary\n"

/-- Why a file cannot be read. -/
inductive FileProblem where
  | missing
  | directory
  | other (reason : String)
deriving DecidableEq

/-- The text of a file problem. -/
def FileProblem.message : FileProblem → String
  | missing => "No such file or directory (os error 2)"
  | directory => "Is a directory (os error 21)"
  | other reason => reason

/-- What is left of a program that has ended. -/
structure Outcome where
  /-- The exit code. -/
  exitCode : Nat
  /-- What was put out. -/
  transcript : List Output

/-- Runs a text as the whole program. -/
def programText (depth : Nat) (o : Options) (text : List Char) : Option Outcome :=
  let dialogue := Dialogue.start .full
  match runText depth o dialogue.session text dialogue.store with
  | none => none
  | some batch => some ⟨if batch.success then 0 else 1, batch.transcript⟩

/-- The whole program. -/
def program (depth : Nat) (readFile : String → Except FileProblem String)
    (arguments : List String) (input : String) : Option Outcome :=
  match Command.ofArguments arguments with
  | .error e => some ⟨2, [.report e.message]⟩
  | .ok .version => some ⟨0, [.shown versionText]⟩
  | .ok .help => some ⟨0, [.shown helpText]⟩
  | .ok (.run (.text source) o) => programText depth o source.toList
  | .ok (.run (.file path) o) =>
    match readFile path with
    | .error problem => some ⟨1, [.report (Fault.ofCause (.file problem.message)).report]⟩
    | .ok source => programText depth o source.toList
  | .ok (.run .lines o) =>
    match (Dialogue.start .full).feedAll depth o (linesOf input.toList) with
    | none => none
    | some answer => some ⟨0, answer.transcript⟩

end LexicalLisp.Console
