import LexicalLisp.Console.Batch

/-!
# Command line

The arguments say where forms come from (a text on the command line, a file, or lines one after
another), what is shown besides values, and whether to go on after a fault.

Arguments are taken from left to right. A word that begins with `-` is an option or a cluster of
one-letter options, except `-` alone, and `--` ends the options. The value of an option follows
it directly, behind `=`, or as the next argument, which then must not look like an option.

Some mistakes are noticed as soon as they are met: an unknown option, a value for an option that
takes none, a second file. The others only show when all arguments have been taken: an option given
twice, one without its value, a file beside a text. A request for help or for the version takes
effect where it is met, before mistakes of the second kind and after those of the first.
-/

namespace LexicalLisp.Console

/-- Where the forms come from. -/
inductive Source where
  /-- A text. -/
  | text (source : String)
  /-- A file. -/
  | file (path : String)
  /-- Lines, each run as soon as it is complete. -/
  | lines
deriving DecidableEq

/-- What a command line asks for. -/
inductive Command where
  | run (source : Source) (options : Options)
  | version
  | help
deriving DecidableEq

/-- Why a command line is not understood. -/
inductive UsageError where
  | unknownOption (option : String)
  | unneededValue (option : String)
  | unexpectedArgument (argument : String)
  | missingValue (option : String)
  | repeatedOption (option : String)
  | fileWithText
deriving DecidableEq

/-- The text of a usage error. -/
def UsageError.message : UsageError → String
  | unknownOption option => s!"unknown option {option}"
  | unneededValue option => s!"{option} takes no value"
  | unexpectedArgument argument => s!"unexpected argument {argument}"
  | missingValue option => s!"{option} needs a value"
  | repeatedOption option => s!"{option} was given more than once"
  | fileWithText => "a file cannot be combined with --eval"

/-- The options without a value. -/
inductive Flag where
  | tokens | ast | pretty | keepGoing | verbose
deriving DecidableEq

/-- The long name of a flag. -/
def Flag.name : Flag → String
  | tokens => "--tokens"
  | ast => "--ast"
  | pretty => "--pretty"
  | keepGoing => "--keep-going"
  | verbose => "-v"

/-- What the arguments taken so far have said. -/
structure Arguments where
  /-- How often a text was announced. -/
  announced : Nat
  /-- The texts given. -/
  texts : List String
  /-- The file given. -/
  file : Option String
  /-- The flags given, with repetitions. -/
  flags : List Flag

namespace Arguments

/-- Before any argument. -/
def empty : Arguments := ⟨0, [], none, []⟩

/-- A text is announced. -/
def announce (a : Arguments) : Arguments := { a with announced := a.announced + 1 }

/-- An announced text is given. -/
def addText (a : Arguments) (text : String) : Arguments := { a with texts := a.texts ++ [text] }

/-- A flag is given. -/
def addFlag (a : Arguments) (flag : Flag) : Arguments := { a with flags := a.flags ++ [flag] }

/-- A word that is neither an option nor a value names the file. -/
def addWord (a : Arguments) (word : String) : Except UsageError Arguments :=
  match a.file with
  | some _ => .error (.unexpectedArgument word)
  | none => .ok { a with file := word }

/-- The first flag of a list that was given twice and must not be. -/
def repeated? (a : Arguments) : Option Flag :=
  [Flag.tokens, .ast, .pretty, .keepGoing].find? fun flag ↦ 1 < a.flags.count flag

/-- The options that the flags set. -/
def options (a : Arguments) : Options where
  showTokens := a.flags.contains .tokens
  showAst := a.flags.contains .ast
  pretty := a.flags.contains .pretty
  keepGoing := a.flags.contains .keepGoing
  verbosity := a.flags.count .verbose

/-- What all arguments together ask for. -/
def toCommand (a : Arguments) : Except UsageError Command :=
  match a.repeated? with
  | some flag => .error (.repeatedOption flag.name)
  | none =>
    if 1 < a.announced then .error (.repeatedOption "--eval")
    else if a.texts.length < a.announced then .error (.missingValue "--eval")
    else
      match a.texts, a.file with
      | _ :: _, some _ => .error .fileWithText
      | text :: _, none => .ok (.run (.text text) a.options)
      | [], some path => .ok (.run (.file path) a.options)
      | [], none => .ok (.run .lines a.options)

end Arguments

/-- What the next argument means. -/
inductive Expectation where
  /-- Anything. -/
  | anything
  /-- The text announced, unless it looks like an option. -/
  | text
  /-- A word, whatever it looks like. -/
  | word
deriving DecidableEq

/-- The effect of an argument: what is known after it, or a request that is met at once. -/
abbrev Taken := Except UsageError ((Arguments × Expectation) ⊕ Command)

/-- A flag without a value behind `=`. -/
def takeFlag (a : Arguments) (flag : Flag) (value : Option (List Char)) : Taken :=
  match value with
  | some _ => .error (.unneededValue flag.name)
  | none => .ok (.inl (a.addFlag flag, .anything))

/-- An option by its long name, with the value behind `=` if there is one. -/
def takeLong (a : Arguments) (name : String) (value : Option (List Char)) : Taken :=
  match name, value with
  | "eval", some text => .ok (.inl (a.announce.addText (String.ofList text), .anything))
  | "eval", none => .ok (.inl (a.announce, .text))
  | "tokens", value => takeFlag a .tokens value
  | "ast", value => takeFlag a .ast value
  | "pretty", value => takeFlag a .pretty value
  | "keep-going", value => takeFlag a .keepGoing value
  | "version", none => .ok (.inr .version)
  | "help", none => .ok (.inr .help)
  | "version", some _ => .error (.unneededValue "--version")
  | "help", some _ => .error (.unneededValue "--help")
  | name, _ => .error (.unknownOption ("--" ++ name))

/-- A cluster of one-letter options. The value of `-e` is the rest of its cluster. -/
def takeShort (a : Arguments) : List Char → Taken
  | [] => .ok (.inl (a, .anything))
  | ['e'] => .ok (.inl (a.announce, .text))
  | 'e' :: '=' :: text => .ok (.inl (a.announce.addText (String.ofList text), .anything))
  | 'e' :: text => .ok (.inl (a.announce.addText (String.ofList text), .anything))
  | 'k' :: rest => takeShort (a.addFlag .keepGoing) rest
  | 'v' :: rest => takeShort (a.addFlag .verbose) rest
  | 'V' :: _ => .ok (.inr .version)
  | 'h' :: _ => .ok (.inr .help)
  | c :: _ => .error (.unknownOption ("-" ++ c.toString))

/-- The part of a word before the first `=`, and the part behind it if there is one. -/
def splitValue (word : List Char) : String × Option (List Char) :=
  let value :=
    match word.dropWhile (· != '=') with
    | [] => none
    | _ :: value => some value
  (String.ofList (word.takeWhile (· != '=')), value)

/-- Takes one argument. -/
def take (a : Arguments) (expectation : Expectation) (argument : String) : Taken :=
  match expectation, argument.toList with
  | .word, _ => (a.addWord argument).map fun a ↦ .inl (a, .word)
  | _, ['-', '-'] => .ok (.inl (a, .word))
  | _, '-' :: '-' :: word => let (name, value) := splitValue word; takeLong a name value
  | _, '-' :: c :: cluster => takeShort a (c :: cluster)
  | .text, _ => .ok (.inl (a.addText argument, .anything))
  | .anything, _ => (a.addWord argument).map fun a ↦ .inl (a, .anything)

/-- Takes arguments one after another. -/
def takeAll (a : Arguments) (expectation : Expectation) :
    List String → Except UsageError Command
  | [] => a.toCommand
  | argument :: rest => do
    match ← take a expectation argument with
    | .inl (a, expectation) => takeAll a expectation rest
    | .inr command => return command

/-- What a command line asks for. -/
def Command.ofArguments (arguments : List String) : Except UsageError Command :=
  takeAll .empty .anything arguments

end LexicalLisp.Console
