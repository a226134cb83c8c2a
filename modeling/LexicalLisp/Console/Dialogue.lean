import LexicalLisp.Console.Batch

/-!
# Running lines

A person types forms line by line, and a form may take several lines. Lines are collected until
what has been collected is no longer incomplete, and then run together; faults never stop the
dialogue. So between two lines the pending text is empty or could still be completed.

A line that is a request of its own is obeyed only when nothing is pending: `:quit` ends the
dialogue, `:env` lists the bindings of the root, and `:reset` starts the session over.
-/

namespace LexicalLisp.Console

/-- The lines of a text without their ends, the first of them continuing what has been read of it,
last character first. A last line may lack its end. -/
def linesFrom (current : List Char) : List Char → List (List Char)
  | [] => if current.isEmpty then [] else [current.reverse]
  | c :: rest =>
    if c = '\n' then current.reverse :: linesFrom [] rest else linesFrom (c :: current) rest

/-- The lines of a text without their ends. -/
def linesOf (text : List Char) : List (List Char) := linesFrom [] text

/-- The state of a dialogue between two lines. -/
structure Dialogue where
  /-- The session in force. -/
  session : Session
  /-- The store. -/
  store : Store
  /-- The lines collected, each with its end. -/
  pending : List Char

/-- The requests that a line can make. -/
inductive Request where
  | quit | listing | reset
deriving DecidableEq

/-- The request that a line makes, blanks at its ends apart. -/
def Request.ofLine? (line : List Char) : Option Request :=
  match String.ofList (Text.trim line) with
  | ":quit" => some .quit
  | ":env" => some .listing
  | ":reset" => some .reset
  | _ => none

namespace Dialogue

/-- A dialogue with a new session in a new store, under a table of operators. -/
def start (operators : OperatorTable) : Dialogue :=
  let (root, store) := Store.empty.newFrame none
  ⟨⟨operators, root⟩, store, []⟩

/-- The bindings of the root, a line for each. -/
def listing (d : Dialogue) : List Output :=
  (d.store.items d.session.root).map fun (name, entry) ↦
    .shown (name ++ ": " ++ (entry.toValue d.session.root).render ++ "\n")

/-- What a line leads to: some output, and the dialogue after it unless it has ended. -/
structure Answer where
  /-- What is put out. -/
  transcript : List Output
  /-- The dialogue after it. -/
  dialogue : Option Dialogue

/-- The dialogue ends since no line can be read. -/
def Answer.withoutLine (problem : String) : Answer :=
  ⟨[.report (Fault.ofCause (.lineInput problem)).report], none⟩

/-- Obeys a request. -/
def obey (o : Options) (d : Dialogue) : Request → Option Answer
  | .quit => some ⟨[], none⟩
  | .listing => some ⟨d.listing, some d⟩
  | .reset =>
    match d.session.reset d.store with
    | some ⟨.ok session, store, events⟩ =>
      some ⟨o.watched events, some { d with session, store }⟩
    | _ => none

/-- Whether a text breaks off where more of it could follow. -/
def needsMore (text : List Char) : Bool :=
  match Datum.readAll text with
  | .error e => e.isIncomplete
  | .ok _ => false

/-- Runs the text collected, or waits for more if it breaks off. -/
def collect (depth : Nat) (o : Options) (d : Dialogue) (text : List Char) : Option Answer :=
  if needsMore text then some ⟨[], some { d with pending := text }⟩
  else
    match runText depth { o with keepGoing := true } d.session text d.store with
    | none => none
    | some batch => some ⟨batch.transcript, some { d with store := batch.store, pending := [] }⟩

/-- Takes a line. The result is `none` if the depth does not suffice. -/
def feed (depth : Nat) (o : Options) (d : Dialogue) (line : List Char) : Option Answer :=
  let request := if d.pending.isEmpty then Request.ofLine? line else none
  match request with
  | some request => d.obey o request
  | none => d.collect depth o (d.pending ++ line ++ ['\n'])

/-- Takes lines until they end or the dialogue does; gives all that is put out. -/
def feedAll (depth : Nat) (o : Options) (d : Dialogue) : List (List Char) → Option Answer
  | [] => some ⟨[], some d⟩
  | line :: rest =>
    match d.feed depth o line with
    | none => none
    | some ⟨transcript, none⟩ => some ⟨transcript, none⟩
    | some ⟨transcript, some d⟩ =>
      match feedAll depth o d rest with
      | none => none
      | some answer => some ⟨transcript ++ answer.transcript, answer.dialogue⟩

end Dialogue

end LexicalLisp.Console
