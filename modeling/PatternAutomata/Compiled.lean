import PatternAutomata.Dfa.Subsets
import PatternAutomata.Nfa.Fragment
import PatternAutomata.Pattern.Check
import PatternAutomata.Pattern.Concatenation
import PatternAutomata.Snapshot.Decoding

/-!
# Compiling patterns

A pattern text is checked, its concatenations are made explicit, it is put into postfix order, and
from the postfix an automaton is built.  A snapshot keeps the postfix, so an automaton can also be
built from a snapshot, without the text.
-/

namespace PatternAutomata

/-- Which automaton is built. -/
structure CompileOptions where
  kind : AutomatonKind := .dfa
  /-- The closure under which an ε-automaton is made deterministic. -/
  closure : ClosureMode := .epsilon
deriving DecidableEq, Repr

/-- Why nothing was compiled. -/
inductive CompileError where
  | rejected (problems : List Diagnostic) -- the text is not a pattern
  | construction (cause : BuildError)     -- the postfix is not that of a pattern
  | snapshot (cause : SnapshotError)      -- the snapshot cannot be read
deriving DecidableEq, Repr

def rejectionMessage (problems : List Diagnostic) : String :=
  let count := problems.length
  let noun := if count = 1 then "problem" else "problems"
  s!"pattern validation failed ({count} {noun})"

/-- What an error says, without a place in a snapshot; a fault may have no words. -/
def CompileError.message? : CompileError → Option String
  | rejected problems => some (rejectionMessage problems)
  | construction cause => cause.message?
  | snapshot cause => some cause.message

def CompileError.messageIn (text : List Char) : CompileError → String
  | rejected problems => rejectionMessage problems
  | construction cause => cause.message?.getD ""
  | snapshot cause => cause.messageIn text

/-- A pattern text with the forms it goes through. -/
structure Parsed where
  source : String
  /-- The text with every concatenation written. -/
  concat : String
  tokens : Postfix
deriving DecidableEq, Repr

/-- A compiled pattern.  One that was built from a snapshot has a text only if the snapshot has. -/
structure Compiled where
  regex : Option String
  concat : Option String
  tokens : Postfix
  automaton : Automaton
  closure : ClosureMode

def writeConcat (text : String) : String :=
  String.ofList (explicitConcat text.toList)

def parsePattern (text : String) : Except CompileError Parsed :=
  let problems := check text.toList
  if problems.isEmpty then
    let concat := explicitConcat text.toList
    .ok ⟨text, String.ofList concat, toPostfix concat⟩
  else .error (.rejected problems)

def assemble (tokens : Postfix) (options : CompileOptions) : Except BuildError Automaton := do
  let nfa ← Nfa.ofPostfix tokens
  match options.kind with
  | .nfa => return .nfa nfa
  | .dfa => return .dfa (← nfa.determinize options.closure)

def Parsed.compile (parsed : Parsed) (options : CompileOptions) : Except CompileError Compiled := do
  let automaton ← (assemble parsed.tokens options).mapError .construction
  return ⟨parsed.source, parsed.concat, parsed.tokens, automaton, options.closure⟩

def compile (text : String) (options : CompileOptions) : Except CompileError Compiled := do
  let parsed ← parsePattern text
  parsed.compile options

namespace Compiled

def snapshot (compiled : Compiled) : Except Fault Snapshot := do
  let listing ← compiled.automaton.list
  return .ofListing compiled.automaton.kind compiled.tokens.text compiled.regex compiled.closure
    listing

/-- Builds the automaton that a snapshot records.  Only its postfix, kind and closure are used; the
version and the recorded listing are not looked at. -/
def ofSnapshot (snapshot : Snapshot) : Except BuildError Compiled := do
  let tokens ← Postfix.parse snapshot.tokens
  let automaton ← assemble tokens ⟨snapshot.kind, snapshot.closure⟩
  return ⟨snapshot.regex, snapshot.regex.map writeConcat, tokens, automaton, snapshot.closure⟩

def parse (text : List Char) : Except CompileError Compiled := do
  let snapshot ← (Snapshot.parse text).mapError .snapshot
  (ofSnapshot snapshot).mapError .construction

end Compiled

end PatternAutomata
