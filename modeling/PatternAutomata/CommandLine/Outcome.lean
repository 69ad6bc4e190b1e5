import PatternAutomata.CommandLine.Files
import PatternAutomata.CommandLine.Request
import PatternAutomata.Diagnostic.Snippet
import PatternAutomata.Listing.Stats
import PatternAutomata.Run.Suite
import PatternAutomata.Snapshot.Written

/-!
# Running commands

A command reads what it needs, compiles the pattern and writes its answer.  What it writes depends
only on the request and on the texts it has read.  A command that fails says why and has the exit
status one; so has a run whose input is rejected.  A command that is stopped by a fault has written
nothing, and has a status of its own.
-/

namespace PatternAutomata.CommandLine

/-- What a command leaves behind. -/
structure Outcome where
  /-- The standard output. -/
  output : String := ""
  /-- The standard error. -/
  errors : String := ""
  status : Nat := 0
deriving DecidableEq, Repr

namespace Outcome

def success (output : String) : Outcome := { output }

def complaint (errors : String) : Outcome := { errors, status := 1 }

def failure (reason : String) : Outcome := complaint s!"error: {reason}\n"

/-- What is left of a command that a fault has stopped. -/
def crash (fault : String) : Outcome := { errors := fault ++ "\n", status := 101 }

def verdict (output : String) (accepted : Bool) : Outcome :=
  { output, status := if accepted then 0 else 1 }

end Outcome

/-- A pattern text, and the name of the file it comes from. -/
structure PatternSource where
  text : String
  name : Option String
deriving DecidableEq, Repr

/-! ### Answers -/

/-- What is said about the problems of a pattern.  They have a drawing in the text that was checked;
those of another text that have none are given a line each. -/
def PatternSource.complaint (source : PatternSource) (colored : Bool)
    (problems : List Diagnostic) : Outcome :=
  match report source.text source.name colored problems with
  | .ok text => .complaint text
  | .error _ => .complaint (plainReport problems)

def PatternSource.refusal (source : PatternSource) (colored : Bool) (error : CompileError) :
    Outcome :=
  match error with
  | .rejected problems => source.complaint colored problems
  | _ => .failure (error.message?.getD "")

def faultOutcome (fault : Fault) : Outcome :=
  .crash (fault.message?.getD "")

/-- The answer that is computed, or what went wrong. -/
def Outcome.of (result : Except Outcome Outcome) : Outcome :=
  match result with
  | .ok outcome => outcome
  | .error outcome => outcome

def PatternSource.compile (source : PatternSource) (options : CompileOptions) (colored : Bool) :
    Except Outcome Compiled :=
  (PatternAutomata.compile source.text options).mapError (source.refusal colored)

def listOf (compiled : Compiled) : Except Outcome Listing :=
  compiled.automaton.list.mapError faultOutcome

/-- The answer of the command that only checks. -/
def checkAnswer (source : PatternSource) (colored : Bool) : Outcome :=
  let problems := PatternAutomata.check source.text.toList
  if problems.isEmpty then {} else source.complaint colored problems

def formsAnswer (source : PatternSource) (colored : Bool) : Except Outcome Outcome := do
  let parsed ← (parsePattern source.text).mapError (source.refusal colored)
  let palette := Palette.ofChoice colored
  return .success
    (palette.paint palette.dim "concat:" ++ s!"  {parsed.concat}\n"
      ++ palette.paint palette.dim "postfix:" ++ s!" {parsed.tokens.text}\n")

def dumpAnswer (source : PatternSource) (options : CompileOptions) (format : ListingFormat)
    (colored : Bool) : Except Outcome Outcome := do
  let compiled ← source.compile options colored
  let listing ← listOf compiled
  return .success (listing.render format colored)

def execAnswer (source : PatternSource) (input : String) (options : CompileOptions)
    (colored : Bool) : Except Outcome Outcome := do
  let compiled ← source.compile options colored
  let accepted ← (compiled.automaton.accepts input.toList).mapError faultOutcome
  return .verdict ((Verdict.ofBool accepted).text ++ "\n") accepted

def traceAnswer (source : PatternSource) (input : String) (options : CompileOptions)
    (verbosity : Verbosity) (colored : Bool) : Except Outcome Outcome := do
  let compiled ← source.compile options colored
  let events ← (compiled.automaton.trace input.toList).mapError faultOutcome
  let lines := events.map fun event => event.line (.ofChoice colored) verbosity ++ "\n"
  return .verdict (String.join lines) (acceptedIn events)

def suiteTable (automaton : Automaton) (inputs : List String) : Except Outcome Outcome := do
  let cases ← (automaton.runSuite inputs).mapError faultOutcome
  let table ← (Suite.written cases).mapError fun fault => .crash fault.message
  return .success (table ++ "\n")

def suiteAnswer (source : PatternSource) (inputs : List String) (options : CompileOptions)
    (colored : Bool) : Except Outcome Outcome := do
  let compiled ← source.compile options colored
  suiteTable compiled.automaton inputs

def statsAnswer (source : PatternSource) (options : CompileOptions) (json : Bool)
    (colored : Bool) : Except Outcome Outcome := do
  let compiled ← source.compile options colored
  let stats := (← listOf compiled).stats
  return .success (if json then stats.toJson.render .pretty ++ "\n" else stats.text)

def snapshotText (source : PatternSource) (options : CompileOptions) (pretty : Bool)
    (colored : Bool) : Except Outcome String := do
  let compiled ← source.compile options colored
  let snapshot ← compiled.snapshot.mapError faultOutcome
  return snapshot.render (.ofChoice pretty) ++ "\n"

def loadSnapshot (path text : String) : Except Outcome Compiled :=
  (Compiled.parse text.toList).mapError fun error =>
    .failure (s!"cannot load '{path}': " ++ error.messageIn text.toList)

def loadHeader (compiled : Compiled) (colored : Bool) : String :=
  let palette := Palette.ofChoice colored
  let label (name : String) : String := palette.paint palette.dim name
  label "type:" ++ s!"    {compiled.automaton.kind.text}\n"
    ++ (match compiled.regex with
      | some regex => label "regex:" ++ s!"   {regex}\n"
      | none => "")
    ++ label "postfix:" ++ s!" {compiled.tokens.text}\n\n"

/-- The answer of the command that loads a snapshot: the table of the inputs if there are any, or
else the automaton. -/
def loadAnswer (compiled : Compiled) (inputs : List String) (format : ListingFormat)
    (colored : Bool) : Except Outcome Outcome := do
  if inputs.isEmpty then
    let listing ← listOf compiled
    let header := if format = .text then loadHeader compiled colored else ""
    return .success (header ++ listing.render format colored)
  else suiteTable compiled.automaton inputs

/-! ### Reading -/

section
variable {m : Type → Type} [Monad m] (host : Host m)

def inputPath : String := "-"

/-- Reads a file, or the standard input. -/
def readText (path : String) : m (Except Outcome String) := do
  if path = inputPath then
    return (← host.readInput).mapError fun error =>
      .failure s!"failed to read stdin: {error.message}"
  else
    return (← host.readFile path).mapError fun error =>
      .failure (s!"failed to read '{path}': " ++ error.message)

/-- Reads the pattern of a command.  A text given on the command line goes before a file, and a file
loses the line end at its end. -/
def readPattern (choice : PatternChoice) : m (Except Outcome PatternSource) := do
  match choice.text, choice.path with
  | some text, _ => return .ok ⟨text, none⟩
  | none, some path =>
    let name := if path = inputPath then "<stdin>" else path
    return (← readText host path).map fun text =>
      ⟨String.ofList (Text.stripLineEnd text.toList), name⟩
  | none, none =>
    return .error (.failure "pattern is required: use positional argument or -q/--regex")

def readInputs (choice : InputChoice) : m (Except Outcome (List String)) := do
  match choice.file with
  | none => return .ok choice.inputs
  | some path =>
    return (← readText host path).map fun text =>
      choice.inputs ++ (parseInputs text.toList).map String.ofList

/-- Writes the text of a snapshot to a file, or answers with it. -/
def writeSnapshot (output : Option String) (text : String) : m Outcome := do
  match output with
  | none => return .success text
  | some path =>
    match ← host.writeFile path text with
    | .ok () => return {}
    | .error error => return .failure (s!"failed to write '{path}': " ++ error.message)

def wantsColor (choice : ColorChoice) : m Bool := do
  match choice with
  | .always => return true
  | .never => return false
  | .auto => host.onTerminal

/-- What is said about a run without an input. -/
def inputRequired : Outcome :=
  .failure "input is required: use positional argument or -i/--input"

def Request.run (request : Request) : m Outcome := do
  let answer {α : Type} (read : m (Except Outcome α)) (go : α → Except Outcome Outcome) :
      m Outcome := do
    return .of ((← read) >>= go)
  match request with
  | .check pattern color =>
    let colored ← wantsColor host color
    answer (readPattern host pattern) fun source => .ok (checkAnswer source colored)
  | .showForms pattern color =>
    let colored ← wantsColor host color
    answer (readPattern host pattern) fun source => formsAnswer source colored
  | .dump pattern options format color =>
    let colored ← wantsColor host color
    answer (readPattern host pattern) fun source => dumpAnswer source options format colored
  | .exec pattern input options color =>
    let colored ← wantsColor host color
    match input with
    | none => return inputRequired
    | some input =>
      answer (readPattern host pattern) fun source => execAnswer source input options colored
  | .suite pattern choice options color =>
    let colored ← wantsColor host color
    match ← readPattern host pattern with
    | .error outcome => return outcome
    | .ok source =>
      answer (readInputs host choice) fun inputs =>
        if inputs.isEmpty then .error (.failure "no inputs: use -i/--input or --inputs")
        else suiteAnswer source inputs options colored
  | .trace pattern input options verbose color =>
    let colored ← wantsColor host color
    match input with
    | none => return inputRequired
    | some input =>
      answer (readPattern host pattern) fun source =>
        traceAnswer source input options (verbosityOf verbose) colored
  | .stats pattern options json color =>
    let colored ← wantsColor host color
    answer (readPattern host pattern) fun source => statsAnswer source options json colored
  | .store pattern options output pretty color =>
    let colored ← wantsColor host color
    match ← readPattern host pattern with
    | .error outcome => return outcome
    | .ok source =>
      match snapshotText source options pretty colored with
      | .error outcome => return outcome
      | .ok text => writeSnapshot host output text
  | .load path choice format color =>
    let colored ← wantsColor host color
    match ← readText host path with
    | .error outcome => return outcome
    | .ok text =>
      match loadSnapshot path text with
      | .error outcome => return outcome
      | .ok compiled =>
        answer (readInputs host choice) fun inputs => loadAnswer compiled inputs format colored

end

end PatternAutomata.CommandLine
