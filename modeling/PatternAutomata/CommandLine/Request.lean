import PatternAutomata.CommandLine.Grammar
import PatternAutomata.Compiled
import PatternAutomata.Listing.Written
import PatternAutomata.Run.Trace

/-!
# Requests

What a command line asks for.  Every command knows most switches, so that a command line can be sent
to another command unchanged; a request keeps those that matter to its command.
-/

namespace PatternAutomata.CommandLine

/-- When output is coloured. -/
inductive ColorChoice where
  | auto -- on a terminal
  | always
  | never
deriving DecidableEq, Repr

/-- Where a pattern comes from: its text, or else a file. -/
structure PatternChoice where
  path : Option String
  text : Option String
deriving DecidableEq, Repr

/-- Where the inputs of a suite come from: values, then the lines of a file. -/
structure InputChoice where
  inputs : List String
  file : Option String
deriving DecidableEq, Repr

/-- What a command line asks for. -/
inductive Request where
  | check (pattern : PatternChoice) (color : ColorChoice)
  | showForms (pattern : PatternChoice) (color : ColorChoice)
  | dump (pattern : PatternChoice) (options : CompileOptions) (format : ListingFormat)
    (color : ColorChoice)
  | exec (pattern : PatternChoice) (input : Option String) (options : CompileOptions)
    (color : ColorChoice)
  | suite (pattern : PatternChoice) (inputs : InputChoice) (options : CompileOptions)
    (color : ColorChoice)
  | trace (pattern : PatternChoice) (input : Option String) (options : CompileOptions)
    (verbose : Nat) (color : ColorChoice)
  | stats (pattern : PatternChoice) (options : CompileOptions) (json : Bool) (color : ColorChoice)
  | store (pattern : PatternChoice) (options : CompileOptions) (output : Option String)
    (pretty : Bool) (color : ColorChoice)
  | load (snapshot : String) (inputs : InputChoice) (format : ListingFormat) (color : ColorChoice)
deriving DecidableEq, Repr

def verbosityOf (count : Nat) : Verbosity :=
  if count = 0 then .normal else .verbose

/-! ### Parameters -/

def isPath (value : String) : Bool := !value.isEmpty

def pathSlot (parameter : Parameter) : Slot :=
  { parameter, allowed := isPath }

def inputTextSlot : Slot :=
  { parameter := .inputText, hyphens := true }

def patternTextSlot : Slot :=
  { parameter := .patternText, short := 'q', long := "regex", hyphens := true }

def inputSlot (action : Action) : Slot :=
  { parameter := .input, short := 'i', long := "input", action, hyphens := true }

def inputsFileSlot : Slot :=
  { parameter := .inputsFile, long := "inputs", allowed := isPath }

def choiceSlot (parameter : Parameter) (long : String) (choices : List String) : Slot :=
  { parameter, long, allowed := choices.contains }

def kindSlot : Slot := choiceSlot .kind "kind" ["nfa", "dfa"]

def closureSlot : Slot := choiceSlot .closure "closure" ["epsilon", "reachability"]

def formatSlot : Slot := choiceSlot .format "format" ["text", "dot", "json"]

/-- The format of counts, which cannot be drawn. -/
def statsFormatSlot : Slot := choiceSlot .format "format" ["text", "json"]

def colorSlot : Slot := choiceSlot .color "color" ["auto", "always", "never"]

def verboseSlot : Slot :=
  { parameter := .verbose, short := 'v', action := .counted }

def outputSlot : Slot :=
  { parameter := .output, short := 'o', long := "output", allowed := isPath }

def compactSlot : Slot :=
  { parameter := .compact, long := "compact", action := .flag }

def helpSlot : Slot :=
  { parameter := .help, short := 'h', long := "help", action := .showHelp }

/-! ### Commands -/

/-- The commands. -/
inductive Command where
  | check
  | showForms
  | dump
  | exec
  | suite
  | trace
  | stats
  | store
  | load
deriving DecidableEq, Repr

def Command.name : Command → String
  | check => "check"
  | showForms => "postfix"
  | dump => "dump"
  | exec => "exec"
  | suite => "suite"
  | trace => "trace"
  | stats => "stats"
  | store => "export"
  | load => "load"

def Command.all : List Command :=
  [check, showForms, dump, exec, suite, trace, stats, store, load]

def Command.named? (name : String) : Option Command :=
  all.find? fun command => command.name = name

/-- The switches of the commands that compile a pattern; `input` is the one for inputs. -/
def compilerSwitches (input format : Slot) : List Slot :=
  [patternTextSlot, input, inputsFileSlot, kindSlot, closureSlot, format, colorSlot, verboseSlot,
    helpSlot]

def Command.grammar (command : Command) : Grammar :=
  let positionals := [pathSlot .patternPath, inputTextSlot]
  match command with
  | check | showForms | dump | suite =>
    { switches := compilerSwitches (inputSlot .repeatable) formatSlot, positionals }
  | exec | trace => { switches := compilerSwitches (inputSlot .single) formatSlot, positionals }
  | stats => { switches := compilerSwitches (inputSlot .repeatable) statsFormatSlot, positionals }
  | store =>
    { switches :=
        outputSlot :: compactSlot :: compilerSwitches (inputSlot .repeatable) formatSlot
      positionals }
  | load =>
    { switches := [inputSlot .repeatable, inputsFileSlot, formatSlot, colorSlot, helpSlot]
      positionals := [pathSlot .snapshotPath]
      required := [.snapshotPath] }

namespace Reading

def pattern (reading : Reading) : PatternChoice :=
  ⟨reading.value? .patternPath, reading.value? .patternText⟩

def inputChoice (reading : Reading) : InputChoice :=
  ⟨reading.values .input, reading.value? .inputsFile⟩

/-- Which automaton is built; a deterministic one if nothing else was asked for. -/
def options (reading : Reading) : CompileOptions where
  kind := ((reading.value? .kind).bind AutomatonKind.parse?).getD .dfa
  closure := ((reading.value? .closure).bind ClosureMode.parse?).getD .epsilon

/-- The format of a listing; the transcript if nothing else was asked for. -/
def format (reading : Reading) : ListingFormat :=
  match reading.value? .format with
  | some "dot" => .dot
  | some "json" => .json
  | _ => .text

/-- When output is coloured; on a terminal if nothing else was asked for. -/
def color (reading : Reading) : ColorChoice :=
  match reading.value? .color with
  | some "always" => .always
  | some "never" => .never
  | _ => .auto

/-- How often a trace was asked to be verbose; no more than 255 are counted. -/
def verbose (reading : Reading) : Nat :=
  min (reading.values .verbose).length 255

/-- The pattern and the input of a run.  Where the pattern is given as a text, a single positional
value is the input, unless there is an input already. -/
def run (reading : Reading) : PatternChoice × Option String :=
  let pattern := reading.pattern
  let input := (reading.value? .input).or (reading.value? .inputText)
  if pattern.text.isSome && input.isNone then ({ pattern with path := none }, pattern.path)
  else (pattern, input)

end Reading

def Command.request (command : Command) (reading : Reading) : Request :=
  let pattern := reading.pattern
  let options := reading.options
  let color := reading.color
  match command with
  | check => .check pattern color
  | showForms => .showForms pattern color
  | dump => .dump pattern options reading.format color
  | exec => .exec reading.run.1 reading.run.2 options color
  | suite => .suite pattern reading.inputChoice options color
  | trace => .trace reading.run.1 reading.run.2 options reading.verbose color
  | stats => .stats pattern options (reading.format = .json) color
  | store => .store pattern options (reading.value? .output) (!reading.has .compact) color
  | load =>
    .load ((reading.value? .snapshotPath).getD "") reading.inputChoice reading.format color

def isCommandName (name : String) : Bool :=
  name = "help" || (Command.named? name).isSome

def strayArgument (arg : String) (rest : List String) : UsageError :=
  match arg.toList with
  | ['-', '-'] =>
    match rest with
    | [] => .commandMissing
    | next :: _ => if isCommandName next then .unknownArgument else .unknownCommand
  | '-' :: '-' :: text =>
    match Grammar.splitLong text with
    | ("help", none) => .helpWanted
    | ("help", some _) => .surplusValue
    | _ => .unknownArgument
  | '-' :: c :: _ => if c = 'h' then .helpWanted else .unknownArgument
  | _ => .unknownCommand

/-- Reads a command line, which does not include the name of the program. -/
def parseArguments : List String → Except UsageError Request
  | [] => .error .commandMissing
  | arg :: rest =>
    match Command.named? arg with
    | some command => do
      let reading ← command.grammar.read rest
      return command.request reading
    | none =>
      if arg = "help" then
        match rest with
        | [] => .error .helpWanted
        | [name] => .error (if isCommandName name then .helpWanted else .unknownCommand)
        | _ => .error .unknownCommand
      else .error (strayArgument arg rest)

end PatternAutomata.CommandLine
