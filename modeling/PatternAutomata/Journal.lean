import PatternAutomata.Compiled
import PatternAutomata.Run.Suite

/-!
# Journals

What the compiler and the runner report while they work.  The entries depend only on what was given
and what came out, so they are written down from these; a step that fails leaves no entry, and
neither does anything behind it.
-/

namespace PatternAutomata

/-- How much attention an entry deserves. -/
inductive JournalLevel where
  | info
  | debug
  | trace
deriving DecidableEq, Repr

def JournalLevel.text : JournalLevel → String
  | info => "INFO"
  | debug => "DEBUG"
  | trace => "TRACE"

/-- An entry of a journal. -/
structure JournalEntry where
  level : JournalLevel
  message : String
deriving DecidableEq, Repr

namespace Journal

def entry (level : JournalLevel) (message : String) : List JournalEntry := [⟨level, message⟩]

def ofPostfix (text : String) : List JournalEntry :=
  entry .debug s!"postfix for {Text.quoted text}: {(toPostfix text.toList).text}"

def ofParse (text : String) : List JournalEntry :=
  match parsePattern text with
  | .ok parsed => ofPostfix parsed.concat
  | .error (.rejected problems) =>
    entry .debug s!"rejected {Text.quoted text}: {problems.length} problems"
  | .error _ => []

def ofNfa (tokens : Postfix) : List JournalEntry :=
  match Nfa.ofPostfix tokens with
  | .ok nfa => entry .debug s!"ε-NFA for {tokens.text}: {nfa.size} states"
  | .error _ => []

/-! ### Determinisation -/

/-- The set that a state stands for, between braces. -/
def subsetText (dfa : Dfa) (state : StateId) : String :=
  match dfa.subsets[state]? with
  | some subset => "\x7b" ++ subset.keyText ++ "\x7d"
  | none => "\x7b\x7d"

/-- The entries of the edges of a state, in the order of their symbols: one for every state found on
the way.  `found` are the states found before. -/
def ofEdges (dfa : Dfa) (source : StateId) :
    List StateId → List (Char × StateId) → List StateId × List JournalEntry
  | found, [] => (found, [])
  | found, (symbol, target) :: edges =>
    if target ∈ found then ofEdges dfa source found edges
    else
      let first :=
        if dfa.dead = some target then entry .debug "subset construction needs a dead state"
        else
          entry .trace s!"D{target} = {subsetText dfa target} via '{symbol}' from D{source}"
      let (found, more) := ofEdges dfa source (target :: found) edges
      (found, first ++ more)

def ofStates (dfa : Dfa) : List StateId → List StateId → List JournalEntry
  | _, [] => []
  | found, state :: states =>
    if dfa.dead = some state then ofStates dfa found states
    else
      let row := dfa.table.getD state []
      let (found, edges) := ofEdges dfa state found (dfa.alphabet.zip row)
      entry .trace s!"expanding D{state} = {subsetText dfa state}" ++ edges
        ++ ofStates dfa found states

def ofDeterminize (nfa : Nfa) (mode : ClosureMode) : List JournalEntry :=
  match nfa.determinize mode with
  | .ok dfa =>
    ofStates dfa [dfa.start] (List.range dfa.size)
      ++ entry .debug
        s!"DFA ({mode.text} closure): {dfa.size} states over {dfa.alphabet.length} symbols"
  | .error _ => []

/-! ### Compiling and running -/

def ofAssemble (tokens : Postfix) (options : CompileOptions) : List JournalEntry :=
  ofNfa tokens
    ++ match Nfa.ofPostfix tokens, options.kind with
      | .ok nfa, .dfa => ofDeterminize nfa options.closure
      | _, _ => []

def ofCompile (text : String) (options : CompileOptions) : List JournalEntry :=
  ofParse text
    ++ match parsePattern text with
      | .error _ => []
      | .ok parsed =>
        ofAssemble parsed.tokens options
          ++ match assemble parsed.tokens options with
            | .error _ => []
            | .ok automaton =>
              entry .info
                s!"compiled {Text.quoted text} into a {automaton.size}-state {automaton.kind.text}"

def ofSnapshot (snapshot : Snapshot) : List JournalEntry :=
  match Postfix.parse snapshot.tokens with
  | .error _ => []
  | .ok tokens =>
    ofAssemble tokens ⟨snapshot.kind, snapshot.closure⟩
      ++ match assemble tokens ⟨snapshot.kind, snapshot.closure⟩ with
        | .error _ => []
        | .ok automaton =>
          entry .debug
            s!"rebuilt {automaton.kind.text} from snapshot postfix {snapshot.tokens}"

def ofSnapshotText (text : List Char) : List JournalEntry :=
  match Snapshot.parse text with
  | .ok snapshot => ofSnapshot snapshot
  | .error _ => []

def ofSuite (automaton : Automaton) (inputs : List String) : List JournalEntry :=
  entry .debug s!"suite ran {inputs.length} inputs against a {automaton.kind.text}"

end Journal

end PatternAutomata
