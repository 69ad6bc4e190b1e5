/-!
# Diagnostics

What is wrong with a pattern text, where, and what to do about it.  Each kind of problem has words
of its own, a place in these words for a detail, and possibly a hint.
-/

namespace PatternAutomata

/-- A stretch of a text in bytes: from `start` up to but without `stop`. -/
structure Span where
  start : Nat
  stop : Nat
deriving DecidableEq, Repr

/-- The kinds of problem. -/
inductive DiagnosticKind where
  | emptyPattern
  | invalidCharacter
  | unbalancedParens
  | emptyGroup
  | consecutiveOperators
  | missingOperand
deriving DecidableEq, Repr

/-- A message with a place for a detail. -/
structure Template where
  before : String
  after : String
deriving DecidableEq, Repr

def Template.fill (template : Template) (detail : String) : String :=
  template.before ++ detail ++ template.after

/-- The template as it is shown, with a pair of braces for the detail. -/
def Template.text (template : Template) : String :=
  template.fill "\x7b\x7d"

namespace DiagnosticKind

def hint? : DiagnosticKind → Option String
  | invalidCharacter =>
    some "patterns use letters, digits, `|`, `*`, `+`, `?`, `.` and parentheses"
  | emptyGroup => some "remove the group or put a symbol inside it"
  | consecutiveOperators => some "wrap the operand in parentheses, e.g. `(a*)|b`"
  | emptyPattern | unbalancedParens | missingOperand => none

/-- The message without a detail. -/
def plainMessage : DiagnosticKind → String
  | emptyPattern => "regex cannot be empty"
  | invalidCharacter => "invalid character in regex"
  | unbalancedParens => "unbalanced parentheses"
  | emptyGroup => "empty parentheses not allowed"
  | consecutiveOperators => "invalid consecutive operators"
  | missingOperand => "operator is missing an operand"

def template (kind : DiagnosticKind) : Template :=
  match kind with
  | invalidCharacter => ⟨"invalid character ", " in regex"⟩
  | consecutiveOperators => ⟨"invalid consecutive operators at position ", ""⟩
  | missingOperand => ⟨"", ""⟩
  | emptyPattern | unbalancedParens | emptyGroup => ⟨kind.plainMessage ++ ": ", ""⟩

def message (kind : DiagnosticKind) : Option String → String
  | none => kind.plainMessage
  | some detail => kind.template.fill detail

end DiagnosticKind

/-- One problem of a text. -/
structure Diagnostic where
  kind : DiagnosticKind
  span : Span
  message : String
  hints : List String
deriving DecidableEq, Repr

/-- A diagnostic of a kind, with the hint of the kind. -/
def Diagnostic.new (kind : DiagnosticKind) (span : Span) (detail : Option String) : Diagnostic where
  kind := kind
  span := span
  message := kind.message detail
  hints := kind.hint?.toList

/-- The diagnostic on one line: span, message and hints. -/
def Diagnostic.line (diagnostic : Diagnostic) : String :=
  s!"error at {diagnostic.span.start}..{diagnostic.span.stop}: {diagnostic.message}"
    ++ String.join (diagnostic.hints.map fun hint => s!" (hint: {hint})")

/-- Diagnostics one below the other, each on a line. -/
def plainReport (diagnostics : List Diagnostic) : String :=
  "\n".intercalate (diagnostics.map Diagnostic.line)

end PatternAutomata
