import PatternAutomata.Diagnostic.Basic
import PatternAutomata.Symbol
import PatternAutomata.Text.Quoted

/-!
# Checking a pattern text

A single pass over the text finds every problem that keeps it from being a pattern.  A character
needs the one before it and the groups that are open; nothing else is remembered.
-/

namespace PatternAutomata

/-- What the check remembers of the text before a character. -/
structure Scan where
  /-- The byte at which the character starts. -/
  position : Nat := 0
  /-- The character before it. -/
  previous : Option Char := none
  /-- The bytes of the parentheses that are open, innermost first. -/
  opened : List Nat := []
deriving DecidableEq, Repr

namespace Scan

def after (scan : Scan) (c : Char) : Scan where
  position := scan.position + c.utf8Size
  previous := some c
  opened :=
    if c = '(' then scan.position :: scan.opened
    else if c = ')' then scan.opened.tail
    else scan.opened

/-- Whether two of these characters must not stand side by side: the repeats and the bar. -/
def isRepeatOrBar (c : Char) : Bool :=
  c = '*' || c = '+' || c = '?' || c = '|'

/-- Whether an operator can follow the character.  A character that does not belong into a pattern
counts as an operand, so that it gives one problem only. -/
def canFollow (previous : Option Char) : Bool :=
  match previous with
  | none => false
  | some c => !(c = '(' || c = '|' || c = '.')

/-- The problem of a bar or point, if one is the character before, that nothing follows it. -/
def danglingOperator (scan : Scan) : List Diagnostic :=
  match scan.previous with
  | some c =>
    if c = '|' || c = '.' then
      [.new .missingOperand ⟨scan.position - 1, scan.position⟩ s!"`{c}` has no right operand"]
    else []
  | none => []

def closingProblems (scan : Scan) : List Diagnostic :=
  (if scan.opened.isEmpty then
    [.new .unbalancedParens ⟨scan.position, scan.position + 1⟩ "too many closing parentheses"]
  else [])
  ++ if scan.previous = some '(' then
    [.new .emptyGroup ⟨scan.position - 1, scan.position + 1⟩ none]
  else scan.danglingOperator

def problemsAt (scan : Scan) (c : Char) : List Diagnostic :=
  let span : Span := ⟨scan.position, scan.position + c.utf8Size⟩
  if c = '(' then []
  else if c = ')' then scan.closingProblems
  else if isRepeatOrBar c && scan.previous.any isRepeatOrBar then
    [.new .consecutiveOperators span (toString scan.position)]
  else if c = '*' || c = '+' || c = '?' then
    if canFollow scan.previous then []
    else [.new .missingOperand span s!"`{c}` has nothing to repeat"]
  else if c = '|' || c = '.' then
    if canFollow scan.previous then []
    else [.new .missingOperand span s!"`{c}` has no left operand"]
  else if isSymbol c then []
  else [.new .invalidCharacter span ("`" ++ Text.quotedChar c ++ "`")]

/-- The problems that show at the end of the text: an operator without a right operand, then the
groups that are still open, outermost first. -/
def problemsAtEnd (scan : Scan) : List Diagnostic :=
  scan.danglingOperator
    ++ scan.opened.reverse.map fun start =>
      .new .unbalancedParens ⟨start, start + 1⟩ "unclosed parentheses"

def problems (scan : Scan) : List Char → List Diagnostic
  | [] => scan.problemsAtEnd
  | c :: rest => scan.problemsAt c ++ (scan.after c).problems rest

end Scan

/-- Every problem of a pattern text; the text is a pattern if there is none. -/
def check (text : List Char) : List Diagnostic :=
  if text.isEmpty then [.new .emptyPattern ⟨0, 0⟩ none]
  else Scan.problems {} text

end PatternAutomata
