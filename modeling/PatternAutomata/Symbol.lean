/-!
# Symbols and edge labels

Patterns are written over the ASCII letters and digits; the five operator characters and the
parentheses have a meaning of their own.  An edge of an automaton carries a symbol or the empty
word.
-/

namespace PatternAutomata

/-- Whether the character is a symbol of patterns: an ASCII letter or digit. -/
def isSymbol (c : Char) : Bool :=
  c.isAlphanum

/-- Whether the character is an operator of patterns, explicit concatenation included. -/
def isOperator (c : Char) : Bool :=
  c = '*' || c = '+' || c = '?' || c = '|' || c = '.'

theorem isOperator_of_isSymbol {c : Char} (hc : isSymbol c = true) : isOperator c = false := by
  rw [Bool.eq_false_iff]
  intro hoperator
  simp only [isOperator, Bool.or_eq_true, decide_eq_true_eq] at hoperator
  rcases hoperator with (((rfl | rfl) | rfl) | rfl) | rfl <;> cases hc

/-- The label of an edge. -/
inductive Label where
  | symbol (c : Char) -- the edge reads `c`
  | epsilon           -- the edge reads nothing
deriving DecidableEq, Repr

def epsilonSign : Char := 'ε'

def Label.chars : Label → List Char
  | .symbol c => [c]
  | .epsilon => [epsilonSign]

/-- The written form of a label, as a text. -/
def Label.text (label : Label) : String :=
  String.ofList label.chars

/-- Reads a written label; only the sign of the empty word and the symbols of patterns are
labels. -/
def Label.parse? : List Char → Option Label
  | [c] => if c = epsilonSign then some .epsilon else if isSymbol c then some (.symbol c) else none
  | _ => none

/-- The labels that can be read back: the empty word and the symbols of patterns. -/
def Label.IsWritable : Label → Prop
  | .symbol c => isSymbol c = true
  | .epsilon => True

theorem not_isSymbol_epsilonSign : isSymbol epsilonSign = false := by decide

theorem Label.parse?_chars {label : Label} (h : label.IsWritable) :
    Label.parse? label.chars = some label := by
  cases label with
  | epsilon => rfl
  | symbol c =>
    have hc : c ≠ epsilonSign := by
      rintro rfl
      simp [IsWritable, not_isSymbol_epsilonSign] at h
    simp [Label.chars, Label.parse?, hc, show isSymbol c = true from h]

end PatternAutomata
