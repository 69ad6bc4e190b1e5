import PatternAutomata.Symbol

/-!
# Explicit concatenation

In a pattern, two operands that stand side by side are concatenated.  Here the sign of concatenation
is put between them.
-/

namespace PatternAutomata

def endsOperand (c : Char) : Bool :=
  isSymbol c || c = ')' || c = '*' || c = '+' || c = '?'

def beginsOperand (c : Char) : Bool :=
  isSymbol c || c = '('

def joins (left right : Char) : Bool :=
  endsOperand left && beginsOperand right

def explicitConcat : List Char → List Char
  | [] => []
  | [c] => [c]
  | left :: right :: rest =>
    if joins left right then left :: '.' :: explicitConcat (right :: rest)
    else left :: explicitConcat (right :: rest)

end PatternAutomata
