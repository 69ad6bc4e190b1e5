import PatternAutomata.Dfa.Table

/-!
# Build errors

A postfix that was written by hand need not be that of a pattern.  It may hold characters that are
no tokens, and its operators and operands may not add up.
-/

namespace PatternAutomata

/-- Why no automaton can be built from a postfix. -/
inductive BuildError where
  | unknownToken (token : Char) (position : Nat)     -- a character that writes no token
  | operandUnderflow (token : Char) (position : Nat) -- an operator without its operands
  | leftoverOperands (count : Nat)                   -- operands that no operator joins
  | emptyPostfix                                     -- no token at all
  | table (cause : TableError)                       -- a table that cannot be closed
  | fault (misuse : Fault)                           -- a misuse of the automaton under construction
deriving DecidableEq, Repr

/-- What a build error says; only a fault may have no words. -/
def BuildError.message? : BuildError → Option String
  | .unknownToken token position =>
    some s!"unknown postfix token '{token}' at position {position}"
  | .operandUnderflow token position =>
    some s!"operator '{token}' at position {position} is missing an operand"
  | .leftoverOperands count => some s!"postfix left {count} operands on the stack"
  | .emptyPostfix => some "postfix is empty"
  | .table cause => some cause.message
  | .fault misuse => misuse.message?

def liftFault {α : Type} (result : Except Fault α) : Except BuildError α :=
  result.mapError .fault

end PatternAutomata
