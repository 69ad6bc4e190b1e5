import PatternAutomata.Symbol

/-!
# Tokens

The tokens of a pattern in postfix order: symbols and operators.  Parentheses are not tokens, for in
postfix order the place of an operator says what it applies to.
-/

namespace PatternAutomata

/-- A token of a postfix. -/
inductive Token where
  | symbol (c : Char)
  | star      -- any number of times
  | plus      -- once or more
  | optional  -- once or not at all
  | concat    -- one after the other
  | alternate -- either
deriving DecidableEq, Repr

namespace Token

def operator? (c : Char) : Option Token :=
  if c = '*' then some .star
  else if c = '+' then some .plus
  else if c = '?' then some .optional
  else if c = '.' then some .concat
  else if c = '|' then some .alternate
  else none

def ofChar? (c : Char) : Option Token :=
  if isSymbol c then some (.symbol c) else operator? c

def char : Token → Char
  | symbol c => c
  | star => '*'
  | plus => '+'
  | optional => '?'
  | concat => '.'
  | alternate => '|'

/-- How strongly an operator binds its operands; a symbol has none. -/
def precedence : Token → Nat
  | symbol _ => 0
  | star | plus | optional => 3
  | concat => 2
  | alternate => 1

def isUnary : Token → Bool
  | star | plus | optional => true
  | symbol _ | concat | alternate => false

theorem operator?_isSome (c : Char) : (operator? c).isSome = isOperator c := by
  unfold operator? isOperator
  repeat' split
  all_goals simp_all

theorem isSymbol_of_operator? {c : Char} {op : Token} (h : operator? c = some op) :
    isSymbol c = false := by
  have hoperator : isOperator c = true := by
    rw [← operator?_isSome, h]
    rfl
  rw [Bool.eq_false_iff]
  intro hsymbol
  rw [isOperator_of_isSymbol hsymbol] at hoperator
  cases hoperator

theorem precedence_le (token : Token) : token.precedence ≤ 3 := by
  cases token <;> simp [precedence]

theorem precedence_pos_of_operator? {c : Char} {op : Token} (h : operator? c = some op) :
    0 < op.precedence := by
  unfold operator? at h
  repeat' split at h
  all_goals cases h
  all_goals decide

/-- The repeats are the operators that bind most strongly. -/
theorem precedence_lt_iff {token : Token} : token.precedence < 3 ↔ token.isUnary = false := by
  cases token <;> simp [precedence, isUnary]

/-- A token is read back from the character that writes it, if its symbol is one of patterns. -/
theorem char_of_ofChar? {c : Char} {token : Token} (h : ofChar? c = some token) :
    token.char = c := by
  unfold ofChar? at h
  split at h
  · cases h; rfl
  · unfold operator? at h
    repeat' split at h
    all_goals first | (cases h; simp_all [char]) | cases h

end Token

end PatternAutomata
