import PatternAutomata.BuildError
import PatternAutomata.Pattern.Token

/-!
# Postfixes

A pattern in postfix order: the operands of an operator come before it.  The conversion of a
pattern text keeps a stack of operators that still wait for their second operand or for the end of
their group.  Symbols pass at once; an operator waits until no operator that binds at least as
strongly is on top of it.
-/

namespace PatternAutomata

abbrev Postfix := List Token

def Postfix.text (tokens : Postfix) : String :=
  String.ofList (tokens.map Token.char)

/-- Reads the characters from a position on, up to the first that writes no token. -/
def Postfix.parseFrom (position : Nat) : List Char → Except BuildError Postfix
  | [] => .ok []
  | c :: rest =>
    match Token.ofChar? c with
    | none => .error (.unknownToken c position)
    | some token => do
      let tokens ← parseFrom (position + 1) rest
      return token :: tokens

def Postfix.parse (text : String) : Except BuildError Postfix :=
  parseFrom 0 text.toList

/-! ### Conversion -/

/-- What waits on the stack of the conversion. -/
inductive Pending where
  | group               -- a group that is still open
  | operator (op : Token)
deriving DecidableEq, Repr

namespace Pending

/-- Takes every operator off the stack down to the innermost open group, and the group itself. -/
def closeGroup : List Pending → List Token × List Pending
  | [] => ([], [])
  | group :: below => ([], below)
  | operator op :: below =>
    let (popped, left) := closeGroup below
    (op :: popped, left)

/-- Takes an operator with one operand off the stack, if one is on top. -/
def popUnary : List Pending → List Token × List Pending
  | operator op :: below => if op.isUnary then ([op], below) else ([], operator op :: below)
  | stack => ([], stack)

/-- Takes the operators off the stack that bind at least as strongly as `incoming`. -/
def popStronger (incoming : Token) : List Pending → List Token × List Pending
  | operator op :: below =>
    if op.precedence < incoming.precedence then ([], operator op :: below)
    else
      let (popped, left) := popStronger incoming below
      (op :: popped, left)
  | stack => ([], stack)

/-- The operators of a stack, from the top. -/
def operators : List Pending → List Token
  | [] => []
  | group :: below => operators below
  | operator op :: below => op :: operators below

end Pending

/-- Reads one character of a pattern text: the tokens that pass now, and the stack after it. -/
def readPending (stack : List Pending) (c : Char) : List Token × List Pending :=
  if isSymbol c then ([.symbol c], stack)
  else if c = '(' then ([], .group :: stack)
  else if c = ')' then
    let (closed, below) := Pending.closeGroup stack
    let (repeated, left) := Pending.popUnary below
    (closed ++ repeated, left)
  else
    match Token.operator? c with
    | some op =>
      let (popped, left) := Pending.popStronger op stack
      (popped, .operator op :: left)
    | none => ([], stack)

/-- The tokens of a pattern text that are still to come, when `stack` waits. -/
def postfixFrom (stack : List Pending) : List Char → Postfix
  | [] => Pending.operators stack
  | c :: rest =>
    let (passed, left) := readPending stack c
    passed ++ postfixFrom left rest

/-- The postfix of a pattern text with explicit concatenations.  Characters that are neither tokens
nor parentheses are skipped, and groups that are never closed end with the text. -/
def toPostfix (text : List Char) : Postfix :=
  postfixFrom [] text

/-! ### What is taken off the stack -/

namespace Pending

theorem operators_append (ops : List Token) (stack : List Pending) :
    operators (ops.map operator ++ stack) = ops ++ operators stack := by
  induction ops with
  | nil => rfl
  | cons top ops ih => exact congrArg (top :: ·) ih

/-- The operators above the innermost group are taken off with it, or all there are if no group is
open. -/
theorem closeGroup_split (stack : List Pending) :
    (closeGroup stack).1.map operator ++ group :: (closeGroup stack).2 = stack ∨
      (closeGroup stack).1.map operator = stack ∧ (closeGroup stack).2 = [] := by
  induction stack with
  | nil => exact .inr ⟨rfl, rfl⟩
  | cons top below ih =>
    cases top with
    | group => exact .inl rfl
    | operator op =>
      rcases ih with hsplit | ⟨hsplit, hleft⟩
      · exact .inl (congrArg (operator op :: ·) hsplit)
      · exact .inr ⟨congrArg (operator op :: ·) hsplit, hleft⟩

theorem popUnary_split (stack : List Pending) :
    (popUnary stack).1.map operator ++ (popUnary stack).2 = stack := by
  match stack with
  | [] | group :: _ => rfl
  | operator op :: below =>
    rw [popUnary]
    split <;> rfl

theorem popStronger_split (incoming : Token) (stack : List Pending) :
    (popStronger incoming stack).1.map operator ++ (popStronger incoming stack).2 = stack := by
  induction stack with
  | nil => rfl
  | cons top below ih =>
    cases top with
    | group => rfl
    | operator op =>
      rw [popStronger]
      split
      · rfl
      · exact congrArg (operator op :: ·) ih

end Pending

/-! ### One character -/

section ReadPending

variable {stack : List Pending} {c : Char}

theorem readPending_of_isSymbol (hc : isSymbol c = true) :
    readPending stack c = ([.symbol c], stack) :=
  if_pos hc

theorem readPending_close (stack : List Pending) : readPending stack ')' =
    ((Pending.closeGroup stack).1 ++ (Pending.popUnary (Pending.closeGroup stack).2).1,
      (Pending.popUnary (Pending.closeGroup stack).2).2) := rfl

theorem readPending_operator {op : Token} (hop : Token.operator? c = some op) :
    readPending stack c =
      ((Pending.popStronger op stack).1, .operator op :: (Pending.popStronger op stack).2) := by
  have hopen : c ≠ '(' := by
    rintro rfl
    cases hop
  have hclose : c ≠ ')' := by
    rintro rfl
    cases hop
  simp [readPending, Token.isSymbol_of_operator? hop, hopen, hclose, hop]

theorem readPending_skipped (hc : isSymbol c = false) (hopen : c ≠ '(') (hclose : c ≠ ')')
    (hop : Token.operator? c = none) : readPending stack c = ([], stack) := by
  simp [readPending, hc, hopen, hclose, hop]

/-- What one character can do to the stack. -/
theorem readPending_cases (stack : List Pending) (c : Char) :
    c ≠ '(' ∧ c ≠ ')' ∧ Token.operator? c = none ∧ (readPending stack c).2 = stack ∨
      c = '(' ∧ (readPending stack c).2 = .group :: stack ∨
      c = ')' ∧ (readPending stack c).2 = (Pending.popUnary (Pending.closeGroup stack).2).2 ∨
      ∃ op, Token.operator? c = some op ∧
        (readPending stack c).2 = .operator op :: (Pending.popStronger op stack).2 := by
  by_cases hopen : c = '('
  · subst hopen
    exact .inr (.inl ⟨rfl, rfl⟩)
  by_cases hclose : c = ')'
  · subst hclose
    exact .inr (.inr (.inl ⟨rfl, rfl⟩))
  cases hop : Token.operator? c with
  | some op =>
    rw [readPending_operator hop]
    exact .inr (.inr (.inr ⟨op, rfl, rfl⟩))
  | none =>
    refine .inl ⟨hopen, hclose, rfl, ?_⟩
    by_cases hc : isSymbol c = true
    · rw [readPending_of_isSymbol hc]
    · rw [readPending_skipped (Bool.eq_false_iff.mpr hc) hopen hclose hop]

end ReadPending

end PatternAutomata
