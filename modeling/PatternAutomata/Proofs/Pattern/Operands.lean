import Mathlib.Data.List.Induction
import PatternAutomata.Pattern.Postfix

/-!
# Operands in a postfix

Every token takes its operands off a stack and leaves one operand there.  So the number of operands
that wait at a place of a postfix depends on the tokens before it only, and an operator fails if
fewer operands wait than it takes.  The laws go along a postfix from its beginning: one more token
at the end is supplied if the operands it takes wait there.
-/

namespace PatternAutomata

/-- How many operands a token takes. -/
def Token.arity : Token → Nat
  | symbol _ => 0
  | star | plus | optional => 1
  | concat | alternate => 2

/-- The symbol of a token that is no operator. -/
def Token.symbol? : Token → Option Char
  | symbol c => some c
  | star | plus | optional | concat | alternate => none

namespace Postfix

/-- The symbols of the tokens, in their order. -/
def symbols (tokens : Postfix) : List Char :=
  tokens.filterMap Token.symbol?

/-- The number of operands that wait after the tokens, if every token finds those it takes. -/
def depth (tokens : Postfix) : Nat :=
  tokens.foldl (fun depth token => depth - token.arity + 1) 0

/-- Every token finds the operands that it takes. -/
def Supplied (tokens : Postfix) : Prop :=
  ∀ before token, before ++ [token] <+: tokens → token.arity ≤ depth before

variable {tokens more : Postfix} {token : Token}

@[simp] theorem symbols_append : symbols (tokens ++ more) = tokens.symbols ++ more.symbols :=
  List.filterMap_append

@[simp] theorem depth_nil : depth [] = 0 := rfl

@[simp] theorem depth_concat : depth (tokens ++ [token]) = depth tokens - token.arity + 1 := by
  simp [depth]

theorem depth_pos (h : tokens ≠ []) : 0 < depth tokens := by
  rcases List.eq_nil_or_concat tokens with rfl | ⟨before, token, rfl⟩
  · exact absurd rfl h
  · rw [List.concat_eq_append, depth_concat]
    exact Nat.succ_pos _

theorem supplied_nil : Supplied [] := by
  intro before token h
  simp at h

theorem supplied_concat :
    Supplied (tokens ++ [token]) ↔ Supplied tokens ∧ token.arity ≤ depth tokens := by
  constructor
  · intro h
    constructor
    · intro before other hbefore
      apply h
      exact hbefore.trans (List.prefix_append tokens [token])
    · exact h tokens token List.prefix_rfl
  · rintro ⟨h, htoken⟩ before other hbefore
    rcases List.prefix_concat_iff.mp hbefore with heq | hbefore
    · obtain ⟨rfl, hother⟩ := List.append_inj' heq rfl
      cases hother
      exact htoken
    · exact h before other hbefore

/-- Of the tokens that miss an operand, if there are any, one is the first. -/
theorem supplied_or_exists_first (tokens : Postfix) :
    Supplied tokens ∨ ∃ before token after, tokens = before ++ token :: after ∧
      Supplied before ∧ depth before < token.arity := by
  induction tokens using List.reverseRecOn with
  | nil => exact .inl supplied_nil
  | append_singleton tokens token ih =>
    rcases ih with h | ⟨before, first, after, rfl, h, hfirst⟩
    · by_cases htoken : token.arity ≤ depth tokens
      · exact .inl (supplied_concat.mpr ⟨h, htoken⟩)
      · exact .inr ⟨tokens, token, [], rfl, h, Nat.lt_of_not_le htoken⟩
    · refine .inr ⟨before, first, after ++ [token], ?_, h, hfirst⟩
      simp

end Postfix

end PatternAutomata
