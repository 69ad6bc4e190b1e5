import Mathlib.Computability.Language
import PatternAutomata.Pattern.Postfix

/-!
# Syntax trees of patterns

A pattern text stands for a syntax tree, and the tree for a language.  The postfix of a tree lists
its operators after their operands; a stack machine reads the tree back from it, so a postfix is the
postfix of one tree at most.
-/

namespace PatternAutomata

open Computability

/-- The syntax tree of a pattern. -/
inductive Expr where
  | symbol (c : Char)
  | star (inner : Expr)
  | plus (inner : Expr)
  | optional (inner : Expr)
  | concat (left right : Expr)
  | alternate (left right : Expr)
deriving DecidableEq, Repr

namespace Expr

/-- The words that a tree stands for. -/
def language : Expr → Language Char
  | symbol c => {[c]}
  | star inner => inner.language∗
  | plus inner => inner.language * inner.language∗
  | optional inner => 1 + inner.language
  | concat left right => left.language * right.language
  | alternate left right => left.language + right.language

/-- The tokens of a tree, operators after their operands. -/
def postfixOf : Expr → Postfix
  | symbol c => [.symbol c]
  | star inner => inner.postfixOf ++ [.star]
  | plus inner => inner.postfixOf ++ [.plus]
  | optional inner => inner.postfixOf ++ [.optional]
  | concat left right => left.postfixOf ++ right.postfixOf ++ [.concat]
  | alternate left right => left.postfixOf ++ right.postfixOf ++ [.alternate]

/-! ### Reading a tree back -/

/-- Puts the tree of a token on the stack; the operands of an operator are taken off it. -/
def reduce : List Expr → Token → Option (List Expr)
  | stack, .symbol c => some (symbol c :: stack)
  | inner :: stack, .star => some (star inner :: stack)
  | inner :: stack, .plus => some (plus inner :: stack)
  | inner :: stack, .optional => some (optional inner :: stack)
  | right :: left :: stack, .concat => some (concat left right :: stack)
  | right :: left :: stack, .alternate => some (alternate left right :: stack)
  | _, _ => none

theorem foldlM_reduce_postfixOf (e : Expr) (stack : List Expr) :
    e.postfixOf.foldlM reduce stack = some (e :: stack) := by
  induction e generalizing stack with
  | symbol c => rfl
  | star inner ih | plus inner ih | optional inner ih =>
    simp only [postfixOf, List.foldlM_append, ih]
    rfl
  | concat left right ihl ihr | alternate left right ihl ihr =>
    simp only [postfixOf, List.foldlM_append, ihl, ihr, Option.bind_eq_bind, Option.bind_some]
    rfl

theorem postfixOf_injective : Function.Injective postfixOf := by
  intro e e' h
  have hread := foldlM_reduce_postfixOf e []
  rw [h, foldlM_reduce_postfixOf e' []] at hread
  cases hread
  rfl

end Expr

end PatternAutomata
