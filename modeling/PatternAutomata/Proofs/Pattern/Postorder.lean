import PatternAutomata.Proofs.Pattern.Checking
import PatternAutomata.Proofs.Pattern.Conversion
import PatternAutomata.Proofs.Pattern.Operands

/-!
# Postfixes and syntax trees

The tokens of a tree, operators after their operands, are a postfix in which every token finds its
operands and one operand is left.  Every such postfix is that of a tree: along the postfix, the
operands that wait are the trees of the tokens so far, and a token puts one tree in the place of
those that it takes.  The conversion of a pattern text gives the tokens of the tree of the text.
-/

namespace PatternAutomata

/-! ### The tree of a postfix -/

namespace Expr

variable {stack : List Expr} {token : Token} {tokens : Postfix} {e : Expr}

/-- The tokens of the trees on a stack, the lowest tree first. -/
def postfixOfAll (stack : List Expr) : Postfix :=
  stack.reverse.flatMap postfixOf

@[simp] theorem postfixOfAll_nil : postfixOfAll [] = [] := rfl

@[simp] theorem postfixOfAll_cons :
    postfixOfAll (e :: stack) = postfixOfAll stack ++ e.postfixOf := by
  simp [postfixOfAll]

/-- A token that finds its operands on the stack puts one tree in their place. -/
theorem exists_reduce (h : token.arity ≤ stack.length) :
    ∃ next, reduce stack token = some next ∧ next.length = stack.length - token.arity + 1 ∧
      postfixOfAll next = postfixOfAll stack ++ [token] := by
  cases token with
  | symbol c => exact ⟨symbol c :: stack, rfl, rfl, by simp [postfixOf]⟩
  | star | plus | optional =>
    cases stack with
    | nil => simp [Token.arity] at h
    | cons inner stack => exact ⟨_, rfl, rfl, by simp [postfixOf]⟩
  | concat | alternate =>
    rcases stack with _ | ⟨right, _ | ⟨left, stack⟩⟩
    · simp [Token.arity] at h
    · simp [Token.arity] at h
    · exact ⟨_, rfl, rfl, by simp [postfixOf]⟩

/-- The operands that wait after the tokens are the trees that a stack machine reads back. -/
theorem exists_foldlM_reduce (h : Postfix.Supplied tokens) :
    ∃ stack, tokens.foldlM reduce [] = some stack ∧ stack.length = Postfix.depth tokens ∧
      postfixOfAll stack = tokens := by
  induction tokens using List.reverseRecOn with
  | nil => exact ⟨[], rfl, rfl, rfl⟩
  | append_singleton tokens token ih =>
    obtain ⟨hrest, htoken⟩ := Postfix.supplied_concat.mp h
    obtain ⟨stack, hstack, hlength, htokens⟩ := ih hrest
    rw [← hlength] at htoken
    obtain ⟨next, hnext, hlength', htokens'⟩ := exists_reduce htoken
    refine ⟨next, ?_, ?_, ?_⟩
    · rw [List.foldlM_append, hstack]
      simp [hnext]
    · rw [hlength', hlength, Postfix.depth_concat]
    · rw [htokens', htokens]

theorem exists_postfixOf_eq (h : Postfix.Supplied tokens) (hdepth : Postfix.depth tokens = 1) :
    ∃ e : Expr, e.postfixOf = tokens := by
  obtain ⟨stack, -, hlength, htokens⟩ := exists_foldlM_reduce h
  obtain ⟨e, rfl⟩ := List.length_eq_one_iff.mp (hlength.trans hdepth)
  exact ⟨e, by simpa using htokens⟩

end Expr

/-! ### The tree of a text -/

/-- The parentheses, which only group. -/
def isParenthesis (c : Char) : Bool :=
  c = '(' || c = ')'

variable {text : List Char} {level : Level} {e : Expr}

theorem isParenthesis_of_isSymbol {c : Char} (h : isSymbol c = true) : isParenthesis c = false := by
  by_contra hc
  simp only [isParenthesis, Bool.or_eq_true, decide_eq_true_eq, Bool.not_eq_false] at hc
  rcases hc with rfl | rfl
  · cases h
  · cases h

theorem perm_append_middle {l r left right : List Char} (hleft : l.Perm left) (hright : r.Perm right)
    (c : Char) : (l ++ r ++ [c]).Perm (left ++ c :: right) := by
  calc
    List.Perm (l ++ r ++ [c]) (c :: (l ++ r)) := List.perm_append_singleton c (l ++ r)
    List.Perm _ (c :: (left ++ right)) := (hleft.append hright).cons c
    List.Perm _ (left ++ c :: right) := List.perm_middle.symm

/-- Every character of the explicit form but the parentheses leaves one token. -/
theorem Parses.map_char_perm (h : Parses level text e) :
    (e.postfixOf.map Token.char).Perm ((explicitConcat text).filter (!isParenthesis ·)) := by
  induction h with
  | symbol hc => simp [explicitConcat, Expr.postfixOf, Token.char, isParenthesis_of_isSymbol hc]
  | group _ ih =>
    rw [explicitConcat_group]
    simpa [isParenthesis] using ih
  | once _ ih | single _ ih | only _ ih => exact ih
  | star _ ih | plus _ ih | optional _ ih =>
    rw [explicitConcat_concat rfl, List.filter_append, Expr.postfixOf, List.map_append]
    exact ih.append_right _
  | juxtaposed hleft hright ihleft ihright =>
    rw [explicitConcat_parts hleft hright, List.filter_append, Expr.postfixOf, List.map_append,
      List.map_append]
    exact perm_append_middle ihleft ihright '.'
  | pointed _ _ ihleft ihright | either _ _ ihleft ihright =>
    rw [explicitConcat_binary rfl rfl, List.filter_append, Expr.postfixOf, List.map_append,
      List.map_append]
    exact perm_append_middle ihleft ihright _

/-- **The conversion of a pattern.**  A text that passes the check has one syntax tree, in which the
repeats bind most and the bar least and chains lean to the left.  The conversion of the text gives
the tokens of this tree, operators after their operands.  A parenthesis leaves no token, and every
other character leaves one. -/
theorem toPostfix_lists_tree (h : check text = []) :
    ∃ e, Parses .alternation text e ∧ (∀ e', Parses .alternation text e' → e' = e) ∧
      toPostfix (explicitConcat text) = e.postfixOf ∧
      ((toPostfix (explicitConcat text)).map Token.char).Perm
        ((explicitConcat text).filter (!isParenthesis ·)) := by
  obtain ⟨e, htree⟩ := (derives_of_check_eq_nil h).exists_parses
  have htokens : toPostfix (explicitConcat text) = e.postfixOf := htree.toPostfix_eq
  refine ⟨e, htree, ?_, htokens, ?_⟩
  · intro e' htree'
    exact htree'.unique htree
  · rw [htokens]
    exact htree.map_char_perm

/-- A chain of alternatives, of which one is a chain of concatenations and one a repeated group. -/
theorem toPostfix_lists_tree_of_chains :
    let e : Expr := .alternate
      (.alternate (.concat (.concat (.symbol 'a') (.symbol 'b')) (.symbol 'c')) (.symbol 'd'))
      (.plus (.alternate (.symbol 'e') (.symbol 'f')))
    check "a.bc|d|(e|f)+".toList = [] ∧ Parses .alternation "a.bc|d|(e|f)+".toList e ∧
      toPostfix (explicitConcat "a.bc|d|(e|f)+".toList) = e.postfixOf := by
  intro e
  have hcheck : check "a.bc|d|(e|f)+".toList = [] := by decide
  obtain ⟨e', htree, -, htokens, -⟩ := toPostfix_lists_tree hcheck
  have htokens' : toPostfix (explicitConcat "a.bc|d|(e|f)+".toList) = e.postfixOf := by decide
  have he : e' = e := Expr.postfixOf_injective (htokens.symm.trans htokens')
  rw [he] at htree
  exact ⟨hcheck, htree, htokens'⟩

end PatternAutomata
