import PatternAutomata.Proofs.Snapshot.Restoring

/-!
# Trees written with every parenthesis

A tree is written as a text by putting each operand of an operator into parentheses of its own.
Inside its parentheses an operand may be any pattern, so no operator stands beside another one, and
nothing depends on how strongly operators bind or to which side chains lean.  The text is a pattern,
and its tree is the tree that was written.  Every postfix from which an automaton is built is the
postfix of a tree, so with symbols of patterns it is the postfix of a pattern.
-/

namespace PatternAutomata

variable {text left right : List Char} {e : Expr} {nfa : Nfa} {tokens more : Postfix}

/-- An operand in parentheses. -/
def grouped (text : List Char) : List Char :=
  '(' :: text ++ [')']

/-- The text of a tree with every operand in parentheses.  Concatenations have no sign. -/
def Expr.parenthesised : Expr → List Char
  | symbol c => [c]
  | star inner => grouped inner.parenthesised ++ ['*']
  | plus inner => grouped inner.parenthesised ++ ['+']
  | optional inner => grouped inner.parenthesised ++ ['?']
  | concat left right => grouped left.parenthesised ++ grouped right.parenthesised
  | alternate left right => grouped left.parenthesised ++ '|' :: grouped right.parenthesised

/-! ### Grouped operands -/

theorem Derives.repeat_grouped {c : Char} (h : Derives .alternation text) (hc : isRepeat c = true) :
    Derives .alternation (grouped text ++ [c]) :=
  .only (.single (.repeated (.group h) hc))

theorem Derives.grouped_append (hleft : Derives .alternation left)
    (hright : Derives .alternation right) : Derives .alternation (grouped left ++ grouped right) :=
  .only (.juxtaposed (.once (.group hleft)) (.single (.once (.group hright))))

theorem Derives.grouped_bar (hleft : Derives .alternation left)
    (hright : Derives .alternation right) :
    Derives .alternation (grouped left ++ '|' :: grouped right) := by
  have hgroup : Derives .atom (grouped left) := .group hleft
  apply Derives.either (.single (.once hgroup)) hgroup.isRepeat_getLast?
  exact .only (.single (.once (.group hright)))

theorem Parses.grouped_operand (h : Parses .alternation text e) :
    Parses .concatenation (grouped text) e :=
  .single (.once (.group h))

/-! ### The text of a tree -/

theorem Postfix.isWritable_append :
    IsWritable (tokens ++ more) ↔ tokens.IsWritable ∧ more.IsWritable := by
  constructor
  · intro h
    exact ⟨fun c hc => h c (List.mem_append_left more hc),
      fun c hc => h c (List.mem_append_right tokens hc)⟩
  · rintro ⟨htokens, hmore⟩
    exact htokens.append hmore

/-- The text of a tree is a pattern. -/
theorem derives_parenthesised (h : e.postfixOf.IsWritable) :
    Derives .alternation e.parenthesised := by
  induction e with
  | symbol c => exact .only (.single (.once (.symbol (h c (List.mem_singleton_self _)))))
  | star inner ih | plus inner ih | optional inner ih =>
    exact (ih (Postfix.isWritable_append.mp h).1).repeat_grouped rfl
  | concat left right ihleft ihright =>
    obtain ⟨hleft, hright⟩ := Postfix.isWritable_append.mp (Postfix.isWritable_append.mp h).1
    exact (ihleft hleft).grouped_append (ihright hright)
  | alternate left right ihleft ihright =>
    obtain ⟨hleft, hright⟩ := Postfix.isWritable_append.mp (Postfix.isWritable_append.mp h).1
    exact (ihleft hleft).grouped_bar (ihright hright)

/-- The text of a tree is read as the tree. -/
theorem parses_parenthesised (h : e.postfixOf.IsWritable) :
    Parses .alternation e.parenthesised e := by
  induction e with
  | symbol c => exact .only (.single (.once (.symbol (h c (List.mem_singleton_self _)))))
  | star inner ih =>
    exact .only (.single (.star (.group (ih (Postfix.isWritable_append.mp h).1))))
  | plus inner ih =>
    exact .only (.single (.plus (.group (ih (Postfix.isWritable_append.mp h).1))))
  | optional inner ih =>
    exact .only (.single (.optional (.group (ih (Postfix.isWritable_append.mp h).1))))
  | concat left right ihleft ihright =>
    obtain ⟨hleft, hright⟩ := Postfix.isWritable_append.mp (Postfix.isWritable_append.mp h).1
    exact .only (.juxtaposed (ihleft hleft).grouped_operand (.once (.group (ihright hright))))
  | alternate left right ihleft ihright =>
    obtain ⟨hleft, hright⟩ := Postfix.isWritable_append.mp (Postfix.isWritable_append.mp h).1
    exact .either (.only (ihleft hleft).grouped_operand) (ihright hright).grouped_operand

/-- **Patterns for postfixes.**  An automaton is built only from the postfix of a tree, and of one.
If the symbols of the postfix are symbols of patterns, then the text of the tree, with every operand
in parentheses, passes the check, and what is read from this text is the postfix again. -/
theorem parsePattern_parenthesised (h : Nfa.ofPostfix tokens = .ok nfa)
    (hsymbols : tokens.IsWritable) :
    ∃ e : Expr, e.postfixOf = tokens ∧ (∀ e' : Expr, e'.postfixOf = tokens → e' = e) ∧
      check e.parenthesised = [] ∧
      parsePattern (String.ofList e.parenthesised) =
        .ok ⟨String.ofList e.parenthesised, String.ofList (explicitConcat e.parenthesised),
          tokens⟩ := by
  obtain ⟨e, rfl, -⟩ := Nfa.exists_expr_of_ofPostfix h
  have hcheck : check e.parenthesised = [] :=
    (check_eq_nil_iff_derives _).mpr (derives_parenthesised hsymbols)
  have htext : (String.ofList e.parenthesised).toList = e.parenthesised := String.toList_ofList
  have hparsed : parsePattern (String.ofList e.parenthesised) =
      .ok ⟨String.ofList e.parenthesised, writeConcat (String.ofList e.parenthesised),
        e.postfixOf⟩ := by
    apply parsePattern_eq
    · rw [htext, hcheck]
    · rw [htext]
      exact parses_parenthesised hsymbols
  rw [writeConcat, htext] at hparsed
  exact ⟨e, rfl, fun e' htokens => Expr.postfixOf_injective htokens, hcheck, hparsed⟩

/-- A concatenation that leans to the right, and repeats of a repeat and of an alternative. -/
theorem parsePattern_parenthesised_of_nested :
    let e : Expr := .concat (.star (.plus (.symbol 'a')))
      (.concat (.optional (.alternate (.symbol 'b') (.symbol 'c'))) (.symbol 'd'))
    (∃ nfa, Nfa.ofPostfix e.postfixOf = .ok nfa) ∧ e.postfixOf.IsWritable ∧
      String.ofList e.parenthesised = "(((a)+)*)((((b)|(c))?)(d))" ∧
      parsePattern "(((a)+)*)((((b)|(c))?)(d))" =
        .ok ⟨"(((a)+)*)((((b)|(c))?)(d))", "(((a)+)*).((((b)|(c))?).(d))", e.postfixOf⟩ := by
  intro e
  obtain ⟨nfa, hnfa, -⟩ := Nfa.exists_isAutomatonOf e
  have hsymbols : e.postfixOf.IsWritable := by
    intro c hc
    simp only [e, Expr.postfixOf, List.mem_append, List.mem_singleton, reduceCtorEq, or_false,
      Token.symbol.injEq] at hc
    rcases hc with rfl | (rfl | rfl) | rfl <;> decide
  refine ⟨⟨nfa, hnfa⟩, hsymbols, by decide, ?_⟩
  obtain ⟨e', htokens, -, -, hparsed⟩ := parsePattern_parenthesised hnfa hsymbols
  rw [Expr.postfixOf_injective htokens] at hparsed
  exact hparsed

end PatternAutomata
