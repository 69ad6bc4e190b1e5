import PatternAutomata.Proofs.Nfa.Assembling
import PatternAutomata.Proofs.Snapshot.Restoring

/-!
# Rebuilding from a postfix that was written by hand

The postfix of a snapshot may have been edited, so it need not be that of a pattern.  What can be
wrong with it is said here in terms of its characters and of the operands that wait, without the
construction.  Every text has one of these defects or none; a text with a defect is refused with
that defect, and a text without is rebuilt.  Nothing else can make the rebuilding fail.
-/

namespace PatternAutomata

namespace Token

theorem ofChar?_isSome (c : Char) : (ofChar? c).isSome = (isSymbol c || isOperator c) := by
  unfold ofChar?
  cases isSymbol c with
  | true => rfl
  | false => exact operator?_isSome c

theorem isSymbol_of_ofChar? {c d : Char} (h : ofChar? c = some (.symbol d)) :
    isSymbol d = true := by
  unfold ofChar? at h
  split at h
  · next hc =>
    cases h
    exact hc
  · unfold operator? at h
    repeat' split at h
    all_goals cases h

end Token

namespace Postfix

variable {before after text : List Char} {c : Char}

/-- What keeps a text from being a postfix.  A character that writes no token goes before all that
is wrong with the operands, wherever it stands. -/
inductive Defect : List Char → BuildError → Prop where
  /-- The character is the first that writes no token. -/
  | unknownToken {before after : List Char} {c : Char}
    (hbefore : ∀ d ∈ before, isSymbol d = true ∨ isOperator d = true)
    (hsymbol : isSymbol c = false) (hoperator : isOperator c = false) :
    Defect (before ++ c :: after) (.unknownToken c before.length)
  | emptyPostfix : Defect [] .emptyPostfix
  /-- The token is the first that does not find its operands. -/
  | operandUnderflow {before after : Postfix} {token : Token}
    (hwritable : IsWritable (before ++ token :: after)) (hbefore : Supplied before)
    (htoken : depth before < token.arity) :
    Defect ((before ++ token :: after).map Token.char) (.operandUnderflow token.char before.length)
  /-- Every token finds its operands, but more than one operand is left. -/
  | leftoverOperands {tokens : Postfix} (hwritable : tokens.IsWritable) (hsupplied : Supplied tokens)
    (hdepth : 1 < depth tokens) :
    Defect (tokens.map Token.char) (.leftoverOperands (depth tokens))

namespace Defect

variable {cause : BuildError}

theorem ne_table (h : Defect text cause) (table : TableError) : cause ≠ .table table := by
  rintro rfl
  cases h

theorem ne_fault (h : Defect text cause) (misuse : Fault) : cause ≠ .fault misuse := by
  rintro rfl
  cases h

end Defect

/-- All characters of the text write tokens, every token finds its operands, and one operand is
left. -/
def Buildable (text : List Char) : Prop :=
  ∃ tokens, IsWritable tokens ∧ text = tokens.map Token.char ∧ Supplied tokens ∧ depth tokens = 1

theorem isWritable_nil : IsWritable [] := by
  intro c hc
  cases hc

/-- A text is written in tokens up to its end, or up to the first character that writes none. -/
theorem exists_tokens_or_unknown (text : List Char) :
    (∃ tokens, IsWritable tokens ∧ text = tokens.map Token.char) ∨
      ∃ before c after, text = before ++ c :: after ∧
        (∀ d ∈ before, isSymbol d = true ∨ isOperator d = true) ∧
          isSymbol c = false ∧ isOperator c = false := by
  induction text with
  | nil => exact .inl ⟨[], isWritable_nil, rfl⟩
  | cons c text ih =>
    have hsome := Token.ofChar?_isSome c
    cases htoken : Token.ofChar? c with
    | none =>
      rw [htoken, Option.isSome_none, eq_comm, Bool.or_eq_false_iff] at hsome
      exact .inr ⟨[], c, text, rfl, nofun, hsome⟩
    | some token =>
      rw [htoken, Option.isSome_some, eq_comm, Bool.or_eq_true] at hsome
      rcases ih with ⟨tokens, hwritable, rfl⟩ | ⟨before, d, after, rfl, hbefore, hd⟩
      · have hfirst : IsWritable [token] := by
          intro d hd
          rw [← List.mem_singleton.mp hd] at htoken
          exact Token.isSymbol_of_ofChar? htoken
        refine .inl ⟨token :: tokens, hfirst.append hwritable, ?_⟩
        rw [List.map_cons, Token.char_of_ofChar? htoken]
      · exact .inr ⟨c :: before, d, after, rfl, List.forall_mem_cons.mpr ⟨hsome, hbefore⟩, hd⟩

theorem exists_defect_or_buildable (text : List Char) :
    (∃ cause, Defect text cause) ∨ Buildable text := by
  rcases exists_tokens_or_unknown text with
    ⟨tokens, hwritable, rfl⟩ | ⟨before, c, after, rfl, hbefore, hsymbol, hoperator⟩
  · rcases supplied_or_exists_first tokens with h | ⟨before, token, after, rfl, h, htoken⟩
    · rcases Nat.lt_trichotomy 1 (depth tokens) with hdepth | hdepth | hdepth
      · exact .inl ⟨_, .leftoverOperands hwritable h hdepth⟩
      · exact .inr ⟨tokens, hwritable, rfl, h, hdepth.symm⟩
      · have hnil : tokens = [] := by
          by_contra hne
          have hpos := depth_pos hne
          omega
        rw [hnil]
        exact .inl ⟨_, .emptyPostfix⟩
    · exact .inl ⟨_, .operandUnderflow hwritable h htoken⟩
  · exact .inl ⟨_, .unknownToken hbefore hsymbol hoperator⟩

theorem parseFrom_of_unknown (hbefore : ∀ d ∈ before, isSymbol d = true ∨ isOperator d = true)
    (hsymbol : isSymbol c = false) (hoperator : isOperator c = false) (position : Nat) :
    parseFrom position (before ++ c :: after) =
      .error (.unknownToken c (position + before.length)) := by
  induction before generalizing position with
  | nil =>
    have hnone : Token.ofChar? c = none := by
      have hsome := Token.ofChar?_isSome c
      rw [hsymbol, hoperator] at hsome
      exact Option.isNone_iff_eq_none.mp (Option.isSome_eq_false_iff.mp hsome)
    simp only [List.nil_append, parseFrom, hnone, List.length_nil, Nat.add_zero]
  | cons d before ih =>
    obtain ⟨hd, hrest⟩ := List.forall_mem_cons.mp hbefore
    have hsome := Token.ofChar?_isSome d
    rw [Bool.or_eq_true_iff.mpr hd] at hsome
    obtain ⟨token, htoken⟩ := Option.isSome_iff_exists.mp hsome
    have hparse := ih hrest (position + 1)
    simp only [List.cons_append, parseFrom, htoken, hparse, bind, Except.bind, List.length_cons,
      Nat.add_assoc, Nat.add_comm 1]

end Postfix

/-! ### The outcome -/

namespace Compiled

open Postfix

variable {snapshot : Snapshot} {tokens : Postfix} {cause : BuildError}

theorem assemble_of_error (h : Nfa.ofPostfix tokens = .error cause) (options : CompileOptions) :
    assemble tokens options = .error cause := by
  simp only [assemble, h, bind, Except.bind]

theorem ofSnapshot_of_tokens (hwritable : tokens.IsWritable)
    (htext : snapshot.tokens.toList = tokens.map Token.char) :
    ofSnapshot snapshot = do
      let automaton ← assemble tokens ⟨snapshot.kind, snapshot.closure⟩
      return ⟨snapshot.regex, snapshot.regex.map writeConcat, tokens, automaton,
        snapshot.closure⟩ := by
  have hparse : Postfix.parse snapshot.tokens = .ok tokens := by
    rw [Postfix.parse, htext]
    exact parseFrom_map_char hwritable 0
  rw [ofSnapshot, hparse]
  rfl

theorem ofSnapshot_of_defect {text : List Char} (h : Defect text cause)
    (htext : snapshot.tokens.toList = text) : ofSnapshot snapshot = .error cause := by
  cases h with
  | @unknownToken before after c hbefore hsymbol hoperator =>
    have hparse := @parseFrom_of_unknown before after c hbefore hsymbol hoperator 0
    rw [Nat.zero_add] at hparse
    rw [ofSnapshot, Postfix.parse, htext, hparse]
    rfl
  | emptyPostfix =>
    rw [ofSnapshot_of_tokens isWritable_nil htext, assemble_of_error Nfa.ofPostfix_nil]
    rfl
  | operandUnderflow hwritable hbefore htoken =>
    have herror := Nfa.ofPostfix_of_missing hbefore htoken
    rw [ofSnapshot_of_tokens hwritable htext, assemble_of_error (herror _)]
    rfl
  | leftoverOperands hwritable hsupplied hdepth =>
    have herror := Nfa.ofPostfix_of_leftover hsupplied hdepth
    rw [ofSnapshot_of_tokens hwritable htext, assemble_of_error herror]
    rfl

theorem exists_ofSnapshot (h : Buildable snapshot.tokens.toList) :
    ∃ compiled, ofSnapshot snapshot = .ok compiled := by
  obtain ⟨tokens, hwritable, htext, hsupplied, hdepth⟩ := h
  obtain ⟨nfa, hnfa⟩ := Nfa.exists_ofPostfix hsupplied hdepth
  obtain ⟨automaton, -, hassemble⟩ := exists_implements nfa ⟨snapshot.kind, snapshot.closure⟩
  refine ⟨⟨snapshot.regex, snapshot.regex.map writeConcat, tokens, automaton,
    snapshot.closure⟩, ?_⟩
  rw [ofSnapshot_of_tokens hwritable htext, hassemble tokens hnfa]
  rfl

/-- What the rebuilding reports is a defect of the postfix. -/
theorem defect_of_ofSnapshot (h : ofSnapshot snapshot = .error cause) :
    Defect snapshot.tokens.toList cause := by
  rcases exists_defect_or_buildable snapshot.tokens.toList with ⟨other, hother⟩ | hbuildable
  · rw [ofSnapshot_of_defect hother rfl] at h
    cases h
    exact hother
  · obtain ⟨compiled, hcompiled⟩ := exists_ofSnapshot hbuildable
    rw [hcompiled] at h
    cases h

/-- **Rebuilding.**  A snapshot is refused exactly with the defect of its postfix, and it is rebuilt
exactly if there is none, for either kind and either closure.  A table can always be closed, and
neither the version nor the recorded listing matters. -/
theorem ofSnapshot_outcome (snapshot : Snapshot) :
    (∀ cause, ofSnapshot snapshot = .error cause ↔ Defect snapshot.tokens.toList cause) ∧
      ((∃ compiled, ofSnapshot snapshot = .ok compiled) ↔ Buildable snapshot.tokens.toList) ∧
      (∀ cause, ofSnapshot snapshot ≠ .error (.table cause)) ∧
      ∀ version start accepts edges,
        ofSnapshot { snapshot with version, start, accepts, edges } = ofSnapshot snapshot := by
  refine ⟨fun cause => ?_, ?_, fun cause h => ?_, fun version start accepts edges => rfl⟩
  · constructor
    · exact defect_of_ofSnapshot
    · intro h
      exact ofSnapshot_of_defect h rfl
  · constructor
    · rintro ⟨compiled, hcompiled⟩
      rcases exists_defect_or_buildable snapshot.tokens.toList with ⟨cause, hcause⟩ | hbuildable
      · rw [ofSnapshot_of_defect hcause rfl] at hcompiled
        cases hcompiled
      · exact hbuildable
    · exact exists_ofSnapshot
  · exact (defect_of_ofSnapshot h).ne_table cause rfl

end Compiled

end PatternAutomata
