import PatternAutomata.Compiled
import PatternAutomata.Proofs.Dfa.Lockstep
import PatternAutomata.Proofs.Nfa.Trees
import PatternAutomata.Proofs.Pattern.Checking
import PatternAutomata.Proofs.Pattern.Conversion

/-!
# Compiled patterns

A text in which the check finds nothing has a syntax tree; its conversion gives the postfix of the
tree, from the postfix comes an ε-automaton with the language of the tree, and every ε-automaton has
a deterministic one.  So a pattern that passes the check always compiles, and what it compiles to
accepts its language.
-/

namespace PatternAutomata

variable {nfa : Nfa} {automaton : Automaton} {options : CompileOptions}

/-- The automaton is the ε-automaton, or the deterministic automaton made from it, as the options
say. -/
inductive Implements (nfa : Nfa) : CompileOptions → Automaton → Prop where
  | nfa (closure : ClosureMode) : Implements nfa ⟨.nfa, closure⟩ (.nfa nfa)
  | dfa {closure : ClosureMode} {dfa : Dfa} (h : dfa.Determinizes nfa closure) :
    Implements nfa ⟨.dfa, closure⟩ (.dfa dfa)

namespace Implements

theorem kind_eq (h : Implements nfa options automaton) : automaton.kind = options.kind := by
  cases h <;> rfl

theorem accepts_decides_language (h : Implements nfa options automaton)
    (hclosure : options.closure = .epsilon) (input : List Char) :
    Decides (automaton.accepts input) (input ∈ nfa.language) := by
  cases h with
  | nfa => exact nfa.accepts_decides input
  | dfa hdfa =>
    obtain rfl := hclosure
    have haccepts : Automaton.accepts (.dfa _) input = nfa.accepts input := hdfa.accepts_eq input
    rw [haccepts]
    exact nfa.accepts_decides input

end Implements

theorem exists_implements (nfa : Nfa) (options : CompileOptions) :
    ∃ automaton, Implements nfa options automaton ∧
      ∀ tokens, Nfa.ofPostfix tokens = .ok nfa → assemble tokens options = .ok automaton := by
  obtain ⟨kind, closure⟩ := options
  cases kind with
  | nfa =>
    refine ⟨.nfa nfa, .nfa closure, fun tokens htokens => ?_⟩
    simp only [assemble, htokens, bind, Except.bind]
    rfl
  | dfa =>
    obtain ⟨dfa, hdfa, hlaws⟩ := nfa.exists_determinize closure
    refine ⟨.dfa dfa, .dfa hlaws, fun tokens htokens => ?_⟩
    simp only [assemble, htokens, hdfa, bind, Except.bind]
    rfl

/-! ### Texts -/

variable {text : String} {e : Expr}

theorem exists_assemble (e : Expr) (options : CompileOptions) :
    ∃ nfa automaton, Nfa.ofPostfix e.postfixOf = .ok nfa ∧ nfa.language = e.language ∧
      assemble e.postfixOf options = .ok automaton ∧ Implements nfa options automaton := by
  obtain ⟨nfa, hnfa, hlanguage⟩ := Nfa.ofPostfix_postfixOf e
  obtain ⟨automaton, himplements, hassemble⟩ := exists_implements nfa options
  exact ⟨nfa, automaton, hnfa, hlanguage, hassemble e.postfixOf hnfa, himplements⟩

theorem parsePattern_eq (hcheck : check text.toList = [])
    (htree : Parses .alternation text.toList e) :
    parsePattern text = .ok ⟨text, writeConcat text, e.postfixOf⟩ := by
  have hempty : (check text.toList).isEmpty = true := by rw [hcheck]; rfl
  simp only [parsePattern, if_pos hempty, htree.toPostfix_eq]
  rfl

theorem compile_eq (hcheck : check text.toList = []) (htree : Parses .alternation text.toList e)
    (hassemble : assemble e.postfixOf options = .ok automaton) :
    compile text options =
      .ok ⟨text, writeConcat text, e.postfixOf, automaton, options.closure⟩ := by
  simp only [compile, parsePattern_eq hcheck htree, Parsed.compile, hassemble, Except.mapError,
    bind, Except.bind]
  rfl

theorem exists_compile (hcheck : check text.toList = []) (htree : Parses .alternation text.toList e)
    (options : CompileOptions) :
    ∃ nfa compiled, nfa.language = e.language ∧ compile text options = .ok compiled ∧
      Implements nfa options compiled.automaton := by
  obtain ⟨nfa, automaton, -, hlanguage, hassemble, himplements⟩ := exists_assemble e options
  exact ⟨nfa, _, hlanguage, compile_eq hcheck htree hassemble, himplements⟩

theorem compile_of_check_ne_nil (hcheck : check text.toList ≠ []) (options : CompileOptions) :
    compile text options = .error (.rejected (check text.toList)) := by
  have hempty : ¬ (check text.toList).isEmpty = true :=
    fun hempty => hcheck (List.isEmpty_iff.mp hempty)
  simp only [compile, parsePattern, if_neg hempty, bind, Except.bind]

/-- **Compiled patterns.**  A text that passes the check has one syntax tree, it compiles to an
automaton of either kind, and a run of the automaton accepts exactly the words that the tree stands
for, whatever characters the input is made of. -/
theorem compile_accepts_language (h : check text.toList = []) (kind : AutomatonKind) :
    ∃ e, Parses .alternation text.toList e ∧ (∀ e', Parses .alternation text.toList e' → e' = e) ∧
      ∃ compiled, compile text ⟨kind, .epsilon⟩ = .ok compiled ∧ compiled.automaton.kind = kind ∧
        ∀ input, Decides (compiled.automaton.accepts input) (input ∈ e.language) := by
  obtain ⟨e, htree⟩ := (derives_of_check_eq_nil h).exists_parses
  obtain ⟨nfa, compiled, hlanguage, hcompiled, himplements⟩ :=
    exists_compile h htree ⟨kind, .epsilon⟩
  have hunique : ∀ e', Parses .alternation text.toList e' → e' = e := by
    intro e' htree'
    exact htree'.unique htree
  refine ⟨e, htree, hunique, compiled, hcompiled, himplements.kind_eq, ?_⟩
  intro input
  rw [← hlanguage]
  exact himplements.accepts_decides_language rfl input

theorem compile_accepts_language_of_group :
    check "(a|b)*.c".toList = [] ∧
      ∃ e, Parses .alternation "(a|b)*.c".toList e ∧
        (∀ e', Parses .alternation "(a|b)*.c".toList e' → e' = e) ∧
        ∃ compiled, compile "(a|b)*.c" ⟨.dfa, .epsilon⟩ = .ok compiled ∧
          compiled.automaton.kind = .dfa ∧
          ∀ input, Decides (compiled.automaton.accepts input) (input ∈ e.language) :=
  ⟨by decide, compile_accepts_language (by decide) .dfa⟩

/-- **Failures.**  A text compiles exactly if it passes the check; otherwise all that is reported is
what the check finds.  No text makes the construction itself fail. -/
theorem compile_outcome (text : String) (options : CompileOptions) :
    ((∃ compiled, compile text options = .ok compiled) ↔ check text.toList = []) ∧
      (check text.toList ≠ [] →
        compile text options = .error (.rejected (check text.toList))) ∧
      ∀ cause, compile text options ≠ .error (.construction cause) := by
  by_cases hcheck : check text.toList = []
  · obtain ⟨e, htree⟩ := (derives_of_check_eq_nil hcheck).exists_parses
    obtain ⟨nfa, compiled, -, hcompiled, -⟩ := exists_compile hcheck htree options
    refine ⟨⟨fun _ => hcheck, fun _ => ⟨compiled, hcompiled⟩⟩, fun h => absurd hcheck h, ?_⟩
    intro cause
    rw [hcompiled]
    exact nofun
  · have hrejected := compile_of_check_ne_nil hcheck options
    refine ⟨⟨?_, fun h => absurd h hcheck⟩, fun _ => hrejected, ?_⟩
    · rintro ⟨compiled, hcompiled⟩
      rw [hrejected] at hcompiled
      cases hcompiled
    · intro cause
      rw [hrejected]
      exact nofun

end PatternAutomata
