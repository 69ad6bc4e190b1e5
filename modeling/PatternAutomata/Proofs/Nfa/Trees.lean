import PatternAutomata.Proofs.Nfa.Assembling
import PatternAutomata.Proofs.Nfa.Fragments
import PatternAutomata.Proofs.Nfa.Runs
import PatternAutomata.Proofs.Pattern.Postorder

/-!
# The automaton of a tree

A postfix from which an automaton is built is the postfix of a tree, and its tokens put the fragment
of the tree on top of the arena: first those of the operands, then the states and edges of the
operator.  This is said once, as a relation with one constructor for each kind of tree.  Whatever
holds of the automata of postfixes is proved by induction over it, the language first.
-/

namespace PatternAutomata

variable {e inner : Expr} {skip again : Bool} {tokens : Postfix} {nfa : Nfa}

/-- The tree repeats another one, which may be skipped, or read again. -/
inductive Expr.Repeats : Expr → Expr → Bool → Bool → Prop where
  | star (inner : Expr) : Repeats (.star inner) inner true true
  | plus (inner : Expr) : Repeats (.plus inner) inner false true
  | optional (inner : Expr) : Repeats (.optional inner) inner true false

theorem Expr.Repeats.language_eq (h : e.Repeats inner skip again) :
    e.language = repeated inner.language skip again := by
  cases h with
  | star => exact (Language.one_add_self_mul_kstar_eq_kstar _).symm
  | plus => exact (zero_add _).symm
  | optional => exact congrArg (1 + ·) (mul_one _).symm

theorem Expr.Repeats.exists_token (h : e.Repeats inner skip again) :
    ∃ token, Nfa.Assembly.repeats? token = some (skip, again) ∧
      e.postfixOf = inner.postfixOf ++ [token] := by
  cases h with
  | star => exact ⟨.star, rfl, rfl⟩
  | plus => exact ⟨.plus, rfl, rfl⟩
  | optional => exact ⟨.optional, rfl, rfl⟩

namespace Nfa

open Assembly

/-- The second arena is the first with the fragment of a tree on top of it. -/
inductive Assembles : Expr → Arena → Arena → Fragment → Prop where
  | symbol {c : Char} {before after : Arena}
    (hgrown : Grown before after 2 fun p label q =>
      p = before.nodes.size ∧ label = .symbol c ∧ q = before.nodes.size + 1) :
    Assembles (.symbol c) before after (.next before)
  | repeated {e operand : Expr} {skip again : Bool} {before middle after : Arena} {inner : Fragment}
    (hrepeats : e.Repeats operand skip again) (hinner : Assembles operand before middle inner)
    (hgrown : Grown middle after 2 (epsilonLinks (repeatEdges inner (.next middle) skip again))) :
    Assembles e before after (.next middle)
  | concat {l r : Expr} {before middle after last : Arena} {left right : Fragment}
    (hleft : Assembles l before middle left) (hright : Assembles r middle after right)
    (hgrown : Grown after last 0 (epsilonLinks [(left.accept, right.start)])) :
    Assembles (.concat l r) before last ⟨left.start, right.accept⟩
  | alternate {l r : Expr} {before middle after last : Arena} {left right : Fragment}
    (hleft : Assembles l before middle left) (hright : Assembles r middle after right)
    (hgrown : Grown after last 2 (epsilonLinks (choiceEdges left right (.next after)))) :
    Assembles (.alternate l r) before last (.next after)

/-- The fragment of a tree reads the language of the tree. -/
theorem Assembles.builds {before after : Arena} {fragment : Fragment}
    (h : Assembles e before after fragment) : Builds before after fragment e.language := by
  induction h with
  | symbol hgrown => exact .symbol (Fragment.next_fresh hgrown.size_eq) hgrown
  | repeated hrepeats _ hgrown ih =>
    rw [hrepeats.language_eq]
    exact ih.repeats (Fragment.next_fresh hgrown.size_eq) hgrown
  | concat _ _ hgrown ihleft ihright => exact ihleft.concat ihright hgrown
  | alternate _ _ hgrown ihleft ihright =>
    exact ihleft.choice ihright (Fragment.next_fresh hgrown.size_eq) hgrown

/-! ### The tokens of a tree -/

/-- The tokens of the tree put its fragment on top of any arena, before the fragments that wait. -/
def Places (e : Expr) : Prop :=
  ∀ (arena : Arena) (fragments : List Fragment) (position : Nat), ∃ next fragment,
    addAll ⟨arena, fragments⟩ position e.postfixOf = .ok ⟨next, fragment :: fragments⟩ ∧
      Assembles e arena next fragment

theorem Places.repeated (h : Places inner) (hrepeats : e.Repeats inner skip again) : Places e := by
  intro arena fragments position
  obtain ⟨middle, fragment, hadd, hinner⟩ := h arena fragments position
  obtain ⟨token, htoken, htokens⟩ := hrepeats.exists_token
  obtain ⟨next, hnext, hgrown⟩ := @add_repeat middle fragments fragment hinner.builds.within
    (position + inner.postfixOf.length) token skip again htoken
  refine ⟨next, .next middle, ?_, .repeated hrepeats hinner hgrown⟩
  rw [htokens, addAll_concat, hadd]
  exact hnext

/-- The tokens of two trees put their fragments there, one on top of the other. -/
theorem Places.both {l r : Expr} (hl : Places l) (hr : Places r) (arena : Arena)
    (fragments : List Fragment) (position : Nat) :
    ∃ middle after left right, addAll ⟨arena, fragments⟩ position (l.postfixOf ++ r.postfixOf) =
        .ok ⟨after, right :: left :: fragments⟩ ∧
      Assembles l arena middle left ∧ Assembles r middle after right := by
  obtain ⟨middle, left, hadd, hleft⟩ := hl arena fragments position
  obtain ⟨after, right, hadd', hright⟩ := hr middle (left :: fragments)
    (position + l.postfixOf.length)
  refine ⟨middle, after, left, right, ?_, hleft, hright⟩
  rw [addAll_append, hadd]
  exact hadd'

theorem places (e : Expr) : Places e := by
  induction e with
  | symbol c =>
    intro arena fragments position
    obtain ⟨next, hnext, hgrown⟩ := @add_symbol arena fragments position c
    refine ⟨next, .next arena, ?_, .symbol hgrown⟩
    rw [Expr.postfixOf, addAll, hnext]
    rfl
  | star inner ih => exact ih.repeated (.star inner)
  | plus inner ih => exact ih.repeated (.plus inner)
  | optional inner ih => exact ih.repeated (.optional inner)
  | concat l r ihl ihr =>
    intro arena fragments position
    obtain ⟨middle, after, left, right, hadd, hleft, hright⟩ := ihl.both ihr arena fragments position
    have hwithin := hleft.builds.within.mono hright.builds.size_le
    obtain ⟨next, hnext, hgrown⟩ := @add_concat after fragments left right hwithin
      hright.builds.within (position + (l.postfixOf ++ r.postfixOf).length)
    refine ⟨next, ⟨left.start, right.accept⟩, ?_, .concat hleft hright hgrown⟩
    rw [Expr.postfixOf, addAll_concat, hadd]
    exact hnext
  | alternate l r ihl ihr =>
    intro arena fragments position
    obtain ⟨middle, after, left, right, hadd, hleft, hright⟩ := ihl.both ihr arena fragments position
    have hwithin := hleft.builds.within.mono hright.builds.size_le
    obtain ⟨next, hnext, hgrown⟩ := @add_alternate after fragments left right hwithin
      hright.builds.within (position + (l.postfixOf ++ r.postfixOf).length)
    refine ⟨next, .next after, ?_, .alternate hleft hright hgrown⟩
    rw [Expr.postfixOf, addAll_concat, hadd]
    exact hnext

/-! ### Whole automata -/

/-- The automaton closes the arena that has the fragment of the tree and nothing else. -/
def IsAutomatonOf (nfa : Nfa) (e : Expr) : Prop :=
  ∃ arena, Assembles e .empty arena ⟨nfa.start, nfa.accept⟩ ∧ nfa.nodes = arena.nodes

theorem IsAutomatonOf.language_eq (h : nfa.IsAutomatonOf e) : nfa.language = e.language := by
  obtain ⟨arena, hassembles, hnodes⟩ := h
  refine Language.ext fun word => ?_
  rw [← hassembles.builds.reads word, ← hnodes]
  rfl

/-- An automaton is built from the postfix of every tree. -/
theorem exists_isAutomatonOf (e : Expr) :
    ∃ nfa, ofPostfix e.postfixOf = .ok nfa ∧ nfa.IsAutomatonOf e := by
  obtain ⟨next, fragment, hadd, hassembles⟩ := places e .empty [] 0
  have hwithin := hassembles.builds.within
  refine ⟨⟨next.nodes, fragment.start, fragment.accept, next.closed, hwithin.start_lt,
    hwithin.accept_lt⟩, ?_, next, hassembles, rfl⟩
  have hassembly : ofPostfix e.postfixOf = Assembly.finish ⟨next, [fragment]⟩ :=
    congrArg (· >>= Assembly.finish) hadd
  rw [hassembly]
  simp only [Assembly.finish, Arena.finish, dif_pos hwithin.start_lt, dif_pos hwithin.accept_lt]
  rfl

theorem ofPostfix_postfixOf (e : Expr) :
    ∃ nfa, ofPostfix e.postfixOf = .ok nfa ∧ nfa.language = e.language := by
  obtain ⟨nfa, hnfa, hautomaton⟩ := exists_isAutomatonOf e
  exact ⟨nfa, hnfa, hautomaton.language_eq⟩

/-- Every automaton that is built from a postfix is that of a tree. -/
theorem exists_expr_of_ofPostfix (h : ofPostfix tokens = .ok nfa) :
    ∃ e : Expr, e.postfixOf = tokens ∧ nfa.IsAutomatonOf e := by
  obtain ⟨hsupplied, hdepth⟩ := supplied_of_ofPostfix h
  obtain ⟨e, rfl⟩ := Expr.exists_postfixOf_eq hsupplied hdepth
  obtain ⟨other, hother, hautomaton⟩ := exists_isAutomatonOf e
  -- the tokens determine the automaton, so that of the tree is the given one
  rw [h] at hother
  cases hother
  exact ⟨e, rfl, hautomaton⟩

/-- **The automaton of a postfix.**  Whatever tokens an automaton is built from, they are the postfix
of one tree, and a run of the automaton accepts exactly the words that the tree stands for. -/
theorem ofPostfix_accepts_language (h : ofPostfix tokens = .ok nfa) :
    ∃ e : Expr, e.postfixOf = tokens ∧ (∀ e' : Expr, e'.postfixOf = tokens → e' = e) ∧
      ∀ input, Decides (nfa.accepts input) (input ∈ e.language) := by
  obtain ⟨e, htokens, hautomaton⟩ := exists_expr_of_ofPostfix h
  refine ⟨e, htokens, ?_, ?_⟩
  · intro e' htokens'
    exact Expr.postfixOf_injective (htokens'.trans htokens.symm)
  · intro input
    rw [← hautomaton.language_eq]
    exact nfa.accepts_decides input

/-- The symbols of a postfix need not be symbols of patterns. -/
theorem ofPostfix_accepts_language_of_signs :
    ∃ nfa, ofPostfix [.symbol '(', .symbol '*', .alternate, .plus] = .ok nfa ∧
      ∃ e : Expr, e.postfixOf = [.symbol '(', .symbol '*', .alternate, .plus] ∧
        (∀ e' : Expr, e'.postfixOf = [.symbol '(', .symbol '*', .alternate, .plus] → e' = e) ∧
        ∀ input, Decides (nfa.accepts input) (input ∈ e.language) := by
  obtain ⟨nfa, hnfa, -⟩ := exists_isAutomatonOf (.plus (.alternate (.symbol '(') (.symbol '*')))
  exact ⟨nfa, hnfa, ofPostfix_accepts_language hnfa⟩

end Nfa

end PatternAutomata
