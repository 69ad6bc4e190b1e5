import PatternAutomata.Proofs.Nfa.Growth
import PatternAutomata.Proofs.Pattern.Operands

/-!
# What comes of a postfix

The fragments that wait in an assembly are the operands that wait at a place of the postfix, and all
of them lie in the arena.  One token keeps this if it finds the operands that it takes, and fails
with its own name and place if it does not.  By induction along the postfix, an assembly fails at
the first token that misses an operand and nowhere else; what is left in the end decides whether
there is an automaton.
-/

namespace PatternAutomata.Nfa

open Postfix

theorem Grown.size_le {before after : Arena} {count : Nat} {added : Links}
    (h : Grown before after count added) : before.nodes.size ≤ after.nodes.size := by
  rw [h.size_eq]
  exact Nat.le_add_right _ count

namespace Assembly

variable {assembly : Assembly} {before tokens : Postfix} {token : Token}

/-- The fragments that wait lie in the arena. -/
def Within (assembly : Assembly) : Prop :=
  ∀ fragment ∈ assembly.fragments, fragment.Within assembly.arena

theorem within_cons {arena grown : Arena} {fragment : Fragment} {rest : List Fragment}
    (hsize : arena.nodes.size ≤ grown.nodes.size) (hfragment : fragment.Within grown)
    (hrest : ∀ other ∈ rest, other.Within arena) : Within ⟨grown, fragment :: rest⟩ := by
  intro other hother
  rcases List.mem_cons.mp hother with rfl | hother
  · exact hfragment
  · exact (hrest other hother).mono hsize

/-- A fragment of two new states takes the place of those that were taken off. -/
theorem within_next {arena grown : Arena} {added : Links} {rest : List Fragment}
    (hgrown : Grown arena grown 2 added) (hrest : ∀ other ∈ rest, other.Within arena) :
    Within ⟨grown, .next arena :: rest⟩ :=
  within_cons hgrown.size_le (Fragment.next_fresh hgrown.size_eq).within hrest

/-! ### One token -/

theorem exists_add_repeat {arena : Arena} {inner : Fragment} {rest : List Fragment}
    {skip again : Bool} (htoken : repeats? token = some (skip, again))
    (h : Within ⟨arena, inner :: rest⟩) (position : Nat) :
    ∃ next, add ⟨arena, inner :: rest⟩ position token = .ok next ∧ next.Within ∧
      next.fragments.length = rest.length + 1 := by
  obtain ⟨hinner, hrest⟩ := List.forall_mem_cons.mp h
  obtain ⟨next, hadd, hgrown⟩ := @add_repeat arena rest inner hinner position token _ _ htoken
  exact ⟨_, hadd, within_next hgrown hrest, rfl⟩

/-- A token that finds its operands takes them off and puts one fragment there. -/
theorem exists_add (h : assembly.Within) (htoken : token.arity ≤ assembly.fragments.length)
    (position : Nat) :
    ∃ next, assembly.add position token = .ok next ∧ next.Within ∧
      next.fragments.length = assembly.fragments.length - token.arity + 1 := by
  obtain ⟨arena, fragments⟩ := assembly
  cases token with
  | symbol c =>
    obtain ⟨next, hadd, hgrown⟩ := @add_symbol arena fragments position c
    exact ⟨_, hadd, within_next hgrown h, rfl⟩
  | star | plus | optional =>
    cases fragments with
    | nil => cases htoken
    | cons inner rest => exact exists_add_repeat rfl h position
  | concat =>
    match fragments with
    | [] | [_] => simp [Token.arity] at htoken
    | right :: left :: rest =>
      obtain ⟨hright, hleft, hrest⟩ := by
        simpa only [Within, List.forall_mem_cons] using h
      obtain ⟨next, hadd, hgrown⟩ := @add_concat arena rest left right hleft hright position
      have hjoined : Fragment.Within ⟨left.start, right.accept⟩ next :=
        ⟨(hleft.mono hgrown.size_le).start_lt, (hright.mono hgrown.size_le).accept_lt⟩
      exact ⟨_, hadd, within_cons hgrown.size_le hjoined hrest, rfl⟩
  | alternate =>
    match fragments with
    | [] | [_] => simp [Token.arity] at htoken
    | right :: left :: rest =>
      obtain ⟨hright, hleft, hrest⟩ := by
        simpa only [Within, List.forall_mem_cons] using h
      obtain ⟨next, hadd, hgrown⟩ := @add_alternate arena rest left right hleft hright position
      exact ⟨_, hadd, within_next hgrown hrest, rfl⟩

theorem add_of_missing (htoken : assembly.fragments.length < token.arity) (position : Nat) :
    assembly.add position token = .error (.operandUnderflow token.char position) := by
  obtain ⟨arena, fragments⟩ := assembly
  cases token with
  | symbol c => cases htoken
  | star | plus | optional =>
    cases fragments with
    | nil => rfl
    | cons inner rest => simp [Token.arity] at htoken
  | concat | alternate =>
    match fragments with
    | [] | [_] => rfl
    | right :: left :: rest =>
      simp only [Token.arity, List.length_cons] at htoken
      omega

/-! ### All tokens -/

theorem addAll_append (tokens more : Postfix) (assembly : Assembly) (position : Nat) :
    assembly.addAll position (tokens ++ more) =
      assembly.addAll position tokens >>= fun next =>
        next.addAll (position + tokens.length) more := by
  induction tokens generalizing assembly position with
  | nil => rfl
  | cons token tokens ih =>
    simp only [List.cons_append, addAll, bind_assoc, List.length_cons]
    refine congrArg _ (funext fun next => ?_)
    rw [ih, Nat.add_right_comm, Nat.add_assoc]

theorem addAll_concat (tokens : Postfix) (token : Token) (assembly : Assembly) (position : Nat) :
    assembly.addAll position (tokens ++ [token]) =
      assembly.addAll position tokens >>= fun next =>
        next.add (position + tokens.length) token := by
  rw [addAll_append]
  refine congrArg _ (funext fun next => ?_)
  simp only [addAll]
  exact bind_pure _

theorem exists_addAll (h : Supplied tokens) :
    ∃ assembly, addAll {} 0 tokens = .ok assembly ∧ assembly.Within ∧
      assembly.fragments.length = depth tokens := by
  induction tokens using List.reverseRecOn with
  | nil =>
    refine ⟨{}, rfl, ?_, rfl⟩
    intro fragment hfragment
    cases hfragment
  | append_singleton tokens token ih =>
    obtain ⟨hrest, htoken⟩ := supplied_concat.mp h
    obtain ⟨middle, hmiddle, hwithin, hlength⟩ := ih hrest
    rw [← hlength] at htoken
    obtain ⟨next, hnext, hwithin', hlength'⟩ :=
      exists_add hwithin htoken (0 + tokens.length)
    refine ⟨next, ?_, hwithin', ?_⟩
    · rw [addAll_concat, hmiddle]
      exact hnext
    · rw [hlength', hlength, depth_concat]

theorem addAll_of_missing (h : Supplied before) (htoken : depth before < token.arity)
    (after : Postfix) :
    addAll {} 0 (before ++ token :: after) =
      .error (.operandUnderflow token.char before.length) := by
  obtain ⟨middle, hmiddle, -, hlength⟩ := exists_addAll h
  rw [← hlength] at htoken
  have hadd := add_of_missing htoken (0 + before.length)
  rw [Nat.zero_add] at hadd
  simp only [addAll_append, hmiddle, addAll, Nat.zero_add, hadd, bind, Except.bind]

end Assembly

/-! ### The automaton -/

variable {before tokens : Postfix} {token : Token}

theorem ofPostfix_of_missing (h : Supplied before) (htoken : depth before < token.arity)
    (after : Postfix) :
    ofPostfix (before ++ token :: after) =
      .error (.operandUnderflow token.char before.length) := by
  rw [ofPostfix, Assembly.addAll_of_missing h htoken]
  rfl

theorem ofPostfix_nil : ofPostfix [] = .error .emptyPostfix := rfl

theorem ofPostfix_of_leftover (h : Supplied tokens) (hdepth : 1 < depth tokens) :
    ofPostfix tokens = .error (.leftoverOperands (depth tokens)) := by
  obtain ⟨⟨arena, fragments⟩, hassembly, -, hlength⟩ := Assembly.exists_addAll h
  rw [ofPostfix, hassembly, ← hlength]
  rw [← hlength] at hdepth
  match fragments with
  | [] | [_] => simp at hdepth
  | first :: second :: rest => rfl

theorem exists_ofPostfix (h : Supplied tokens) (hdepth : depth tokens = 1) :
    ∃ nfa, ofPostfix tokens = .ok nfa := by
  obtain ⟨⟨arena, fragments⟩, hassembly, hwithin, hlength⟩ := Assembly.exists_addAll h
  rw [ofPostfix, hassembly]
  obtain ⟨whole, rfl⟩ := List.length_eq_one_iff.mp (hlength.trans hdepth)
  have hwhole : whole.Within arena := hwithin whole (List.mem_singleton.mpr rfl)
  refine ⟨⟨arena.nodes, whole.start, whole.accept, arena.closed, hwhole.start_lt,
    hwhole.accept_lt⟩, ?_⟩
  show Assembly.finish ⟨arena, [whole]⟩ = _
  simp only [Assembly.finish, Arena.finish, dif_pos hwhole.start_lt, dif_pos hwhole.accept_lt]
  rfl

/-- Where there is an automaton, every token found its operands, and one operand was left. -/
theorem supplied_of_ofPostfix {nfa : Nfa} (h : ofPostfix tokens = .ok nfa) :
    Supplied tokens ∧ depth tokens = 1 := by
  rcases supplied_or_exists_first tokens with hsupplied | ⟨before, token, after, rfl, hbefore, htoken⟩
  · refine ⟨hsupplied, ?_⟩
    rcases Nat.lt_trichotomy (depth tokens) 1 with hdepth | hdepth | hdepth
    · by_cases hnil : tokens = []
      · subst hnil
        cases h
      · exact absurd (depth_pos hnil) (by omega)
    · exact hdepth
    · rw [ofPostfix_of_leftover hsupplied hdepth] at h
      cases h
  · rw [ofPostfix_of_missing hbefore htoken] at h
    cases h

end PatternAutomata.Nfa
