import PatternAutomata.Proofs.Nfa.Edges
import PatternAutomata.Proofs.Nfa.Trees

/-!
# The edges that the tokens of a postfix account for

How many states and edges the tokens of a postfix add can be read off the tokens: no edge is ever
there before it is added.  For every operator adds its edges out of its own new state and out of the
ends of its operands, and no edge has left an end before.  So the edge list of the whole is those of
the parts, one after the other, with the new edges behind them.
-/

namespace PatternAutomata

/-! ### What the tokens account for -/

namespace Postfix

variable {tokens more : Postfix}

/-- Two states for every token but a concatenation. -/
def stateCount (tokens : Postfix) : Nat :=
  2 * tokens.countP (· ≠ .concat)

/-- Four edges for every star and every choice, three for every other repeat, and one for every
concatenation. -/
def epsilonCount (tokens : Postfix) : Nat :=
  4 * (tokens.count .star + tokens.count .alternate)
    + 3 * (tokens.count .plus + tokens.count .optional) + tokens.count .concat

@[simp] theorem stateCount_append :
    stateCount (tokens ++ more) = tokens.stateCount + more.stateCount := by
  simp only [stateCount, List.countP_append]
  omega

@[simp] theorem epsilonCount_append :
    epsilonCount (tokens ++ more) = tokens.epsilonCount + more.epsilonCount := by
  simp only [epsilonCount, List.count_append]
  omega

end Postfix

namespace Nfa

open Assembly

variable {e : Expr} {before middle after : Arena} {fragment inner left right outer : Fragment}
  {edges edges' : List Edge} {new : List (StateId × StateId)} {bound count : Nat}
  {tokens more : Postfix} {p q : StateId}

/-- The edge between two states that reads nothing. -/
def epsilonEdge (ends : StateId × StateId) : Edge :=
  ⟨ends.1, .epsilon, ends.2⟩

/-- The edges are as many as the tokens account for. -/
structure Accounts (tokens : Postfix) (edges : List Edge) : Prop where
  symbols_eq : edges.filterMap (fun edge => edge.label.symbol?) = tokens.symbols
  epsilon_eq : edges.countP (fun edge => edge.label = .epsilon) = tokens.epsilonCount

namespace Accounts

theorem append (h : Accounts tokens edges) (h' : Accounts more edges') :
    Accounts (tokens ++ more) (edges ++ edges') where
  symbols_eq := by
    rw [List.filterMap_append, h.symbols_eq, h'.symbols_eq, Postfix.symbols_append]
  epsilon_eq := by
    rw [List.countP_append, h.epsilon_eq, h'.epsilon_eq, Postfix.epsilonCount_append]

theorem symbol {c : Char} : Accounts [.symbol c] [⟨p, .symbol c, q⟩] where
  symbols_eq := rfl
  epsilon_eq := rfl

theorem operator {token : Token} (hsymbol : token.symbol? = none)
    (hlength : new.length = Postfix.epsilonCount [token]) :
    Accounts [token] (new.map epsilonEdge) where
  symbols_eq := by
    simp [epsilonEdge, Label.symbol?, Postfix.symbols, hsymbol]
  epsilon_eq := by
    rw [← hlength, List.countP_map]
    simp [epsilonEdge, Function.comp_def]

theorem repeatEdges {token : Token} {skip again : Bool}
    (h : repeats? token = some (skip, again)) :
    Accounts [token] ((Assembly.repeatEdges inner outer skip again).map epsilonEdge) := by
  cases token with
  | symbol | concat | alternate => cases h
  | star | plus | optional =>
    cases h
    exact .operator rfl rfl

end Accounts

/-! ### Edges out of states that had none -/

/-- A state from the bound on that no edge leaves. -/
structure Bare (arena : Arena) (bound : Nat) (p : StateId) : Prop where
  bound_le : bound ≤ p
  final : ∀ label q, ¬ links arena.nodes p label q

theorem bare_new (h : Extends before middle) :
    Bare middle before.nodes.size (Fragment.next middle).start where
  bound_le := h.size_le
  final _ _ hedge := Nat.lt_irrefl _ (lt_of_links hedge)

theorem Builds.bare_accept {L : Language Char} (h : Builds before middle inner L) :
    Bare middle before.nodes.size inner.accept :=
  ⟨h.accept_le, h.final⟩

theorem Bare.mono (h : Bare middle bound p) (hp : p < middle.nodes.size)
    (hextends : Extends middle after) : Bare after bound p where
  bound_le := h.bound_le
  final label q hedge := h.final label q ((hextends.frame p hp label q).mp hedge)

theorem Bare.le {lower : Nat} (h : Bare middle bound p) (hle : lower ≤ bound) :
    Bare middle lower p :=
  ⟨Nat.le_trans hle h.bound_le, h.final⟩

/-- The pairs are edges to be added out of bare states, at most two out of each. -/
structure Attaches (new : List (StateId × StateId)) (bound : Nat) (arena : Arena) : Prop where
  nodup : new.Nodup
  bare : ∀ ends ∈ new, Bare arena bound ends.1
  countP_le : ∀ p, new.countP (fun ends => ends.1 = p) ≤ 2

theorem attaches_repeatEdges {L : Language Char} {skip again : Bool}
    (h : Builds before middle inner L) :
    Attaches (repeatEdges inner (.next middle) skip again) before.nodes.size middle where
  nodup := by
    have hstart : inner.start ≠ middle.nodes.size + 1 :=
      Nat.ne_of_lt (Nat.lt_succ_of_lt h.within.start_lt)
    have haccept : middle.nodes.size ≠ inner.accept := (Nat.ne_of_lt h.within.accept_lt).symm
    cases skip <;> cases again <;> simp [repeatEdges, Fragment.next, hstart, haccept]
  bare := by
    have hnew := bare_new h.toExtends
    intro ends hends
    simp only [repeatEdges, List.mem_append, List.mem_singleton, List.mem_ite_nil_right] at hends
    rcases hends with ((rfl | ⟨-, rfl⟩) | ⟨-, rfl⟩) | rfl
    · exact hnew
    · exact hnew
    · exact h.bare_accept
    · exact h.bare_accept
  countP_le p := by
    -- the new start is not the end of the operand, which is older
    have haccept := h.within.accept_lt
    cases skip <;> cases again <;>
      simp [repeatEdges, Fragment.next, List.countP_cons] <;> grind

section Pair

variable {L L' : Language Char} (h : Builds before middle left L) (h' : Builds middle after right L')

include h h'

theorem attaches_concat :
    Attaches [(left.accept, right.start)] before.nodes.size after where
  nodup := List.nodup_singleton _
  bare := by
    intro ends hends
    obtain rfl := List.mem_singleton.mp hends
    exact h.bare_accept.mono h.within.accept_lt h'.toExtends
  countP_le p := Nat.le_trans List.countP_le_length (Nat.le_succ 1)

theorem attaches_choiceEdges :
    Attaches (choiceEdges left right (.next after)) before.nodes.size after where
  nodup := by
    have hstart : left.start ≠ right.start :=
      Nat.ne_of_lt (Nat.lt_of_lt_of_le h.within.start_lt h'.start_le)
    have haccept : left.accept ≠ right.accept :=
      Nat.ne_of_lt (Nat.lt_of_lt_of_le h.within.accept_lt h'.accept_le)
    have hleft : after.nodes.size ≠ left.accept :=
      Nat.ne_of_gt (Nat.lt_of_lt_of_le h.within.accept_lt h'.size_le)
    have hright : after.nodes.size ≠ right.accept := Nat.ne_of_gt h'.within.accept_lt
    simp [choiceEdges, Fragment.next, hstart, haccept, hleft, hright]
  bare := by
    have hnew := bare_new (h.toExtends.trans h'.toExtends)
    have hleft := h.bare_accept.mono h.within.accept_lt h'.toExtends
    have hright := h'.bare_accept.le h.size_le
    simp only [choiceEdges, List.forall_mem_cons]
    exact ⟨hnew, hnew, hleft, hright, List.forall_mem_nil _⟩
  countP_le p := by
    have hleft := Nat.lt_of_lt_of_le h.within.accept_lt h'.accept_le
    have hright := h'.within.accept_lt
    simp only [choiceEdges, Fragment.next, List.countP_cons, List.countP_nil, decide_eq_true_eq]
    grind

end Pair

/-! ### Edge lists -/

/-- The list has the edges out of the states from the bound on, each once. -/
structure Lists (arena : Arena) (bound : Nat) (edges : List Edge) : Prop where
  nodup : edges.Nodup
  mem_iff : ∀ p label q, ⟨p, label, q⟩ ∈ edges ↔ bound ≤ p ∧ links arena.nodes p label q

namespace Lists

theorem symbol {c : Char} (hgrown : Grown before after 2 fun p label q =>
      p = before.nodes.size ∧ label = .symbol c ∧ q = before.nodes.size + 1) :
    Lists after before.nodes.size [⟨before.nodes.size, .symbol c, before.nodes.size + 1⟩] where
  nodup := List.nodup_singleton _
  mem_iff p label q := by
    rw [List.mem_singleton, Edge.mk.injEq]
    constructor
    · rintro ⟨rfl, rfl, rfl⟩
      exact ⟨Nat.le_refl _, (hgrown.links_iff _ _ _).mpr (.inr ⟨rfl, rfl, rfl⟩)⟩
    · rintro ⟨hp, hedge⟩
      exact hgrown.added_of_new hp hedge

/-- Where an arena extends another one, the edges of the one come after those of the other. -/
theorem append (h : Lists middle bound edges) (h' : Lists after middle.nodes.size edges')
    (hextends : Extends middle after) (hbound : bound ≤ middle.nodes.size) :
    Lists after bound (edges ++ edges') where
  nodup := by
    refine h.nodup.append h'.nodup ?_
    rintro ⟨p, label, q⟩ hedge hedge'
    have hold := ((h.mem_iff p label q).mp hedge).2
    have hnew := ((h'.mem_iff p label q).mp hedge').1
    exact Nat.not_lt.mpr hnew (lt_of_links hold)
  mem_iff p label q := by
    rw [List.mem_append, h.mem_iff, h'.mem_iff]
    by_cases hp : p < middle.nodes.size
    · rw [hextends.frame p hp]
      exact or_iff_left fun hnew => Nat.not_lt.mpr hnew.1 hp
    · have hle := Nat.not_lt.mp hp
      constructor
      · rintro (⟨-, hold⟩ | ⟨-, hnew⟩)
        · exact absurd (lt_of_links hold) hp
        · exact ⟨Nat.le_trans hbound hle, hnew⟩
      · rintro ⟨-, hnew⟩
        exact .inr ⟨hle, hnew⟩

/-- Edges out of bare states are not there before they are added. -/
theorem grow (h : Lists middle bound edges) (hnew : Attaches new bound middle)
    (hgrown : Grown middle after count (epsilonLinks new)) :
    Lists after bound (edges ++ new.map epsilonEdge) where
  nodup := by
    refine h.nodup.append (hnew.nodup.map ?_) ?_
    · rintro ⟨p, q⟩ ⟨p', q'⟩ heq
      cases heq
      rfl
    · rintro edge hedge hmem
      obtain ⟨ends, hends, rfl⟩ := List.mem_map.mp hmem
      have hold := ((h.mem_iff _ _ _).mp hedge).2
      exact (hnew.bare ends hends).final _ _ hold
  mem_iff p label q := by
    have hmem : ⟨p, label, q⟩ ∈ new.map epsilonEdge ↔ epsilonLinks new p label q := by
      simp only [List.mem_map, epsilonEdge, Edge.mk.injEq, epsilonLinks]
      constructor
      · rintro ⟨ends, hends, rfl, rfl, rfl⟩
        exact ⟨rfl, hends⟩
      · rintro ⟨rfl, hends⟩
        exact ⟨(p, q), hends, rfl, rfl, rfl⟩
    rw [List.mem_append, h.mem_iff, hmem, hgrown.links_iff, and_or_left]
    refine or_congr_right ⟨fun hedge => ⟨?_, hedge⟩, fun hedge => hedge.2⟩
    exact (hnew.bare (p, q) hedge.2).bound_le

end Lists

/-! ### The fragments of trees -/

/-- The edges out of the states from the bound on are those that the tokens account for. -/
def Counted (arena : Arena) (bound : Nat) (tokens : Postfix) : Prop :=
  ∃ edges, Lists arena bound edges ∧ Accounts tokens edges

theorem Counted.append (h : Counted middle bound tokens)
    (h' : Counted after middle.nodes.size more) (hextends : Extends middle after)
    (hbound : bound ≤ middle.nodes.size) : Counted after bound (tokens ++ more) := by
  obtain ⟨edges, hlists, haccounts⟩ := h
  obtain ⟨edges', hlists', haccounts'⟩ := h'
  exact ⟨edges ++ edges', hlists.append hlists' hextends hbound, haccounts.append haccounts'⟩

theorem Counted.grow (h : Counted middle bound tokens) (hnew : Attaches new bound middle)
    (hgrown : Grown middle after count (epsilonLinks new))
    (hmore : Accounts more (new.map epsilonEdge)) : Counted after bound (tokens ++ more) := by
  obtain ⟨edges, hlists, haccounts⟩ := h
  exact ⟨edges ++ new.map epsilonEdge, hlists.grow hnew hgrown, haccounts.append hmore⟩

/-- The tokens of a tree account for the edges of its fragment. -/
theorem Assembles.counted (h : Assembles e before after fragment) :
    Counted after before.nodes.size e.postfixOf := by
  induction h with
  | symbol hgrown => exact ⟨_, .symbol hgrown, .symbol⟩
  | repeated hrepeats hinner hgrown ih =>
    obtain ⟨token, htoken, htokens⟩ := hrepeats.exists_token
    rw [htokens]
    exact ih.grow (attaches_repeatEdges hinner.builds) hgrown (.repeatEdges htoken)
  | concat hleft hright hgrown ihleft ihright =>
    have hoperands := ihleft.append ihright hright.builds.toExtends hleft.builds.size_le
    exact hoperands.grow (attaches_concat hleft.builds hright.builds) hgrown (.operator rfl rfl)
  | alternate hleft hright hgrown ihleft ihright =>
    have hoperands := ihleft.append ihright hright.builds.toExtends hleft.builds.size_le
    exact hoperands.grow (attaches_choiceEdges hleft.builds hright.builds) hgrown (.operator rfl rfl)

/-- The tokens of a tree account for the states of its fragment. -/
theorem Assembles.size_eq (h : Assembles e before after fragment) :
    after.nodes.size = before.nodes.size + e.postfixOf.stateCount := by
  induction h with
  | symbol hgrown => exact hgrown.size_eq
  | repeated hrepeats _ hgrown ih =>
    obtain ⟨token, htoken, htokens⟩ := hrepeats.exists_token
    have hcount : Postfix.stateCount [token] = 2 := by
      cases token with
      | symbol | concat | alternate => cases htoken
      | star | plus | optional => rfl
    simp only [hgrown.size_eq, ih, htokens, Postfix.stateCount_append, hcount]
    omega
  | concat _ _ hgrown ihleft ihright =>
    have hcount : Postfix.stateCount [.concat] = 0 := rfl
    simp only [hgrown.size_eq, ihright, ihleft, Expr.postfixOf, Postfix.stateCount_append, hcount]
    omega
  | alternate _ _ hgrown ihleft ihright =>
    have hcount : Postfix.stateCount [.alternate] = 2 := rfl
    simp only [hgrown.size_eq, ihright, ihleft, Expr.postfixOf, Postfix.stateCount_append, hcount]
    omega

end Nfa

end PatternAutomata
