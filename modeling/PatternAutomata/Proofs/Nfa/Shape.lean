import PatternAutomata.Proofs.Nfa.Accounts

/-!
# The shape of the automaton of a postfix

The tokens account for the states and the edges of the automaton.  An end of a fragment is left only
by the edges of the operator that takes the fragment, so no state gets more than two edges, and both
ends of every operand are joined to those of the whole: all states lie between the start and the
accepting state.
-/

namespace PatternAutomata.Nfa

open Assembly

variable {e : Expr} {before middle after : Arena} {fragment inner left right outer : Fragment}
  {new : List (StateId × StateId)} {bound count : Nat} {tokens : Postfix} {p q : StateId}

/-! ### The edges out of one state -/

/-- One edge that reads a symbol leaves the state, or at most two that read nothing. -/
inductive Branches (links : Links) (p : StateId) : Prop where
  | move (c : Char) (target : StateId)
    (h : ∀ label q, links p label q ↔ label = .symbol c ∧ q = target)
  | epsilon (targets : List StateId) (hlength : targets.length ≤ 2)
    (h : ∀ label q, links p label q ↔ label = .epsilon ∧ q ∈ targets)

namespace Branches

variable {links other : Links}

theorem congr (h : Branches links p) (heq : ∀ label q, other p label q ↔ links p label q) :
    Branches other p := by
  cases h with
  | move c target h => exact .move c target fun label q => (heq label q).trans (h label q)
  | epsilon targets hlength h =>
    exact .epsilon targets hlength fun label q => (heq label q).trans (h label q)

theorem of_final (h : ∀ label q, ¬ links p label q) : Branches links p := by
  refine .epsilon [] (Nat.zero_le 2) fun label q => ?_
  constructor
  · intro hedge
    exact absurd hedge (h label q)
  · rintro ⟨-, hq⟩
    cases hq

/-- A bare state gets the edges that are attached to it; every other state keeps its own. -/
theorem grow (hnew : Attaches new bound middle)
    (hgrown : Grown middle after count (epsilonLinks new))
    (h : ∀ p, bound ≤ p → p < middle.nodes.size → Branches (Nfa.links middle.nodes) p) {p : StateId}
    (hp : bound ≤ p) : Branches (Nfa.links after.nodes) p := by
  by_cases hsource : ∃ q, (p, q) ∈ new
  · -- no edge has left the state before, so it has the new ones and no others
    obtain ⟨r, hr⟩ := hsource
    refine .epsilon ((new.filter fun ends => ends.1 = p).map Prod.snd) ?_ fun label q => ?_
    · rw [List.length_map, ← List.countP_eq_length_filter]
      exact hnew.countP_le p
    · rw [hgrown.links_iff, or_iff_right ((hnew.bare _ hr).final label q)]
      simp [epsilonLinks]
  · have hkept : ∀ label q, Nfa.links after.nodes p label q ↔ Nfa.links middle.nodes p label q := by
      intro label q
      rw [hgrown.links_iff]
      exact or_iff_left fun hedge => hsource ⟨q, hedge.2⟩
    by_cases hlt : p < middle.nodes.size
    · exact (h p hp hlt).congr hkept
    · exact of_final fun label q hedge => hlt (lt_of_links ((hkept label q).mp hedge))

theorem append (h : ∀ p, bound ≤ p → p < middle.nodes.size → Branches (Nfa.links middle.nodes) p)
    (h' : ∀ p, middle.nodes.size ≤ p → p < after.nodes.size → Branches (Nfa.links after.nodes) p)
    (hextends : Extends middle after) :
    ∀ p, bound ≤ p → p < after.nodes.size → Branches (Nfa.links after.nodes) p := by
  intro p hp hlt
  by_cases hold : p < middle.nodes.size
  · exact (h p hp hold).congr (hextends.frame p hold)
  · exact h' p (Nat.not_lt.mp hold) hlt

end Branches

theorem Assembles.branches (h : Assembles e before after fragment) :
    ∀ p, before.nodes.size ≤ p → p < after.nodes.size → Branches (links after.nodes) p := by
  induction h with
  | @symbol c before after hgrown =>
    intro p hp _
    by_cases hstart : p = before.nodes.size
    · refine .move c (before.nodes.size + 1) fun label q => ?_
      constructor
      · intro hedge
        exact (hgrown.added_of_new hp hedge).2
      · rintro ⟨rfl, rfl⟩
        exact (hgrown.links_iff _ _ _).mpr (.inr ⟨hstart, rfl, rfl⟩)
    · exact .of_final fun label q hedge => hstart (hgrown.added_of_new hp hedge).1
  | repeated _ hinner hgrown ih =>
    intro p hp _
    exact Branches.grow (attaches_repeatEdges hinner.builds) hgrown ih hp
  | concat hleft hright hgrown ihleft ihright =>
    intro p hp _
    have hall := Branches.append ihleft ihright hright.builds.toExtends
    exact Branches.grow (attaches_concat hleft.builds hright.builds) hgrown hall hp
  | alternate hleft hright hgrown ihleft ihright =>
    intro p hp _
    have hall := Branches.append ihleft ihright hright.builds.toExtends
    exact Branches.grow (attaches_choiceEdges hleft.builds hright.builds) hgrown hall hp

/-! ### The ends of a fragment -/

theorem Assembles.start_ne_accept (h : Assembles e before after fragment) :
    fragment.start ≠ fragment.accept := by
  cases h with
  | symbol | repeated | alternate => exact (Nat.succ_ne_self _).symm
  | concat hleft hright =>
    exact Nat.ne_of_lt (Nat.lt_of_lt_of_le hleft.builds.within.start_lt hright.builds.accept_le)

/-- A new state is entered by new edges only. -/
theorem Grown.not_entered {added : Links} (hgrown : Grown middle after count added)
    (hadded : ∀ p label, ¬ added p label (Fragment.next middle).start) :
    ∀ p label, ¬ links after.nodes p label (Fragment.next middle).start := by
  intro p label hedge
  rcases (hgrown.links_iff _ _ _).mp hedge with hold | hnew
  · exact Nat.lt_irrefl _ (target_lt_of_links middle.closed hold)
  · exact hadded p label hnew

/-- No edge enters the start of a fragment. -/
theorem Assembles.not_entered (h : Assembles e before after fragment) :
    ∀ p label, ¬ links after.nodes p label fragment.start := by
  induction h with
  | symbol hgrown =>
    refine hgrown.not_entered ?_
    rintro p label ⟨-, -, hstart⟩
    exact Nat.succ_ne_self _ hstart.symm
  | @repeated _ _ _ _ _ middle _ inner _ hinner hgrown _ =>
    have hstart : middle.nodes.size ≠ inner.start := Nat.ne_of_gt hinner.builds.within.start_lt
    refine hgrown.not_entered ?_
    intro p label hedge
    simp [epsilonLinks, repeatEdges, Fragment.next, hstart] at hedge
  | @concat _ _ _ middle after _ left right hleft hright hgrown ihleft ihright =>
    have hstart : left.start < middle.nodes.size := hleft.builds.within.start_lt
    intro p label hedge
    rcases (hgrown.links_iff _ _ _).mp hedge with hold | hnew
    · by_cases hp : p < middle.nodes.size
      · exact ihleft p label ((hright.builds.frame p hp _ _).mp hold)
      · exact Nat.not_lt.mpr (hright.builds.apart p label _ (Nat.not_lt.mp hp) hold) hstart
    · -- the new edge enters the second operand, all of whose states are newer
      have heq : left.start = right.start := (Builds.epsilonLinks_singleton.mp hnew).2.2
      exact Nat.not_lt.mpr hright.builds.start_le (heq ▸ hstart)
  | @alternate _ _ _ _ after _ left right hleft hright hgrown _ _ =>
    have hstart : after.nodes.size ≠ left.start :=
      Nat.ne_of_gt (Nat.lt_of_lt_of_le hleft.builds.within.start_lt hright.builds.size_le)
    have hstart' : after.nodes.size ≠ right.start := Nat.ne_of_gt hright.builds.within.start_lt
    refine hgrown.not_entered ?_
    intro p label hedge
    simp [epsilonLinks, choiceEdges, Fragment.next, hstart, hstart'] at hedge

/-! ### Between the ends of a fragment -/

/-- Some path leads from the one state to the other. -/
def Joins (links : Links) (p q : StateId) : Prop :=
  ∃ word, Path links p word q

/-- A path leads from the start of the fragment to the state, and one from there to the end. -/
structure Between (links : Links) (fragment : Fragment) (p : StateId) : Prop where
  reached : Joins links fragment.start p
  reaching : Joins links p fragment.accept

section Between

variable {links : Links} {r : StateId}

theorem Joins.trans (h : Joins links p q) (h' : Joins links q r) : Joins links p r := by
  obtain ⟨word, hpath⟩ := h
  obtain ⟨word', hpath'⟩ := h'
  exact ⟨word ++ word', hpath.append hpath'⟩

theorem joins_of_links {label : Label} (h : links p label q) : Joins links p q :=
  ⟨label.word, .edge h⟩

theorem Between.joins_ends (h : Between links inner p) : Joins links inner.start inner.accept :=
  h.reached.trans h.reaching

theorem Between.around (h : Between links inner p) (hstart : Joins links outer.start inner.start)
    (haccept : Joins links inner.accept outer.accept) : Between links outer p :=
  ⟨hstart.trans h.reached, h.reaching.trans haccept⟩

theorem Between.mono (h : Between (Nfa.links middle.nodes) inner p)
    (hle : ∀ p label q, Nfa.links middle.nodes p label q → Nfa.links after.nodes p label q) :
    Between (Nfa.links after.nodes) inner p := by
  obtain ⟨⟨word, hreached⟩, ⟨word', hreaching⟩⟩ := h
  exact ⟨⟨word, hreached.mono hle⟩, ⟨word', hreaching.mono hle⟩⟩

/-- Of two new states that are joined, each is between them. -/
theorem between_next (h : Joins links (Fragment.next middle).start (Fragment.next middle).accept)
    (hp : middle.nodes.size ≤ p) (hlt : p < middle.nodes.size + 2) :
    Between links (.next middle) p := by
  rcases Nat.eq_or_lt_of_le hp with rfl | hle
  · exact ⟨⟨[], .nil _⟩, h⟩
  · obtain rfl := Nat.le_antisymm (Nat.le_of_lt_succ hlt) hle
    exact ⟨h, ⟨[], .nil _⟩⟩

end Between

theorem Grown.joins_of_mem (h : Grown middle after count (epsilonLinks new)) (hmem : (p, q) ∈ new) :
    Joins (links after.nodes) p q :=
  joins_of_links ((h.links_iff p .epsilon q).mpr (.inr ⟨rfl, hmem⟩))

/-- Of two fragments, one on top of the other, every state is between the ends of one. -/
theorem between_either
    (h : ∀ p, bound ≤ p → p < middle.nodes.size → Between (links middle.nodes) left p)
    (h' : ∀ p, middle.nodes.size ≤ p → p < after.nodes.size → Between (links after.nodes) right p)
    (hextends : Extends middle after) :
    ∀ p, bound ≤ p → p < after.nodes.size →
      Between (links after.nodes) left p ∨ Between (links after.nodes) right p := by
  intro p hp hlt
  by_cases hold : p < middle.nodes.size
  · exact .inl ((h p hp hold).mono hextends.links_mono)
  · exact .inr (h' p (Nat.not_lt.mp hold) hlt)

/-- Where the older states lie between two new ones, the new ones do so too. -/
theorem between_of_older {added : Links} (hgrown : Grown middle after 2 added)
    (hold : ∀ p, bound ≤ p → p < middle.nodes.size → Between (links after.nodes) (.next middle) p)
    (hq : bound ≤ q) (hlt : q < middle.nodes.size) :
    ∀ p, bound ≤ p → p < after.nodes.size → Between (links after.nodes) (.next middle) p := by
  have hends := (hold q hq hlt).joins_ends
  intro p hp hlt
  rw [hgrown.size_eq] at hlt
  by_cases hnew : p < middle.nodes.size
  · exact hold p hp hnew
  · exact between_next hends (Nat.not_lt.mp hnew) hlt

/-- All states of a fragment are between its ends. -/
theorem Assembles.between (h : Assembles e before after fragment) :
    ∀ p, before.nodes.size ≤ p → p < after.nodes.size → Between (links after.nodes) fragment p := by
  induction h with
  | symbol hgrown =>
    intro p hp hlt
    rw [hgrown.size_eq] at hlt
    exact between_next (joins_of_links ((hgrown.links_iff _ _ _).mpr (.inr ⟨rfl, rfl, rfl⟩))) hp hlt
  | repeated _ hinner hgrown ih =>
    refine between_of_older hgrown ?_ hinner.builds.start_le hinner.builds.within.start_lt
    intro p hp hlt
    exact ((ih p hp hlt).mono hgrown.links_mono).around
      (hgrown.joins_of_mem (by simp [repeatEdges])) (hgrown.joins_of_mem (by simp [repeatEdges]))
  | @concat _ _ before middle after last left right hleft hright hgrown ihleft ihright =>
    have hextends := hright.builds.toExtends
    have hends := (((ihleft left.start hleft.builds.start_le hleft.builds.within.start_lt).mono
      hextends.links_mono).mono hgrown.links_mono).joins_ends
    have hends' := ((ihright right.start hright.builds.start_le hright.builds.within.start_lt).mono
      hgrown.links_mono).joins_ends
    have hstep : Joins (links last.nodes) left.accept right.start :=
      hgrown.joins_of_mem (List.mem_singleton_self _)
    intro p hp hlt
    rw [hgrown.size_eq] at hlt
    -- out of the first operand the way leads on through the second, and the other way round
    rcases between_either ihleft ihright hextends p hp hlt with hp | hp
    · obtain ⟨hreached, hreaching⟩ := hp.mono hgrown.links_mono
      exact ⟨hreached, hreaching.trans (hstep.trans hends')⟩
    · obtain ⟨hreached, hreaching⟩ := hp.mono hgrown.links_mono
      exact ⟨hends.trans (hstep.trans hreached), hreaching⟩
  | alternate hleft hright hgrown ihleft ihright =>
    refine between_of_older hgrown ?_ (Nat.le_trans hleft.builds.size_le hright.builds.start_le)
      hright.builds.within.start_lt
    intro p hp hlt
    rcases between_either ihleft ihright hright.builds.toExtends p hp hlt with hp | hp
    · exact (hp.mono hgrown.links_mono).around
        (hgrown.joins_of_mem (by simp [choiceEdges])) (hgrown.joins_of_mem (by simp [choiceEdges]))
    · exact (hp.mono hgrown.links_mono).around
        (hgrown.joins_of_mem (by simp [choiceEdges])) (hgrown.joins_of_mem (by simp [choiceEdges]))

/-! ### Whole automata -/

/-- One symbol edge and nothing else, or at most two edges that read nothing. -/
def Node.Branches (node : Node) : Prop :=
  node.labeled.length = 1 ∧ node.epsilon = [] ∨ node.labeled = [] ∧ node.epsilon.length ≤ 2

/-- In a node that keeps no edge twice the kept edges are as many as the edges that are followed. -/
theorem Branches.node {nodes : Array Node} {node : Node} (h : Branches (links nodes) p)
    (hnode : nodes[p]? = some node) (htidy : node.Tidy) (hsimple : node.Simple) :
    node.Branches := by
  have hmoves : ∀ symbol q, (symbol, q) ∈ node.labeled ↔ links nodes p (.symbol symbol) q := by
    intro symbol q
    rw [htidy.mem_labeled_iff, links_iff_mem_along hnode]
    rfl
  have hepsilon : ∀ q, q ∈ node.epsilon ↔ links nodes p .epsilon q := by
    intro q
    rw [links_iff_mem_along hnode]
    rfl
  cases h with
  | move c target h =>
    refine .inl ⟨?_, ?_⟩
    · have hperm : node.labeled.Perm [(c, target)] := by
        refine (List.perm_ext_iff_of_nodup (Node.nodup_labeled htidy hsimple)
          (List.nodup_singleton _)).mpr ?_
        rintro ⟨symbol, q⟩
        rw [hmoves, h]
        simp
      exact hperm.length_eq
    · refine List.eq_nil_iff_forall_not_mem.mpr fun q hq => ?_
      obtain ⟨hlabel, -⟩ := (h .epsilon q).mp ((hepsilon q).mp hq)
      cases hlabel
  | epsilon targets hlength h =>
    refine .inr ⟨?_, ?_⟩
    · refine List.eq_nil_iff_forall_not_mem.mpr ?_
      rintro ⟨symbol, q⟩ hq
      obtain ⟨hlabel, -⟩ := (h _ q).mp ((hmoves symbol q).mp hq)
      cases hlabel
    · have hsubset : node.epsilon ⊆ targets := by
        intro q hq
        exact ((h .epsilon q).mp ((hepsilon q).mp hq)).2
      have hsubperm := List.subperm_of_subset hsimple.epsilon_nodup hsubset
      exact Nat.le_trans hsubperm.length_le hlength

/-- The shape of an automaton that is built from a postfix: the tokens account for its states and
for its edges, its ends are different and no edge enters the one or leaves the other, its states
have few edges, and they lie between its ends. -/
structure HasShapeOf (nfa : Nfa) (tokens : Postfix) : Prop where
  size_eq : nfa.size = tokens.stateCount
  symbols_perm : (nfa.edges.filterMap fun edge => edge.label.symbol?).Perm tokens.symbols
  epsilon_eq : nfa.edges.countP (fun edge => edge.label = .epsilon) = tokens.epsilonCount
  start_ne_accept : nfa.start ≠ nfa.accept
  not_entered : ∀ edge ∈ nfa.edges, edge.target ≠ nfa.start
  not_left : ∀ edge ∈ nfa.edges, edge.source ≠ nfa.accept
  branches : ∀ node ∈ nfa.nodes, node.Branches
  between : ∀ p < nfa.size, Between nfa.Leads ⟨nfa.start, nfa.accept⟩ p

theorem IsAutomatonOf.hasShapeOf {nfa : Nfa} (h : nfa.IsAutomatonOf e) (hsealed : nfa.Sealed) :
    nfa.HasShapeOf e.postfixOf := by
  obtain ⟨arena, hassembles, hnodes⟩ := h
  have hempty : Arena.empty.nodes.size = 0 := rfl
  have hleads : nfa.Leads = links arena.nodes := by rw [hsealed.leads_eq, hnodes]
  have hedges : ∀ edge ∈ nfa.edges, links arena.nodes edge.source edge.label edge.target := by
    intro edge hedge
    rw [← hleads]
    exact hedge
  obtain ⟨edges, hlists, haccounts⟩ := hassembles.counted
  have hperm : nfa.edges.Perm edges := by
    refine (List.perm_ext_iff_of_nodup hsealed.nodup_edges hlists.nodup).mpr ?_
    rintro ⟨p, label, q⟩
    rw [hlists.mem_iff, ← hleads]
    exact (and_iff_right (Nat.zero_le p)).symm
  constructor
  case size_eq => rw [size, hnodes, hassembles.size_eq, hempty, Nat.zero_add]
  case symbols_perm =>
    rw [← haccounts.symbols_eq]
    exact hperm.filterMap _
  case epsilon_eq => rw [hperm.countP_eq, haccounts.epsilon_eq]
  case start_ne_accept => exact hassembles.start_ne_accept
  case not_entered =>
    intro edge hedge htarget
    have hlinks := hedges edge hedge
    rw [htarget] at hlinks
    exact hassembles.not_entered edge.source edge.label hlinks
  case not_left =>
    intro edge hedge hsource
    have hlinks := hedges edge hedge
    rw [hsource] at hlinks
    exact hassembles.builds.final edge.label edge.target hlinks
  case branches =>
    intro node hnode
    obtain ⟨p, hp, rfl⟩ := Array.mem_iff_getElem.mp hnode
    have hbranches := hassembles.branches p (Nat.zero_le p) (hnodes ▸ hp)
    rw [← hnodes] at hbranches
    exact hbranches.node (Array.getElem?_eq_getElem hp) (hsealed.tidy _ hnode)
      (hsealed.simple _ hnode)
  case between =>
    intro p hp
    rw [hleads]
    rw [size, hnodes] at hp
    exact hassembles.between p (Nat.zero_le p) hp

/-- **The shape of the automaton of a postfix.**  Its states, its symbol edges and the edges that
read nothing are as many as the tokens account for, so no edge was there before it was added. -/
theorem ofPostfix_hasShapeOf {nfa : Nfa} (h : ofPostfix tokens = .ok nfa) :
    nfa.HasShapeOf tokens := by
  obtain ⟨e, rfl, hautomaton⟩ := exists_expr_of_ofPostfix h
  exact hautomaton.hasShapeOf (ofPostfix_sealed h)

/-- The shape of an automaton with each of the operators. -/
theorem ofPostfix_hasShapeOf_of_operators :
    ∃ nfa, ofPostfix [.symbol 'a', .star, .symbol 'a', .plus, .concat, .symbol '|', .optional,
        .alternate] = .ok nfa ∧
      nfa.HasShapeOf [.symbol 'a', .star, .symbol 'a', .plus, .concat, .symbol '|', .optional,
        .alternate] := by
  obtain ⟨nfa, hnfa, -⟩ := exists_isAutomatonOf
    (.alternate (.concat (.star (.symbol 'a')) (.plus (.symbol 'a'))) (.optional (.symbol '|')))
  exact ⟨nfa, hnfa, ofPostfix_hasShapeOf hnfa⟩

end PatternAutomata.Nfa
